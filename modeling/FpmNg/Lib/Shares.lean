/-
A shared total that is accounted for party by party: each party has a share, and
one party moves at a time.
-/
import Mathlib.Algebra.Order.BigOperators.Group.Finset

open Function

namespace Shares

variable {ι π : Type*} [Fintype ι]

def total (share : π → ℕ) (parties : ι → π) : ℕ := ∑ i, share (parties i)

lemma share_le_total (share : π → ℕ) (parties : ι → π) (i : ι) :
    share (parties i) ≤ total share parties :=
  Finset.single_le_sum (f := fun j => share (parties j)) (fun _ _ => Nat.zero_le _)
    (Finset.mem_univ i)

lemma total_update [DecidableEq ι] (share : π → ℕ) (parties : ι → π) (i : ι) (p : π) :
    total share (update parties i p) + share (parties i)
      = total share parties + share p := by
  have hsplit : ∀ q : ι → π, total share q
      = share (q i) + ∑ j ∈ Finset.univ.erase i, share (q j) :=
    fun q => (Finset.add_sum_erase Finset.univ (fun j => share (q j)) (Finset.mem_univ i)).symm
  have hrest : ∑ j ∈ Finset.univ.erase i, share (update parties i p j)
      = ∑ j ∈ Finset.univ.erase i, share (parties j) := by
    refine Finset.sum_congr rfl ?_
    intro j hj
    rw [update_of_ne (Finset.ne_of_mem_erase hj)]
  rw [hsplit (update parties i p), hsplit parties, hrest, update_self]
  omega

lemma total_le_total {a b : π → ℕ} {parties : ι → π}
    (h : ∀ i, a (parties i) ≤ b (parties i)) : total a parties ≤ total b parties :=
  Finset.sum_le_sum fun i _ => h i

lemma total_congr {a b : π → ℕ} {parties : ι → π}
    (h : ∀ i, a (parties i) = b (parties i)) : total a parties = total b parties :=
  Finset.sum_congr rfl fun i _ => h i

end Shares
