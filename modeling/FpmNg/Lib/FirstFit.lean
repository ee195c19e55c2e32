/-
Searching upwards for a position that nothing placed so far is in the way of.

A sweep goes through what is placed; whatever is in the way moves the position
behind it, and the sweep goes on from there. Sweeps are repeated until one moves
nothing.
-/
import FpmNg.Lib.WhileLoop
import Mathlib.Data.List.Induction

open WhileLoop List

namespace FirstFit

variable {α : Type*} (hit : ℕ → α → Bool) (next : α → ℕ)

/-- One sweep from `base`: where it ends, and whether anything moved it. -/
def sweep (placed : List α) (base : ℕ) : ℕ × Bool :=
  placed.foldl (fun s r => if hit s.1 r then (next r, true) else s) (base, false)

def pass (placed : List α) (base : ℕ) : Pass ℕ :=
  let s := sweep hit next placed base
  if s.2 then .again s.1 else .leave s.1

/-- The first position, from 0 and below `bound`, that a sweep leaves alone. -/
def search (bound : ℕ) (placed : List α) : ℕ :=
  loop (fun base => bound - base) (pass hit next placed) 0

variable {hit next}

/-- Up to `top`, what is in the way moves the position up, and not above `top`. -/
def Clears (hit : ℕ → α → Bool) (next : α → ℕ) (placed : List α) (top : ℕ) : Prop :=
  ∀ r ∈ placed, ∀ base ≤ top, hit base r = true → base < next r ∧ next r ≤ top

lemma sweep_spec {placed : List α} {top base : ℕ} (h : Clears hit next placed top)
    (hbase : base ≤ top) :
    (sweep hit next placed base).1 ≤ top ∧
      ((sweep hit next placed base).2 = true → base < (sweep hit next placed base).1) ∧
      ((sweep hit next placed base).2 = false →
        (sweep hit next placed base).1 = base ∧ ∀ r ∈ placed, hit base r = false) := by
  unfold sweep
  induction placed using reverseRecOn with
  | nil => simp [hbase]
  | append_singleton placed r ih =>
    have hfront : Clears hit next placed top := fun s hs => h s (mem_append_left _ hs)
    obtain ⟨htop, hmoved, hstill⟩ := ih hfront
    rw [foldl_append, foldl_cons, foldl_nil]
    generalize placed.foldl (fun s r => if hit s.1 r then (next r, true) else s) (base, false) = s
      at htop hmoved hstill ⊢
    obtain ⟨at_, moved⟩ := s
    cases hr : hit at_ r with
    | true =>
      obtain ⟨hup, hle⟩ := h r (by simp) at_ htop hr
      have hge : base ≤ at_ := by
        cases moved with
        | true => exact Nat.le_of_lt (hmoved rfl)
        | false => exact Nat.le_of_eq (hstill rfl).1.symm
      simp only [if_true]
      exact ⟨hle, fun _ => by omega, nofun⟩
    | false =>
      simp only [Bool.false_eq_true, if_false]
      refine ⟨htop, hmoved, fun hfalse => ?_⟩
      obtain ⟨heq, hnone⟩ := hstill hfalse
      refine ⟨heq, fun s hs => ?_⟩
      rcases mem_append.mp hs with hs | hs
      · exact hnone s hs
      · rw [mem_singleton.mp hs, ← heq]
        exact hr

theorem search_spec {placed : List α} {top : ℕ} (bound : ℕ) (h : Clears hit next placed top)
    (hbound : top < bound) :
    search hit next bound placed ≤ top ∧
      ∀ r ∈ placed, hit (search hit next bound placed) r = false := by
  have hdec : Decreases (fun base => bound - base) (pass hit next placed) (fun base => base ≤ top) := by
    constructor <;>
      · intro base base' hbase hagain
        obtain ⟨htop, hmoved, _⟩ := sweep_spec h hbase
        unfold pass at hagain
        dsimp only at hagain
        split at hagain
        · rename_i hm
          have := hmoved hm
          rw [← Pass.again.inj hagain]
          omega
        · simp at hagain
  refine loop_rule (Q := fun base => base ≤ top ∧ ∀ r ∈ placed, hit base r = false) hdec ?_ 0
    (Nat.zero_le _)
  intro base base' hbase hleave
  obtain ⟨htop, _, hstill⟩ := sweep_spec h hbase
  unfold pass at hleave
  dsimp only at hleave
  split at hleave
  · simp at hleave
  · rename_i hm
    obtain ⟨heq, hnone⟩ := hstill (Bool.eq_false_iff.mpr hm)
    rw [← Pass.leave.inj hleave, heq]
    exact ⟨hbase, hnone⟩

end FirstFit
