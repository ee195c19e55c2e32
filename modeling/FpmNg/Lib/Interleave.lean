/-
Processes that share memory and take their steps one at a time.

A process is where it stands in its program (`π`), the shared memory is `σ`, and
a name (`ι`) may stand for no process at all: one that was never started, has
exited or was killed. A proof about every interleaving needs two things of an
assertion: what it says about the shared memory, and what each process may
assume where it stands. The second half has to survive the steps of everybody
else, which is the side condition of `Holds.put`.
-/
import Mathlib.Tactic.Common

open Function

namespace Interleave

variable {σ ι π : Type*} [DecidableEq ι]

structure World (σ ι π : Type*) where
  shared : σ
  procs : ι → Option π

namespace World

/-- The process `i` moved: the shared memory is now `s`, and `i` stands at `p`. -/
def put (w : World σ ι π) (i : ι) (s : σ) (p : Option π) : World σ ι π where
  shared := s
  procs := update w.procs i p

variable (w : World σ ι π)

@[simp] lemma put_shared (i : ι) (s : σ) (p : Option π) :
    (w.put i s p).shared = s := rfl

@[simp] lemma put_procs_self (i : ι) (s : σ) (p : Option π) :
    (w.put i s p).procs i = p := update_self ..

lemma put_procs_other {i j : ι} (s : σ) (p : Option π) (h : j ≠ i) :
    (w.put i s p).procs j = w.procs j := update_of_ne h ..

lemma put_put (i : ι) (s s' : σ) (p p' : Option π) :
    (w.put i s p).put i s' p' = w.put i s' p' := by
  unfold put
  rw [update_idem]

lemma put_eq_self (i : ι) {p : Option π} (h : w.procs i = p) :
    w.put i w.shared p = w := by
  unfold put
  rw [← h, update_eq_self]

end World

/-- `G` of the shared memory, and `L` of every process where it stands. -/
structure Holds (G : σ → Prop) (L : σ → ι → π → Prop) (w : World σ ι π) : Prop where
  shared : G w.shared
  here : ∀ i p, w.procs i = some p → L w.shared i p

/-- **Interference freedom.** A move of `i` keeps an assertion if it establishes
the shared half and its own, and leaves alone what the others assume. -/
theorem Holds.put {G : σ → Prop} {L : σ → ι → π → Prop} {w : World σ ι π} (h : Holds G L w)
    {i : ι} {s : σ} {p : Option π} (hshared : G s) (hown : ∀ q, p = some q → L s i q)
    (hothers : ∀ j q, j ≠ i → w.procs j = some q → L w.shared j q → L s j q) :
    Holds G L (w.put i s p) where
  shared := hshared
  here := by
    intro j q hj
    by_cases hij : j = i
    · subst hij
      rw [World.put_procs_self] at hj
      exact hown q hj
    · rw [World.put_procs_other w s p hij] at hj
      exact hothers j q hij hj (h.here j q hj)

end Interleave
