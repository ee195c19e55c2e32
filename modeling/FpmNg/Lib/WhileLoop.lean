/-
The `while` loop of an imperative program as a total function, with the two rules
the proofs above use: one unfolding and one invariant rule.

A loop body is a function that either goes round again or leaves. `loop`
bounds the number of passes by a measure of the start state, so it computes by
structural recursion and `decide` can run it; `loop_unfold` is what makes the
bound invisible. It says the bounded loop satisfies the equation of the
unbounded one whenever the measure decreases, which is also the statement that
the source loop terminates.
-/
import Mathlib.Order.Basic
import Mathlib.Tactic.Common

namespace WhileLoop

universe u

variable {σ : Type u}

inductive Pass (σ : Type u) where
  | again (s : σ)
  | leave (s : σ)

namespace Pass

def state : Pass σ → σ
  | .again s => s
  | .leave s => s

end Pass

/-- At most `n` passes. -/
def iter (body : σ → Pass σ) : ℕ → σ → σ
  | 0, s => s
  | n + 1, s =>
    match body s with
    | .again s' => iter body n s'
    | .leave s' => s'

def loop (μ : σ → ℕ) (body : σ → Pass σ) (s : σ) : σ :=
  iter body (μ s + 1) s

/-- The measure decreases on every pass that goes round again, from a state
satisfying `I`, and `I` is kept. -/
structure Decreases (μ : σ → ℕ) (body : σ → Pass σ) (I : σ → Prop) : Prop where
  keep : ∀ s s', I s → body s = .again s' → I s'
  drop : ∀ s s', I s → body s = .again s' → μ s' < μ s

variable {body : σ → Pass σ} {μ : σ → ℕ} {I : σ → Prop}

lemma iter_eq_of_le (h : Decreases μ body I) (n m : ℕ) (s : σ) (hI : I s) (hn : μ s < n)
    (hm : μ s < m) :
    iter body n s = iter body m s := by
  induction n generalizing m s with
  | zero => omega
  | succ n ih =>
    obtain ⟨m, rfl⟩ : ∃ k, m = k + 1 := ⟨m - 1, by omega⟩
    simp only [iter]
    cases hb : body s with
    | leave s' => rfl
    | again s' =>
      have hlt := h.drop s s' hI hb
      exact ih m s' (h.keep s s' hI hb) (by omega) (by omega)

theorem loop_unfold (h : Decreases μ body I) (s : σ) (hI : I s) :
    loop μ body s = match body s with
      | .again s' => loop μ body s'
      | .leave s' => s' := by
  conv_lhs => rw [loop, iter]
  cases hb : body s with
  | leave s' => rfl
  | again s' =>
    have hlt := h.drop s s' hI hb
    exact iter_eq_of_le h _ _ s' (h.keep s s' hI hb) (by omega) (by omega)

/-- **Invariant rule.** What every pass keeps and every exit turns into `Q`
holds of the loop's result. -/
theorem loop_rule {I Q : σ → Prop} (h : Decreases μ body I)
    (hexit : ∀ s s', I s → body s = .leave s' → Q s') (s : σ) (hI : I s) : Q (loop μ body s) := by
  induction hn : μ s using Nat.strongRecOn generalizing s with
  | ind n ih =>
    rw [loop_unfold h s hI]
    cases hb : body s with
    | leave s' => exact hexit s s' hI hb
    | again s' =>
      have hlt := h.drop s s' hI hb
      exact ih (μ s') (by omega) s' (h.keep s s' hI hb) rfl

end WhileLoop
