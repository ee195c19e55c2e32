/-
Runs of a machine that takes one event after another, and the rule that carries
an invariant from one step to a whole run.
-/
import Mathlib.Data.List.Basic

open Option List

namespace Runs

variable {σ ε : Type*}

def run (step : σ → ε → σ) (s : σ) (events : List ε) : σ := events.foldl step s

@[simp] lemma run_nil (step : σ → ε → σ) (s : σ) : run step s [] = s := rfl

@[simp] lemma run_cons (step : σ → ε → σ) (s : σ) (e : ε) (events : List ε) :
    run step s (e :: events) = run step (step s e) events := rfl

variable {I : σ → Prop}

lemma run_invariant {step : σ → ε → σ} (hstep : ∀ s e, I s → I (step s e)) (s : σ)
    (events : List ε) (hs : I s) : I (run step s events) := by
  induction events generalizing s with
  | nil => exact hs
  | cons e events ih => exact ih (step s e) (hstep s e hs)

/-- Every step of the run is taken under `G`. -/
def Along (step : σ → ε → σ) (G : σ → ε → Prop) : σ → List ε → Prop
  | _, [] => True
  | s, e :: events => G s e ∧ Along step G (step s e) events

instance decidableAlong (step : σ → ε → σ) (G : σ → ε → Prop) [∀ s e, Decidable (G s e)] :
    ∀ s events, Decidable (Along step G s events)
  | _, [] => isTrue trivial
  | s, e :: events =>
    have := decidableAlong step G (step s e) events
    inferInstanceAs (Decidable (G s e ∧ Along step G (step s e) events))

variable {s : σ}

lemma Along.imp {step : σ → ε → σ} {G G' : σ → ε → Prop} (h : ∀ s e, G s e → G' s e)
    {events : List ε} (hG : Along step G s events) : Along step G' s events := by
  induction events generalizing s with
  | nil => trivial
  | cons e events ih => exact ⟨h s e hG.1, ih hG.2⟩

lemma run_invariant_along {step : σ → ε → σ} {G : σ → ε → Prop}
    (hstep : ∀ s e, G s e → I s → I (step s e)) (s : σ) (events : List ε)
    (hG : Along step G s events) (hs : I s) : I (run step s events) := by
  induction events generalizing s with
  | nil => exact hs
  | cons e events ih => exact ih (step s e) hG.2 (hstep s e hG.1 hs)

/-! ## Steps that can fail -/

def attempt (step : σ → ε → Option σ) (s : σ) : List ε → Option σ
  | [] => some s
  | e :: events => (step s e).bind fun s' => attempt step s' events

variable {step : σ → ε → Option σ}

lemma attempt_invariant (hstep : ∀ s e s', I s → step s e = some s' → I s') {s s' : σ}
    (events : List ε) (hs : I s) (h : attempt step s events = some s') : I s' := by
  induction events generalizing s with
  | nil => exact some.inj h ▸ hs
  | cons e events ih =>
    obtain ⟨s1, hs1, hrest⟩ := bind_eq_some_iff.mp h
    exact ih (hstep s e s1 hs hs1) hrest

lemma attempt_append (step : σ → ε → Option σ) (s : σ) (first second : List ε) :
    attempt step s (first ++ second) = (attempt step s first).bind (attempt step · second) := by
  induction first generalizing s with
  | nil => rfl
  | cons e first ih =>
    rw [cons_append, attempt, attempt, bind_assoc]
    exact congrArg _ (funext ih)

/-- Every step of the run, as far as it gets, is taken under `G`. -/
def AlongAttempt (step : σ → ε → Option σ) (G : σ → ε → Prop) : σ → List ε → Prop
  | _, [] => True
  | s, e :: events => G s e ∧ ∀ s', step s e = some s' → AlongAttempt step G s' events

instance decidableAlongAttempt (step : σ → ε → Option σ) (G : σ → ε → Prop)
    [∀ s e, Decidable (G s e)] : ∀ s events, Decidable (AlongAttempt step G s events)
  | _, [] => isTrue trivial
  | s, e :: events =>
    match h : step s e with
    | none => decidable_of_iff (G s e) ⟨fun hG => ⟨hG, by simp [h]⟩, And.left⟩
    | some s' =>
      have := decidableAlongAttempt step G s' events
      decidable_of_iff (G s e ∧ AlongAttempt step G s' events)
        (and_congr_right fun _ => ⟨fun hG s₁ hs₁ => some.inj (h.symm.trans hs₁) ▸ hG,
          fun hG => hG s' h⟩)

/-- If a step under `G` succeeds and keeps `I`, a run of such steps succeeds and keeps
it too. -/
lemma attempt_along {G : σ → ε → Prop}
    (hstep : ∀ s e, G s e → I s → ∃ s', step s e = some s' ∧ I s') (events : List ε)
    (hG : AlongAttempt step G s events) (hs : I s) :
    ∃ s', attempt step s events = some s' ∧ I s' := by
  induction events generalizing s with
  | nil => exact ⟨s, rfl, hs⟩
  | cons e events ih =>
    obtain ⟨s1, hs1, hI⟩ := hstep s e hG.1 hs
    obtain ⟨s', hrun, hI'⟩ := ih (hG.2 s1 hs1) hI
    exact ⟨s', by rw [attempt, hs1, bind_some, hrun], hI'⟩

/-- **Where a run fails.** If a step from a state of `I` fails exactly under `B`,
and keeps `I` otherwise, a run fails exactly if it comes to a step under `B`. -/
theorem attempt_none_iff {B : σ → ε → Prop} (hfail : ∀ s e, I s → (step s e = none ↔ B s e))
    (hkeep : ∀ s e s', I s → step s e = some s' → I s') (events : List ε) (hs : I s) :
    attempt step s events = none ↔ ∃ pre e post s', events = pre ++ e :: post
      ∧ attempt step s pre = some s' ∧ B s' e := by
  induction events generalizing s with
  | nil =>
    refine ⟨by simp [attempt], ?_⟩
    rintro ⟨pre, e, post, s', hsplit, _⟩
    simp at hsplit
  | cons e events ih =>
    cases hstep : step s e with
    | none =>
      have hnone : attempt step s (e :: events) = none := by
        rw [attempt, hstep, bind_none]
      exact ⟨fun _ => ⟨[], e, events, s, rfl, rfl, (hfail s e hs).mp hstep⟩, fun _ => hnone⟩
    | some s1 =>
      have hrest : ∀ rest, attempt step s (e :: rest) = attempt step s1 rest := by
        intro rest
        rw [attempt, hstep, bind_some]
      have hiff := ih (hkeep s e s1 hs hstep)
      rw [hrest]
      constructor
      · intro h
        obtain ⟨pre, e', post, s', hsplit, hpre, hb⟩ := hiff.mp h
        exact ⟨e :: pre, e', post, s', by rw [hsplit]; rfl, (hrest pre).trans hpre, hb⟩
      · rintro ⟨pre, e', post, s', hsplit, hpre, hb⟩
        cases pre with
        | nil =>
          have he : e = e' := (cons.inj hsplit).1
          have hss : s = s' := some.inj hpre
          subst he hss
          exact absurd ((hfail s e hs).mpr hb) (by rw [hstep]; simp)
        | cons e1 pre =>
          obtain ⟨he, hsplit'⟩ := cons.inj hsplit
          subst he
          exact hiff.mpr ⟨pre, e', post, s', hsplit', (hrest pre).symm.trans hpre, hb⟩

end Runs
