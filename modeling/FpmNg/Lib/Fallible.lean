/-
What a computation that can fail says about its result.

`Yields r Q` is the postcondition of `r` where it does not fail. The rules below
follow the way such a computation is put together, so a function written with `do`
gets its postcondition from those of its parts.
-/
import Mathlib.Tactic.Common

namespace Fallible

variable {α β : Type*}

/-- Whatever `r` gives has `Q`. -/
def Yields (r : Option α) (Q : α → Prop) : Prop := ∀ a, r = some a → Q a

lemma Yields.of_some {a : α} {Q : α → Prop} (h : Q a) : Yields (some a) Q := by
  intro b hb
  rwa [← Option.some.inj hb]

lemma Yields.of_none {Q : α → Prop} : Yields none Q := nofun

variable {r : Option α}

lemma Yields.imp {P Q : α → Prop} (h : Yields r P) (himp : ∀ a, P a → Q a) :
    Yields r Q := fun a ha => himp a (h a ha)

variable {Q : β → Prop}

lemma Yields.bind {f : α → Option β} {P : α → Prop} (h : Yields r P)
    (hf : ∀ a, P a → Yields (f a) Q) : Yields (r.bind f) Q := by
  intro b hb
  obtain ⟨a, ha, hfa⟩ := Option.bind_eq_some_iff.mp hb
  exact hf a (h a ha) b hfa

lemma Yields.bind_any {f : α → Option β} (hf : ∀ a, Yields (f a) Q) : Yields (r.bind f) Q :=
  Yields.bind (fun _ _ => trivial) fun a _ => hf a

lemma Yields.map {f : α → β} (h : Yields r fun a => Q (f a)) :
    Yields (r.map f) Q := by
  intro b hb
  obtain ⟨a, ha, rfl⟩ := Option.map_eq_some_iff.mp hb
  exact h a ha

end Fallible
