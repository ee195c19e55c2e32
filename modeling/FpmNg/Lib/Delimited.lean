/-
Self-delimiting formats: a decoder that finds the end of its own item, and what
that gives for a stream of items written one behind the other.
-/
import Mathlib.Data.List.Basic

open List

namespace Delimited

variable {α β : Type*}

/-- `dec` reads back what `enc` wrote, for items satisfying `P`, and leaves what
stands behind it. No item is empty. -/
structure Codec (enc : α → List β) (dec : List β → Option (α × List β)) (P : α → Prop) :
    Prop where
  roundtrip : ∀ a rest, P a → dec (enc a ++ rest) = some (a, rest)
  nonempty : ∀ a, P a → enc a ≠ []

/-- Items until the input is used up; `n` bounds their number. -/
def many (dec : List β → Option (α × List β)) : ℕ → List β → Option (List α)
  | _, [] => some []
  | 0, _ :: _ => none
  | n + 1, l =>
    match dec l with
    | none => none
    | some (a, rest) => (many dec n rest).map (a :: ·)

/-- Items until the input is used up. An item is not empty, so the length of the
input bounds their number. -/
def all (dec : List β → Option (α × List β)) (l : List β) : Option (List α) :=
  many dec l.length l

lemma many_flatMap {enc : α → List β} {dec : List β → Option (α × List β)} {P : α → Prop}
    (h : Codec enc dec P) (items : List α) (hP : ∀ a ∈ items, P a) (n : ℕ)
    (hn : (items.flatMap enc).length ≤ n) : many dec n (items.flatMap enc) = some items := by
  induction items generalizing n with
  | nil => cases n <;> rfl
  | cons a items ih =>
    have ha : P a := hP a (by simp)
    have hpos := length_pos_iff.mpr (h.nonempty a ha)
    rw [flatMap_cons, length_append] at hn
    obtain ⟨m, rfl⟩ : ∃ m, n = m + 1 := ⟨n - 1, by omega⟩
    have hrest := ih (fun b hb => hP b (by simp [hb])) m (by omega)
    rw [flatMap_cons]
    -- the input is not empty, so the third equation of `many` applies
    obtain ⟨b, l, hl⟩ : ∃ b l, enc a ++ items.flatMap enc = b :: l :=
      exists_cons_of_ne_nil (by simp [h.nonempty a ha])
    rw [hl, many, ← hl, h.roundtrip a _ ha]
    · dsimp only
      rw [hrest, Option.map_some]
    · exact by simp

theorem all_flatMap {enc : α → List β} {dec : List β → Option (α × List β)} {P : α → Prop}
    (h : Codec enc dec P) (items : List α) (hP : ∀ a ∈ items, P a) :
    all dec (items.flatMap enc) = some items :=
  many_flatMap h items hP _ (Nat.le_refl _)

end Delimited
