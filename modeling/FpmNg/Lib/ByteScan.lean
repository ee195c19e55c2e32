/-
Searching a buffer that grows.

Two searches, over an arbitrary element type, with the laws a reader needs that
receives its input in pieces. `cut` is the `memchr` of a C parser in slice form:
what stands before the first match, and what stands behind it. `findFrom` is the
indexed scan for a pattern of bounded width, and `findFrom_resume` is the law
that lets a scan continue a few positions before the old end of the buffer
instead of from its start.
-/
import Mathlib.Data.List.Basic

open List Bool

namespace ByteScan

variable {α : Type*}

/-! ## The first match of a predicate -/

/-- What stands before and behind the first element satisfying `p`. -/
def cut (p : α → Bool) : List α → Option (List α × List α)
  | [] => none
  | a :: l => if p a then some ([], l) else (cut p l).map fun r => (a :: r.1, r.2)

lemma cut_eq_none_iff (p : α → Bool) (l : List α) : cut p l = none ↔ ∀ a ∈ l, p a = false := by
  induction l with
  | nil => simp [cut]
  | cons a l ih =>
    by_cases ha : p a
    · simp [cut, ha]
    · simp [cut, ha, ih]

variable {p : α → Bool}

lemma cut_eq_some {l x y : List α} (h : cut p l = some (x, y)) :
    ∃ a, p a = true ∧ l = x ++ a :: y ∧ ∀ b ∈ x, p b = false := by
  induction l generalizing x with
  | nil => simp [cut] at h
  | cons a l ih =>
    by_cases ha : p a
    · simp only [cut, ha, if_true, Option.some.injEq, Prod.mk.injEq] at h
      obtain ⟨rfl, rfl⟩ := h
      exact ⟨a, ha, rfl, by simp⟩
    · simp only [cut, ha, false_eq_true, if_false, Option.map_eq_some_iff] at h
      obtain ⟨⟨x', y'⟩, hxy, heq⟩ := h
      obtain ⟨rfl, rfl⟩ := heq
      obtain ⟨b, hb, rfl, hx⟩ := ih hxy
      exact ⟨b, hb, rfl, by simpa [ha] using hx⟩

variable {l : List α}

lemma cut_append_left (h : ∀ a ∈ l, p a = false) (m : List α) :
    cut p (l ++ m) = (cut p m).map fun r => (l ++ r.1, r.2) := by
  induction l with
  | nil => simp
  | cons a l ih =>
    have ha : p a = false := h a (by simp)
    have hl : ∀ b ∈ l, p b = false := fun b hb => h b (by simp [hb])
    simp only [cons_append, cut, ha, false_eq_true, if_false, ih hl]
    cases cut p m <;> simp

lemma cut_append_cons {x : List α} {a : α} (hx : ∀ b ∈ x, p b = false) (ha : p a = true)
    (y : List α) : cut p (x ++ a :: y) = some (x, y) := by
  simp [cut_append_left hx, cut, ha]

lemma cut_append_right {l x y : List α} (h : cut p l = some (x, y)) (m : List α) :
    cut p (l ++ m) = some (x, y ++ m) := by
  obtain ⟨a, ha, rfl, hx⟩ := cut_eq_some h
  simpa using cut_append_cons hx ha (y ++ m)

lemma cut_length {l x y : List α} (h : cut p l = some (x, y)) :
    l.length = x.length + 1 + y.length := by
  obtain ⟨a, -, rfl, -⟩ := cut_eq_some h
  simp; omega

lemma takeWhile_append_head {x y : List α} (hx : ∀ b ∈ x, p b = true)
    (hy : ∀ b ∈ y.head?, p b = false) :
    (x ++ y).takeWhile p = x ∧ (x ++ y).dropWhile p = y := by
  have hnone : y.takeWhile p = [] ∧ y.dropWhile p = y := by
    cases y with
    | nil => exact ⟨rfl, rfl⟩
    | cons b y =>
      have hb : p b = false := hy b (by simp)
      exact ⟨takeWhile_cons_of_neg (by simp [hb]),
        dropWhile_cons_of_neg (by simp [hb])⟩
  rw [takeWhile_append_of_pos hx, dropWhile_append_of_pos hx, hnone.1, hnone.2,
    append_nil]
  exact ⟨rfl, rfl⟩

/-! ## The first position of a pattern -/

/-- The least position from `i` on whose suffix satisfies `m`. -/
def findFrom (m : List α → Bool) (i : ℕ) (l : List α) : Option ℕ :=
  (range' i (l.length - i)).find? fun j => m (l.drop j)

variable {m : List α → Bool}

lemma findFrom_eq_some_iff {i k : ℕ} :
    findFrom m i l = some k ↔ i ≤ k ∧ k < l.length ∧ m (l.drop k) = true ∧
        ∀ j, i ≤ j → j < k → m (l.drop j) = false := by
  rw [findFrom, find?_range'_eq_some]
  simp only [mem_range'_1, not_eq_true']
  constructor
  · rintro ⟨hm, hk, hall⟩
    exact ⟨hk.1, by omega, hm, hall⟩
  · rintro ⟨hi, hk, hm, hall⟩
    exact ⟨hm, ⟨hi, by omega⟩, hall⟩

lemma findFrom_eq_none_iff {i : ℕ} :
    findFrom m i l = none ↔ ∀ j, i ≤ j → j < l.length → m (l.drop j) = false := by
  rw [findFrom, find?_range'_eq_none]
  constructor
  · intro h j hi hj
    simpa using h j hi (by omega)
  · intro h j hi hj
    simpa using h j hi (by omega)

/-- `m` looks at no more than its first `w` elements, and at a prefix that is
already a match it stays one. -/
structure Window (m : List α → Bool) (w : ℕ) : Prop where
  pos : 0 < w
  local_ : ∀ l x, w ≤ l.length → m (l ++ x) = m l
  mono : ∀ l x, m l = true → m (l ++ x) = true

/-- A match found stays the first match when more elements arrive, provided no
earlier position was still undecided. -/
lemma findFrom_append (hmono : ∀ l x, m l = true → m (l ++ x) = true) {i k : ℕ}
    (h : findFrom m i l = some k) (x : List α)
    (hearly : ∀ j, i ≤ j → j < k → m (l.drop j) = false → m (l.drop j ++ x) = false) :
    findFrom m i (l ++ x) = some k := by
  obtain ⟨hi, hk, hm, hall⟩ := findFrom_eq_some_iff.mp h
  refine findFrom_eq_some_iff.mpr ⟨hi, by simp; omega, ?_, ?_⟩
  · rw [drop_append_of_le_length (by omega)]
    exact hmono _ _ hm
  · intro j hij hjk
    rw [drop_append_of_le_length (by omega)]
    exact hearly j hij hjk (hall j hij hjk)

/-- **Resuming a scan.** When `l` holds no match, a scan of `l ++ x` may start
`w - 1` positions before the end of `l`: everything in front was decided. -/
theorem findFrom_resume {w : ℕ} (hw : Window m w) (hl : findFrom m 0 l = none) (x : List α) (i : ℕ)
    (hi : i + w ≤ l.length + 1 ∨ i = 0) :
    findFrom m i (l ++ x) = findFrom m 0 (l ++ x) := by
  have hdecided : ∀ j, j < i → m ((l ++ x).drop j) = false := by
    intro j hj
    have hnone := findFrom_eq_none_iff.mp hl
    rw [drop_append_of_le_length (by omega), hw.local_ _ _ (by simp; omega)]
    have hpos := hw.pos
    exact hnone j (by omega) (by omega)
  cases hf : findFrom m 0 (l ++ x) with
  | none =>
    rw [findFrom_eq_none_iff] at hf ⊢
    exact fun j _ hj => hf j (by omega) hj
  | some k =>
    rw [findFrom_eq_some_iff] at hf ⊢
    obtain ⟨-, hk, hm, hall⟩ := hf
    refine ⟨?_, hk, hm, fun j _ hjk => hall j (by omega) hjk⟩
    by_contra hlt
    rw [hdecided k (by omega)] at hm
    simp at hm

end ByteScan
