/-
Text separated by one symbol, taken apart from either end.

`splitOn` says what the pieces are. A program that walks such a text backwards
looks for the last separator, handles what stands behind it and goes on with what
stands in front of it; `splitOn_walk` says that this visits the pieces of
`splitOn` in reverse. A program that walks it forwards cuts at the first
separator until nothing is left; `pieces` is what it visits, and
`pieces_intercalate` that it reads back what was joined.
-/
import FpmNg.Lib.ByteScan
import Mathlib.Data.List.Induction

open ByteScan List

namespace Separated

variable {α : Type*} [BEq α] [LawfulBEq α]

/-- Where the last piece starts: behind the last `a`, or at the start. -/
def last_start (a : α) (l : List α) : ℕ := l.length - (l.reverse.takeWhile (· != a)).length

variable {a : α}

lemma takeWhile_ne_append {p q : List α} (hq : a ∉ q) :
    (p ++ a :: q).reverse.takeWhile (· != a) = q.reverse := by
  have hq' : ∀ b ∈ q.reverse, (b != a) = true := by
    intro b hb
    rw [bne_iff_ne]
    rintro rfl
    exact hq (mem_reverse.mp hb)
  rw [reverse_append, reverse_cons, append_assoc,
    takeWhile_append_of_pos hq', singleton_append,
    takeWhile_cons_of_neg (by simp), append_nil]

lemma last_start_append {p q : List α} (hq : a ∉ q) :
    last_start a (p ++ a :: q) = p.length + 1 := by
  unfold last_start
  rw [takeWhile_ne_append hq, length_reverse, length_append, length_cons]
  omega

variable {l : List α}

lemma last_start_of_not_mem (h : a ∉ l) : last_start a l = 0 := by
  have hl : ∀ b ∈ l.reverse, (b != a) = true := by
    intro b hb
    rw [bne_iff_ne]
    rintro rfl
    exact h (mem_reverse.mp hb)
  unfold last_start
  rw [← append_nil l.reverse, takeWhile_append_of_pos hl, takeWhile_nil,
    append_nil, length_reverse, Nat.sub_self]

lemma exists_last (h : a ∈ l) : ∃ p q, l = p ++ a :: q ∧ a ∉ q := by
  induction l with
  | nil => simp at h
  | cons b l ih =>
    by_cases hl : a ∈ l
    · obtain ⟨p, q, rfl, hq⟩ := ih hl
      exact ⟨b :: p, q, rfl, hq⟩
    · rcases mem_cons.mp h with rfl | hmem
      · exact ⟨[], l, rfl, hl⟩
      · exact absurd hmem hl

lemma splitOn_of_not_mem (h : a ∉ l) : l.splitOn a = [l] := by
  apply splitOnP_eq_singleton
  intro b hb
  rw [beq_eq_false_iff_ne]
  rintro rfl
  exact h hb

lemma splitOn_append_cons (a : α) (p q : List α) :
    (p ++ a :: q).splitOn a = p.splitOn a ++ q.splitOn a :=
  splitOnP_append_cons p q (by simp)

lemma mem_splitOn {l t : List α} (h : t ∈ l.splitOn a) :
    ∃ pre post, a :: l = pre ++ a :: (t ++ post) ∧ (post = [] ∨ ∃ rest, post = a :: rest) := by
  induction hn : l.length using Nat.strongRecOn generalizing l with
  | ind n ih =>
    by_cases ha : a ∈ l
    · obtain ⟨p, q, rfl, hp⟩ := eq_append_cons_of_mem ha
      rw [splitOn_append_cons, splitOn_of_not_mem hp, singleton_append] at h
      rcases mem_cons.mp h with rfl | h
      · exact ⟨[], a :: q, rfl, .inr ⟨q, rfl⟩⟩
      · rw [length_append, length_cons] at hn
        obtain ⟨pre, post, heq, hpost⟩ := ih q.length (by omega) h rfl
        exact ⟨a :: p ++ pre, post, by rw [append_assoc, ← heq]; rfl, hpost⟩
    · rw [splitOn_of_not_mem ha, mem_singleton] at h
      exact ⟨[], [], by rw [h, append_nil]; rfl, .inl rfl⟩

/-- **The walk from the right.** The last piece stands behind the last separator,
and the others are those of the text in front of it. -/
theorem splitOn_walk (a : α) (l : List α) :
    (last_start a l = 0 ∧ l.splitOn a = [l.drop (last_start a l)]) ∨
      (0 < last_start a l ∧ last_start a l ≤ l.length ∧
        l.splitOn a = (l.take (last_start a l - 1)).splitOn a ++ [l.drop (last_start a l)]) := by
  by_cases h : a ∈ l
  · right
    obtain ⟨p, q, rfl, hq⟩ := exists_last h
    rw [last_start_append hq, splitOn_append_cons, splitOn_of_not_mem hq]
    refine ⟨by omega, by simp, ?_⟩
    have hdrop : (p ++ a :: q).drop (p.length + 1) = q := by
      simp
    have htake : (p ++ a :: q).take (p.length + 1 - 1) = p := by simp
    rw [hdrop, htake]
  · left
    rw [last_start_of_not_mem h, splitOn_of_not_mem h]
    exact ⟨rfl, rfl⟩

/-! ## The walk from the left -/

/-- At most `n` pieces. -/
def pieces_upto (a : α) : ℕ → List α → List (List α)
  | 0, _ => []
  | _ + 1, [] => []
  | n + 1, b :: l =>
    match cut (· == a) (b :: l) with
    | none => [b :: l]
    | some (x, y) => x :: pieces_upto a n y

/-- The pieces of `for (rest = l; *rest; rest = behind the next a)`. Every piece
takes at least one symbol, so the length of the text bounds their number. Nothing
behind a final separator is not a piece. -/
def pieces (a : α) (l : List α) : List (List α) := pieces_upto a l.length l

omit [LawfulBEq α] in
lemma pieces_upto_eq (a : α) (n m : ℕ) (l : List α) (hn : l.length ≤ n) (hm : l.length ≤ m) :
    pieces_upto a n l = pieces_upto a m l := by
  induction n generalizing m l with
  | zero =>
    rw [length_eq_zero_iff.mp (Nat.le_zero.mp hn)]
    cases m <;> rfl
  | succ n ih =>
    rcases l with _ | ⟨b, l⟩
    · cases m <;> rfl
    · rw [length_cons] at hn hm
      obtain ⟨m, rfl⟩ : ∃ k, m = k + 1 := ⟨m - 1, by omega⟩
      rw [pieces_upto, pieces_upto]
      cases hcut : cut (· == a) (b :: l) with
      | none => rfl
      | some xy =>
        have hlen := cut_length hcut
        rw [length_cons] at hlen
        dsimp only
        rw [ih m xy.2 (by omega) (by omega)]

lemma pieces_of_not_mem (hl : l ≠ []) (h : a ∉ l) : pieces a l = [l] := by
  obtain ⟨b, t, rfl⟩ := exists_cons_of_ne_nil hl
  have hcut : cut (· == a) (b :: t) = none := by
    rw [cut_eq_none_iff]
    intro c hc
    rw [beq_eq_false_iff_ne]
    rintro rfl
    exact h hc
  rw [pieces, length_cons, pieces_upto, hcut]

lemma pieces_append_cons {x : List α} (h : a ∉ x) (y : List α) :
    pieces a (x ++ a :: y) = x :: pieces a y := by
  have hcut : cut (· == a) (x ++ a :: y) = some (x, y) := by
    apply cut_append_cons _ (by simp)
    intro c hc
    rw [beq_eq_false_iff_ne]
    rintro rfl
    exact h hc
  obtain ⟨b, t, hbt⟩ : ∃ b t, x ++ a :: y = b :: t :=
    exists_cons_of_ne_nil (by simp)
  have hlen := cut_length hcut
  rw [hbt] at hcut hlen
  rw [pieces, hbt, length_cons, pieces_upto, hcut]
  dsimp only
  rw [length_cons] at hlen
  rw [pieces_upto_eq a t.length y.length y (by omega) (Nat.le_refl _)]
  rfl

variable {ls : List (List α)}

theorem pieces_intercalate (h : ∀ l ∈ ls, a ∉ l) (hne : ∀ l ∈ ls, l ≠ []) :
    pieces a ([a].intercalate ls) = ls := by
  induction ls with
  | nil => rfl
  | cons l ls ih =>
    have hl : a ∉ l := h l mem_cons_self
    have hrest := ih (fun m hm => h m (.tail _ hm))
      (fun m hm => hne m (.tail _ hm))
    rcases ls with _ | ⟨m, ls⟩
    · rw [intercalate_singleton, pieces_of_not_mem (hne l mem_cons_self) hl]
    · rw [intercalate_cons_cons, append_assoc, singleton_append,
        pieces_append_cons hl, hrest]

omit [BEq α] [LawfulBEq α] in
lemma intercalate_concat (h : ls ≠ []) (m : List α) :
    [a].intercalate (ls ++ [m]) = [a].intercalate ls ++ a :: m := by
  induction ls with
  | nil => exact absurd rfl h
  | cons l ls ih =>
    rcases ls with _ | ⟨k, ls⟩
    · rw [singleton_append, intercalate_cons_cons, intercalate_singleton,
        intercalate_singleton, append_assoc, singleton_append]
    · rw [cons_append, cons_append, intercalate_cons_cons, ← cons_append,
        ih (by simp), intercalate_cons_cons]
      simp

omit [BEq α] [LawfulBEq α] in
lemma intercalate_eq_nil (hne : ∀ l ∈ ls, l ≠ []) :
    [a].intercalate ls = [] ↔ ls = [] := by
  rcases ls with _ | ⟨l, _ | ⟨m, ls⟩⟩
  · simp
  · simp [hne l mem_cons_self]
  · simp

def join (a : α) (ls : List (List α)) : List α :=
  ls.foldl (fun t l => (if t.isEmpty then [] else t ++ [a]) ++ l) []

omit [BEq α] [LawfulBEq α] in
lemma join_eq (hne : ∀ l ∈ ls, l ≠ []) :
    join a ls = [a].intercalate ls := by
  unfold join
  induction ls using reverseRecOn with
  | nil => rfl
  | append_singleton ls l ih =>
    have hne' : ∀ m ∈ ls, m ≠ [] := fun m hm => hne m (mem_append_left _ hm)
    rw [foldl_append, ih hne', foldl_cons, foldl_nil]
    by_cases hnil : ls = []
    · subst hnil
      simp
    · have hempty : ¬ ([a].intercalate ls).isEmpty = true := by
        rw [List.isEmpty_iff, intercalate_eq_nil hne']
        exact hnil
      rw [if_neg hempty, intercalate_concat hnil, append_assoc, singleton_append]

/-- The tokens of `strtok`: empty pieces are skipped. -/
def tokens (a : α) (l : List α) : List (List α) := (l.splitOn a).filter fun t => !t.isEmpty

lemma tokens_join (h : ∀ l ∈ ls, a ∉ l) (hne : ∀ l ∈ ls, l ≠ []) : tokens a (join a ls) = ls := by
  rw [join_eq hne]
  unfold tokens
  by_cases hnil : ls = []
  · subst hnil
    rfl
  · rw [splitOn_intercalate a h hnil, filter_eq_self]
    intro l hl
    simpa using hne l hl

end Separated
