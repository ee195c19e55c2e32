/-
A table kept in rank order and searched from the top.

`before` says which of two rows ranks first; rows may be level. The table is
sorted by insertion, shifting from the back as an array does it, and a lookup
takes the first row that answers. What it finds is the best row that answers, and
where no two such rows are level it does not depend on the order the rows were
given in.
-/
import Mathlib.Data.List.Sort

open List

namespace RankedTable

variable {α : Type*} (before : α → α → Bool)

def shift_in (row : α) : List α → List α
  | [] => [row]
  | last :: front => if before row last then last :: shift_in row front else row :: last :: front

def sort (rows : List α) : List α :=
  (rows.foldl (fun sorted row => shift_in before row sorted) []).reverse

/-- `before` is a ranking: being level is an equivalence. -/
structure Ranks : Prop where
  asymm : ∀ a b, before a b = true → before b a = false
  trans : ∀ a b c, before a b = false → before b c = false → before a c = false

/-- `before` ranks the rows of a table, and no two of them are level. -/
structure RanksApart (rows : List α) : Prop where
  asymm : ∀ a ∈ rows, ∀ b ∈ rows, before a b = true → before b a = false
  trans : ∀ a ∈ rows, ∀ b ∈ rows, ∀ c ∈ rows, before a b = false → before b c = false →
    before a c = false
  apart : ∀ a ∈ rows, ∀ b ∈ rows, before a b = false → before b a = false → a = b

def Best (rows : List α) (p : α → Bool) : Option α → Prop
  | some r => r ∈ rows ∧ p r = true ∧ ∀ s ∈ rows, p s = true → before s r = false
  | none => ∀ s ∈ rows, p s = false

variable {before}

lemma shift_in_eq (row : α) (sorted : List α) :
    shift_in before row sorted = sorted.orderedInsert (fun a b => before a b = false) row := by
  induction sorted with
  | nil => rfl
  | cons last front ih =>
    rw [shift_in, orderedInsert_cons, ih]
    cases before row last <;> simp

lemma sort_eq (rows : List α) :
    sort before rows = (rows.reverse.insertionSort fun a b => before a b = false).reverse := by
  unfold sort insertionSort
  simp [shift_in_eq]

lemma sort_perm (rows : List α) : (sort before rows).Perm rows := by
  rw [sort_eq]
  exact (reverse_perm _).trans ((perm_insertionSort _ _).trans (reverse_perm _))

lemma sort_map {β : Type*} (f : α → β) (after : β → β → Bool)
    (h : ∀ a b, before a b = after (f a) (f b)) (rows : List α) :
    (sort before rows).map f = sort after (rows.map f) := by
  rw [sort_eq, sort_eq, map_reverse, ← map_reverse (f := f) (l := rows)]
  exact congrArg _ (map_insertionSort _ _ f _ fun a _ b _ => by rw [h])

lemma sort_pairwise_of {rows : List α}
    (hasymm : ∀ a ∈ rows, ∀ b ∈ rows, before a b = true → before b a = false)
    (htrans : ∀ a ∈ rows, ∀ b ∈ rows, ∀ c ∈ rows, before a b = false → before b c = false →
      before a c = false) :
    (sort before rows).Pairwise fun a b => before b a = false := by
  -- among the rows themselves it is a total order
  let r : {a // a ∈ rows} → {a // a ∈ rows} → Prop := fun a b => before a b = false
  have : Std.Total r := ⟨fun a b => by
    cases hab : before a b
    · exact .inl hab
    · exact .inr (hasymm a a.2 b b.2 hab)⟩
  have : IsTrans {a // a ∈ rows} r := ⟨fun a b c => htrans a a.2 b b.2 c c.2⟩
  have hsorted := (pairwise_insertionSort r rows.attach.reverse).map Subtype.val
    (S := fun a b => before a b = false) fun _ _ h => h
  rw [map_insertionSort r (fun a b => before a b = false) Subtype.val _ fun _ _ _ _ => Iff.rfl,
    map_reverse, attach_map_subtype_val] at hsorted
  rw [sort_eq, pairwise_reverse]
  exact hsorted

lemma sort_pairwise (h : Ranks before) (rows : List α) :
    (sort before rows).Pairwise fun a b => before b a = false :=
  sort_pairwise_of (fun a _ b _ => h.asymm a b) fun a _ b _ c _ => h.trans a b c

theorem sort_eq_of_perm {rows rows' : List α} (h : RanksApart before rows) (hp : rows.Perm rows') :
    sort before rows = sort before rows' := by
  refine Perm.eq_of_pairwise ?_ (sort_pairwise_of h.asymm h.trans) (sort_pairwise_of ?_ ?_)
    ((sort_perm rows).trans (hp.trans (sort_perm rows').symm))
  · intro a b ha hb hab hba
    exact h.apart a ((sort_perm rows).mem_iff.mp ha) b
      (hp.mem_iff.mpr ((sort_perm rows').mem_iff.mp hb)) hba hab
  · exact fun a ha b hb => h.asymm a (hp.mem_iff.mpr ha) b (hp.mem_iff.mpr hb)
  · exact fun a ha b hb c hc => h.trans a (hp.mem_iff.mpr ha) b (hp.mem_iff.mpr hb) c (hp.mem_iff.mpr hc)

theorem first_best (h : Ranks before) (rows : List α) (p : α → Bool) :
    Best before rows p ((sort before rows).find? p) := by
  have hmem : ∀ {s : α}, s ∈ sort before rows ↔ s ∈ rows := (sort_perm rows).mem_iff
  cases hfind : (sort before rows).find? p with
  | none =>
    intro s hs
    exact Bool.eq_false_iff.mpr (find?_eq_none.mp hfind s (hmem.mpr hs))
  | some r =>
    obtain ⟨hr, front, behind, hsplit, hfront⟩ := find?_eq_some_iff_append.mp hfind
    refine ⟨hmem.mp (mem_of_find?_eq_some hfind), hr, ?_⟩
    intro s hs hps
    have hsorted := sort_pairwise h rows
    rw [hsplit] at hsorted
    -- a row in front of `r` does not answer, and one behind it ranks no higher
    rcases mem_append.mp (hsplit ▸ hmem.mpr hs) with hs | hs
    · exact absurd hps (by simpa using hfront s hs)
    · rcases mem_cons.mp hs with rfl | hs
      · by_contra hbefore
        rw [Bool.not_eq_false] at hbefore
        exact absurd (hbefore.symm.trans (h.asymm _ _ hbefore)) (by simp)
      · exact rel_of_pairwise_cons (pairwise_append.mp hsorted).2.1 hs

lemma best_perm {rows rows' : List α} (h : rows.Perm rows') {p : α → Bool} {r : Option α}
    (hr : Best before rows p r) : Best before rows' p r := by
  cases r with
  | none => exact fun s hs => hr s (h.mem_iff.mpr hs)
  | some r =>
    obtain ⟨hmem, hp, hbest⟩ := hr
    exact ⟨h.mem_iff.mp hmem, hp, fun s hs => hbest s (h.mem_iff.mpr hs)⟩

lemma best_unique {rows : List α} {p : α → Bool}
    (hlevel : ∀ a ∈ rows, ∀ b ∈ rows, p a = true → p b = true → before a b = false →
      before b a = false → a = b)
    {r s : Option α} (hr : Best before rows p r) (hs : Best before rows p s) : r = s := by
  rcases r with _ | r <;> rcases s with _ | s
  · rfl
  · exact absurd hs.2.1 (by simp [hr s hs.1])
  · exact absurd hr.2.1 (by simp [hs r hr.1])
  · rw [hlevel r hr.1 s hs.1 hr.2.1 hs.2.1 (hs.2.2 r hr.1 hr.2.1) (hr.2.2 s hs.1 hs.2.1)]

end RankedTable
