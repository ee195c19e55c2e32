/-
Linked structures over link fields.

A link field of a heap record is a function `next : α → Option α` on addresses,
with `none` for the null pointer. `Seg` says which records one passes when
following it. From that come the two structures a program builds with links: the
list that is linked both ways, and records filed on several chains by a key. The
lemmas are about the programs' own updates, one link at a time, and say what the
structure holds afterwards.
-/
import Mathlib.Data.List.Nodup

open List Function

namespace Linked

variable {α : Type*}

/-! ## Segments -/

/-- Following `next` from `p` one passes the records `l` and arrives at `q`. -/
def Seg (next : α → Option α) : Option α → List α → Option α → Prop
  | p, [], q => p = q
  | p, a :: l, q => p = some a ∧ Seg next (next a) l q

abbrev Chain (next : α → Option α) (p : Option α) (l : List α) : Prop := Seg next p l none

variable {next : α → Option α} {p q : Option α}

lemma seg_append (l1 l2 : List α) :
    Seg next p (l1 ++ l2) q ↔ ∃ r, Seg next p l1 r ∧ Seg next r l2 q := by
  induction l1 generalizing p with
  | nil => simp [Seg]
  | cons a l1 ih =>
    simp only [cons_append, Seg, ih]
    constructor
    · rintro ⟨hp, r, h1, h2⟩
      exact ⟨r, ⟨hp, h1⟩, h2⟩
    · rintro ⟨r, ⟨hp, h1⟩, h2⟩
      exact ⟨hp, r, h1, h2⟩

variable {l : List α}

lemma Seg.congr {next next' : α → Option α} (h : Seg next p l q) (hn : ∀ a ∈ l, next' a = next a) :
    Seg next' p l q := by
  induction l generalizing p with
  | nil => exact h
  | cons a l ih =>
    obtain ⟨hp, hrest⟩ := h
    refine ⟨hp, ?_⟩
    rw [hn a (.head _)]
    exact ih hrest (fun b hb => hn b (.tail _ hb))

lemma Chain.head {p : Option α} (h : Chain next p l) : p = l.head? := by
  cases l with
  | nil => exact h
  | cons a l => exact h.1

variable {pre post : List α} {a : α}

lemma Chain.next_eq {p : Option α} (h : Chain next p (pre ++ a :: post)) :
    next a = post.head? := by
  obtain ⟨r, _, _, hpost⟩ := (seg_append pre (a :: post)).mp h
  exact Chain.head hpost

lemma Chain.unique {p : Option α} {l l' : List α} (h : Chain next p l) (h' : Chain next p l') :
    l = l' := by
  induction l generalizing p l' with
  | nil =>
    cases l' with
    | nil => rfl
    | cons b l' =>
      have hp : p = none := h
      exact nomatch hp.symm.trans h'.1
  | cons a l ih =>
    cases l' with
    | nil =>
      have hp : p = none := h'
      exact nomatch hp.symm.trans h.1
    | cons b l' =>
      have hab : a = b := Option.some.inj (h.1.symm.trans h'.1)
      subst hab
      rw [ih h.2 h'.2]

/-! ## The list linked both ways -/

/-- The records `l`, from `root` by `next` and from `tail` by `prev`. -/
structure Doubly (next prev : α → Option α) (root tail : Option α) (l : List α) : Prop where
  nodup : l.Nodup
  forward : Chain next root l
  backward : Chain prev tail l.reverse

lemma Doubly.empty (next prev : α → Option α) : Doubly next prev none none [] :=
  ⟨nodup_nil, rfl, rfl⟩

lemma Doubly.congr {next next' prev prev' : α → Option α} {root tail : Option α}
    (h : Doubly next prev root tail l) (hn : ∀ a ∈ l, next' a = next a)
    (hp : ∀ a ∈ l, prev' a = prev a) : Doubly next' prev' root tail l :=
  ⟨h.nodup, h.forward.congr hn, h.backward.congr fun a ha => hp a (mem_reverse.mp ha)⟩

section Neighbours

variable {next prev : α → Option α} {root tail : Option α} {pre post : List α} {a : α}

lemma Doubly.next_eq (h : Doubly next prev root tail (pre ++ a :: post)) : next a = post.head? :=
  Chain.next_eq h.forward

lemma Doubly.prev_eq (h : Doubly next prev root tail (pre ++ a :: post)) :
    prev a = pre.getLast? := by
  have hback := h.backward
  rw [reverse_append, reverse_cons, append_assoc] at hback
  have hprev : prev a = pre.reverse.head? := Chain.next_eq hback
  rw [hprev, head?_reverse]

end Neighbours

/-! ## Records filed by a key -/

variable {κ : Type*}

/-- The records of `P`, each exactly once on the chain of its key. -/
def Filed (next : α → Option α) (heads : κ → Option α) (key : α → κ) (P : α → Prop) : Prop :=
  ∀ i, ∃ l, Chain next (heads i) l ∧ l.Nodup ∧ ∀ a, a ∈ l ↔ P a ∧ key a = i

lemma Filed.empty (next : α → Option α) (key : α → κ) :
    Filed next (fun _ => none) key (fun _ => False) := by
  intro i
  exact ⟨[], rfl, nodup_nil, fun a => by simp⟩

variable {heads : κ → Option α}

lemma Filed.congr {next next' : α → Option α} {key key' : α → κ} {P P' : α → Prop}
    (h : Filed next heads key P) (hn : ∀ a, P a → next' a = next a) (hk : ∀ a, P a → key' a = key a)
    (hP : ∀ a, P' a ↔ P a) : Filed next' heads key' P' := by
  intro i
  obtain ⟨l, hchain, hnodup, hmem⟩ := h i
  refine ⟨l, hchain.congr (fun a ha => hn a ((hmem a).mp ha).1), hnodup, ?_⟩
  intro a
  rw [hmem, hP]
  constructor
  · rintro ⟨ha, hi⟩
    exact ⟨ha, (hk a ha).trans hi⟩
  · rintro ⟨ha, hi⟩
    exact ⟨ha, (hk a ha).symm.trans hi⟩

variable [DecidableEq α]

/-! ## Cutting a record out -/

/-- The link before a record is set to `v`: the field of the record before it, if
there is one. -/
def relink (next : α → Option α) (before : Option α) (v : Option α) : α → Option α :=
  match before with
  | some p => update next p v
  | none => next

/-- The root is set to `v` if there is no record before. -/
def reroot (root before : Option α) (v : Option α) : Option α :=
  match before with
  | some _ => root
  | none => v

lemma Seg.redirect (h : Seg next p (l ++ [a]) q) (ha : a ∉ l) (q' : Option α) :
    Seg (update next a q') p (l ++ [a]) q' := by
  obtain ⟨r, hl, hr, _⟩ := (seg_append l [a]).mp h
  refine (seg_append l [a]).mpr ⟨r, hl.congr ?_, hr, update_self ..⟩
  intro b hb
  exact update_of_ne (ne_of_mem_of_not_mem hb ha) ..

theorem Chain.cut {root : Option α} (h : Chain next root (pre ++ a :: post))
    (hl : (pre ++ a :: post).Nodup) :
    Chain (relink next pre.getLast? (next a)) (reroot root pre.getLast? (next a))
      (pre ++ post) := by
  obtain ⟨r, hpre, hr, hpost⟩ := (seg_append pre (a :: post)).mp h
  rcases eq_nil_or_concat pre with hnil | ⟨init, p, hp⟩
  · subst hnil
    exact hpost
  · rw [concat_eq_append] at hp
    subst hp
    have hnodup := nodup_append.mp hl
    have hinit : p ∉ init := by
      have hpre' := nodup_append.mp hnodup.1
      intro hmem
      exact hpre'.2.2 p hmem p (mem_singleton_self p) rfl
    have hpost' : ∀ b ∈ post, b ≠ p := by
      intro b hb hbp
      exact hnodup.2.2 p (by simp) b (.tail _ hb) hbp.symm
    rw [getLast?_append_of_ne_nil _ (by simp), getLast?_singleton]
    refine (seg_append (init ++ [p]) post).mpr ⟨next a, hpre.redirect hinit _, ?_⟩
    exact hpost.congr (fun b hb => update_of_ne (hpost' b hb) ..)

section Both

variable {next prev : α → Option α} {root tail : Option α} {pre post : List α} {a : α}

/-- **A record is unlinked**: both neighbours are linked past it, and its own links
are cleared. -/
theorem Doubly.unlink (h : Doubly next prev root tail (pre ++ a :: post)) :
    Doubly (update (relink next (prev a) (next a)) a none)
      (update (relink prev (next a) (prev a)) a none)
      (reroot root (prev a) (next a)) (reroot tail (next a) (prev a)) (pre ++ post) := by
  have hprev := h.prev_eq
  have hnext := h.next_eq
  have hnot : a ∉ pre ++ post := by
    have hmid := nodup_middle.mp h.nodup
    exact (nodup_cons.mp hmid).1
  have hforward := h.forward.cut h.nodup
  have hback : Chain prev tail (post.reverse ++ a :: pre.reverse) := by
    have hrev := h.backward
    rwa [reverse_append, reverse_cons, append_assoc] at hrev
  have hnodup : (post.reverse ++ a :: pre.reverse).Nodup := by
    have hrev := nodup_reverse.mpr h.nodup
    rwa [reverse_append, reverse_cons, append_assoc] at hrev
  have hbackward := Chain.cut hback hnodup
  rw [getLast?_reverse] at hbackward
  rw [← hprev] at hforward
  rw [← hnext] at hbackward
  refine ⟨?_, ?_, ?_⟩
  · exact (nodup_cons.mp (nodup_middle.mp h.nodup)).2
  · exact hforward.congr (fun b hb => update_of_ne (ne_of_mem_of_not_mem hb hnot) ..)
  · rw [reverse_append]
    refine hbackward.congr (fun b hb => ?_)
    rw [← reverse_append, mem_reverse] at hb
    exact update_of_ne (ne_of_mem_of_not_mem hb hnot) ..

theorem Doubly.push (h : Doubly next prev root tail l) (ha : a ∉ l) :
    Doubly (update next a root) (relink (update prev a none) root (some a))
      (some a) (reroot tail root (some a)) (a :: l) := by
  have hroot := Chain.head h.forward
  have hne : ∀ b ∈ l, b ≠ a := fun b hb => ne_of_mem_of_not_mem hb ha
  refine ⟨nodup_cons.mpr ⟨ha, h.nodup⟩, ⟨rfl, ?_⟩, ?_⟩
  · rw [update_self]
    exact h.forward.congr (fun b hb => update_of_ne (hne b hb) ..)
  · have hback : Chain (update prev a none) tail l.reverse :=
      h.backward.congr (fun b hb => update_of_ne (hne b (mem_reverse.mp hb)) ..)
    cases l with
    | nil =>
      rw [hroot]
      exact ⟨rfl, update_self ..⟩
    | cons b l =>
      rw [hroot]
      have hb : b ∉ l.reverse := by
        intro hmem
        exact (nodup_cons.mp h.nodup).1 (mem_reverse.mp hmem)
      rw [reverse_cons] at hback
      have hseg := Seg.redirect hback hb (some a)
      rw [reverse_cons, reverse_cons]
      refine (seg_append _ [a]).mpr ⟨some a, hseg, rfl, ?_⟩
      have hab : a ≠ b := fun hab => ha (hab ▸ mem_cons_self ..)
      show update (update prev a none) b (some a) a = none
      rw [update_of_ne hab, update_self]

end Both

/-! ## Filing a record and taking it off -/

variable [DecidableEq κ]

theorem Filed.push {key : α → κ} {P : α → Prop} (h : Filed next heads key P) (ha : ¬ P a) :
    Filed (update next a (heads (key a))) (update heads (key a) (some a)) key
      (fun b => b = a ∨ P b) := by
  intro i
  obtain ⟨l, hchain, hnodup, hmem⟩ := h i
  have hne : ∀ b ∈ l, b ≠ a := fun b hb hba => ha (hba ▸ ((hmem b).mp hb).1)
  have hchain' : Chain (update next a (heads (key a))) (heads i) l :=
    hchain.congr (fun b hb => update_of_ne (hne b hb) ..)
  by_cases hi : i = key a
  · subst hi
    refine ⟨a :: l, ⟨?_, ?_⟩, nodup_cons.mpr ⟨fun hmem' => hne a hmem' rfl, hnodup⟩, ?_⟩
    · exact update_self ..
    · rw [update_self]
      exact hchain'
    · intro b
      rw [mem_cons, hmem]
      constructor
      · rintro (rfl | ⟨hb, hk⟩)
        · exact ⟨.inl rfl, rfl⟩
        · exact ⟨.inr hb, hk⟩
      · rintro ⟨rfl | hb, hk⟩
        · exact .inl rfl
        · exact .inr ⟨hb, hk⟩
  · refine ⟨l, ?_, hnodup, ?_⟩
    · rw [update_of_ne hi]
      exact hchain'
    · intro b
      rw [hmem]
      constructor
      · rintro ⟨hb, hk⟩
        exact ⟨.inr hb, hk⟩
      · rintro ⟨rfl | hb, hk⟩
        · exact absurd hk.symm hi
        · exact ⟨hb, hk⟩

/-- **A record is taken off its chain** by setting the link before it to the link
behind it. -/
theorem Filed.cut {key : α → κ} {P : α → Prop} (h : Filed next heads key P)
    (hchain : Chain next (heads (key a)) (pre ++ a :: post)) :
    Filed (update (relink next pre.getLast? (next a)) a none)
      (update heads (key a) (reroot (heads (key a)) pre.getLast? (next a))) key
      (fun b => P b ∧ b ≠ a) := by
  obtain ⟨l', hchain', hnodup', hmem'⟩ := h (key a)
  have hl' : l' = pre ++ a :: post := Chain.unique hchain' hchain
  subst hl'
  have hnot := (nodup_cons.mp (nodup_middle.mp hnodup')).1
  intro i
  by_cases hi : i = key a
  · subst hi
    refine ⟨pre ++ post, ?_, (nodup_cons.mp (nodup_middle.mp hnodup')).2, ?_⟩
    · rw [update_self]
      exact (Chain.cut hchain hnodup').congr
        (fun b hb => update_of_ne (ne_of_mem_of_not_mem hb hnot) ..)
    · intro b
      have hb := hmem' b
      rw [mem_append, mem_cons] at hb
      rw [mem_append]
      constructor
      · intro hin
        have hP := hb.mp (hin.imp id Or.inr)
        refine ⟨⟨hP.1, fun hba => hnot ?_⟩, hP.2⟩
        rw [← hba]
        exact mem_append.mpr hin
      · rintro ⟨⟨hPb, hba⟩, hk⟩
        rcases hb.mpr ⟨hPb, hk⟩ with hin | hin | hin
        · exact .inl hin
        · exact absurd hin hba
        · exact .inr hin
  · obtain ⟨l, hl, hnodup, hmem⟩ := h i
    refine ⟨l, ?_, hnodup, ?_⟩
    · rw [update_of_ne hi]
      -- no record of this chain is on the chain that is cut
      have hother : ∀ b ∈ l, b ∉ pre ++ a :: post := by
        intro b hb hin
        exact hi (((hmem b).mp hb).2.symm.trans ((hmem' b).mp hin).2)
      refine hl.congr (fun b hb => ?_)
      have hba : b ≠ a := by
        rintro rfl
        exact hother b hb (by simp)
      rw [update_of_ne hba]
      cases hlast : pre.getLast? with
      | none => rfl
      | some p =>
        have hp : p ∈ pre ++ a :: post := mem_append_left _ (mem_of_getLast? hlast)
        exact update_of_ne (ne_of_mem_of_not_mem hp (hother b hb)).symm ..
    · intro b
      rw [hmem]
      constructor
      · rintro ⟨hPb, hk⟩
        refine ⟨⟨hPb, ?_⟩, hk⟩
        rintro rfl
        exact hi hk.symm
      · rintro ⟨⟨hPb, _⟩, hk⟩
        exact ⟨hPb, hk⟩

end Linked
