/-
The challenge table of the ACME client: what a slot of the shared memory of
`fpm_acme_challenge.c` stands for.

A table is a list of entries with pairwise different tokens and at most eight of
them; an entry carries the bounds `fpm_acme_challenge_set()` checks. The order of
the list is the order of the slot: an entry is put over the one with its token or
behind the last one, and an entry that goes leaves a hole the last one is moved
into. As a finite map from tokens to key authorizations none of that shows
(`find_insert`, `find_remove`).
-/
import Mathlib.Data.List.Nodup
import Mathlib.Data.List.Induction
import Mathlib.Data.List.Perm.Basic

open List Option

namespace FpmNg.AcmeTable

/-! ## Entries and tables -/

/-- `FPM_ACME_CHALLENGE_TOKEN_MAX`. -/
abbrev TOKEN_MAX : ℕ := 128

/-- `FPM_ACME_CHALLENGE_KEYAUTH_MAX`. -/
abbrev KEYAUTH_MAX : ℕ := 512

/-- `FPM_ACME_CHALLENGE_MAX`. -/
abbrev CHALLENGE_MAX : ℕ := 8

structure CStr where
  bytes : List ℕ
  nonzero : ∀ b ∈ bytes, b ≠ 0
  deriving DecidableEq

/-- `strlen()`. -/
def CStr.strlen (s : CStr) : ℕ := s.bytes.length

@[ext] lemma CStr.ext {s t : CStr} (h : s.bytes = t.bytes) : s = t := by
  cases s
  cases t
  simp only [CStr.mk.injEq] at h ⊢
  exact h

/-- An entry that `fpm_acme_challenge_set()` lets into the table. -/
structure Entry where
  token : CStr
  keyauth : CStr
  token_fits : 0 < token.strlen ∧ token.strlen < TOKEN_MAX
  keyauth_fits : 0 < keyauth.strlen ∧ keyauth.strlen < KEYAUTH_MAX
  deriving DecidableEq

/-- **A table**: pairwise different tokens, at most `CHALLENGE_MAX` of them. -/
structure Table where
  entries : List Entry
  unique : (entries.map (·.token)).Nodup
  bounded : entries.length ≤ CHALLENGE_MAX
  deriving DecidableEq

def Table.find (T : Table) (t : CStr) : Option CStr :=
  (T.entries.find? (fun e => e.token = t)).map (·.keyauth)

def Table.empty : Table := ⟨[], nodup_nil, Nat.zero_le _⟩

lemma Table.find_eq_some_iff (T : Table) (t k : CStr) :
    T.find t = some k ↔ ∃ e ∈ T.entries, e.token = t ∧ e.keyauth = k := by
  unfold Table.find
  constructor
  · intro h
    obtain ⟨e, he, hk⟩ := map_eq_some_iff.mp h
    have htok := find?_some he
    exact ⟨e, mem_of_find?_eq_some he, of_decide_eq_true htok, hk⟩
  · rintro ⟨e, he, rfl, rfl⟩
    cases hf : T.entries.find? (fun e' => e'.token = e.token) with
    | none =>
      have hno := find?_eq_none.mp hf e he
      exact absurd (decide_eq_true rfl) hno
    | some e' =>
      -- the tokens are unique, so the first entry with the token is this one
      have hfound := find?_some hf
      have htok := of_decide_eq_true hfound
      have heq := inj_on_of_nodup_map T.unique (mem_of_find?_eq_some hf) he htok
      rw [heq]
      rfl

/-! ## Putting an entry in and taking one out -/

def position (l : List Entry) (t : CStr) : ℕ := l.findIdx (fun e => e.token = t)

/-- The entries with `e` in them: over the entry with its token, or behind the last. -/
def inserted (l : List Entry) (e : Entry) : List Entry :=
  if position l e.token < l.length then l.set (position l e.token) e else l ++ [e]

def removed (l : List Entry) (t : CStr) : List Entry :=
  match l.getLast? with
  | none => l
  | some last => if position l t < l.length then (l.set (position l t) last).dropLast else l

/-! ## The table as a finite map -/

lemma position_lt_iff (l : List Entry) (t : CStr) :
    position l t < l.length ↔ ∃ e ∈ l, e.token = t := by
  unfold position
  rw [findIdx_lt_length]
  constructor
  · rintro ⟨e, he, h⟩
    exact ⟨e, he, of_decide_eq_true h⟩
  · rintro ⟨e, he, h⟩
    exact ⟨e, he, decide_eq_true h⟩

variable {l : List Entry} {t : CStr}

lemma getElem_position (h : position l t < l.length) : (l[position l t]).token = t := by
  have hp := findIdx_getElem (w := h)
  exact of_decide_eq_true hp

variable {e : Entry}

lemma index_of_token (hu : (l.map (·.token)).Nodup) {i : ℕ} (he : l[i]? = some e)
    (ht : e.token = t) : i = position l t := by
  obtain ⟨hi, hget⟩ := List.getElem?_eq_some_iff.mp he
  have hp : position l t < l.length :=
    (position_lt_iff l t).mpr ⟨e, mem_of_getElem? he, ht⟩
  have hi' : i < (l.map (·.token)).length := by rw [length_map]; exact hi
  have hp' : position l t < (l.map (·.token)).length := by rw [length_map]; exact hp
  have hsame : (l.map (·.token))[i] = (l.map (·.token))[position l t] := by
    rw [getElem_map, getElem_map, getElem_position hp, hget, ht]
  exact (Nodup.getElem_inj_iff hu).mp hsame

lemma inserted_tokens_new (h : ¬ position l e.token < l.length) :
    (inserted l e).map (·.token) = l.map (·.token) ++ [e.token] := by
  rw [inserted, if_neg h, map_append]
  rfl

lemma inserted_tokens_old (h : position l e.token < l.length) :
    (inserted l e).map (·.token) = l.map (·.token) := by
  rw [inserted, if_pos h, map_set]
  apply ext_getElem?
  intro k
  by_cases hk : position l e.token = k
  · rw [← hk, getElem?_set_self (by rw [length_map]; exact h), getElem?_map,
      getElem?_eq_getElem h, map_some, getElem_position h]
  · rw [getElem?_set_ne hk]

lemma inserted_unique (hu : (l.map (·.token)).Nodup) (e : Entry) :
    ((inserted l e).map (·.token)).Nodup := by
  by_cases h : position l e.token < l.length
  · rw [inserted_tokens_old h]
    exact hu
  · rw [inserted_tokens_new h]
    refine nodup_append.mpr ⟨hu, nodup_singleton _, ?_⟩
    intro t ht t' ht' heq
    obtain ⟨e', he', htok⟩ := mem_map.mp ht
    rw [mem_singleton.mp ht'] at heq
    exact h ((position_lt_iff l e.token).mpr ⟨e', he', htok.trans heq⟩)

lemma mem_inserted (hu : (l.map (·.token)).Nodup) (e e' : Entry) :
    e' ∈ inserted l e ↔ e' = e ∨ (e' ∈ l ∧ e'.token ≠ e.token) := by
  unfold inserted
  split
  · next h =>
    rw [mem_iff_getElem?, mem_iff_getElem?]
    constructor
    · rintro ⟨k, hk⟩
      by_cases hki : position l e.token = k
      · rw [← hki, getElem?_set_self h] at hk
        exact .inl (some.inj hk).symm
      · rw [getElem?_set_ne hki] at hk
        exact .inr ⟨⟨k, hk⟩, fun ht => hki (index_of_token hu hk ht).symm⟩
    · rintro (rfl | ⟨⟨k, hk⟩, ht⟩)
      · exact ⟨_, getElem?_set_self h⟩
      · refine ⟨k, ?_⟩
        rw [getElem?_set_ne, hk]
        intro hki
        rw [← hki, getElem?_eq_getElem h] at hk
        rw [← some.inj hk] at ht
        exact ht (getElem_position h)
  · next h =>
    have hno : ∀ e' ∈ l, e'.token ≠ e.token := fun e' he' ht =>
      h ((position_lt_iff l e.token).mpr ⟨e', he', ht⟩)
    rw [mem_append, mem_singleton]
    constructor
    · rintro (he' | rfl)
      · exact .inr ⟨he', hno e' he'⟩
      · exact .inl rfl
    · rintro (rfl | ⟨he', _⟩)
      · exact .inr rfl
      · exact .inl he'

lemma dropLast_set_perm {α : Type} (l : List α) {i : ℕ} (hi : i < l.length) {last : α}
    (hlast : l.getLast? = some last) : ((l.set i last).dropLast).Perm (l.eraseIdx i) := by
  induction l using reverseRecOn with
  | nil => simp at hi
  | append_singleton as x _ =>
    have hx : x = last := by simpa using hlast
    subst hx
    rw [length_append, length_singleton] at hi
    rcases Nat.lt_or_ge i as.length with hlt | hge
    · rw [set_append_left _ _ hlt, dropLast_concat, eraseIdx_append_of_lt_length hlt]
      exact (set_perm_cons_eraseIdx hlt x).trans (perm_append_singleton _ _).symm
    · have heq : i = as.length := by omega
      rw [heq, set_append_right _ _ (Nat.le_refl _), eraseIdx_append_of_length_le (Nat.le_refl _)]
      simp

lemma removed_perm (h : position l t < l.length) :
    (removed l t).Perm (l.eraseIdx (position l t)) := by
  unfold removed
  cases hlast : l.getLast? with
  | none =>
    rw [getLast?_eq_none_iff.mp hlast] at h
    simp at h
  | some last =>
    simp only [if_pos h]
    exact dropLast_set_perm l h hlast

lemma removed_none (h : ¬ position l t < l.length) : removed l t = l := by
  unfold removed
  split
  · rfl
  · rw [if_neg h]

lemma removed_unique (hu : (l.map (·.token)).Nodup) (t : CStr) :
    ((removed l t).map (·.token)).Nodup := by
  by_cases h : position l t < l.length
  · refine ((removed_perm h).map _).nodup_iff.mpr ?_
    exact hu.sublist ((eraseIdx_sublist l _).map _)
  · rw [removed_none h]
    exact hu

lemma mem_removed (hu : (l.map (·.token)).Nodup) (t : CStr) (e : Entry) :
    e ∈ removed l t ↔ e ∈ l ∧ e.token ≠ t := by
  by_cases h : position l t < l.length
  · rw [(removed_perm h).mem_iff, mem_eraseIdx_iff_getElem?]
    constructor
    · rintro ⟨k, hk, hget⟩
      exact ⟨mem_of_getElem? hget, fun ht => hk (index_of_token hu hget ht)⟩
    · rintro ⟨he, ht⟩
      obtain ⟨k, hk⟩ := mem_iff_getElem?.mp he
      refine ⟨k, ?_, hk⟩
      rintro rfl
      rw [getElem?_eq_getElem h] at hk
      rw [← some.inj hk] at ht
      exact ht (getElem_position h)
  · rw [removed_none h]
    constructor
    · intro he
      exact ⟨he, fun ht => h ((position_lt_iff l t).mpr ⟨e, he, ht⟩)⟩
    · exact fun he => he.1

lemma removed_length (l : List Entry) (t : CStr) : (removed l t).length ≤ l.length := by
  by_cases h : position l t < l.length
  · rw [(removed_perm h).length_eq]
    exact (eraseIdx_sublist l _).length_le
  · exact Nat.le_of_eq (congrArg length (removed_none h))

def Table.insert (T : Table) (e : Entry) : Option Table :=
  if h : position T.entries e.token = T.entries.length ∧ T.entries.length = CHALLENGE_MAX then none
  else some
    { entries := inserted T.entries e
      unique := inserted_unique T.unique e
      bounded := by
        have hb := T.bounded
        unfold inserted
        split
        · rw [length_set]
          exact hb
        · have hp : position T.entries e.token ≤ T.entries.length := findIdx_le_length
          rw [length_append, length_singleton]
          omega }

lemma Table.insert_room {T : Table}
    (h : ¬ (position T.entries e.token = T.entries.length ∧ T.entries.length = CHALLENGE_MAX)) :
    ∃ T', T.insert e = some T' ∧ T'.entries = inserted T.entries e := by
  unfold Table.insert
  rw [dif_neg h]
  exact ⟨_, rfl, rfl⟩

def Table.remove (T : Table) (t : CStr) : Table where
  entries := removed T.entries t
  unique := removed_unique T.unique t
  bounded := Nat.le_trans (removed_length T.entries t) T.bounded

lemma Table.find_insert {T T' : Table} (h : T.insert e = some T') (t : CStr) :
    T'.find t = if t = e.token then some e.keyauth else T.find t := by
  unfold Table.insert at h
  split at h
  · simp at h
  · have hT' := some.inj h
    apply ext
    intro k
    rw [Table.find_eq_some_iff, ← hT']
    simp only [mem_inserted T.unique]
    constructor
    · rintro ⟨e', rfl | ⟨he', hne⟩, ht, hk⟩
      · rw [if_pos ht.symm, hk]
      · rw [if_neg (fun heq => hne (ht.trans heq))]
        exact (T.find_eq_some_iff t k).mpr ⟨e', he', ht, hk⟩
    · intro hk
      split at hk
      · next ht => exact ⟨e, .inl rfl, ht.symm, some.inj hk⟩
      · next ht =>
        obtain ⟨e', he', htok, hkey⟩ := (T.find_eq_some_iff t k).mp hk
        exact ⟨e', .inr ⟨he', fun heq => ht (htok.symm.trans heq)⟩, htok, hkey⟩

lemma Table.find_remove (T : Table) (t t' : CStr) :
    (T.remove t).find t' = if t' = t then none else T.find t' := by
  apply ext
  intro k
  rw [Table.find_eq_some_iff]
  simp only [Table.remove, mem_removed T.unique]
  constructor
  · rintro ⟨e, ⟨he, hne⟩, ht, hk⟩
    rw [if_neg (fun heq => hne (ht.trans heq))]
    exact (T.find_eq_some_iff t' k).mpr ⟨e, he, ht, hk⟩
  · intro hk
    split at hk
    · simp at hk
    · next hne =>
      obtain ⟨e, he, htok, hkey⟩ := (T.find_eq_some_iff t' k).mp hk
      exact ⟨e, ⟨he, fun heq => hne (htok.symm.trans heq)⟩, htok, hkey⟩

end FpmNg.AcmeTable
