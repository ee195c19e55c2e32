/-
The tracker's structures and what its handlers do to them.

`Described s l` says that the list, its tail, the index and the counter of `s` all
describe the records `l`, each once, that exactly these are allocated, and that the
events and bufferevent references belong to them. Each function of the tracker has
one lemma (`_run`) from such a state: it does not touch a freed record, what it does
to `l`, and what it does to the records. A whole run then keeps the description, up
to the one step that breaks it: the pickup of a connection evhttp has let go of.
-/
import Mathlib.Data.List.Induction
import Mathlib.Data.List.Perm.Subperm
import FpmNg.ConnTracker
import FpmNg.Lib.Linked

open List Function Option

namespace FpmNg.ConnTracker

open Linked Tracker

/-! ## The description -/

/-- The bucket of the record at `a`, among `count`. -/
def key (conn : ℕ → Option Conn) (count a : ℕ) : ℕ :=
  bucket count (((conn a).map Conn.bev).getD 0)

/-- **The tracker describes the connections `l`.** -/
structure Described (s : Tracker) (l : List ℕ) : Prop where
  doubly : Doubly s.next s.prev s.list s.tail l
  alive : ∀ a, (s.conn a).isSome ↔ a ∈ l
  filed : Filed s.hash_next s.buckets (key s.conn s.bucket_count) (· ∈ l)
  indexed : s.bucket_count = 0 → l = []
  live : s.live = l.length
  owner : ∀ a c, s.conn a = some c → s.refs c.bev = 1
  distinct : ∀ a b c d, s.conn a = some c → s.conn b = some d → c.bev = d.bev → a = b
  watched : ∀ a w, s.watch a = some w → ∃ c, s.conn a = some c
    ∧ (w = .first_byte → c.has_deadline = true)
  armed : ∀ a, s.deadline a = true → (s.conn a).isSome

lemma Described.new : Described Tracker.new [] where
  doubly := Doubly.empty _ _
  alive := fun a => by simp [Tracker.new]
  filed := (Filed.empty (fun _ => none) (key Tracker.new.conn 0)).congr (fun _ h => h.elim)
    (fun _ h => h.elim) (fun a => by simp)
  indexed := fun _ => rfl
  live := rfl
  owner := by simp [Tracker.new]
  distinct := by simp [Tracker.new]
  watched := by simp [Tracker.new]
  armed := by simp [Tracker.new]

variable {c : Conn} {conn : ℕ → Option Conn} {count : ℕ}

section Structures

variable {s : Tracker} {l pre post : List ℕ} {a : ℕ}

lemma Described.conn_some (h : Described s l) (ha : a ∈ l) : ∃ c, s.conn a = some c :=
  isSome_iff_exists.mp ((h.alive a).mpr ha)

lemma Described.mem (h : Described s l) (hc : s.conn a = some c) : a ∈ l :=
  (h.alive a).mp (by rw [hc]; rfl)

lemma Described.tail_eq (h : Described s l) : s.tail = l.getLast? := by
  have hhead := Chain.head h.doubly.backward
  rwa [head?_reverse] at hhead

/-! ## The list -/

lemma set_next_eq (hc : s.conn a = some c) (v : Option ℕ) :
    s.set_next a v = some { s with next := update s.next a v } := by
  rw [set_next, hc, map_some]

lemma set_prev_eq (hc : s.conn a = some c) (v : Option ℕ) :
    s.set_prev a v = some { s with prev := update s.prev a v } := by
  rw [set_prev, hc, map_some]

lemma set_hash_next_eq (hc : s.conn a = some c) (v : Option ℕ) :
    s.set_hash_next a v = some { s with hash_next := update s.hash_next a v } := by
  rw [set_hash_next, hc, map_some]

lemma unlink_prev_eq (hp : ∀ p, s.prev a = some p → (s.conn p).isSome) :
    unlink_prev s a = some { s with
      next := relink s.next (s.prev a) (s.next a)
      list := reroot s.list (s.prev a) (s.next a) } := by
  unfold unlink_prev
  cases hprev : s.prev a with
  | none => rfl
  | some p =>
    obtain ⟨d, hd⟩ := isSome_iff_exists.mp (hp p hprev)
    exact set_next_eq hd _

lemma unlink_next_eq (hn : ∀ n, s.next a = some n → (s.conn n).isSome) :
    unlink_next s a = some { s with
      prev := relink s.prev (s.next a) (s.prev a)
      tail := reroot s.tail (s.next a) (s.prev a) } := by
  unfold unlink_next
  cases hnext : s.next a with
  | none => rfl
  | some n =>
    obtain ⟨d, hd⟩ := isSome_iff_exists.mp (hn n hnext)
    exact set_prev_eq hd _

lemma unlink_eq (hc : s.conn a = some c) (hp : ∀ p, s.prev a = some p → p ≠ a ∧ (s.conn p).isSome)
    (hn : ∀ n, s.next a = some n → (s.conn n).isSome) :
    unlink s a = some { s with
      next := update (relink s.next (s.prev a) (s.next a)) a none
      prev := update (relink s.prev (s.next a) (s.prev a)) a none
      list := reroot s.list (s.prev a) (s.next a)
      tail := reroot s.tail (s.next a) (s.prev a) } := by
  -- the record's own link is still there when it is read again
  have hkeep : relink s.next (s.prev a) (s.next a) a = s.next a := by
    cases hprev : s.prev a with
    | none => rfl
    | some p => exact update_of_ne (hp p hprev).1.symm ..
  unfold unlink
  simp only [hc, bind_eq_bind, bind_some, unlink_prev_eq (fun p h => (hp p h).2)]
  rw [unlink_next_eq, bind_some, set_next_eq, bind_some, set_prev_eq]
  · simp [hkeep]
  · exact hc
  · exact hc
  · intro n h
    exact hn n (hkeep ▸ h)

lemma unlink_run (h : Doubly s.next s.prev s.list s.tail (pre ++ a :: post))
    (halive : ∀ b ∈ pre ++ a :: post, (s.conn b).isSome) :
    ∃ next prev list tail,
      unlink s a = some { s with next := next, prev := prev, list := list, tail := tail }
      ∧ Doubly next prev list tail (pre ++ post) := by
  obtain ⟨c, hc⟩ := isSome_iff_exists.mp (halive a (by simp))
  have hnot := (nodup_cons.mp (nodup_middle.mp h.nodup)).1
  refine ⟨_, _, _, _, unlink_eq hc ?_ ?_, h.unlink⟩
  · intro p hp
    rw [h.prev_eq] at hp
    have hmem : p ∈ pre := mem_of_getLast? hp
    exact ⟨ne_of_mem_of_not_mem (mem_append_left _ hmem) hnot,
      halive p (mem_append_left _ hmem)⟩
  · intro n hn
    rw [h.next_eq] at hn
    have hmem : n ∈ post := mem_of_head? hn
    exact halive n (mem_append_right _ (.tail _ hmem))

lemma link_back_eq (hb : ∀ b, s.list = some b → (s.conn b).isSome) :
    link_back s a = some { s with
      prev := relink s.prev s.list (some a)
      tail := reroot s.tail s.list (some a) } := by
  unfold link_back
  cases hlist : s.list with
  | none => rfl
  | some b =>
    obtain ⟨d, hd⟩ := isSome_iff_exists.mp (hb b hlist)
    show s.set_prev b (some a) = _
    rw [set_prev_eq hd, hlist]
    rfl

lemma link_front_run (h : Doubly s.next s.prev s.list s.tail l) (ha : a ∉ l)
    (halive : ∀ b ∈ a :: l, (s.conn b).isSome) :
    ∃ next prev list tail,
      link_front s a = some { s with next := next, prev := prev, list := list, tail := tail }
      ∧ Doubly next prev list tail (a :: l) := by
  obtain ⟨c, hc⟩ := isSome_iff_exists.mp (halive a (.head _))
  have hhead := Chain.head h.forward
  refine ⟨_, _, _, _, ?_, h.push ha⟩
  unfold link_front
  simp only [set_prev_eq hc, bind_eq_bind, bind_some]
  rw [set_next_eq, bind_some, link_back_eq]
  · rfl
  · intro b hb
    have hmem : b ∈ l := mem_of_head? (hhead.symm.trans hb)
    exact halive b (.tail _ hmem)
  · exact hc

/-! ## The index -/

lemma key_eq (hc : conn a = some c) (count : ℕ) : key conn count a = bucket count c.bev := by
  rw [key, hc]
  rfl

lemma bucket_lt (h : count ≠ 0) (bev : ℕ) : bucket count bev < count := by
  have hle : bucket count bev ≤ count - 1 := Nat.and_le_right
  omega

lemma chain_length {li : List ℕ} (hnodup : li.Nodup) (hsub : ∀ b ∈ li, b ∈ l) :
    li.length ≤ l.length :=
  (subperm_of_subset hnodup hsub).length_le

lemma find_loop_run {bev fuel : ℕ} {p : Option ℕ} {li : List ℕ} (hchain : Chain s.hash_next p li)
    (halive : ∀ b ∈ li, (s.conn b).isSome) (hfuel : li.length ≤ fuel) :
    find_loop s bev fuel p = some (li.find? fun b => (s.conn b).any (·.bev = bev)) := by
  induction li generalizing p fuel with
  | nil =>
    have hp : p = none := hchain
    subst hp
    cases fuel <;> rfl
  | cons b li ih =>
    obtain ⟨hp, hrest⟩ := hchain
    subst hp
    obtain ⟨c, hc⟩ := isSome_iff_exists.mp (halive b (.head _))
    cases fuel with
    | zero => simp at hfuel
    | succ fuel =>
      rw [find_loop, hc, bind_eq_bind, bind_some, find?_cons, hc, any_some]
      by_cases hbev : c.bev = bev
      · rw [if_pos hbev, decide_eq_true hbev]
      · rw [if_neg hbev, decide_eq_false hbev]
        exact ih hrest (fun d hd => halive d (.tail _ hd))
          (Nat.le_of_succ_le_succ hfuel)

lemma index_find_run (h : Described s l) (bev : ℕ) :
    ∃ r, index_find s bev = some r ∧ ∀ b, r = some b → ∃ c, s.conn b = some c ∧ c.bev = bev := by
  unfold index_find
  by_cases hcount : s.bucket_count = 0
  · rw [if_pos hcount]
    exact ⟨none, rfl, by simp⟩
  · obtain ⟨li, hchain, hnodup, hmem⟩ := h.filed (bucket s.bucket_count bev)
    have hsub : ∀ b ∈ li, b ∈ l := fun b hb => ((hmem b).mp hb).1
    have hlen := chain_length hnodup hsub
    rw [if_neg hcount, find_loop_run hchain (fun b hb => (h.alive b).mpr (hsub b hb))
      (by rw [h.live]; omega)]
    refine ⟨_, rfl, ?_⟩
    intro b hb
    have hfound := find?_some hb
    obtain ⟨c, hc, hbev⟩ := any_eq_true _ _ |>.mp hfound
    exact ⟨c, hc, of_decide_eq_true hbev⟩

lemma seek_run {fuel : ℕ} {p : Place} {v : Option ℕ} (hload : s.load p = some v)
    (hchain : Chain s.hash_next v (pre ++ a :: post)) (ha : a ∉ pre)
    (halive : ∀ b ∈ pre, (s.conn b).isSome) (hfuel : pre.length < fuel) :
    seek s a fuel p = some (match pre.getLast? with | none => p | some b => .field b) := by
  induction pre generalizing p v fuel with
  | nil =>
    obtain ⟨hv, _⟩ := hchain
    cases fuel with
    | zero => simp at hfuel
    | succ fuel =>
      rw [seek, hload, bind_eq_bind, bind_some, hv]
      simp
  | cons b pre ih =>
    obtain ⟨hv, hrest⟩ := hchain
    obtain ⟨c, hc⟩ := isSome_iff_exists.mp (halive b (.head _))
    have hba : b ≠ a := fun hba => ha (hba ▸ mem_cons_self ..)
    cases fuel with
    | zero => simp at hfuel
    | succ fuel =>
      have hnext : s.load (.field b) = some (s.hash_next b) := by
        rw [load, hc, map_some]
      rw [seek, hload, bind_eq_bind, bind_some, hv]
      simp only [if_neg hba]
      rw [ih hnext hrest (fun h => ha (.tail _ h))
        (fun d hd => halive d (.tail _ hd)) (Nat.lt_of_succ_lt_succ hfuel)]
      rw [getLast?_cons]
      cases pre.getLast? with
      | none => rfl
      | some d => rfl

lemma index_remove_run (hfiled : Filed s.hash_next s.buckets (key s.conn s.bucket_count) (· ∈ l))
    (halive : ∀ b ∈ l, (s.conn b).isSome) (hlive : l.length ≤ s.live) (ha : a ∈ l) :
    ∃ hash_next buckets,
      index_remove s a = some { s with hash_next := hash_next, buckets := buckets }
      ∧ Filed hash_next buckets (key s.conn s.bucket_count) (fun b => b ∈ l ∧ b ≠ a) := by
  obtain ⟨c, hc⟩ := isSome_iff_exists.mp (halive a ha)
  obtain ⟨li, hchain, hnodup, hmem⟩ := hfiled (key s.conn s.bucket_count a)
  have hin : a ∈ li := (hmem a).mpr ⟨ha, rfl⟩
  -- the chain is cut where the record stands, so all of `pre` is walked past
  obtain ⟨pre, post, hsplit⟩ := append_of_mem hin
  subst hsplit
  have hlen := chain_length hnodup (fun b hb => ((hmem b).mp hb).1)
  have hnot : a ∉ pre := fun hpre =>
    (nodup_cons.mp (nodup_middle.mp hnodup)).1 (mem_append_left _ hpre)
  have hpre : ∀ b ∈ pre, (s.conn b).isSome := fun b hb =>
    halive b ((hmem b).mp (mem_append_left _ hb)).1
  have hseek : seek s a (s.live + 1) (.head (key s.conn s.bucket_count a)) = _ :=
    seek_run rfl hchain hnot hpre (by rw [length_append] at hlen; omega)
  refine ⟨_, _, ?_, hfiled.cut hchain⟩
  unfold index_remove
  simp only [hc, bind_eq_bind, bind_some, ← key_eq hc, hseek]
  -- the link to change is the bucket itself, or that of the record before
  cases hlast : pre.getLast? with
  | none =>
    have hnil : pre = [] := getLast?_eq_none_iff.mp hlast
    subst hnil
    have hv : s.buckets (key s.conn s.bucket_count a) = some a := hchain.1
    have hclear : ∀ b, set_hash_next { s with buckets := b } a none = _ := fun b =>
      set_hash_next_eq (s := { s with buckets := b }) hc none
    simp only [load, bind_some, hv, isSome_some, if_true, store,
      hclear]
    rfl
  | some b =>
    have hb : b ∈ pre := mem_of_getLast? hlast
    obtain ⟨d, hd⟩ := isSome_iff_exists.mp (hpre b hb)
    obtain ⟨init, hinit⟩ := getLast?_eq_some_iff.mp hlast
    subst hinit
    rw [append_assoc] at hchain
    have hv : s.hash_next b = some a := Chain.next_eq hchain
    have hclear : ∀ f, set_hash_next { s with hash_next := f } a none = _ := fun f =>
      set_hash_next_eq (s := { s with hash_next := f }) hc none
    simp only [load, hd, map_some, bind_some, hv, isSome_some, if_true,
      store, set_hash_next_eq hd, hclear, reroot, update_eq_self]
    rfl

lemma grow_chain_run (count fuel : ℕ) {p : Option ℕ} {rest : List ℕ} {new : ℕ → Option ℕ}
    {P : ℕ → Prop} (hfiled : Filed s.hash_next new (key s.conn count) P)
    (hchain : Chain s.hash_next p rest) (hnodup : rest.Nodup) (hnew : ∀ b ∈ rest, ¬ P b)
    (halive : ∀ b ∈ rest, (s.conn b).isSome) (hfuel : rest.length ≤ fuel) :
    ∃ hash_next new',
      grow_chain count fuel p (s, new) = some ({ s with hash_next := hash_next }, new')
      ∧ Filed hash_next new' (key s.conn count) (fun b => P b ∨ b ∈ rest)
      ∧ ∀ b, b ∉ rest → hash_next b = s.hash_next b := by
  -- each record of the old chain goes to the front of its new one
  induction rest generalizing s p fuel new P with
  | nil =>
    have hp : p = none := hchain
    subst hp
    refine ⟨s.hash_next, new, by cases fuel <;> rfl, ?_, fun b _ => rfl⟩
    exact hfiled.congr (fun _ _ => rfl) (fun _ _ => rfl) (fun b => by simp)
  | cons b rest ih =>
    obtain ⟨hp, hrest⟩ := hchain
    subst hp
    obtain ⟨c, hc⟩ := isSome_iff_exists.mp (halive b (.head _))
    obtain ⟨hb, hnodup'⟩ := nodup_cons.mp hnodup
    cases fuel with
    | zero => simp at hfuel
    | succ fuel =>
      have hpush := hfiled.push (hnew b (.head _))
      rw [key_eq hc] at hpush
      obtain ⟨hash_next, new', hrun, hfiled', hother⟩ :=
        ih fuel (s := { s with hash_next := update s.hash_next b (new (bucket count c.bev)) })
          hpush
          (hrest.congr fun d hd => update_of_ne (ne_of_mem_of_not_mem hd hb) ..) hnodup'
          (by
            rintro d hd (rfl | hP)
            · exact hb hd
            · exact hnew d (.tail _ hd) hP)
          (fun d hd => halive d (.tail _ hd)) (Nat.le_of_succ_le_succ hfuel)
      refine ⟨hash_next, new', ?_, ?_, ?_⟩
      · simp only [grow_chain, hc, bind_eq_bind, bind_some, set_hash_next_eq hc]
        exact hrun
      · refine hfiled'.congr (fun _ _ => rfl) (fun _ _ => rfl) (fun d => ?_)
        rw [mem_cons]
        tauto
      · intro d hd
        rw [hother d (fun h => hd (.tail _ h))]
        exact update_of_ne (ne_of_mem_of_not_mem (mem_cons_self ..) hd).symm ..

lemma grow_buckets_run (count : ℕ)
    (hfiled : Filed s.hash_next s.buckets (key s.conn s.bucket_count) (· ∈ l))
    (halive : ∀ b ∈ l, (s.conn b).isSome) (hlive : l.length ≤ s.live) (n : ℕ) :
    ∃ hash_next new,
      grow_buckets count s n = some ({ s with hash_next := hash_next }, new)
      ∧ Filed hash_next new (key s.conn count) (fun b => b ∈ l ∧ key s.conn s.bucket_count b < n)
      ∧ ∀ b, n ≤ key s.conn s.bucket_count b → hash_next b = s.hash_next b := by
  induction n with
  | zero =>
    refine ⟨s.hash_next, fun _ => none, rfl, ?_, fun b _ => rfl⟩
    exact (Filed.empty s.hash_next (key s.conn count)).congr (fun _ h => h.elim)
      (fun _ h => h.elim) (fun b => by simp)
  | succ n ih =>
    obtain ⟨hash_next, new, hrun, hfiled', hother⟩ := ih
    obtain ⟨li, hchain, hnodup, hmem⟩ := hfiled n
    have hlen := chain_length hnodup (fun b hb => ((hmem b).mp hb).1)
    have hkey : ∀ b ∈ li, key s.conn s.bucket_count b = n := fun b hb => ((hmem b).mp hb).2
    -- the chains above `n` have not been touched yet
    obtain ⟨hash_next', new', hrun', hfiled'', hother'⟩ :=
      grow_chain_run count (s.live + 1) (s := { s with hash_next := hash_next }) hfiled'
        (hchain.congr fun b hb => hother b (le_of_eq (hkey b hb).symm)) hnodup
        (by
          rintro b hb ⟨_, hlt⟩
          exact lt_irrefl n (hkey b hb ▸ hlt))
        (fun b hb => halive b ((hmem b).mp hb).1) (by omega)
    refine ⟨hash_next', new', ?_, ?_, ?_⟩
    · simp only [grow_buckets, hrun, bind_eq_bind, bind_some]
      exact hrun'
    · refine hfiled''.congr (fun _ _ => rfl) (fun _ _ => rfl) (fun b => ?_)
      rw [hmem]
      constructor
      · rintro ⟨hb, hlt⟩
        rcases Nat.lt_succ_iff_lt_or_eq.mp hlt with h | h
        · exact .inl ⟨hb, h⟩
        · exact .inr ⟨hb, h⟩
      · rintro (⟨hb, hlt⟩ | ⟨hb, heq⟩)
        · exact ⟨hb, by omega⟩
        · exact ⟨hb, by omega⟩
    · intro b hb
      have hnot : b ∉ li := fun hin => by
        have := hkey b hin
        omega
      exact (hother' b hnot).trans (hother b (by omega))

lemma index_grow_run (hfiled : Filed s.hash_next s.buckets (key s.conn s.bucket_count) (· ∈ l))
    (halive : ∀ b ∈ l, (s.conn b).isSome) (hlive : l.length ≤ s.live)
    (hindexed : s.bucket_count = 0 → l = []) (ok : Bool) :
    ∃ hash_next buckets count,
      index_grow s ok
        = some { s with hash_next := hash_next, buckets := buckets, bucket_count := count }
      ∧ Filed hash_next buckets (key s.conn count) (· ∈ l) ∧ (count = 0 → l = []) := by
  unfold index_grow
  generalize hcount : (if s.bucket_count ≠ 0 then s.bucket_count * 2 % 18446744073709551616
    else INDEX_INITIAL_BUCKETS) = count
  have hpos : ¬ count < s.bucket_count → count ≠ 0 := by
    intro hlt
    by_cases hzero : s.bucket_count = 0
    · rw [if_neg (not_not.mpr hzero)] at hcount
      have h64 : INDEX_INITIAL_BUCKETS = 64 := rfl
      omega
    · omega
  by_cases hsize : count < s.bucket_count ∨ MAX_BUCKETS < count
  · simp only [if_pos hsize]
    exact ⟨_, _, _, rfl, hfiled, hindexed⟩
  · by_cases hok : ok = false
    · simp only [if_neg hsize, if_pos hok]
      exact ⟨_, _, _, rfl, hfiled, hindexed⟩
    · obtain ⟨hash_next, new, hrun, hfiled', _⟩ :=
        grow_buckets_run count hfiled halive hlive s.bucket_count
      simp only [if_neg hsize, if_neg hok, hrun, bind_eq_bind, bind_some]
      refine ⟨_, _, _, rfl, ?_, fun h => absurd h (hpos fun hlt => hsize (.inl hlt))⟩
      refine hfiled'.congr (fun _ _ => rfl) (fun _ _ => rfl) (fun b => ⟨fun hb => ⟨hb, ?_⟩, And.left⟩)
      -- every record is in one of the old buckets
      have hne : s.bucket_count ≠ 0 := fun hzero => by
        rw [hindexed hzero] at hb
        simp at hb
      exact bucket_lt hne _

lemma index_insert_run (hfiled : Filed s.hash_next s.buckets (key s.conn s.bucket_count) (· ∈ l))
    (halive : ∀ b ∈ l, (s.conn b).isSome) (hlive : l.length ≤ s.live)
    (hindexed : s.bucket_count = 0 → l = []) (ok : Bool) (hc : s.conn a = some c) (ha : a ∉ l) :
    ∃ done hash_next buckets count,
      index_insert s a ok
        = some (done, { s with hash_next := hash_next, buckets := buckets, bucket_count := count })
      ∧ (done = false → Filed hash_next buckets (key s.conn count) (· ∈ l) ∧ (count = 0 → l = []))
      ∧ (done = true → Filed hash_next buckets (key s.conn count) (fun b => b = a ∨ b ∈ l)
        ∧ count ≠ 0) := by
  have hgrown : ∃ hash_next buckets count,
      (if s.bucket_count ≤ s.live then index_grow s ok else some s)
        = some { s with hash_next := hash_next, buckets := buckets, bucket_count := count }
      ∧ Filed hash_next buckets (key s.conn count) (· ∈ l) ∧ (count = 0 → l = []) := by
    by_cases hfull : s.bucket_count ≤ s.live
    · rw [if_pos hfull]
      exact index_grow_run hfiled halive hlive hindexed ok
    · rw [if_neg hfull]
      exact ⟨_, _, _, rfl, hfiled, hindexed⟩
  obtain ⟨hash_next, buckets, count, hrun, hfiled', hindexed'⟩ := hgrown
  unfold index_insert
  simp only [hrun, bind_eq_bind, bind_some]
  by_cases hzero : count = 0
  · simp only [if_pos hzero]
    exact ⟨_, _, _, _, rfl, fun _ => ⟨hfiled', hindexed'⟩, nofun⟩
  · simp only [if_neg hzero, hc, bind_some]
    rw [set_hash_next_eq, bind_some]
    · refine ⟨_, _, _, _, rfl, nofun, fun _ => ⟨?_, hzero⟩⟩
      have hpush := hfiled'.push ha
      rw [key_eq hc] at hpush
      exact hpush
    · exact hc

end Structures

/-! ## Frames -/

/-- A function that refuses nobody and takes no new reference. -/
structure Quiet (s s' : Tracker) : Prop where
  bevs : s'.bevs = s.bevs
  refused : s'.refused = s.refused
  refs : ∀ b, s'.refs b ≤ s.refs b

lemma Quiet.refl (s : Tracker) : Quiet s s := ⟨rfl, rfl, fun _ => le_rfl⟩

lemma Quiet.trans {s s' s'' : Tracker} (h : Quiet s s') (h' : Quiet s' s'') : Quiet s s'' :=
  ⟨h'.bevs.trans h.bevs, h'.refused.trans h.refused, fun b =>
    le_trans (h'.refs b) (h.refs b)⟩

variable {b : ℕ}

section Records

variable {s : Tracker} {l pre post : List ℕ} {a : ℕ}

lemma update_none_some {β : Type} {f : ℕ → Option β} {d : β}
    (h : update f a none b = some d) : b ≠ a ∧ f b = some d := by
  rw [update_apply] at h
  split at h
  · exact nomatch h
  · exact ⟨‹_›, h⟩

lemma key_update {count b : ℕ} {v : Option Conn} (hb : b ≠ a) :
    key (update conn a v) count b = key conn count b := by
  rw [key, update_of_ne hb, key]

lemma mem_middle (hnodup : (pre ++ a :: post).Nodup) :
    b ∈ pre ++ post ↔ b ∈ pre ++ a :: post ∧ b ≠ a := by
  have hnot := (nodup_cons.mp (nodup_middle.mp hnodup)).1
  constructor
  · intro hb
    refine ⟨?_, ne_of_mem_of_not_mem hb hnot⟩
    rcases mem_append.mp hb with hb | hb
    · exact mem_append_left _ hb
    · exact mem_append_right _ (.tail _ hb)
  · rintro ⟨hb, hne⟩
    rcases mem_append.mp hb with hb | hb
    · exact mem_append_left _ hb
    · exact mem_append_right _ ((mem_cons.mp hb).resolve_left hne)

/-- A record unlinked, taken off the index and freed with its events and its reference. -/
lemma Described.cut (h : Described s (pre ++ a :: post)) (hc : s.conn a = some c)
    {next prev hash_next buckets : ℕ → Option ℕ} {list tail : Option ℕ}
    (hdoubly : Doubly next prev list tail (pre ++ post))
    (hfiled : Filed hash_next buckets (key s.conn s.bucket_count) (fun b => b ∈ pre ++ a :: post ∧ b ≠ a))
    :
    Described { s with
      conn := update s.conn a none
      next := next, prev := prev, list := list, tail := tail
      hash_next := hash_next, buckets := buckets
      live := s.live - 1
      deadline := update s.deadline a false
      watch := update s.watch a none
      refs := update s.refs c.bev (s.refs c.bev - 1) } (pre ++ post) where
  doubly := hdoubly
  alive := by
    intro b
    rw [mem_middle h.doubly.nodup]
    by_cases hb : b = a
    · subst hb
      simp
    · simp [h.alive b, hb]
  filed := hfiled.congr (fun _ _ => rfl) (fun b hb => key_update hb.2)
    (fun b => mem_middle h.doubly.nodup)
  indexed := fun hzero => absurd (h.indexed hzero) (by simp)
  live := by
    show s.live - 1 = (pre ++ post).length
    rw [h.live, length_append, length_append, length_cons]
    omega
  owner := by
    intro b d hb
    obtain ⟨hne, hb⟩ := update_none_some hb
    -- no other record has this bufferevent
    have hbev : d.bev ≠ c.bev := fun hbev => hne (h.distinct b a d c hb hc hbev)
    show update s.refs c.bev _ d.bev = 1
    rw [update_of_ne hbev]
    exact h.owner b d hb
  distinct := by
    intro b b' d d' hb hb' hbev
    exact h.distinct b b' d d' (update_none_some hb).2 (update_none_some hb').2 hbev
  watched := by
    intro b w hw
    obtain ⟨hne, hw⟩ := update_none_some hw
    simp only [update_of_ne hne]
    exact h.watched b w hw
  armed := by
    intro b hb
    have hne : b ≠ a := by
      rintro rfl
      simp at hb
    simp only [update_of_ne hne] at hb ⊢
    exact h.armed b hb

theorem forget_run (h : Described s (pre ++ a :: post)) :
    ∃ s', forget s a = some s' ∧ Described s' (pre ++ post) ∧ Quiet s s'
      ∧ s'.conn = update s.conn a none := by
  have halive : ∀ b ∈ pre ++ a :: post, (s.conn b).isSome := fun b hb => (h.alive b).mpr hb
  obtain ⟨c, hc⟩ := h.conn_some (a := a) (by simp)
  obtain ⟨next, prev, list, tail, hunlink, hdoubly⟩ := unlink_run h.doubly halive
  obtain ⟨hash_next, buckets, hremove, hfiled⟩ :=
    index_remove_run (s := { s with next := next, prev := prev, list := list, tail := tail })
      h.filed halive (le_of_eq h.live.symm) (a := a) (by simp)
  unfold forget
  simp only [hunlink, bind_eq_bind, bind_some, hremove, hc]
  refine ⟨_, rfl, h.cut hc hdoubly hfiled, ⟨rfl, rfl, fun b => ?_⟩, rfl⟩
  show update s.refs c.bev (s.refs c.bev - 1) b ≤ s.refs b
  by_cases hb : b = c.bev
  · subst hb
    rw [update_self]
    exact Nat.sub_le ..
  · rw [update_of_ne hb]

lemma forget_mem (h : Described s l) (ha : a ∈ l) :
    ∃ s' l', forget s a = some s' ∧ Described s' l' ∧ Quiet s s'
      ∧ s'.conn = update s.conn a none := by
  obtain ⟨pre, post, rfl⟩ := append_of_mem ha
  obtain ⟨s', hrun, hdesc, hquiet, hconn⟩ := forget_run h
  exact ⟨s', _, hrun, hdesc, hquiet, hconn⟩

theorem touch_run (h : Described s (pre ++ a :: post)) :
    ∃ s1 s', unlink s a = some s1 ∧ link_front s1 a = some s' ∧ Described s' (a :: (pre ++ post))
      ∧ Quiet s s' ∧ s'.conn = s.conn := by
  have halive : ∀ b ∈ pre ++ a :: post, (s.conn b).isSome := fun b hb => (h.alive b).mpr hb
  obtain ⟨next, prev, list, tail, hunlink, hdoubly⟩ := unlink_run h.doubly halive
  have hnot := (nodup_cons.mp (nodup_middle.mp h.doubly.nodup)).1
  have hmem : ∀ b, b ∈ a :: (pre ++ post) ↔ b ∈ pre ++ a :: post := fun b =>
    (perm_middle.mem_iff).symm
  obtain ⟨next', prev', list', tail', hlink, hdoubly'⟩ :=
    link_front_run (s := { s with next := next, prev := prev, list := list, tail := tail })
      hdoubly hnot (fun b hb => halive b ((hmem b).mp hb))
  refine ⟨_, _, hunlink, hlink, ?_, ⟨rfl, rfl, fun _ => le_rfl⟩, rfl⟩
  refine ⟨hdoubly', fun b => (h.alive b).trans (hmem b).symm, ?_, ?_, ?_, h.owner, h.distinct,
    h.watched, h.armed⟩
  · exact h.filed.congr (fun _ _ => rfl) (fun _ _ => rfl) hmem
  · intro hzero
    exact absurd (h.indexed hzero) (by simp)
  · rw [perm_middle.symm.length_eq]
    exact h.live

lemma set_conn_self (c : Conn) : (s.set_conn a c).conn a = some c := update_self ..

lemma set_conn_other (hb : b ≠ a) (c : Conn) : (s.set_conn a c).conn b = s.conn b :=
  update_of_ne hb ..

lemma Described.set_conn (h : Described s l) {c c' : Conn} (hc : s.conn a = some c)
    (hbev : c'.bev = c.bev) (hdl : c'.has_deadline = c.has_deadline) :
    Described (s.set_conn a c') l := by
  -- what the invariant reads of a record is the same before and after
  have hcase : ∀ b d', update s.conn a (some c') b = some d' →
      ∃ d, s.conn b = some d ∧ d'.bev = d.bev ∧ d'.has_deadline = d.has_deadline := by
    intro b d' hb
    by_cases hba : b = a
    · subst hba
      rw [update_self] at hb
      rw [← some.inj hb]
      exact ⟨c, hc, hbev, hdl⟩
    · rw [update_of_ne hba] at hb
      exact ⟨d', hb, rfl, rfl⟩
  have hsome : ∀ b, (update s.conn a (some c') b).isSome = (s.conn b).isSome := by
    intro b
    by_cases hba : b = a
    · subst hba
      rw [update_self, hc]
      rfl
    · rw [update_of_ne hba]
  refine ⟨h.doubly, ?_, ?_, h.indexed, h.live, ?_, ?_, ?_, ?_⟩
  · intro b
    rw [Tracker.set_conn, hsome]
    exact h.alive b
  · refine h.filed.congr (fun _ _ => rfl) (fun b hb => ?_) (fun _ => Iff.rfl)
    by_cases hba : b = a
    · subst hba
      rw [key_eq hc]
      exact (key_eq (update_self ..) _).trans (by rw [hbev]; rfl)
    · exact key_update hba
  · intro b d' hb
    obtain ⟨d, hd, hbev', _⟩ := hcase b d' hb
    rw [hbev']
    exact h.owner b d hd
  · intro b b1 d' d1' hb hb1 heq
    obtain ⟨d, hd, hbev', _⟩ := hcase b d' hb
    obtain ⟨d1, hd1, hbev1, _⟩ := hcase b1 d1' hb1
    exact h.distinct b b1 d d1 hd hd1 (by rw [← hbev', ← hbev1, heq])
  · intro b w hw
    obtain ⟨d, hd, hfirst⟩ := h.watched b w hw
    by_cases hba : b = a
    · subst hba
      rw [hc] at hd
      refine ⟨c', update_self .., fun hw' => ?_⟩
      rw [hdl, some.inj hd]
      exact hfirst hw'
    · exact ⟨d, (update_of_ne hba ..).trans hd, hfirst⟩
  · intro b hb
    rw [Tracker.set_conn, hsome]
    exact h.armed b hb

/-! ## A new record -/

lemma Described.fresh (h : Described s l) {d : Conn} (hrefs : s.refs c.bev = 0)
    (hb : s.conn b = some d) : d.bev ≠ c.bev := by
  intro hbev
  have howner := h.owner b d hb
  rw [hbev, hrefs] at howner
  exact nomatch howner

lemma Described.add (h : Described s l) (ha : s.conn a = none) (hrefs : s.refs c.bev = 0)
    {next prev hash_next buckets : ℕ → Option ℕ} {list tail : Option ℕ}
    (hdoubly : Doubly next prev list tail (a :: l))
    (hfiled : Filed hash_next buckets (key (s.alloc a c).conn count) (fun b => b = a ∨ b ∈ l))
    (hcount : count ≠ 0) :
    Described { s.alloc a c with
      next := next, prev := prev, list := list, tail := tail
      hash_next := hash_next, buckets := buckets, bucket_count := count
      live := s.live + 1 } (a :: l) where
  doubly := hdoubly
  alive := by
    intro b
    rw [mem_cons]
    by_cases hb : b = a
    · subst hb
      simp [alloc]
    · simp [alloc, h.alive b, hb]
  filed := hfiled.congr (fun _ _ => rfl) (fun _ _ => rfl) (fun b => mem_cons)
  indexed := fun hzero => absurd hzero hcount
  live := by
    show s.live + 1 = l.length + 1
    rw [h.live]
  owner := by
    intro b d hb
    show update s.refs c.bev (s.refs c.bev + 1) d.bev = 1
    simp only [alloc, update_apply] at hb
    -- the new record, or one with another bufferevent
    split at hb
    · rw [← some.inj hb, update_self, hrefs]
    · rw [update_of_ne (h.fresh hrefs hb)]
      exact h.owner b d hb
  distinct := by
    intro b b' d d' hb hb' hbev
    simp only [alloc, update_apply] at hb hb'
    split at hb <;> split at hb'
    · exact ‹b = a›.trans ‹b' = a›.symm
    · exact absurd (hbev.symm.trans (by rw [some.inj hb])) (h.fresh hrefs hb')
    · exact absurd (hbev.trans (by rw [some.inj hb'])) (h.fresh hrefs hb)
    · exact h.distinct b b' d d' hb hb' hbev
  watched := by
    intro b w hw
    obtain ⟨d, hd, hfirst⟩ := h.watched b w hw
    have hba : b ≠ a := by
      rintro rfl
      rw [ha] at hd
      simp at hd
    exact ⟨d, (update_of_ne hba ..).trans hd, hfirst⟩
  armed := by
    intro b hb
    have hsome := h.armed b hb
    have hba : b ≠ a := by
      rintro rfl
      rw [ha] at hsome
      simp at hsome
    show (update s.conn a (some c) b).isSome
    rw [update_of_ne hba]
    exact hsome

lemma Described.discard (h : Described s l) (ha : s.conn a = none)
    {hash_next buckets : ℕ → Option ℕ}
    (hfiled : Filed hash_next buckets (key (s.alloc a c).conn count) (· ∈ l))
    (hindexed : count = 0 → l = []) :
    Described (free { s.alloc a c with
      hash_next := hash_next, buckets := buckets, bucket_count := count } a c) l := by
  have hmem : ∀ b ∈ l, b ≠ a := by
    rintro b hb rfl
    have hsome := (h.alive b).mpr hb
    rw [ha] at hsome
    simp at hsome
  have hconn : update (update s.conn a (some c)) a none = s.conn := by
    rw [update_idem, ← ha, update_eq_self]
  have hrefs : update (update s.refs c.bev (s.refs c.bev + 1)) c.bev
      (update s.refs c.bev (s.refs c.bev + 1) c.bev - 1) = s.refs := by
    rw [update_self, update_idem, Nat.add_sub_cancel, update_eq_self]
  have hkey : ∀ b ∈ l, key (update s.conn a (some c)) count b = key s.conn count b :=
    fun b hb => key_update (hmem b hb)
  unfold free alloc
  simp only [hconn, hrefs]
  refine ⟨?_, h.alive, ?_, hindexed, h.live, h.owner, h.distinct, h.watched, h.armed⟩
  · exact h.doubly.congr (fun b hb => update_of_ne (hmem b hb) ..)
      (fun b hb => update_of_ne (hmem b hb) ..)
  · exact hfiled.congr (fun _ _ => rfl) (fun b hb => (hkey b hb).symm) (fun _ => Iff.rfl)

lemma Described.set_watch (h : Described s l) (v : Option Watch)
    (hv : ∀ w, v = some w → ∃ c, s.conn a = some c ∧ (w = .first_byte → c.has_deadline = true)) :
    Described { s with watch := update s.watch a v } l :=
  { h with
    watched := by
      intro b w hw
      simp only [update_apply] at hw
      split at hw
      · exact ‹b = a› ▸ hv w hw
      · exact h.watched b w hw }

lemma Described.set_deadline (h : Described s l) (v : Bool) (hv : v = true → (s.conn a).isSome) :
    Described { s with deadline := update s.deadline a v } l :=
  { h with
    armed := by
      intro b hb
      simp only [update_apply] at hb
      split at hb
      · exact ‹b = a› ▸ hv hb
      · exact h.armed b hb }

/-! ## The sweeps -/

lemma released_congr {s' : Tracker} (h : s'.bevs = s.bevs) (c : Conn) :
    released s' c = released s c := by
  rw [released, released, abandoned, abandoned, h]

def stays (s : Tracker) (b : ℕ) : Bool := (s.conn b).all fun c => !released s c

lemma stays_congr {s' : Tracker} (h : s'.bevs = s.bevs) (hconn : s'.conn b = s.conn b) :
    stays s' b = stays s b := by
  rw [stays, stays, hconn]
  simp [released_congr h]

lemma sweep_all_loop_run {kept : List ℕ} (fuel : ℕ) (h : Described s (pre ++ kept))
    (hfuel : pre.length ≤ fuel) :
    ∃ s', sweep_all_loop fuel pre.getLast? s = some s'
      ∧ Described s' (pre.filter (stays s) ++ kept) ∧ Quiet s s'
      ∧ ∀ b, s'.conn b
        = if b ∈ pre then (s.conn b).filter (fun c => !released s c) else s.conn b := by
  induction pre using reverseRecOn generalizing s kept fuel with
  | nil =>
    refine ⟨s, by cases fuel <;> rfl, h, Quiet.refl s, fun b => ?_⟩
    rw [if_neg (by simp)]
  | append_singleton init a ih =>
    rw [append_assoc] at h
    have hdesc : Described s (init ++ a :: kept) := h
    have hnodup := (nodup_cons.mp (nodup_middle.mp hdesc.doubly.nodup)).1
    have hinit : ∀ b ∈ init, b ≠ a := fun b hb =>
      ne_of_mem_of_not_mem (mem_append_left _ hb) hnodup
    obtain ⟨c, hc⟩ := hdesc.conn_some (a := a) (by simp)
    have hprev := hdesc.doubly.prev_eq
    cases fuel with
    | zero => simp at hfuel
    | succ fuel =>
      have hlen : init.length ≤ fuel := by
        rw [length_append, length_singleton] at hfuel
        omega
      rw [getLast?_append_of_ne_nil _ (by simp), getLast?_singleton, sweep_all_loop, hc,
        bind_eq_bind, bind_some, hprev, filter_append]
      -- the record is forgotten, or stays
      obtain ⟨s1, hstep, hdesc1, hquiet1, hconn1⟩ : ∃ s1,
          (if released s c = true then forget s a else some s) = some s1
          ∧ Described s1 (init ++ ([a].filter (stays s) ++ kept)) ∧ Quiet s s1
          ∧ s1.conn = update s.conn a ((s.conn a).filter fun c => !released s c) := by
        cases hrel : released s c with
        | true =>
          obtain ⟨s1, hforget, h1⟩ := forget_run hdesc
          exact ⟨s1, hforget, by simpa [stays, hc, hrel, Option.filter] using h1⟩
        | false =>
          refine ⟨s, rfl, ?_, Quiet.refl s, ?_⟩
          · simpa [stays, hc, hrel] using hdesc
          · have hsame : (s.conn a).filter (fun c => !released s c) = s.conn a := by
              simp [hc, hrel, Option.filter]
            rw [hsame, update_eq_self]
      obtain ⟨s', hrun, hdesc', hquiet', hconn'⟩ := ih fuel hdesc1 hlen
      have hstays : ∀ b ∈ init, stays s1 b = stays s b := fun b hb =>
        stays_congr hquiet1.bevs (by rw [hconn1, update_of_ne (hinit b hb)])
      refine ⟨s', ?_, ?_, hquiet1.trans hquiet', ?_⟩
      · rw [hstep]
        exact hrun
      · rw [append_assoc, ← filter_congr hstays]
        exact hdesc'
      · intro b
        rw [hconn', hconn1]
        by_cases hba : b = a
        · subst hba
          have hnot : b ∉ init := fun hb => hinit b hb rfl
          rw [update_self, if_neg hnot, if_pos (by simp)]
        · rw [update_of_ne hba]
          simp [released_congr hquiet1.bevs, hba]

theorem sweep_all_run (h : Described s l) :
    ∃ s', sweep_all s = some s' ∧ Described s' (l.filter (stays s)) ∧ Quiet s s'
      ∧ ∀ b, s'.conn b = (s.conn b).filter fun c => !released s c := by
  have hdesc : Described s (l ++ []) := by rwa [append_nil]
  obtain ⟨s', hrun, hdesc', hquiet, hconn⟩ :=
    sweep_all_loop_run (s.live + 1) hdesc (by rw [h.live]; omega)
  rw [append_nil] at hdesc'
  refine ⟨s', ?_, hdesc', hquiet, ?_⟩
  · rw [sweep_all, h.tail_eq]
    exact hrun
  · intro b
    rw [hconn]
    by_cases hb : b ∈ l
    · rw [if_pos hb]
    · have hnone : s.conn b = none := by
        rw [← not_isSome_iff_eq_none, h.alive]
        exact hb
      rw [if_neg hb, hnone]
      rfl

/-- The loop of the bounded sweep goes through `post` from the tail: a record that is
released is forgotten, any other goes to the front. -/
lemma sweep_loop_run (h : Described s (pre ++ post)) :
    ∃ s', sweep_loop post.length s = some s' ∧ Described s' (post.filter (stays s) ++ pre)
      ∧ Quiet s s' ∧ ∀ b, s'.conn b = s.conn b ∨ s'.conn b = none ∧ stays s b = false := by
  induction post using reverseRecOn generalizing s pre with
  | nil => exact ⟨s, rfl, by simpa using h, Quiet.refl s, fun b => .inl rfl⟩
  | append_singleton init a ih =>
    -- the tail is the last of `post`; it goes, or moves to the front
    have hdesc : Described s ((pre ++ init) ++ a :: []) := by rwa [append_assoc]
    have hnodup := (nodup_cons.mp (nodup_middle.mp hdesc.doubly.nodup)).1
    obtain ⟨c, hc⟩ := hdesc.conn_some (a := a) (by simp)
    have htail : s.tail = some a := by rw [hdesc.tail_eq, getLast?_concat]
    rw [length_append, length_singleton, sweep_loop, htail, filter_append, append_assoc]
    simp only [hc, bind_eq_bind, bind_some]
    obtain ⟨s1, hstep, h1, hquiet1, hconn1⟩ : ∃ s1,
        (if released s c = true then (forget s a).bind (sweep_loop init.length)
          else (unlink s a).bind fun s => (link_front s a).bind (sweep_loop init.length))
          = sweep_loop init.length s1
        ∧ Described s1 (([a].filter (stays s) ++ pre) ++ init) ∧ Quiet s s1
        ∧ ∀ b, s1.conn b = s.conn b ∨ b = a ∧ s1.conn b = none ∧ stays s b = false := by
      cases hrel : released s c with
      | true =>
        obtain ⟨s1, hforget, h1, hquiet1, hconn1⟩ := forget_run hdesc
        refine ⟨s1, by simp [hforget], by simpa [stays, hc, hrel] using h1, hquiet1, fun b => ?_⟩
        by_cases hb : b = a <;> simp [hconn1, hb, stays, hc, hrel]
      | false =>
        obtain ⟨s0, s1, hunlink, hlink, h1, hquiet1, hconn1⟩ := touch_run hdesc
        exact ⟨s1, by simp [hunlink, hlink], by simpa [stays, hc, hrel] using h1, hquiet1,
          fun b => .inl (by rw [hconn1])⟩
    obtain ⟨s', hrun, h', hquiet', hconn'⟩ := ih h1
    -- the rest of the list is judged as it was before
    have hstays : ∀ b ∈ init, stays s1 b = stays s b := by
      intro b hb
      have hne : b ≠ a := ne_of_mem_of_not_mem (mem_append_right pre hb) (by simpa using hnodup)
      exact stays_congr hquiet1.bevs ((hconn1 b).resolve_right fun hgone => hne hgone.1)
    refine ⟨s', hstep.trans hrun, ?_, hquiet1.trans hquiet', fun b => ?_⟩
    · rwa [filter_congr hstays] at h'
    · rcases hconn1 b with hsame | hgone
      · rw [← hsame, ← stays_congr hquiet1.bevs hsame]
        exact hconn' b
      · exact .inr ⟨(hconn' b).elim (·.trans hgone.2.1) And.left, hgone.2.2⟩

theorem sweep_run (h : Described s l) :
    ∃ s', sweep s = some s' ∧ Described s' ((l.drop (l.length - SWEEP_MAX)).filter (stays s)
      ++ l.take (l.length - SWEEP_MAX)) ∧ Quiet s s'
      ∧ ∀ b, s'.conn b = s.conn b ∨ s'.conn b = none ∧ stays s b = false := by
  have hsplit : Described s (l.take (l.length - SWEEP_MAX) ++ l.drop (l.length - SWEEP_MAX)) := by
    rwa [take_append_drop]
  have hbudget : (l.drop (l.length - SWEEP_MAX)).length
      = if s.live < SWEEP_MAX then s.live else SWEEP_MAX := by
    rw [length_drop, h.live]
    split <;> omega
  rw [sweep, ← hbudget]
  exact sweep_loop_run hsplit

end Records

end FpmNg.ConnTracker
