/-
The tracker's handlers, and whole runs.

Every handler, from a described state, ends in a described state, with one
exception. `check_peer` sweeps before it counts, and the sweep may forget the very
record that is being judged: the pickup has just given that record its fd, so a
connection evhttp has let go of in the meantime counts as released. The count then
reads the freed record. `late_pickup` is that event, and a run goes wrong exactly
when it comes to one.

For the per-client cap each lemma also says what becomes of the records: `Keeps` for
everything that judges nobody, `Judged` for the verdict on one connection.
-/
import FpmNg.ConnTrackerRep

open List Function Option

namespace FpmNg.ConnTracker

open Linked Conn

/-! ## What becomes of the records -/

def Same (c c' : Conn) : Prop :=
  c'.checked = c.checked ∧ c'.over_client_cap = c.over_client_cap
    ∧ (c.fd.isSome → c'.fd = c.fd ∧ c'.peer = c.peer)

/-- **Nobody is judged**: a record is as before, up to `Same`, or gone, or new. -/
def Keeps (m m' : ℕ → Option Conn) : Prop :=
  ∀ b c', m' b = some c' →
    (c'.checked = false ∧ c'.over_client_cap = false) ∨ ∃ c, m b = some c ∧ Same c c'

lemma Same.refl (c : Conn) : Same c c := ⟨rfl, rfl, fun _ => ⟨rfl, rfl⟩⟩

lemma Same.trans {c c' c'' : Conn} (h : Same c c') (h' : Same c' c'') : Same c c'' := by
  refine ⟨h'.1.trans h.1, h'.2.1.trans h.2.1, fun hfd => ?_⟩
  obtain ⟨hf, hp⟩ := h.2.2 hfd
  obtain ⟨hf', hp'⟩ := h'.2.2 (by rw [hf]; exact hfd)
  exact ⟨hf'.trans hf, hp'.trans hp⟩

lemma Keeps.refl (m : ℕ → Option Conn) : Keeps m m := fun _ c' h =>
  .inr ⟨c', h, Same.refl c'⟩

lemma Keeps.trans {m m' m'' : ℕ → Option Conn} (h : Keeps m m') (h' : Keeps m' m'') :
    Keeps m m'' := by
  intro b c'' hb
  rcases h' b c'' hb with hnew | ⟨c', hc', hsame'⟩
  · exact .inl hnew
  · rcases h b c' hc' with hnew | ⟨c, hc, hsame⟩
    · exact .inl ⟨hsame'.1.trans hnew.1, hsame'.2.1.trans hnew.2⟩
    · exact .inr ⟨c, hc, hsame.trans hsame'⟩

lemma Keeps.of_sub {m m' : ℕ → Option Conn} (h : ∀ b, m' b = m b ∨ m' b = none) : Keeps m m' := by
  intro b c' hb
  rcases h b with hsame | hnone
  · exact .inr ⟨c', hsame.symm.trans hb, Same.refl c'⟩
  · exact nomatch hb.symm.trans hnone

lemma Keeps.of_forget (m : ℕ → Option Conn) (a : ℕ) : Keeps m (update m a none) := by
  refine Keeps.of_sub (fun b => ?_)
  by_cases hb : b = a
  · subst hb
    exact .inr (update_self ..)
  · exact .inl (update_of_ne hb ..)

lemma Keeps.of_set {m : ℕ → Option Conn} {a : ℕ} {c c' : Conn} (hc : m a = some c)
    (h : Same c c') : Keeps m (update m a (some c')) := by
  intro b d hb
  by_cases hba : b = a
  · subst hba
    rw [update_self] at hb
    exact .inr ⟨c, hc, some.inj hb ▸ h⟩
  · rw [update_of_ne hba] at hb
    exact .inr ⟨d, hb, Same.refl d⟩

/-- Whether the record at `b` counts against the one at `a`. -/
def counted (m : ℕ → Option Conn) (a : ℕ) (me : Conn) (b : ℕ) : Bool :=
  (m b).any (counts a me b)

/-- **The verdict** on the connection at `a`, by a count of the records `l`: let in because fewer
than the cap count against it (or it has no peer), or refused because the cap is reached, and then
marked or forgotten. -/
structure Judged (lim : Limits) (a : ℕ) (m : ℕ → Option Conn) (refuse : Bool)
    (m' : ℕ → Option Conn) : Prop where
  verdict : ∃ (c : Conn) (l : List ℕ), m a = some c ∧ c.checked = false ∧ l.Nodup ∧ (∀ b, (m b).isSome ↔ b ∈ l)
    ∧ (refuse = false → m' = update m a (some { c with checked := true })
      ∧ (c.peer_len = 0 ∨ (l.countP (counted m a c) : ℤ) < lim.max_per_client))
    ∧ (refuse = true → lim.max_per_client ≤ (l.countP (counted m a c) : ℤ)
      ∧ (m' = update m a none
        ∨ m' = update m a (some { c with checked := true, over_client_cap := true })))

/-! ## The count -/

variable {c : Conn} {s' : Tracker}

section Count

variable {s : Tracker} {l : List ℕ} {a : ℕ}

lemma resolved_bev (c : Conn) : (resolved s c).bev = c.bev := by
  unfold resolved
  split <;> rfl

lemma resolved_has_deadline (c : Conn) : (resolved s c).has_deadline = c.has_deadline := by
  unfold resolved
  split <;> rfl

lemma resolved_checked (c : Conn) : (resolved s c).checked = c.checked := by
  unfold resolved
  split <;> rfl

lemma resolved_same (c : Conn) : Same c (resolved s c) := by
  unfold resolved
  split
  · exact Same.refl c
  · exact Same.refl c
  · next hfd _ => exact ⟨rfl, rfl, by simp [hfd]⟩

lemma resolved_congr (h : s'.bevs = s.bevs) (c : Conn) : resolved s' c = resolved s c := by
  rw [resolved, resolved, h]

lemma resolve_eq (hc : s.conn a = some c) :
    resolve s a = some ((resolved s c).fd.isSome, s.set_conn a (resolved s c)) := by
  rw [resolve, hc]
  rfl

lemma Described.resolve (h : Described s l) (hc : s.conn a = some c) :
    Described (s.set_conn a (resolved s c)) l :=
  h.set_conn hc (resolved_bev c) (resolved_has_deadline c)

/-- The record at `b` as the count for `self` sees it. -/
def seen (s : Tracker) (self b : ℕ) : Option Conn :=
  if b = self then s.conn b else (s.conn b).map (resolved s)

lemma peer_count_loop_run {self : ℕ} {me : Conn} (hme : s.conn self = some me) (fuel n : ℕ)
    {pre rest : List ℕ} (h : Described s (pre ++ rest)) (hfuel : rest.length ≤ fuel) :
    ∃ s', peer_count_loop self fuel rest.head? n s
        = some (n + rest.countP (fun b => (seen s self b).any (counts self me b)), s')
      ∧ Described s' (pre ++ rest) ∧ Quiet s s'
      ∧ ∀ b, s'.conn b = if b ∈ rest then seen s self b else s.conn b := by
  induction rest generalizing s pre n fuel with
  | nil =>
    refine ⟨s, by cases fuel <;> rfl, h, Quiet.refl s, fun b => ?_⟩
    rw [if_neg (by simp)]
  | cons b rest ih =>
    obtain ⟨c, hc⟩ := h.conn_some (a := b) (by simp)
    have hnot := (nodup_cons.mp (nodup_middle.mp h.doubly.nodup)).1
    have hrest : ∀ d ∈ rest, d ≠ b := fun d hd =>
      ne_of_mem_of_not_mem (mem_append_right _ hd) hnot
    -- the record, resolved unless it is the judged one itself
    obtain ⟨s1, c1, hs1, hc1, hseen, hdesc1, hquiet1, hnext1, hconn1⟩ : ∃ s1 c1,
        (if b = self then some s else (resolve s b).map (·.2)) = some s1
        ∧ s1.conn b = some c1 ∧ seen s self b = some c1 ∧ Described s1 (pre ++ b :: rest)
        ∧ Quiet s s1 ∧ s1.next = s.next ∧ ∀ d, d ≠ b → s1.conn d = s.conn d := by
      by_cases hself : b = self
      · refine ⟨s, c, if_pos hself, hc, ?_, h, Quiet.refl s, rfl, fun d _ => rfl⟩
        rw [seen, if_pos hself, hc]
      · refine ⟨s.set_conn b (resolved s c), resolved s c, ?_, update_self .., ?_,
          h.resolve hc, ⟨rfl, rfl, fun _ => le_rfl⟩, rfl, fun d hd => update_of_ne hd ..⟩
        · rw [if_neg hself, resolve_eq hc, map_some]
        · rw [seen, if_neg hself, hc, map_some]
    have hme1 : s1.conn self = some me := by
      by_cases hself : self = b
      · subst hself
        rw [hc1, ← hseen, seen, if_pos rfl, hme]
      · rw [hconn1 self hself, hme]
    have hseen1 : ∀ d ∈ rest, seen s1 self d = seen s self d := by
      intro d hd
      have hres : resolved s1 = resolved s := funext (resolved_congr hquiet1.bevs)
      rw [seen, seen, hconn1 d (hrest d hd), hres]
    have hnext : s1.next b = rest.head? := by
      rw [hnext1]
      exact h.doubly.next_eq
    cases fuel with
    | zero => simp at hfuel
    | succ fuel =>
      have hdesc2 : Described s1 ((pre ++ [b]) ++ rest) := by
        rw [append_assoc]
        exact hdesc1
      obtain ⟨s', hrun, hdesc', hquiet', hconn'⟩ :=
        ih hme1 fuel (if counts self me b c1 then n + 1 else n) hdesc2
          (Nat.le_of_succ_le_succ hfuel)
      rw [append_assoc] at hdesc'
      refine ⟨s', ?_, hdesc', hquiet1.trans hquiet', ?_⟩
      · rw [head?_cons, peer_count_loop]
        simp only [hs1, hc1, hme1, hnext, hrun, bind_eq_bind, bind_some,
          countP_cons, hseen, any_some]
        have hcongr : rest.countP (fun b => (seen s1 self b).any (counts self me b))
            = rest.countP (fun b => (seen s self b).any (counts self me b)) :=
          countP_congr (fun d hd => by rw [hseen1 d hd])
        rw [hcongr]
        by_cases hcount : counts self me b c1 = true
        · rw [if_pos hcount, if_pos hcount]
          congr 2
          omega
        · rw [if_neg hcount, if_neg hcount, add_zero]
      · intro d
        rw [hconn']
        by_cases hdb : d = b
        · subst hdb
          rw [if_neg (fun hd => hrest d hd rfl), if_pos (.head _), hc1, hseen]
        · by_cases hd : d ∈ rest
          · rw [if_pos hd, if_pos (.tail _ hd), hseen1 d hd]
          · have hd' : d ∉ b :: rest := by
              rw [mem_cons]
              exact fun h => h.elim hdb hd
            rw [if_neg hd, if_neg hd', hconn1 d hdb]

theorem peer_count_run {self : ℕ} {me : Conn} (h : Described s l) (hme : s.conn self = some me) :
    ∃ s', peer_count s self
        = some (l.countP (fun b => (seen s self b).any (counts self me b)), s')
      ∧ Described s' l ∧ Quiet s s' ∧ ∀ b, s'.conn b = seen s self b := by
  have hhead := Chain.head h.doubly.forward
  have hdesc : Described s ([] ++ l) := h
  obtain ⟨s', hrun, hdesc', hquiet, hconn⟩ :=
    peer_count_loop_run hme (s.live + 1) 0 hdesc (by rw [h.live]; omega)
  refine ⟨s', ?_, hdesc', hquiet, ?_⟩
  · rw [peer_count, hme, bind_eq_bind, bind_some, hhead, hrun, zero_add]
  · intro b
    rw [hconn]
    by_cases hb : b ∈ l
    · rw [if_pos hb]
    · have hnone : s.conn b = none := by
        rw [← not_isSome_iff_eq_none, h.alive]
        exact hb
      rw [if_neg hb, seen, hnone]
      simp

/-! ## The judgement -/

lemma counts_self (c d : Conn) : counts a c a d = false := by
  simp [counts]

/-- The sweep and the count, for a record that is marked as judged and stays: which
records are left, and how many count against it. -/
lemma count_after_sweep (h : Described s l) (hc : s.conn a = some c) (hrel : released s c = false)
    :
    ∃ s1 s2 l2, sweep_all (s.set_conn a { c with checked := true }) = some s1
      ∧ peer_count s1 a
        = some (l2.countP (counted (update s2.conn a (some c)) a c), s2)
      ∧ Described s2 l2 ∧ Quiet s s2 ∧ s2.conn a = some { c with checked := true }
      ∧ Keeps s.conn (update s2.conn a (some c)) := by
  have hdesc0 : Described (s.set_conn a { c with checked := true }) l := h.set_conn hc rfl rfl
  obtain ⟨s1, hsweep, hdesc1, hquiet1, hconn1⟩ := sweep_all_run hdesc0
  have hme : s1.conn a = some { c with checked := true } := by
    have hrel' : released (s.set_conn a { c with checked := true }) { c with checked := true }
        = false := hrel
    rw [hconn1, set_conn_self]
    simp [hrel']
  obtain ⟨s2, hcount, hdesc2, hquiet2, hconn2⟩ := peer_count_run hdesc1 hme
  have hself : s2.conn a = some { c with checked := true } := by
    rw [hconn2, seen, if_pos rfl, hme]
  have hquiet : Quiet s s2 :=
    ⟨(hquiet1.trans hquiet2).bevs, (hquiet1.trans hquiet2).refused, (hquiet1.trans hquiet2).refs⟩
  refine ⟨s1, s2, _, hsweep, ?_, hdesc2, hquiet, hself, ?_⟩
  · rw [hcount]
    congr 2
    refine countP_congr (fun b _ => ?_)
    rw [counted, ← hconn2]
    by_cases hba : b = a
    · subst hba
      rw [update_self, hself, any_some, any_some, counts_self, counts_self]
    · rw [update_of_ne hba]
      rfl
  · intro b d hb
    by_cases hba : b = a
    · subst hba
      rw [update_self] at hb
      exact .inr ⟨d, hc.trans hb, Same.refl d⟩
    · rw [update_of_ne hba, hconn2, seen, if_neg hba] at hb
      obtain ⟨d1, hd1, hres⟩ := map_eq_some_iff.mp hb
      rw [hconn1, set_conn_other hba, filter_eq_some_iff] at hd1
      exact .inr ⟨d1, hd1.1, hres ▸ resolved_same d1⟩

lemma Described.set_refused (h : Described s l) (n : ℕ) (said : Bool) :
    Described { s with refused := n, said_refused := said } l :=
  ⟨h.doubly, h.alive, h.filed, h.indexed, h.live, h.owner, h.distinct, h.watched, h.armed⟩

/-- **A connection judged**, unless the sweep has forgotten it: what `check_peer` does
with a record it has not judged before. -/
theorem check_peer_run (lim : Limits) (h : Described s l) (hc : s.conn a = some c)
    (hopen : c.checked = false) (hcap : 0 < lim.max_per_client)
    (hstays : c.peer_len = 0 ∨ released s c = false) (drop : Bool) :
    ∃ refuse s' l', check_peer lim s a drop = some (refuse, s') ∧ Described s' l'
      ∧ s'.bevs = s.bevs ∧ s'.refused = s.refused + (if refuse then 1 else 0)
      ∧ (refuse = false → s'.conn a = some { c with checked := true })
      ∧ ∃ m, Keeps s.conn m ∧ m a = some c ∧ Judged lim a m refuse s'.conn := by
  have hskip : ¬ ((c.checked || decide (lim.max_per_client ≤ 0)) = true) := by
    rw [hopen, Bool.false_or, decide_eq_true_eq]
    omega
  unfold check_peer
  simp only [hc, bind_eq_bind, bind_some, if_neg hskip]
  by_cases hpeer : c.peer_len = 0
  · simp only [if_pos hpeer]
    exact ⟨false, _, l, rfl, h.set_conn hc rfl rfl, rfl, rfl, fun _ => set_conn_self _, s.conn,
      Keeps.refl _, hc, ⟨c, l, hc, hopen, h.doubly.nodup, h.alive, fun _ => ⟨rfl, .inl hpeer⟩,
        by simp⟩⟩
  · -- the sweep may forget others, but not the record that is judged
    obtain ⟨s1, s2, l2, hsweep, hcount, hdesc2, hquiet, hself, hkeeps⟩ :=
      count_after_sweep h hc (hstays.resolve_left hpeer)
    simp only [if_neg hpeer, hsweep, bind_some, hcount]
    have halive : ∀ b, (update s2.conn a (some c) b).isSome ↔ b ∈ l2 := by
      intro b
      rw [← hdesc2.alive]
      by_cases hb : b = a
      · subst hb
        rw [update_self, hself]
        simp
      · rw [update_of_ne hb]
    generalize hn : l2.countP (counted (update s2.conn a (some c)) a c) = n
    -- the verdict is that of the count, made on the list behind the sweep
    have hjudged : ∀ refuse m',
        (refuse = false → m' = s2.conn ∧ (n : ℤ) < lim.max_per_client) →
        (refuse = true → lim.max_per_client ≤ (n : ℤ) ∧ (m' = update s2.conn a none
          ∨ m' = update s2.conn a
            (some { c with checked := true, over_client_cap := true }))) →
        Judged lim a (update s2.conn a (some c)) refuse m' := by
      intro refuse m' hin hout
      refine ⟨c, l2, update_self .., hopen, hdesc2.doubly.nodup, halive, ?_, ?_⟩
      · intro hover
        rw [update_idem, ← hself, update_eq_self, hn]
        exact ⟨(hin hover).1, .inr (hin hover).2⟩
      · intro hover
        rw [update_idem, update_idem, hn]
        exact hout hover
    by_cases hroom : (n : ℤ) < lim.max_per_client
    · simp only [if_pos hroom]
      exact ⟨false, s2, l2, rfl, hdesc2, hquiet.bevs, hquiet.refused, fun _ => hself, _, hkeeps,
        update_self .., hjudged false _ (fun _ => ⟨rfl, hroom⟩)
          nofun⟩
    · have hfull : lim.max_per_client ≤ (n : ℤ) := by omega
      have hrefused : s2.refused + 1 = s.refused + 1 := by rw [hquiet.refused]
      have hdesc3 := hdesc2.set_refused (s2.refused + 1) true
      simp only [if_neg hroom, hself, bind_some]
      -- at a pickup the record is only marked, at a request it is forgotten
      cases drop with
      | true =>
        exact ⟨true, _, l2, rfl, hdesc3.set_conn hself rfl rfl, hquiet.bevs, hrefused,
          by simp, _, hkeeps, update_self ..,
          hjudged true _ nofun (fun _ => ⟨hfull, .inr rfl⟩)⟩
      | false =>
        obtain ⟨s4, l4, hforget, hdesc4, hquiet4, hconn4⟩ := forget_mem hdesc3 (hdesc2.mem hself)
        rw [if_neg (by simp), hforget]
        exact ⟨true, s4, l4, rfl, hdesc4, hquiet4.bevs.trans hquiet.bevs,
          hquiet4.refused.trans hrefused, nofun, _, hkeeps,
          update_self .., hjudged true _ nofun
            (fun _ => ⟨hfull, .inl hconn4⟩)⟩

lemma check_peer_late (lim : Limits) (h : Described s l) (hc : s.conn a = some c)
    (hopen : c.checked = false) (hcap : 0 < lim.max_per_client) (hpeer : c.peer_len ≠ 0)
    (hrel : released s c = true) (drop : Bool) : check_peer lim s a drop = none := by
  have hskip : ¬ ((c.checked || decide (lim.max_per_client ≤ 0)) = true) := by
    rw [hopen, Bool.false_or, decide_eq_true_eq]
    omega
  obtain ⟨s1, hsweep, _, _, hconn1⟩ :=
    sweep_all_run (h.set_conn hc rfl rfl : Described (s.set_conn a { c with checked := true }) l)
  have hgone : s1.conn a = none := by
    have hrel' : released (s.set_conn a { c with checked := true }) { c with checked := true }
        = true := hrel
    rw [hconn1, set_conn_self]
    simp [hrel']
  unfold check_peer
  simp only [hc, bind_eq_bind, bind_some, if_neg hskip, if_neg hpeer, hsweep,
    peer_count, hgone, bind_none]

lemma check_peer_skip (lim : Limits) (hc : s.conn a = some c)
    (hskip : c.checked = true ∨ lim.max_per_client ≤ 0) (drop : Bool) :
    check_peer lim s a drop = some (false, s) := by
  have hskip' : (c.checked || decide (lim.max_per_client ≤ 0)) = true := by
    rw [Bool.or_eq_true, decide_eq_true_eq]
    exact hskip
  unfold check_peer
  simp only [hc, bind_eq_bind, bind_some, if_pos hskip']

end Count

/-! ## The handlers -/

def Rests (s : Tracker) (r : Option Tracker) : Prop :=
  ∃ s' l', r = some s' ∧ Described s' l' ∧ Keeps s.conn s'.conn ∧ s'.refused = s.refused

variable {r : Option Tracker}

section Handlers

variable {lim : Limits} {s : Tracker} {l : List ℕ} {a : ℕ}

lemma Rests.keeping {l' : List ℕ} (h : Described s' l') (hkeeps : Keeps s.conn s'.conn)
    (hrefused : s'.refused = s.refused) : Rests s (some s') :=
  ⟨s', l', rfl, h, hkeeps, hrefused⟩

lemma Rests.after {s1 : Tracker} (h : Rests s1 r) (hkeeps : Keeps s.conn s1.conn)
    (hrefused : s1.refused = s.refused) : Rests s r := by
  obtain ⟨s', l', hr, hdesc, hkeeps', hrefused'⟩ := h
  exact ⟨s', l', hr, hdesc, hkeeps.trans hkeeps', hrefused'.trans hrefused⟩

lemma forget_rests (h : Described s l) (ha : a ∈ l) : Rests s (forget s a) := by
  obtain ⟨s', l', hrun, hdesc, hquiet, hconn⟩ := forget_mem h ha
  exact ⟨s', l', hrun, hdesc, hconn ▸ Keeps.of_forget s.conn a, hquiet.refused⟩

lemma sweep_rests (h : Described s l) : Rests s (sweep s) := by
  obtain ⟨s', hrun, hdesc, hquiet, hconn⟩ := sweep_run h
  rw [hrun]
  exact Rests.keeping hdesc (Keeps.of_sub fun b => (hconn b).imp id And.left) hquiet.refused

lemma sweep_all_keeps (hconn : ∀ b, s'.conn b = (s.conn b).filter fun c => !released s c) :
    Keeps s.conn s'.conn := by
  refine Keeps.of_sub (fun b => ?_)
  rw [hconn]
  cases hb : s.conn b with
  | none => exact .inl rfl
  | some c =>
    cases hrel : released s c with
    | true => exact .inr (by simp [hrel])
    | false => exact .inl (by simp [hrel])

lemma may_accept_rests (h : Described s l) : Rests s ((may_accept lim s).map (·.2)) := by
  unfold may_accept
  by_cases hoff : lim.max_connections ≤ 0
  · rw [if_pos hoff]
    exact Rests.keeping h (Keeps.refl _) rfl
  · by_cases hroom : (s.live : ℤ) < lim.max_connections
    · rw [if_neg hoff, if_pos hroom]
      exact Rests.keeping h (Keeps.refl _) rfl
    · obtain ⟨s', hrun, hdesc, hquiet, hconn⟩ := sweep_all_run h
      rw [if_neg hoff, if_neg hroom, hrun]
      exact Rests.keeping hdesc (sweep_all_keeps hconn) hquiet.refused

lemma live_exact_rests (h : Described s l) : Rests s ((live_exact s).map (·.2)) := by
  obtain ⟨s', hrun, hdesc, hquiet, hconn⟩ := sweep_all_run h
  rw [live_exact, hrun]
  exact Rests.keeping hdesc (sweep_all_keeps hconn) hquiet.refused

lemma eof_rests (h : Described s l) (ha : a ∈ l) (read : Bool) : Rests s (eof s a read) := by
  obtain ⟨c, hc⟩ := h.conn_some ha
  unfold eof
  simp only [hc, bind_eq_bind, bind_some]
  split
  · exact Rests.keeping h (Keeps.refl _) rfl
  · exact forget_rests h ha

lemma deadline_fire_rests (h : Described s l) (ha : a ∈ l) : Rests s (deadline_fire s a) := by
  obtain ⟨c, hc⟩ := h.conn_some ha
  have hdesc : Described { s with timed_out := s.timed_out + 1, said_timed_out := true } l :=
    ⟨h.doubly, h.alive, h.filed, h.indexed, h.live, h.owner, h.distinct, h.watched, h.armed⟩
  unfold deadline_fire
  rw [hc, bind_eq_bind, bind_some]
  exact (forget_rests hdesc ha).after (Keeps.refl _) rfl

lemma arm_deadline_rests (h : Described s l) (hc : s.conn a = some c)
    (hdl : c.has_deadline = true) (ok : Bool) : Rests s (arm_deadline s a ok) := by
  unfold arm_deadline
  simp only [hc, bind_eq_bind, bind_some, hdl]
  rw [if_neg (by simp)]
  split
  · exact forget_rests h (h.mem hc)
  · exact Rests.keeping (h.set_deadline true fun _ => by rw [hc]; rfl) (Keeps.refl _) rfl

lemma first_byte_rests (h : Described s l) (hc : s.conn a = some c) (hdl : c.has_deadline = true)
    (ok : Bool) : Rests s (first_byte s a ok) := by
  have ha := h.mem hc
  unfold first_byte
  simp only [hc, bind_eq_bind, bind_some]
  split
  · exact forget_rests h ha
  · split
    · exact arm_deadline_rests h hc hdl ok
    · split
      · exact forget_rests h ha
      · exact Rests.keeping
          (h.set_watch (some .first_byte) fun w hw => ⟨c, hc, fun _ => hdl⟩) (Keeps.refl _) rfl
    · exact forget_rests h ha

lemma resolve_keeps (hc : s.conn a = some c) : Keeps s.conn (s.set_conn a (resolved s c)).conn :=
  Keeps.of_set hc (resolved_same c)

lemma response_done_rests (h : Described s l) (bev : ℕ) (ok : Bool) :
    Rests s (response_done lim s bev ok) := by
  unfold response_done
  split
  · exact Rests.keeping h (Keeps.refl _) rfl
  · obtain ⟨found, hfind, hfound⟩ := index_find_run h bev
    simp only [hfind, bind_eq_bind, bind_some]
    cases found with
    | none => exact Rests.keeping h (Keeps.refl _) rfl
    | some a =>
      obtain ⟨c, hc, _⟩ := hfound a rfl
      simp only [hc, bind_some]
      split
      · exact Rests.keeping h (Keeps.refl _) rfl
      · next hserved =>
        have hdl : c.has_deadline = true := by
          simp only [Bool.or_eq_true, Bool.not_eq_true', not_or, Bool.not_eq_false] at hserved
          exact hserved.2
        have hdesc := h.resolve hc
        have hc' : (s.set_conn a (resolved s c)).conn a = some (resolved s c) := set_conn_self _
        have ha := hdesc.mem hc'
        refine Rests.after (?_ : Rests (s.set_conn a (resolved s c)) _) (resolve_keeps hc) rfl
        simp only [resolve_eq hc, bind_some]
        split
        · exact forget_rests hdesc ha
        · split
          · exact arm_deadline_rests hdesc hc' ((resolved_has_deadline c).trans hdl) ok
          · split
            · exact (forget_rests (hdesc.set_watch none fun w hw => absurd hw (by simp)) ha).after
                (Keeps.refl _) rfl
            · exact Rests.keeping (hdesc.set_watch (some .first_byte) fun w hw =>
                ⟨_, hc', fun _ => (resolved_has_deadline c).trans hdl⟩) (Keeps.refl _) rfl

lemma accepted_rests (h : Described s l) {bev : ℕ} (ha : (sweep s).bind (·.conn a) = none)
    (hrefs : s.refs bev = 0) (now : ℕ) (ok : Alloc) :
    Rests s (accepted lim s bev a now ok) := by
  unfold accepted
  split
  · exact Rests.keeping h (Keeps.refl _) rfl
  obtain ⟨s1, hsweep, h1, hquiet1, hconn1⟩ := sweep_run h
  generalize (_ ++ _ : List ℕ) = l1 at h1
  replace hconn1 := fun b => (hconn1 b).imp id And.left
  have ha1 : s1.conn a = none := by rwa [hsweep, bind_some] at ha
  have hrefs1 : s1.refs bev = 0 := Nat.le_zero.mp (hrefs ▸ hquiet1.refs bev)
  have hl1 : ∀ b ∈ l1, b ≠ a := by
    rintro b hb rfl
    obtain ⟨d, hd⟩ := h1.conn_some hb
    exact nomatch hd.symm.trans ha1
  simp only [hsweep, bind_eq_bind, bind_some]
  refine Rests.after (?_ : Rests s1 _) (Keeps.of_sub hconn1) hquiet1.refused
  split
  · exact Rests.keeping h1 (Keeps.refl _) rfl
  -- the record is there, but neither linked nor indexed
  generalize hc : new_conn lim bev now = c
  have hbev : c.bev = bev := by rw [← hc]; rfl
  have hnew : c.checked = false ∧ c.over_client_cap = false := by rw [← hc]; exact ⟨rfl, rfl⟩
  have hself : (s1.alloc a c).conn a = some c := update_self ..
  have hfiled : Filed (s1.alloc a c).hash_next (s1.alloc a c).buckets
      (key (s1.alloc a c).conn (s1.alloc a c).bucket_count) (· ∈ l1) :=
    h1.filed.congr (fun b hb => update_of_ne (hl1 b hb) ..)
      (fun b hb => key_update (hl1 b hb)) (fun _ => Iff.rfl)
  have halive : ∀ b ∈ l1, ((s1.alloc a c).conn b).isSome := by
    intro b hb
    show (update s1.conn a (some c) b).isSome
    rw [update_of_ne (hl1 b hb)]
    exact (h1.alive b).mpr hb
  have hgiveup : ∀ hash_next buckets count,
      Filed hash_next buckets (key (s1.alloc a c).conn count) (· ∈ l1) → (count = 0 → l1 = []) →
      Rests s1 (some (Tracker.free { s1.alloc a c with
        hash_next := hash_next, buckets := buckets, bucket_count := count } a c)) := by
    intro hash_next buckets count hf hi
    refine Rests.keeping (h1.discard ha1 hf hi) (Keeps.of_sub fun b => ?_) rfl
    show update (update s1.conn a (some c)) a none b = _ ∨ _
    rw [update_idem, ← ha1, update_eq_self]
    exact .inl rfl
  split
  · exact hgiveup _ _ _ hfiled h1.indexed
  split
  · exact hgiveup _ _ _ hfiled h1.indexed
  obtain ⟨done, hash_next, buckets, count, hinsert, hfailed, hdone⟩ :=
    index_insert_run hfiled halive (le_of_eq h1.live.symm) h1.indexed ok.buckets hself
      (fun hb => hl1 a hb rfl)
  simp only [hinsert, bind_some]
  cases done with
  | false => exact hgiveup _ _ _ (hfailed rfl).1 (hfailed rfl).2
  | true =>
    obtain ⟨hfiled', hcount⟩ := hdone rfl
    obtain ⟨next, prev, list, tail, hlink, hdoubly⟩ := link_front_run
      (s := { s1.alloc a c with
        hash_next := hash_next, buckets := buckets, bucket_count := count }) (a := a)
      (h1.doubly.congr (fun b hb => update_of_ne (hl1 b hb) ..)
        (fun b hb => update_of_ne (hl1 b hb) ..))
      (fun hb => hl1 a hb rfl)
      (by
        intro b hb
        rcases mem_cons.mp hb with rfl | hb
        · rw [show _ = some c from hself]
          rfl
        · exact halive b hb)
    have hadd := h1.add ha1 (hbev ▸ hrefs1) hdoubly hfiled' hcount
    have hkeeps : Keeps s1.conn (s1.alloc a c).conn := by
      intro b d hb
      by_cases hba : b = a
      · subst hba
        exact .inl (some.inj (hself.symm.trans hb) ▸ hnew)
      · exact .inr ⟨d, (update_of_ne hba ..).symm.trans hb, Same.refl d⟩
    rw [if_neg (by simp)]
    simp only [hlink, bind_some]
    have hin : a ∈ a :: l1 := .head _
    have hwatch := hadd.set_watch (some .pickup) fun w hw =>
      ⟨c, hself, fun hf => absurd (some.inj hw ▸ hf) (by simp)⟩
    split
    · exact (forget_rests hadd hin).after hkeeps rfl
    split
    · exact Rests.keeping hwatch hkeeps rfl
    split
    · exact (forget_rests hwatch hin).after hkeeps rfl
    · refine Rests.keeping (hwatch.set_deadline true fun _ => ?_) hkeeps rfl
      rw [show _ = some c from hself]
      rfl

/-- **The end of the tracker** gives every record and its events back. -/
theorem conns_free_run (h : Described s l) : ∃ s', conns_free s = some s' ∧ Described s' [] := by
  unfold conns_free
  rw [h.live]
  induction l generalizing s with
  | nil =>
    have hlist : s.list = none := Chain.head h.doubly.forward
    refine ⟨s, ?_, h⟩
    rw [length_nil, free_loop, hlist]
    rfl
  | cons a l ih =>
    have hlist : s.list = some a := Chain.head h.doubly.forward
    have hsplit : Described s ([] ++ a :: l) := h
    obtain ⟨s1, hforget, h1, _, _⟩ := forget_run hsplit
    obtain ⟨s', hrest, h'⟩ := ih h1
    refine ⟨s', ?_, h'⟩
    rw [length_cons, free_loop, hlist]
    simp only [hforget, bind_eq_bind, bind_some]
    exact hrest

/-! ## The handlers that judge -/

/-- **What a handler does**: it judges nobody, or the connection at `a` and then, if
that one is refused, nothing more. -/
inductive Did (lim : Limits) (s s' : Tracker) : Prop
  | kept (hkeeps : Keeps s.conn s'.conn) (hrefused : s'.refused = s.refused)
  | judged (a : ℕ) (m m' : ℕ → Option Conn) (refuse : Bool) (hbefore : Keeps s.conn m)
    (hsource : (m a).map peer = (s.conn a).map fun c => (resolved s c).peer)
    (hpicked : ∀ c, m a = some c → c.fd.isSome) (hjudged : Judged lim a m refuse m')
    (hafter : Keeps m' s'.conn) (hover : refuse = true → s'.conn = m')
    (hrefused : s'.refused = s.refused + (if refuse then 1 else 0))

def Ends (lim : Limits) (s : Tracker) (r : Option Tracker) : Prop :=
  ∃ s' l', r = some s' ∧ Described s' l' ∧ Did lim s s'

lemma Rests.ends (h : Rests s r) : Ends lim s r := by
  obtain ⟨s', l', hr, hdesc, hkeeps, hrefused⟩ := h
  exact ⟨s', l', hr, hdesc, .kept hkeeps hrefused⟩

lemma Ends.after {s1 : Tracker} (h : Ends lim s1 r) (hkeeps : Keeps s.conn s1.conn)
    (hrefused : s1.refused = s.refused)
    (hsource : ∀ b, (s1.conn b).map (fun c => (resolved s1 c).peer) = (s.conn b).map fun c => (resolved s c).peer) :
    Ends lim s r := by
  obtain ⟨s', l', hr, hdesc, hdid⟩ := h
  refine ⟨s', l', hr, hdesc, ?_⟩
  cases hdid with
  | kept hk hr' => exact .kept (hkeeps.trans hk) (hr'.trans hrefused)
  | judged a m m' refuse hbefore hsource' hpicked hjudged hafter hover hr' =>
    exact .judged a m m' refuse (hkeeps.trans hbefore) (hsource'.trans (hsource a)) hpicked hjudged
      hafter hover (by rw [hr', hrefused])

lemma resolved_of_fd (h : c.fd.isSome = true) : resolved s c = c := by
  obtain ⟨fd, hfd⟩ := isSome_iff_exists.mp h
  rw [resolved, hfd]

lemma resolved_resolved (c : Conn) : resolved s (resolved s c) = resolved s c := by
  cases hfd : c.fd with
  | some fd =>
    have hown : resolved s c = c := resolved_of_fd (by rw [hfd]; rfl)
    rw [hown, hown]
  | none =>
    cases hbev : (s.bevs c.bev).fd with
    | none =>
      have hown : resolved s c = c := by rw [resolved, hfd, hbev]
      rw [hown, hown]
    | some fd => exact resolved_of_fd (by rw [resolved, hfd, hbev]; rfl)

lemma resolved_requests (c : Conn) :
    (resolved s { c with requests := c.requests + 1 }).peer = (resolved s c).peer := by
  unfold resolved
  cases c.fd with
  | some fd => rfl
  | none =>
    cases (s.bevs c.bev).fd with
    | none => rfl
    | some fd => rfl

lemma source_set {c c' : Conn} (hc : s.conn a = some c)
    (hpeer : (resolved s c').peer = (resolved s c).peer) (b : ℕ) :
    ((s.set_conn a c').conn b).map (fun d => (resolved (s.set_conn a c') d).peer)
      = (s.conn b).map fun d => (resolved s d).peer := by
  by_cases hb : b = a
  · subst hb
    rw [set_conn_self, hc]
    exact congrArg some hpeer
  · rw [set_conn_other hb]
    rfl

/-- **A handler that judges its connection**: it stops if that one is refused, and goes
on without judging anybody if it is let in. -/
theorem check_peer_ends (lim : Limits) (h : Described s l) (hc : s.conn a = some c)
    (hfd : c.fd.isSome)
    (hstays : 0 < lim.max_per_client → c.checked = false → c.peer_len = 0 ∨ released s c = false)
    (drop : Bool) :
    ∃ refuse s1 l1, check_peer lim s a drop = some (refuse, s1) ∧ Described s1 l1
      ∧ (refuse = true → Ends lim s (some s1))
      ∧ (refuse = false → (∃ d, s1.conn a = some d) ∧ ∀ r, Rests s1 r → Ends lim s r) := by
  by_cases hskip : c.checked = true ∨ lim.max_per_client ≤ 0
  · exact ⟨false, s, l, check_peer_skip lim hc hskip drop, h, nofun,
      fun _ => ⟨⟨c, hc⟩, fun r hr => hr.ends⟩⟩
  · rw [not_or, Bool.not_eq_true, Int.not_le] at hskip
    obtain ⟨hopen, hcap⟩ := hskip
    obtain ⟨refuse, s1, l1, hrun, hdesc, hbevs, hrefused, hin, m, hkeeps, hself, hjudged⟩ :=
      check_peer_run lim h hc hopen hcap (hstays hcap hopen) drop
    have hpicked : ∀ d, m a = some d → d.fd.isSome := by
      intro d hd
      rw [← some.inj (hself.symm.trans hd)]
      exact hfd
    have hsource : (m a).map peer = (s.conn a).map fun c => (resolved s c).peer := by
      rw [hself, hc, map_some, map_some, resolved_of_fd hfd]
    refine ⟨refuse, s1, l1, hrun, hdesc, ?_, ?_⟩
    · intro hover
      exact ⟨s1, l1, rfl, hdesc, .judged a m s1.conn refuse hkeeps hsource hpicked hjudged
        (Keeps.refl _) (fun _ => rfl) hrefused⟩
    · intro hover
      refine ⟨⟨_, hin hover⟩, ?_⟩
      rintro r ⟨s', l', hr, hdesc', hkeeps', hrefused'⟩
      exact ⟨s', l', hr, hdesc', .judged a m s1.conn refuse hkeeps hsource hpicked hjudged hkeeps'
        (fun hover' => absurd (hover.symm.trans hover') (by simp)) (hrefused'.trans hrefused)⟩

/-- Whether the pickup of a record comes too late: the sweep of `check_peer` forgets it. -/
def late (lim : Limits) (s : Tracker) (c : Conn) : Prop :=
  0 < lim.max_per_client ∧ c.checked = false ∧ abandoned s c = true
    ∧ (resolved s c).fd.isSome = true ∧ (resolved s c).peer_len ≠ 0

lemma released_resolved (hfd : (resolved s c).fd.isSome = true) :
    released (s.set_conn a (resolved s c)) (resolved s c) = abandoned s c := by
  have hnone : (resolved s c).fd.isNone = false := by
    rw [← not_isSome, hfd]
    rfl
  rw [released, hnone, Bool.and_false, if_neg (by simp), abandoned, abandoned, resolved_bev]
  rfl

lemma watch_eof_rests (h : Described s l) (hc : s.conn a = some c) (ok : Bool) :
    Rests s (watch_eof s a ok) := by
  unfold watch_eof
  simp only [hc, bind_eq_bind, bind_some]
  split
  · exact forget_rests h (h.mem hc)
  · exact ⟨_, l, rfl, h.set_watch (some .eof) fun w hw =>
      ⟨c, hc, fun hf => absurd (some.inj hw ▸ hf) (by simp)⟩, Keeps.refl _, rfl⟩

lemma pickup_ends (h : Described s l) (hc : s.conn a = some c) (hlate : ¬ late lim s c)
    (ok : Bool) : Ends lim s (pickup lim s a ok) := by
  have hdesc := h.resolve hc
  have hc' : (s.set_conn a (resolved s c)).conn a = some (resolved s c) := set_conn_self _
  refine Ends.after (?_ : Ends lim (s.set_conn a (resolved s c)) _) (resolve_keeps hc) rfl
    (source_set hc (congrArg peer (resolved_resolved c)))
  unfold pickup
  simp only [resolve_eq hc, bind_eq_bind, bind_some]
  by_cases hfd : (resolved s c).fd.isSome = true
  · rw [if_neg (by rw [hfd]; simp)]
    have hstays : 0 < lim.max_per_client → (resolved s c).checked = false →
        (resolved s c).peer_len = 0
          ∨ released (s.set_conn a (resolved s c)) (resolved s c) = false := by
      intro hcap hopen
      rw [resolved_checked] at hopen
      by_cases hpeer : (resolved s c).peer_len = 0
      · exact .inl hpeer
      · right
        rw [released_resolved hfd, ← Bool.not_eq_true]
        exact fun hgone => hlate ⟨hcap, hopen, hgone, hfd, hpeer⟩
    obtain ⟨refuse, s1, l1, hrun, hdesc1, hout, hin⟩ :=
      check_peer_ends lim hdesc hc' hfd hstays true
    rw [hrun, bind_some]
    cases refuse with
    | true => exact hout rfl
    | false =>
      obtain ⟨⟨d, hd⟩, hrest⟩ := hin rfl
      exact hrest _ (watch_eof_rests hdesc1 hd ok)
  · rw [Bool.not_eq_true] at hfd
    rw [if_pos hfd]
    exact (forget_rests hdesc (hdesc.mem hc')).ends

lemma pickup_late (h : Described s l) (hc : s.conn a = some c) (hlate : late lim s c) (ok : Bool) :
    pickup lim s a ok = none := by
  obtain ⟨hcap, hopen, hgone, hfd, hpeer⟩ := hlate
  have hc' : (s.set_conn a (resolved s c)).conn a = some (resolved s c) := set_conn_self _
  have hnone := check_peer_late lim (h.resolve hc) hc' ((resolved_checked c).trans hopen) hcap hpeer
    ((released_resolved hfd).trans hgone) true
  unfold pickup
  simp only [resolve_eq hc, bind_eq_bind, bind_some, hfd]
  rw [if_neg (by simp), hnone, bind_none]

lemma serve_rests (lim : Limits) (h : Described s l) (hc : s.conn a = some c) :
    Rests s (serve lim s a) := by
  have hdl := h.set_deadline (a := a) false nofun
  unfold serve
  simp only [hc, bind_eq_bind, bind_some]
  split
  · exact forget_rests hdl (hdl.mem hc)
  · have hwatch := hdl.set_watch (a := a) none nofun
    obtain ⟨pre, post, hl⟩ := append_of_mem (h.mem hc)
    have hserved : Described (Tracker.set_conn { s with
        deadline := update s.deadline a false
        watch := update s.watch a none } a { c with served := true }) (pre ++ a :: post) :=
      hl ▸ hwatch.set_conn hc rfl rfl
    obtain ⟨s1, s', hunlink, hlink, hdesc, hquiet, hconn⟩ := touch_run hserved
    refine ⟨s', _, ?_, hdesc, ?_, hquiet.refused⟩
    · rw [hunlink, bind_some, hlink]
    · rw [hconn]
      exact Keeps.of_set hc (Same.refl c)

lemma request_ends (h : Described s l) {bev : ℕ} (hheld : (s.bevs bev).let_go = false)
    {fd : ℕ} (hfd : (s.bevs bev).fd = some fd) : Ends lim s ((request lim s bev).map (·.2)) := by
  obtain ⟨found, hfind, hfound⟩ := index_find_run h bev
  unfold request
  simp only [hfind, bind_eq_bind, bind_some]
  cases found with
  | none => exact (Rests.keeping h (Keeps.refl _) rfl).ends
  | some a =>
    obtain ⟨c, hc, hbev⟩ := hfound a rfl
    simp only [hc, bind_some]
    -- the request is counted
    generalize hc1 : ({ c with requests := c.requests + 1 } : Conn) = c1
    have hsame : Same c c1 := by rw [← hc1]; exact Same.refl c
    have hbev1 : c1.bev = bev := by rw [← hc1]; exact hbev
    have hdl1 : c1.has_deadline = c.has_deadline := by rw [← hc1]
    have h1 : Described (s.set_conn a c1) l := h.set_conn hc (hbev1.trans hbev.symm) hdl1
    have hself1 : (s.set_conn a c1).conn a = some c1 := set_conn_self _
    refine Ends.after (?_ : Ends lim (s.set_conn a c1) _) (Keeps.of_set hc hsame) rfl
      (source_set hc (hc1 ▸ resolved_requests c))
    generalize hs1 : s.set_conn a c1 = s1 at h1 hself1
    have hbevs1 : s1.bevs = s.bevs := by rw [← hs1]; rfl
    split
    · obtain ⟨s', l', hrun, hrest⟩ := forget_rests h1 (h1.mem hself1)
      rw [hrun]
      exact Rests.ends ⟨s', l', rfl, hrest⟩
    · -- and the connection is judged, which evhttp has not let go of
      have hpicked : (resolved s1 c1).fd.isSome = true := by
        rw [resolved, hbevs1, hbev1, hfd]
        cases hown : c1.fd with
        | none => rfl
        | some own =>
          rw [hown]
          rfl
      have hrel : released (s1.set_conn a (resolved s1 c1)) (resolved s1 c1) = false := by
        rw [released_resolved hpicked, abandoned, hbevs1, hbev1, hheld]
      have h2 := h1.resolve hself1
      refine Ends.after (?_ : Ends lim (s1.set_conn a (resolved s1 c1)) _) (resolve_keeps hself1) rfl
        (source_set hself1 (congrArg peer (resolved_resolved c1)))
      obtain ⟨refuse, s3, l3, hrun, hdesc3, hout, hin⟩ := check_peer_ends lim h2 (set_conn_self _)
        hpicked (fun _ _ => .inr hrel) false
      simp only [resolve_eq hself1, bind_some, hrun]
      cases refuse with
      | true => exact hout rfl
      | false =>
        obtain ⟨⟨d, hd⟩, hrest⟩ := hin rfl
        obtain ⟨s', l', hserve, hrest'⟩ := serve_rests lim hdesc3 hd
        rw [if_neg (by simp), hserve]
        exact hrest _ ⟨s', l', rfl, hrest'⟩

/-! ## Runs -/

lemma late_pickup_iff {read ok : Bool} : late_pickup lim s (.watch a read ok) = true
    ↔ s.watch a = some .pickup ∧ ∃ c, s.conn a = some c ∧ late lim s c := by
  rw [late_pickup]
  cases hc : s.conn a with
  | none => simp
  | some c =>
    simp only [any_some, Bool.and_eq_true, decide_eq_true_eq, Bool.not_eq_true',
      some.injEq, exists_eq_left', late, ne_eq]
    tauto

theorem step_ends (lim : Limits) (h : Described s l) (e : Event) :
    (late_pickup lim s e = true → step lim s e = none)
      ∧ (late_pickup lim s e = false → Ends lim s (step lim s e)) := by
  cases e with
  | accepted bev a now ok =>
    refine ⟨by simp [late_pickup], fun _ => ?_⟩
    rw [step]
    split
    · exact (Rests.keeping h (Keeps.refl _) rfl).ends
    · next hfresh =>
      rw [not_or, not_isSome_iff_eq_none, not_not] at hfresh
      exact (accepted_rests h hfresh.1 hfresh.2 now ok).ends
  | watch a read ok =>
    rw [step]
    cases hw : s.watch a with
    | none =>
      refine ⟨fun hlate => ?_, fun _ => (Rests.keeping h (Keeps.refl _) rfl).ends⟩
      obtain ⟨hpickup, _⟩ := late_pickup_iff.mp hlate
      exact nomatch hw.symm.trans hpickup
    | some w =>
      -- only a pickup can come too late
      obtain ⟨c, hc, hfirst⟩ := h.watched a w hw
      have hshot := h.set_watch (a := a) none nofun
      cases w with
      | pickup =>
        constructor
        · intro hlate
          obtain ⟨_, c', hc', hl⟩ := late_pickup_iff.mp hlate
          exact pickup_late hshot hc' hl ok
        · intro hlate
          refine (pickup_ends hshot hc (fun hl => ?_) ok).after (Keeps.refl _) rfl (fun _ => rfl)
          rw [late_pickup_iff.mpr ⟨hw, c, hc, hl⟩] at hlate
          simp at hlate
      | eof =>
        refine ⟨fun hlate => ?_, fun _ => (eof_rests h (h.mem hc) read).ends⟩
        obtain ⟨hpickup, _⟩ := late_pickup_iff.mp hlate
        exact nomatch hw.symm.trans hpickup
      | first_byte =>
        refine ⟨fun hlate => ?_, fun _ =>
          Rests.ends ((first_byte_rests hshot hc (hfirst rfl) ok).after (Keeps.refl _) rfl)⟩
        obtain ⟨hpickup, _⟩ := late_pickup_iff.mp hlate
        exact nomatch hw.symm.trans hpickup
  | deadline a =>
    refine ⟨by simp [late_pickup], fun _ => ?_⟩
    rw [step]
    split
    · next harmed =>
      have hdl := h.set_deadline (a := a) false nofun
      exact Rests.ends (s := s) ((deadline_fire_rests hdl ((h.alive a).mp (h.armed a harmed))).after
        (Keeps.refl _) rfl)
    · exact (Rests.keeping h (Keeps.refl _) rfl).ends
  | request bev =>
    refine ⟨by simp [late_pickup], fun _ => ?_⟩
    rw [step]
    split
    · exact (Rests.keeping h (Keeps.refl _) rfl).ends
    · next hcan =>
      rw [not_or, Bool.not_eq_true] at hcan
      obtain ⟨fd, hfd⟩ := ne_none_iff_exists'.mp hcan.2
      exact request_ends h hcan.1 hfd
  | response_done bev ok =>
    exact ⟨by simp [late_pickup], fun _ =>
      (response_done_rests h bev ok).ends⟩
  | may_accept =>
    exact ⟨by simp [late_pickup], fun _ => (may_accept_rests h).ends⟩
  | sweep =>
    exact ⟨by simp [late_pickup], fun _ => (sweep_rests h).ends⟩
  | live_exact =>
    exact ⟨by simp [late_pickup], fun _ => (live_exact_rests h).ends⟩
  | bev b v =>
    refine ⟨by simp [late_pickup], fun _ => ?_⟩
    have hdesc : Described { s with bevs := update s.bevs b v } l :=
      ⟨h.doubly, h.alive, h.filed, h.indexed, h.live, h.owner, h.distinct, h.watched, h.armed⟩
    exact Rests.ends (Rests.keeping hdesc (Keeps.refl _) rfl)

lemma step_some (h : Described s l) {e : Event} (hs : step lim s e = some s') :
    ∃ l', Described s' l' ∧ Did lim s s' := by
  obtain ⟨hlate, hends⟩ := step_ends lim h e
  cases hcase : late_pickup lim s e with
  | true => exact absurd ((hlate hcase).symm.trans hs) (by simp)
  | false =>
    obtain ⟨s1, l1, hs1, hdesc, hdid⟩ := hends hcase
    have heq : s1 = s' := some.inj (hs1.symm.trans hs)
    exact ⟨l1, heq ▸ hdesc, heq ▸ hdid⟩

lemma run_described {events : List Event} (h : run lim events = some s) : ∃ l, Described s l := by
  refine Runs.attempt_invariant (I := fun s => ∃ l, Described s l) ?_ events ⟨[], Described.new⟩ h
  rintro s e s' ⟨l, hdesc⟩ hs'
  obtain ⟨l', hdesc', _⟩ := step_some hdesc hs'
  exact ⟨l', hdesc'⟩

lemma step_none_iff (h : Described s l) (e : Event) :
    step lim s e = none ↔ late_pickup lim s e = true := by
  obtain ⟨hlate, hends⟩ := step_ends lim h e
  refine ⟨fun hnone => ?_, hlate⟩
  by_contra hnot
  rw [Bool.not_eq_true] at hnot
  obtain ⟨s', l', hs', _⟩ := hends hnot
  exact nomatch hnone.symm.trans hs'

end Handlers

/-- **The tracker over every run.** A run touches a freed record exactly if it comes to a late
pickup; and in every reached state the list, its tail, the index and the counter describe the same
connections, each once. -/
theorem tracker_consistent (lim : Limits) (events : List Event) :
    (run lim events = none ↔ ∃ pre e post s, events = pre ++ e :: post
        ∧ run lim pre = some s ∧ late_pickup lim s e = true)
      ∧ ∀ s, run lim events = some s → ∃ l, Described s l := by
  refine ⟨Runs.attempt_none_iff (I := fun s => ∃ l, Described s l) ?_ ?_ events
    ⟨[], Described.new⟩, fun s => run_described⟩
  · rintro s e ⟨l, h⟩
    exact step_none_iff h e
  · rintro s e s' ⟨l, h⟩ hs'
    obtain ⟨l', hdesc, _⟩ := step_some h hs'
    exact ⟨l', hdesc⟩

def alloc_ok : Alloc := ⟨true, true, true, true, true, true⟩

def two_of_one_client : List Event :=
  [.accepted 100 1 0 alloc_ok,
    .bev 100 ⟨some 7, some (.inet 2130706433 40000), false, 0, .would_block⟩,
    .watch 1 false true,
    .accepted 200 2 0 alloc_ok,
    .bev 200 ⟨some 8, some (.inet 2130706433 40001), false, 0, .would_block⟩]

def one_released : List Event :=
  two_of_one_client ++ [.bev 100 ⟨some 7, some (.inet 2130706433 40000), true, 0, .ended⟩]

/-- **Admission is exact.** In every reached state a connection may be accepted exactly if there is
no limit, or fewer connections than it allows are tracked and not released; the sweep that is put
off until the limit is met does not show. -/
theorem admission_exact (lim : Limits) (events : List Event) (s : Tracker)
    (hrun : run lim events = some s) : ∃ l ok s', Described s l ∧ may_accept lim s = some (ok, s')
      ∧ (ok = true ↔ lim.max_connections ≤ 0 ∨ (l.filter (stays s)).length < lim.max_connections) := by
  obtain ⟨l, h⟩ := run_described hrun
  have hle := length_filter_le (stays s) l
  have hlive := h.live
  obtain ⟨s', hsweep, hdesc, _⟩ := sweep_all_run h
  unfold may_accept
  split
  · exact ⟨l, true, s, h, rfl, by simp [*]⟩
  · split
    · exact ⟨l, true, s, h, rfl, by simp only [true_iff]; omega⟩
    · refine ⟨l, _, s', h, by rw [hsweep]; rfl, ?_⟩
      simp [hdesc.live, *]

theorem admission_exact_one_released : ∃ s, run ⟨3000, 2, 0, true⟩ one_released = some s
    ∧ s.live = 2 ∧ (may_accept ⟨3000, 2, 0, true⟩ s).map Prod.fst = some true
    ∧ ∃ l ok s', Described s l ∧ may_accept ⟨3000, 2, 0, true⟩ s = some (ok, s')
      ∧ (ok = true ↔ (2 : ℤ) ≤ 0 ∨ (l.filter (stays s)).length < (2 : ℤ)) :=
  ⟨_, rfl, rfl, rfl, admission_exact ⟨3000, 2, 0, true⟩ one_released _ rfl⟩

lemma sweeps_run (lim : Limits) {s : Tracker} {l : List ℕ} (n : ℕ) (h : Described s l)
    (hkept : ∀ b ∈ l.take (l.length - SWEEP_MAX * n), stays s b = true) :
    ∃ s', Runs.attempt (step lim) s (replicate n .sweep) = some s'
      ∧ ∀ b, s'.conn b = (s.conn b).filter fun c => !released s c := by
  -- each sweep brings `SWEEP_MAX` more records behind those that are known to stay
  induction n generalizing s l with
  | zero =>
    refine ⟨s, rfl, fun b => ?_⟩
    cases hc : s.conn b with
    | none => rfl
    | some c =>
      have hstays := hkept b (by simpa using h.mem hc)
      simp_all [stays, Option.filter]
  | succ n ih =>
    rw [Nat.mul_succ] at hkept
    obtain ⟨s1, hsweep, h1, hquiet, hconn⟩ := sweep_run h
    obtain ⟨s', hrun, hleft⟩ := ih h1 fun b hb => by
      obtain ⟨c, hc⟩ := h1.conn_some (mem_of_mem_take hb)
      rw [stays_congr hquiet.bevs ((hconn b).resolve_right (by simp [hc]))]
      rw [take_append, mem_append] at hb
      rcases hb with hb | hb
      · exact (mem_filter.mp (mem_of_mem_take hb)).2
      · refine hkept b (take_subset_take_left _ ?_ (take_take ▸ hb))
        simp only [length_append, length_take]
        omega
    refine ⟨s', by rw [replicate_succ, Runs.attempt, step, hsweep]; exact hrun, fun b => ?_⟩
    rw [hleft, funext (released_congr hquiet.bevs)]
    rcases hconn b with hb | ⟨hb, hrel⟩
    · rw [hb]
    · cases hc : s.conn b with
      | none => rw [hb]
      | some c => simp_all [stays, Option.filter]

/-- **The bounded sweeps do what the exhaustive one does.** After any run, as many as it takes to
look at the tracked connections once forget those that are released, and no others. -/
theorem sweeps_clear (lim : Limits) (events : List Event) (n : ℕ) (s : Tracker)
    (hrun : run lim events = some s) (hn : s.live ≤ SWEEP_MAX * n) :
    ∃ s', run lim (events ++ replicate n .sweep) = some s'
      ∧ ∀ b, s'.conn b = (s.conn b).filter fun c => !released s c := by
  obtain ⟨l, h⟩ := run_described hrun
  have hnone : l.length - SWEEP_MAX * n = 0 := by rw [← h.live]; omega
  rw [run, Runs.attempt_append, ← run, hrun]
  exact sweeps_run lim n h (by simp [hnone])

theorem sweeps_clear_one_released : ∃ s s', run ⟨3000, 2, 0, true⟩ one_released = some s
    ∧ (s.conn 1).isSome = true ∧ (s.conn 2).isSome = true
    ∧ run ⟨3000, 2, 0, true⟩ (one_released ++ replicate 1 .sweep) = some s'
    ∧ s'.conn 1 = none ∧ s'.conn 2 = s.conn 2
    ∧ ∀ b, s'.conn b = (s.conn b).filter fun c => !released s c := by
  obtain ⟨s', hs', hconn⟩ := sweeps_clear ⟨3000, 2, 0, true⟩ one_released 1 _ rfl (by decide)
  exact ⟨_, s', rfl, rfl, rfl, hs', hconn 1, hconn 2, hconn⟩

/-- **The end of the tracker.** It can be freed after every run, and then no record is left, and no
event that names one. -/
theorem tracker_freed (lim : Limits) (events : List Event) :
    ((run lim events).bind conns_free).isSome = (run lim events).isSome
      ∧ ∀ s' ∈ (run lim events).bind conns_free, s'.list = none ∧ s'.tail = none ∧ s'.live = 0
        ∧ ∀ a, s'.conn a = none ∧ s'.watch a = none ∧ s'.deadline a = false := by
  cases hrun : run lim events with
  | none => simp
  | some s =>
    obtain ⟨l, h⟩ := run_described hrun
    obtain ⟨s1, hfree, h1⟩ := conns_free_run h
    have hnone : ∀ a, s1.conn a = none := fun a => by simpa using h1.alive a
    simp only [bind_some, hfree, isSome_some, mem_some_iff, forall_eq', true_and]
    refine ⟨Chain.head h1.doubly.forward, h1.tail_eq, h1.live, fun a => ⟨hnone a, ?_, ?_⟩⟩
    · refine eq_none_iff_forall_ne_some.mpr fun w hw => ?_
      obtain ⟨c, hc, _⟩ := h1.watched a w hw
      simp [hnone] at hc
    · simpa [hnone] using h1.armed a

/-- A client that is gone before its connection is picked up: the connection is
accepted, evhttp reads the end of the stream and lets go of it, and the pickup timer
fires. -/
def gone_early : List Event :=
  [.accepted 100 1 0 alloc_ok,
    .bev 100 ⟨some 7, some (.inet 2130706433 40000), true, 0, .ended⟩,
    .watch 1 false true]

/-- **The record under judgement is read after it was freed**: under
`http.max_connections_per_client` the pickup of such a connection sweeps away its own record,
tracked until then, and goes on to count its peers with it. -/
theorem pickup_reads_freed_record :
    run ⟨3000, 10, 1, true⟩ gone_early = none
      ∧ ((run ⟨3000, 10, 1, true⟩ (gone_early.take 2)).bind (·.conn 1)).isSome = true := by
  decide

end FpmNg.ConnTracker
