/-
The per-client cap of the connection tracker over whole runs.

A connection is judged once, at its pickup or its first request, whichever comes
first; until then it counts against its client's other connections, and so does one
that was let in, but one that was refused does not. `Capped` is what keeps the bound:
at most the cap's number of connections let in for each client, and no connection
judged before its peer was known, so that no client's number grows behind the count.
-/
import FpmNg.ConnTrackerRun

open List Function Option

namespace FpmNg.ConnTracker

/-- The client `fpm_direct_conn_peer_count()` counts connections for: an address
without its port. -/
inductive Client where
  | inet (addr : ℕ)
  | inet6 (addr : ℕ)
  deriving DecidableEq

def Sockaddr.client : Sockaddr → Option Client
  | .inet addr _ => some (.inet addr)
  | .inet6 addr _ _ _ => some (.inet6 addr)
  | .other _ _ => none

def Conn.client (c : Conn) : Option Client := c.peer.bind Sockaddr.client

/-- The record at `a` is a connection of `k` that was judged and let in. -/
def admitted (m : ℕ → Option Conn) (k : Client) (a : ℕ) : Bool :=
  (m a).any fun c => c.checked && !c.over_client_cap && c.client = some k

/-- The record at `a` is a connection of `k` that was not refused. -/
def standing (m : ℕ → Option Conn) (k : Client) (a : ℕ) : Bool :=
  (m a).any fun c => !c.over_client_cap && c.client = some k

lemma same_client_iff {self c : Conn} :
    same_client self c = true ↔ ∃ k, self.client = some k ∧ c.client = some k := by
  unfold same_client Conn.client
  cases self.peer with
  | none => simp
  | some p =>
    cases c.peer with
    | none => simp
    | some q => cases p <;> cases q <;> simp [Sockaddr.client, eq_comm]

def Client.len : Client → ℕ
  | .inet _ => 16
  | .inet6 _ => 28

variable {k : Client} {c : Conn}

lemma peer_len_of_client (h : c.client = some k) : c.peer_len = k.len := by
  obtain ⟨p, hp, hk⟩ := bind_eq_some_iff.mp h
  rw [Conn.peer_len, hp]
  cases p with
  | inet addr port | inet6 addr port flowinfo scope_id => exact some.inj hk ▸ rfl
  | other family len => simp [Sockaddr.client] at hk

variable {m : ℕ → Option Conn}

lemma counted_iff {a b : ℕ} :
    counted m a c b = true ↔ b ≠ a ∧ ∃ k, c.client = some k ∧ standing m k b = true := by
  unfold counted standing
  cases m b with
  | none => simp
  | some d =>
    simp only [any_some, Bool.and_eq_true, Bool.not_eq_true', decide_eq_true_eq]
    constructor
    · intro h
      unfold counts at h
      split at h
      · simp at h
      · next hnot =>
        simp only [Bool.or_eq_true, decide_eq_true_eq, not_or, Bool.not_eq_true] at hnot
        obtain ⟨k, hc, hd⟩ := same_client_iff.mp h
        exact ⟨hnot.1.1, k, hc, hnot.1.2, hd⟩
    · rintro ⟨hne, k, hc, hover, hd⟩
      have hlen : d.peer_len = c.peer_len :=
        (peer_len_of_client hd).trans (peer_len_of_client hc).symm
      unfold counts
      rw [if_neg (by simp [hne, hover, hlen])]
      exact same_client_iff.mpr ⟨k, hc, hd⟩

lemma admitted_iff {a : ℕ} : admitted m k a = true
    ↔ ∃ c, m a = some c ∧ c.checked = true ∧ c.over_client_cap = false ∧ c.client = some k := by
  unfold admitted
  cases m a with
  | none => simp
  | some c => simp [and_assoc]

lemma standing_of_admitted {a : ℕ} (h : admitted m k a = true) : standing m k a = true := by
  obtain ⟨c, hc, _, hover, hk⟩ := admitted_iff.mp h
  simp [standing, hc, hover, hk]

/-! ## The invariant -/

/-- **At most the cap's number of connections of each client are let in**, and whoever
was judged had an fd by then. -/
structure Capped (lim : Limits) (m : ℕ → Option Conn) : Prop where
  bound : ∀ (k : Client) (L : List ℕ), L.Nodup → (∀ a ∈ L, admitted m k a = true) →
    (L.length : ℤ) ≤ lim.max_per_client
  picked : ∀ a c, m a = some c → c.checked = true → c.fd.isSome

section Steps

variable {lim : Limits} {m m' : ℕ → Option Conn} {a : ℕ}

lemma Capped.keeps (h : Capped lim m) (hkeeps : Keeps m m') : Capped lim m' where
  bound := by
    intro k L hL hall
    refine h.bound k L hL (fun a ha => ?_)
    obtain ⟨c', hc', hchecked, hover, hk⟩ := admitted_iff.mp (hall a ha)
    rcases hkeeps a c' hc' with hnew | ⟨c, hc, hsame⟩
    · exact nomatch hnew.1.symm.trans hchecked
    · have hjudged : c.checked = true := hsame.1.symm.trans hchecked
      have hpeer := (hsame.2.2 (h.picked a c hc hjudged)).2
      refine admitted_iff.mpr ⟨c, hc, hjudged, hsame.2.1.symm.trans hover, ?_⟩
      rw [Conn.client, ← hpeer]
      exact hk
  picked := by
    intro a c' hc' hchecked
    rcases hkeeps a c' hc' with hnew | ⟨c, hc, hsame⟩
    · exact nomatch hnew.1.symm.trans hchecked
    · have hfd := h.picked a c hc (hsame.1.symm.trans hchecked)
      rw [(hsame.2.2 hfd).1]
      exact hfd

lemma admitted_other {v : Option Conn} {b : ℕ} (hb : b ≠ a) :
    admitted (update m a v) k b = admitted m k b := by
  rw [admitted, update_of_ne hb, admitted]

theorem Capped.let_in (h : Capped lim m) (hfd : c.fd.isSome) {l : List ℕ}
    (halive : ∀ b, (m b).isSome ↔ b ∈ l)
    (hroom : c.peer_len = 0 ∨ (l.countP (counted m a c) : ℤ) < lim.max_per_client) :
    Capped lim (update m a (some { c with checked := true })) where
  bound := by
    intro k L hL hall
    by_cases ha : a ∈ L
    · obtain ⟨c', hc', _, _, hk⟩ := admitted_iff.mp (hall a ha)
      rw [update_self] at hc'
      have hck : c.client = some k := by
        rw [← some.inj hc'] at hk
        exact hk
      -- the others of the client, each of which was counted
      have hothers : ∀ b ∈ L.erase a, b ∈ l.filter (counted m a c) := by
        intro b hb
        have hne : b ≠ a := (hL.mem_erase_iff.mp hb).1
        have hadm := hall b (mem_of_mem_erase hb)
        rw [admitted_other hne] at hadm
        obtain ⟨d, hd, _⟩ := admitted_iff.mp hadm
        refine mem_filter.mpr ⟨(halive b).mp (by rw [hd]; rfl), ?_⟩
        exact counted_iff.mpr ⟨hne, k, hck, standing_of_admitted hadm⟩
      have hle := (subperm_of_subset (hL.erase a) hothers).length_le
      rw [length_erase_of_mem ha, ← countP_eq_length_filter] at hle
      have hlen : c.peer_len ≠ 0 := by
        rw [peer_len_of_client hck]
        cases k <;> simp [Client.len]
      omega
    · refine h.bound k L hL (fun b hb => ?_)
      rw [← admitted_other (ne_of_mem_of_not_mem hb ha)]
      exact hall b hb
  picked := by
    intro b d hb hchecked
    by_cases hba : b = a
    · subst hba
      rw [update_self] at hb
      rw [← some.inj hb]
      exact hfd
    · rw [update_of_ne hba] at hb
      exact h.picked b d hb hchecked

lemma Capped.refuse (h : Capped lim m) {v : Option Conn}
    (hv : ∀ c, v = some c → c.over_client_cap = true ∧ c.fd.isSome) :
    Capped lim (update m a v) where
  bound := by
    intro k L hL hall
    refine h.bound k L hL (fun b hb => ?_)
    have hadm := hall b hb
    by_cases hba : b = a
    · subst hba
      obtain ⟨c, hc, _, hover, _⟩ := admitted_iff.mp hadm
      rw [update_self] at hc
      exact absurd (hover.symm.trans (hv c hc).1) (by simp)
    · rwa [admitted_other hba] at hadm
  picked := by
    intro b d hb hchecked
    by_cases hba : b = a
    · subst hba
      rw [update_self] at hb
      exact (hv d hb).2
    · rw [update_of_ne hba] at hb
      exact h.picked b d hb hchecked

lemma Capped.judged (h : Capped lim m) (hpicked : ∀ c, m a = some c → c.fd.isSome) {refuse : Bool}
    (hj : Judged lim a m refuse m') : Capped lim m' := by
  obtain ⟨c, l, hc, hopen, hnodup, halive, hin, hout⟩ := hj.verdict
  have hfd := hpicked c hc
  cases refuse with
  | false =>
    obtain ⟨rfl, hroom⟩ := hin rfl
    exact h.let_in hfd halive hroom
  | true =>
    obtain ⟨_, rfl | rfl⟩ := hout rfl
    · exact h.refuse nofun
    · exact h.refuse (fun d hd => some.inj hd ▸ ⟨rfl, hfd⟩)

lemma Capped.did {s s' : Tracker} (h : Capped lim s.conn) (hdid : Did lim s s') :
    Capped lim s'.conn := by
  cases hdid with
  | kept hkeeps _ => exact h.keeps hkeeps
  | judged a m m' refuse hbefore _ hpicked hjudged hafter _ _ =>
    exact ((h.keeps hbefore).judged hpicked hjudged).keeps hafter

theorem refused_beside {s s' : Tracker} (hdid : Did lim s s') (hrefused : s'.refused ≠ s.refused)
    {l' : List ℕ} (h' : Described s' l') (hcap : 0 < lim.max_per_client) :
    ∃ a c k, s.conn a = some c ∧ (resolved s c).client = some k
      ∧ (∀ d, s'.conn a = some d → d.over_client_cap = true)
      ∧ lim.max_per_client ≤ (l'.countP (fun b => b ≠ a && standing s'.conn k b) : ℤ) := by
  cases hdid with
  | kept _ hr => exact absurd hr hrefused
  | judged a m m' refuse hbefore hsource hpicked hjudged hafter hover hr =>
    cases refuse with
    | false => exact absurd hr hrefused
    | true =>
      obtain ⟨c, l, hc, hopen, hnodup, halive, _, hout⟩ := hjudged.verdict
      obtain ⟨hfull, hm'⟩ := hout rfl
      -- the refused record, and the others as they were
      have hgone : ∀ d, s'.conn a = some d → d.over_client_cap = true := by
        intro d hd
        rw [hover rfl] at hd
        rcases hm' with rfl | rfl
        · rw [update_self] at hd
          simp at hd
        · rw [update_self] at hd
          rw [← some.inj hd]
      have hother : ∀ b, b ≠ a → s'.conn b = m b := by
        intro b hb
        rw [hover rfl]
        rcases hm' with rfl | rfl <;> exact update_of_ne hb ..
      -- its client
      have hpos : 0 < l.countP (counted m a c) := by omega
      obtain ⟨b, _, hb⟩ := countP_pos_iff.mp hpos
      obtain ⟨_, k, hk, _⟩ := counted_iff.mp hb
      rw [hc, map_some] at hsource
      obtain ⟨c0, hc0, hpeer⟩ := map_eq_some_iff.mp hsource.symm
      refine ⟨a, c0, k, hc0, by rw [Conn.client, hpeer]; exact hk, hgone, ?_⟩
      have hsub : ∀ b ∈ l.filter (counted m a c),
          b ∈ l'.filter (fun b => b ≠ a && standing s'.conn k b) := by
        intro b hb
        obtain ⟨hne, k', hk', hst⟩ := counted_iff.mp (mem_filter.mp hb).2
        have hkk : k' = k := some.inj (hk'.symm.trans hk)
        subst hkk
        have hst' : standing s'.conn k' b = true := by rwa [standing, hother b hne]
        refine mem_filter.mpr ⟨?_, by simp [hne, hst']⟩
        rw [← h'.alive, hother b hne, halive]
        exact (mem_filter.mp hb).1
      have hle := (subperm_of_subset (hnodup.filter _) hsub).length_le
      rw [← countP_eq_length_filter, ← countP_eq_length_filter] at hle
      omega

end Steps

/-- **The per-client cap over every run.** In every reached state at most `max_per_client` tracked
connections of a client are judged as let in; and whenever a connection is refused, at least that
many others of its client, not refused themselves, are tracked. -/
theorem per_client_cap (lim : Limits) (hcap : 0 < lim.max_per_client) (events : List Event)
    (s : Tracker) (hrun : run lim events = some s) :
    (∃ l, Described s l ∧ ∀ k, (l.countP (admitted s.conn k) : ℤ) ≤ lim.max_per_client)
      ∧ ∀ e s', step lim s e = some s' → s'.refused ≠ s.refused →
        ∃ l' a c k, Described s' l' ∧ s.conn a = some c ∧ (resolved s c).client = some k
          ∧ (∀ d, s'.conn a = some d → d.over_client_cap = true)
          ∧ lim.max_per_client ≤ (l'.countP (fun b => b ≠ a && standing s'.conn k b) : ℤ) := by
  have hinv : ∃ l, Described s l ∧ Capped lim s.conn := by
    refine Runs.attempt_invariant (I := fun s => ∃ l, Described s l ∧ Capped lim s.conn) ?_ events
      ⟨[], Described.new, ?_⟩ hrun
    · rintro s e s' ⟨l, h, hcapped⟩ hs
      obtain ⟨l', h', hdid⟩ := step_some h hs
      exact ⟨l', h', hcapped.did hdid⟩
    · refine ⟨fun k L hL hall => ?_, by simp [Tracker.new]⟩
      cases L with
      | nil => exact Int.le_of_lt hcap
      | cons a L =>
        obtain ⟨c, hc, _⟩ := admitted_iff.mp (hall a (.head _))
        simp [Tracker.new] at hc
  obtain ⟨l, h, hcapped⟩ := hinv
  refine ⟨⟨l, h, fun k => ?_⟩, ?_⟩
  · rw [countP_eq_length_filter]
    exact hcapped.bound k _ (h.doubly.nodup.filter _) (fun a ha => (mem_filter.mp ha).2)
  · intro e s' hs hrefused
    obtain ⟨l', h', hdid⟩ := step_some h hs
    obtain ⟨a, c, k, hrest⟩ := refused_beside hdid hrefused h' hcap
    exact ⟨l', a, c, k, h', hrest⟩

/-- Under a cap of one the pickup refuses the second connection, beside the first. -/
theorem per_client_cap_second_refused :
    ∃ s s', run ⟨3000, 10, 1, true⟩ two_of_one_client = some s
      ∧ step ⟨3000, 10, 1, true⟩ s (.watch 2 false true) = some s' ∧ s'.refused ≠ s.refused
      ∧ (∃ l, Described s l ∧ ∀ k, (l.countP (admitted s.conn k) : ℤ) ≤ 1)
      ∧ ∃ l' a k, Described s' l'
        ∧ 1 ≤ (l'.countP (fun b => b ≠ a && standing s'.conn k b) : ℤ) := by
  have hcounts : ((run ⟨3000, 10, 1, true⟩ two_of_one_client).bind fun s =>
      (step ⟨3000, 10, 1, true⟩ s (.watch 2 false true)).map fun s' => (s.refused, s'.refused))
      = some (0, 1) := by
    decide
  obtain ⟨s, hs, hstep⟩ := bind_eq_some_iff.mp hcounts
  obtain ⟨s', hs', hpair⟩ := map_eq_some_iff.mp hstep
  have hrefused : s'.refused ≠ s.refused := by
    obtain ⟨hbefore, hafter⟩ := Prod.mk.inj hpair
    rw [hbefore, hafter]
    simp
  obtain ⟨hbound, hbeside⟩ := per_client_cap ⟨3000, 10, 1, true⟩ (by decide) two_of_one_client s hs
  obtain ⟨l', a, c, k, h', _, _, _, hle⟩ := hbeside _ s' hs' hrefused
  exact ⟨s, s', hs, hs', hrefused, hbound, l', a, k, h', hle⟩

end FpmNg.ConnTracker
