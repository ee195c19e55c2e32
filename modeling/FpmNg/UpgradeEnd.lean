/-
How the relay of an upgraded connection ends: torn down once, never twice, and
within a fixed number of timers, whatever the two sides do meanwhile.

A live relay has a `rank`, the number of bounds that still have to pass: the total
timer, the step behind it, and the two linger deadlines each with its step. No
event raises it, and the bound that is due lowers it.
-/
import FpmNg.UpgradeRelay

open Runs List

namespace FpmNg.UpgradeRelay

/-! ## The end of a relay -/

/-- Torn down: nothing of it is left that an event could reach. -/
structure Gone (ws : Relay) : Prop where
  client_freed : ws.client.alive = false
  up_freed : ws.up.alive = false
  idle_freed : ws.idle = false
  total_freed : ws.total = false
  deadline_freed : ws.deadline = false
  step_freed : ws.step = false
  unlinked : ws.linked = false
  once : ws.teardowns = 1

/-- Not yet torn down: there is always a timer armed or the step activated that
brings the end nearer. -/
structure Live (ws : Relay) : Prop where
  client_alive : ws.client.alive = true
  linked : ws.linked = true
  not_yet : ws.teardowns = 0
  open_up : ws.finishing = false → ws.up.alive = true
  open_total : ws.finishing = false → ws.total = true
  closing : ws.finishing = true → ws.stage ≠ .FLUSH → ws.stage ≠ .LINGER → ws.step = true
  waits : ws.stage ≠ .RELAY → ws.deadline = true ∨ (ws.timed_out && ws.step) = true
  closed : ws.stage = .FLUSH ∨ ws.stage = .LINGER → ws.finishing = true

def rank (ws : Relay) : ℕ :=
  if ws.teardowns = 0 then
    match ws.stage with
    | .LINGER => if ws.timed_out && ws.step then 1 else 2
    | .FLUSH => if ws.timed_out && ws.step then 3 else 4
    | _ => if ws.finishing then 5 else 6
  else 0

def Next (ws ws' : Relay) : Prop := Gone ws' ∨ Live ws' ∧ rank ws' ≤ rank ws

variable {ws : Relay}

lemma next_refl (h : Live ws) : Next ws ws := .inr ⟨h, Nat.le_refl _⟩

lemma live_bufs (h : Live ws) {c u : Bev} (hc : c.alive = ws.client.alive)
    (hu : u.alive = ws.up.alive) : Live { ws with client := c, up := u } where
  client_alive := hc.trans h.client_alive
  linked := h.linked
  not_yet := h.not_yet
  open_up := fun hfin => hu.trans (h.open_up hfin)
  open_total := h.open_total
  closing := h.closing
  waits := h.waits
  closed := h.closed

lemma ite_le_ite {p q : Bool} (h : p = true → q = true) {a b : ℕ} (hab : a ≤ b) :
    (if q then a else b) ≤ if p then a else b := by
  cases hp : p
  · cases q
    · exact Nat.le_refl b
    · exact hab
  · simp [h hp]

lemma rank_le {ws ws' : Relay} (h0 : ws.teardowns = 0) (htear : ws'.teardowns = ws.teardowns)
    (hstage : ws'.stage = ws.stage) (hfin : ws.finishing = true → ws'.finishing = true)
    (hout : (ws.timed_out && ws.step) = true → (ws'.timed_out && ws'.step) = true) :
    rank ws' ≤ rank ws := by
  unfold rank
  rw [if_pos (htear.trans h0), if_pos h0, hstage]
  cases ws.stage
  · exact ite_le_ite hfin (by decide)
  · exact ite_le_ite hout (by decide)
  · exact ite_le_ite hout (by decide)
  · exact ite_le_ite hfin (by decide)
  · exact ite_le_ite hfin (by decide)

lemma rank_le_six (ws : Relay) : rank ws ≤ 6 := by
  unfold rank
  split
  · cases ws.stage <;> dsimp only <;> split <;> decide
  · decide

lemma rank_open (h : ws.teardowns = 0) (hs : ws.stage ≠ .FLUSH) (hs' : ws.stage ≠ .LINGER) :
    rank ws = if ws.finishing then 5 else 6 := by
  unfold rank
  cases hstage : ws.stage <;> simp_all

lemma rank_six (h : ws.teardowns = 0) (hs : ws.stage ≠ .FLUSH) (hs' : ws.stage ≠ .LINGER)
    (hfin : ws.finishing = false) : rank ws = 6 := by
  rw [rank_open h hs hs', hfin]
  rfl

lemma next_kick (h : Live ws) {cg late ug : Bool} (hto : ws.timed_out = true → late = true) :
    Next ws (fpm_gw_ws_kick { ws with client_gone := cg, timed_out := late, up_gone := ug }) := by
  have hout : (ws.timed_out && ws.step) = true → late = true := by
    intro hb
    rw [Bool.and_eq_true] at hb
    exact hto hb.1
  refine .inr ⟨⟨h.client_alive, h.linked, h.not_yet, h.open_up, h.open_total,
    fun _ _ _ => rfl, ?_, h.closed⟩, rank_le h.not_yet rfl rfl (fun hf => hf) ?_⟩
  · intro hs
    rcases h.waits hs with hd | hb
    · exact .inl hd
    · refine .inr ?_
      rw [hout hb]
      rfl
  · intro hb
    rw [hout hb]
    rfl

lemma gone_teardown (h : ws.teardowns = 0) : Gone (fpm_gw_ws_teardown ws) where
  client_freed := rfl
  up_freed := rfl
  idle_freed := rfl
  total_freed := rfl
  deadline_freed := rfl
  step_freed := rfl
  unlinked := rfl
  once := by
    show ws.teardowns + 1 = 1
    rw [h]

lemma finishing_next {ws ws' : Relay} (h : Live ws) (hc : ws'.client.alive = ws.client.alive)
    (hl : ws'.linked = ws.linked) (ht : ws'.teardowns = ws.teardowns) (hs : ws'.stage = ws.stage)
    (hfin : ws'.finishing = true) (hstep : ws'.step = true) (hd : ws'.deadline = ws.deadline)
    (hto : ws'.timed_out = ws.timed_out) : Next ws ws' := by
  have hout : (ws.timed_out && ws.step) = true → (ws'.timed_out && ws'.step) = true := by
    intro hb
    rw [Bool.and_eq_true] at hb
    rw [hto, hstep, hb.1]
    rfl
  refine .inr ⟨⟨hc.trans h.client_alive, hl.trans h.linked, ht.trans h.not_yet,
    fun hf => absurd (hfin.symm.trans hf) (by simp), fun hf => absurd (hfin.symm.trans hf) (by simp),
    fun _ _ _ => hstep, ?_, fun _ => hfin⟩, rank_le h.not_yet ht hs (fun _ => hfin) hout⟩
  intro hne
  rcases h.waits (hs ▸ hne) with hdl | hb
  · exact .inl (hd.trans hdl)
  · exact .inr (hout hb)

lemma next_finish (h : Live ws) (idle total client_gone : Bool) :
    Next ws (fpm_gw_ws_finish { ws with idle := idle, total := total } client_gone) ∧
      (fpm_gw_ws_finish { ws with idle := idle, total := total } client_gone).finishing = true := by
  have hfin : (fpm_gw_ws_finish { ws with idle := idle, total := total } client_gone).finishing =
      true := by
    unfold fpm_gw_ws_finish fpm_gw_ws_kick
    cases client_gone <;> cases ws.finishing <;> simp
  refine ⟨?_, hfin⟩
  apply finishing_next h _ _ _ _ hfin rfl
  all_goals
    unfold fpm_gw_ws_finish fpm_gw_ws_kick
    cases client_gone <;> cases ws.finishing <;> simp

lemma next_client_eof (h : Live ws) (hstage : ws.stage = .RELAY) (hfin : ws.finishing = false) :
    Next ws (fpm_gw_ws_client_eof ws) := by
  refine .inr ⟨⟨h.client_alive, h.linked, h.not_yet, h.open_up, h.open_total,
    fun _ _ _ => rfl, fun _ => .inl rfl, nofun⟩, ?_⟩
  rw [rank_six h.not_yet (by rw [hstage]; decide) (by rw [hstage]; decide) hfin]
  exact rank_le_six _

lemma next_touch (h : Live ws) : Next ws (fpm_gw_ws_touch ws) := by
  unfold fpm_gw_ws_touch
  split
  · exact .inr ⟨⟨h.client_alive, h.linked, h.not_yet, h.open_up, h.open_total, h.closing,
      h.waits, h.closed⟩, Nat.le_refl _⟩
  · exact next_refl h

lemma next_move (h : Live ws) (src : Side) : Next ws (fpm_gw_ws_move ws src) := by
  cases src with
  | client | up => exact next_touch (live_bufs h rfl rfl)

lemma live_leave (h0 : ws.teardowns = 0) (hl : ws.linked = true) (hfin : ws.finishing = true)
    {c : Bev} (hc : c.alive = true) {stage : Stage} (hstage : stage = .FLUSH ∨ stage = .LINGER) :
    Live (fpm_gw_ws_arm_deadline { ws with stage := stage, client := c }) where
  client_alive := hc
  linked := hl
  not_yet := h0
  open_up := fun hf => absurd (hfin.symm.trans hf) (by simp)
  open_total := fun hf => absurd (hfin.symm.trans hf) (by simp)
  closing := by
    intro _ hf hg
    rcases hstage with rfl | rfl
    · exact absurd rfl hf
    · exact absurd rfl hg
  waits := fun _ => .inl rfl
  closed := fun _ => hfin

lemma enter_linger_next (ws : Relay) (h0 : ws.teardowns = 0) (hl : ws.linked = true)
    (hfin : ws.finishing = true) (hc : ws.client.alive = true) :
    Gone (fpm_gw_ws_enter_linger ws) ∨
      Live (fpm_gw_ws_enter_linger ws) ∧ rank (fpm_gw_ws_enter_linger ws) = 2 := by
  unfold fpm_gw_ws_enter_linger
  split
  · exact .inl (gone_teardown h0)
  · refine .inr ⟨live_leave h0 hl hfin ?_ (.inr rfl), ?_⟩
    · exact hc
    · unfold rank
      exact if_pos h0

lemma enter_flush_next (ws : Relay) (h0 : ws.teardowns = 0) (hl : ws.linked = true)
    (hfin : ws.finishing = true) (hc : ws.client.alive = true) :
    Live (fpm_gw_ws_enter_flush ws) ∧ rank (fpm_gw_ws_enter_flush ws) = 4 := by
  refine ⟨live_leave h0 hl hfin ?_ (.inl rfl), ?_⟩
  · exact hc
  · unfold rank
    exact if_pos h0

lemma live_waiting (h : Live ws) (hto : ws.timed_out = false)
    (hclosing : ws.finishing = true → ws.stage = .FLUSH ∨ ws.stage = .LINGER) {u : Bev}
    (hu : ws.finishing = false → u.alive = true) : Live { ws with step := false, up := u } where
  client_alive := h.client_alive
  linked := h.linked
  not_yet := h.not_yet
  open_up := hu
  open_total := h.open_total
  closing := by
    intro hf hs hs'
    rcases hclosing hf with hst | hst
    · exact absurd hst hs
    · exact absurd hst hs'
  waits := by
    intro hs
    rcases h.waits hs with hd | hb
    · exact .inl hd
    · rw [hto] at hb
      simp at hb
  closed := h.closed

lemma rank_waiting (hto : ws.timed_out = false) {u : Bev} :
    rank { ws with step := false, up := u } = rank ws := by
  unfold rank
  rw [hto, Bool.false_and, Bool.false_and]

/-- What the step makes of a relay: it is gone, or live and nearer its end, or it
was waiting for something else. -/
def Stepped (ws ws' : Relay) : Prop :=
  Gone ws' ∨ Live ws' ∧ (rank ws' < rank ws ∨ rank ws' = rank ws ∧ (rank ws = 6 ∨ ws.timed_out = false ∧
    (ws.stage = .FLUSH ∨ ws.stage = .LINGER)))

lemma up_step_next (h : Live ws) (hstage : ws.stage = .UP_FLUSH ∨ ws.stage = .UP_LINGER) :
    Stepped ws (fpm_gw_ws_up_step { ws with step := false }) := by
  unfold fpm_gw_ws_up_step
  split
  · exact .inl (gone_teardown h.not_yet)
  · rename_i hcond
    simp only [Bool.or_eq_true, not_or, Bool.not_eq_true] at hcond
    obtain ⟨⟨⟨hfin, hto⟩, -⟩, -⟩ := hcond
    have hrank : rank ws = 6 := by
      apply rank_six h.not_yet _ _ hfin <;> rcases hstage with hs | hs <;> rw [hs] <;> decide
    split
    · rename_i hempty
      refine .inr ⟨⟨h.client_alive, h.linked, h.not_yet, h.open_up, h.open_total,
        fun hf => absurd (hf.symm.trans hfin) (by simp), ?_, nofun⟩, ?_⟩
      · intro _
        rcases h.waits (by rw [hempty.1]; simp) with hd | hb
        · exact .inl hd
        · rw [show ws.timed_out = false from hto] at hb
          simp at hb
      · refine .inr ⟨?_, .inl hrank⟩
        rw [hrank]
        exact rank_six h.not_yet nofun nofun hfin
    · refine .inr ⟨live_waiting h hto (fun hf => absurd (hf.symm.trans hfin) (by simp)) h.open_up,
        .inr ⟨rank_waiting hto, .inl hrank⟩⟩

lemma close_step_next (h : Live ws) (hfin : ws.finishing = true)
    (hup : ws.stage ≠ .UP_FLUSH ∧ ws.stage ≠ .UP_LINGER) :
    Stepped ws (close_step (free_up { ws with step := false })) := by
  have hlinger : ws.stage = .RELAY ∨ ws.stage = .FLUSH →
      Stepped ws (fpm_gw_ws_enter_linger (free_up { ws with step := false })) := by
    intro hs
    have hrank : 2 < rank ws := by
      unfold rank
      rw [if_pos h.not_yet]
      rcases hs with hs | hs <;> rw [hs] <;> dsimp only <;> split <;> decide
    rcases enter_linger_next (free_up { ws with step := false }) h.not_yet h.linked hfin
      h.client_alive with hg | ⟨hl, hr⟩
    · exact .inl hg
    · exact .inr ⟨hl, .inl (by omega)⟩
  have hstay : ws.timed_out = false → ws.stage = .FLUSH ∨ ws.stage = .LINGER →
      Stepped ws (free_up { ws with step := false }) := by
    intro hto hs
    refine .inr ⟨live_waiting h hto (fun _ => hs) (fun hf => absurd (hfin.symm.trans hf) (by simp)),
      .inr ⟨rank_waiting hto, .inr ⟨hto, hs⟩⟩⟩
  unfold close_step
  split
  · rename_i hs
    split
    · exact hlinger (.inl hs)
    · obtain ⟨hl, hr⟩ := enter_flush_next (free_up { ws with step := false }) h.not_yet
        h.linked hfin h.client_alive
      have hrank : rank ws = 5 := by
        rw [rank_open h.not_yet, hfin]
        · rfl
        all_goals
          rw [show ws.stage = .RELAY from hs]
          decide
      exact .inr ⟨hl, .inl (by omega)⟩
  · rename_i hs
    split
    · exact .inl (gone_teardown h.not_yet)
    · split
      · exact hlinger (.inr hs)
      · rename_i hcond
        simp only [Bool.or_eq_true, not_or, Bool.not_eq_true] at hcond
        exact hstay hcond.1 (.inl hs)
  · rename_i hs
    split
    · exact .inl (gone_teardown h.not_yet)
    · rename_i hcond
      simp only [Bool.or_eq_true, not_or, Bool.not_eq_true] at hcond
      exact hstay hcond.2 (.inr hs)
  · rename_i h1 h2 h3
    -- the other stages took the first branch of the step
    cases hs : ws.stage with
    | RELAY => exact absurd hs h1
    | FLUSH => exact absurd hs h2
    | LINGER => exact absurd hs h3
    | UP_FLUSH => exact absurd hs hup.1
    | UP_LINGER => exact absurd hs hup.2

theorem step_next (h : Live ws) :
    Stepped ws (fpm_gw_ws_step { ws with step := false }) := by
  unfold fpm_gw_ws_step
  split
  · rename_i hstage
    exact up_step_next h hstage
  · rename_i hstage
    split
    · rename_i hfin
      have hfin' : ws.finishing = false := by simpa using hfin
      have hrelay : ws.stage = .RELAY := by
        cases hs : ws.stage with
        | RELAY => rfl
        | FLUSH => exact absurd ((h.closed (.inl hs)).symm.trans hfin') (by simp)
        | LINGER => exact absurd ((h.closed (.inr hs)).symm.trans hfin') (by simp)
        | UP_FLUSH => exact absurd (.inl hs) hstage
        | UP_LINGER => exact absurd (.inr hs) hstage
      have hrank : ∀ b, rank { ws with step := b } = 6 := by
        intro b
        refine rank_six h.not_yet ?_ ?_ hfin' <;> dsimp only <;> rw [hrelay] <;> decide
      refine .inr ⟨⟨h.client_alive, h.linked, h.not_yet, h.open_up, h.open_total,
        fun hf => absurd (hf.symm.trans hfin') (by simp), fun hs => absurd hrelay hs, h.closed⟩,
        .inr ⟨?_, .inl (hrank ws.step)⟩⟩
      rw [hrank false]
      exact (hrank ws.step).symm
    · rename_i hfin
      rw [not_or] at hstage
      exact close_step_next h (by simpa using hfin) hstage

lemma stepped_next {ws ws' : Relay} (h : Stepped ws ws') : Next ws ws' := by
  rcases h with hg | ⟨hl, hr | ⟨hr, -⟩⟩
  · exact .inl hg
  · exact .inr ⟨hl, Nat.le_of_lt hr⟩
  · exact .inr ⟨hl, Nat.le_of_eq hr⟩

lemma deadline_cb_next (h : Live ws) :
    Live (fpm_gw_ws_deadline_cb { ws with deadline := false }) ∧
      rank (fpm_gw_ws_deadline_cb { ws with deadline := false }) ≤ rank ws := by
  refine ⟨⟨h.client_alive, h.linked, h.not_yet, h.open_up, h.open_total, fun _ _ _ => rfl,
    fun _ => .inr rfl, h.closed⟩, rank_le h.not_yet rfl rfl (fun hf => hf) fun _ => rfl⟩

/-! ## Every event

What an event makes of a relay: the streams are kept, what the two sides have sent only
grows, and a live relay comes no further from its end. The callbacks read no socket. -/

def sent (ws : Relay) : Bytes × Bytes := (ws.client.received, ws.up.received)

structure Reacts (ws ws' : Relay) : Prop where
  streams : Streams ws'
  client_sent : (sent ws).1 <+: (sent ws').1
  up_sent : (sent ws).2 <+: (sent ws').2
  next : Live ws → Next ws ws'

lemma reacts_same {ws' : Relay} (hs : Streams ws') (hsent : sent ws' = sent ws)
    (hnext : Live ws → Next ws ws') : Reacts ws ws' := by
  refine ⟨hs, ?_, ?_, hnext⟩ <;> exact hsent ▸ prefix_rfl

lemma reacts_refl (h : Streams ws) : Reacts ws ws := reacts_same h rfl next_refl

lemma Reacts.bufs {c u : Bev} {ws' : Relay} (h : Reacts { ws with client := c, up := u } ws')
    (hc : c.alive = ws.client.alive) (hu : u.alive = ws.up.alive)
    (hcs : ws.client.received <+: c.received) (hus : ws.up.received <+: u.received) :
    Reacts ws ws' :=
  ⟨h.streams, hcs.trans h.client_sent, hus.trans h.up_sent, fun hl => h.next (live_bufs hl hc hu)⟩

lemma reacts_kick (h : Streams ws) {cg late ug : Bool} (hto : ws.timed_out = true → late = true) :
    Reacts ws (fpm_gw_ws_kick { ws with client_gone := cg, timed_out := late, up_gone := ug }) :=
  reacts_same (streams_control h) rfl fun hl => next_kick hl hto

lemma sent_touch (ws : Relay) : sent (fpm_gw_ws_touch ws) = sent ws := by
  unfold fpm_gw_ws_touch
  split <;> rfl

lemma reacts_move (h : Streams ws) (hmode : mode ws = .copying) (src : Side) :
    Reacts ws (fpm_gw_ws_move ws src) := by
  refine reacts_same (streams_move h hmode src) ?_ fun hl => next_move hl src
  cases src <;> exact sent_touch _

lemma unhook_received (b : Bev) : (unhook b).received = b.received := by
  unfold unhook
  split <;> rfl

lemma reacts_finish (h : Streams ws) (idle total client_gone : Bool) :
    Reacts ws (fpm_gw_ws_finish { ws with idle := idle, total := total } client_gone) := by
  refine reacts_same (streams_finish (streams_control h) client_gone) ?_
    fun hl => (next_finish hl idle total client_gone).1
  unfold fpm_gw_ws_finish
  cases client_gone <;> cases ws.finishing <;> simp [sent, unhook_received, fpm_gw_ws_kick]

lemma reacts_readcb (h : Streams ws) (hstage : ws.stage = .RELAY) (bev : Side) :
    Reacts ws (fpm_gw_ws_readcb ws bev) := by
  unfold fpm_gw_ws_readcb
  split
  · exact reacts_refl h
  · rename_i hfin
    exact reacts_move h (mode_relay hstage (by simpa using hfin)) bev

lemma reacts_writecb (h : Streams ws) (hstage : ws.stage = .RELAY) (bev : Side) :
    Reacts ws (fpm_gw_ws_writecb ws bev) := by
  cases bev with
  | client =>
    simp only [fpm_gw_ws_writecb]
    split
    · exact reacts_refl h
    · rename_i hcond
      rw [Bool.or_eq_true, Bool.or_eq_true, not_or, not_or] at hcond
      have hread : Streams { ws with up := { ws.up with reading := true } } :=
        streams_bufs h (h.flow.frame rfl (fun _ hr => hr) rfl) rfl rfl rfl
      exact (reacts_move hread (mode_relay hstage (by simpa using hcond.1.1)) .up).bufs rfl rfl
        prefix_rfl prefix_rfl
  | up =>
    simp only [fpm_gw_ws_writecb]
    split
    · exact reacts_refl h
    · rename_i hcond
      rw [Bool.or_eq_true, not_or] at hcond
      have hmode := mode_relay hstage (by simpa using hcond.1)
      have hflow := h.flow
      rw [hmode] at hflow
      -- reading again, and pulling what the TLS layer held back
      have hpull : Flow .copying (pull_pending { ws.client with reading := true }) ws.up :=
        flow_pull (hflow.frame rfl (fun hm => absurd rfl hm) rfl)
      rw [← hmode] at hpull
      exact (reacts_move (streams_bufs h hpull rfl rfl rfl) hmode .client).bufs rfl rfl
        prefix_rfl prefix_rfl

lemma reacts_eventcb (h : Streams ws) (hstage : ws.stage = .RELAY) (bev : Side) (what : What) :
    Reacts ws (fpm_gw_ws_eventcb ws bev what) := by
  unfold fpm_gw_ws_eventcb
  split
  · exact reacts_refl h
  · split
    · rename_i heof
      exact reacts_same (streams_client_eof h (mode_relay hstage heof.2.2.2)) rfl
        fun hl => next_client_eof hl hstage heof.2.2.2
    · exact reacts_finish h ws.idle ws.total _

lemma reacts_stage_eventcb (h : Streams ws) (what : What) :
    Reacts ws (fpm_gw_ws_stage_eventcb ws what) := by
  unfold fpm_gw_ws_stage_eventcb
  split
  · exact reacts_kick h id
  · exact reacts_refl h

/-! The callbacks of the client's bufferevent, and of the upstream's while it is there. -/

lemma reacts_client_readcb (h : Streams ws) : Reacts ws (client_readcb ws) := by
  unfold client_readcb
  split
  · rename_i hcb
    exact reacts_readcb h (h.client_relay hcb) .client
  · rename_i hcb
    -- the input of a lingering client is in no stream any more
    have hread : Flow (mode ws) (fpm_gw_ws_linger_read ws.client) ws.up :=
      ⟨h.flow.down, h.flow.upward, h.flow.no_pending,
        fun hm => absurd (stage_of_copying hm).1 (h.client_linger hcb), h.flow.ended, h.flow.lingering⟩
    exact (reacts_refl (streams_bufs h hread rfl rfl rfl)).bufs rfl rfl prefix_rfl prefix_rfl
  · exact reacts_refl h

lemma reacts_client_writecb (h : Streams ws) : Reacts ws (client_writecb ws) := by
  unfold client_writecb
  split
  · rename_i hcb
    exact reacts_writecb h (h.client_relay hcb) .client
  · exact reacts_kick h id
  · exact reacts_refl h

lemma reacts_client_eventcb (h : Streams ws) (what : What) : Reacts ws (client_eventcb ws what) := by
  unfold client_eventcb
  split
  · rename_i hcb
    exact reacts_eventcb h (h.client_relay hcb) .client what
  · exact reacts_stage_eventcb h what
  · exact reacts_stage_eventcb h what
  · exact reacts_stage_eventcb h what
  · exact reacts_refl h

section Up
variable (h : Streams ws) (halive : ws.up.alive = true)
include h halive

lemma reacts_up_readcb : Reacts ws (up_readcb ws) := by
  unfold up_readcb
  split
  · rename_i hcb
    exact reacts_readcb h (stage_of_copying (h.up_relay halive hcb)).1 .up
  · rename_i hcb
    have hread : Flow (mode ws) ws.client (fpm_gw_ws_linger_read ws.up) :=
      ⟨h.flow.down, h.flow.upward, h.flow.no_pending,
        fun hm => absurd (stage_of_copying hm).1 (h.up_drain halive hcb), h.flow.ended, h.flow.lingering⟩
    exact (reacts_refl (streams_bufs h hread rfl rfl rfl)).bufs rfl rfl prefix_rfl prefix_rfl
  · exact reacts_refl h

lemma reacts_up_writecb : Reacts ws (up_writecb ws) := by
  unfold up_writecb
  split
  · rename_i hcb
    exact reacts_writecb h (stage_of_copying (h.up_relay halive hcb)).1 .up
  · exact reacts_kick h id
  · exact reacts_refl h

lemma reacts_up_eventcb (what : What) : Reacts ws (up_eventcb ws what) := by
  unfold up_eventcb
  split
  · rename_i hcb
    exact reacts_eventcb h (stage_of_copying (h.up_relay halive hcb)).1 .up what
  · unfold fpm_gw_ws_up_eventcb
    split
    · exact reacts_kick h id
    · exact reacts_refl h
  · exact reacts_refl h

end Up

lemma sent_step (ws : Relay) : sent (fpm_gw_ws_step ws) = sent ws := by
  have hlinger : ∀ ws, sent (fpm_gw_ws_enter_linger ws) = sent ws := by
    intro ws
    unfold fpm_gw_ws_enter_linger
    split <;> rfl
  unfold fpm_gw_ws_step
  split
  · unfold fpm_gw_ws_up_step
    split
    · rfl
    · split <;> rfl
  · split
    · rfl
    · unfold close_step
      split <;> repeat' split
      all_goals first | rfl | exact hlinger _

theorem reacts (h : Streams ws) (e : Event) : Reacts ws (react ws e) := by
  -- each event may move bytes first, and then runs the callbacks over them
  have hpre : ∀ {x y : Bytes}, x <+: x ++ y := prefix_append _ _
  cases e with
  | client_in bs k =>
    simp only [react]
    split
    · rename_i hguard
      rw [Bool.and_eq_true] at hguard
      have hin := streams_bufs h (flow_client_in h.flow hguard.2 bs k) rfl rfl rfl
      exact (reacts_client_readcb hin).bufs rfl rfl hpre prefix_rfl
    · exact reacts_refl h
  | up_in bs =>
    simp only [react]
    split
    · rename_i hguard
      rw [Bool.and_eq_true] at hguard
      have hin := streams_bufs h (flow_up_in h.flow bs) rfl rfl rfl
      exact (reacts_up_readcb hin hguard.1).bufs rfl rfl prefix_rfl hpre
    · exact reacts_refl h
  | client_out n =>
    simp only [react]
    split
    · have hout := streams_bufs h (flow_client_out h.flow n) rfl rfl rfl
      refine Reacts.bufs (c := ws.client.put_out n) (u := ws.up) ?_ rfl rfl prefix_rfl
        prefix_rfl
      split
      · exact reacts_client_writecb hout
      · exact reacts_refl hout
    · exact reacts_refl h
  | up_out n =>
    simp only [react]
    split
    · rename_i hguard
      rw [Bool.and_eq_true] at hguard
      have hout := streams_bufs h (flow_up_out h.flow n) rfl rfl rfl
      refine Reacts.bufs (c := ws.client) (u := ws.up.put_out n) ?_ rfl rfl prefix_rfl
        prefix_rfl
      split
      · exact reacts_up_writecb hout hguard.1
      · exact reacts_refl hout
    · exact reacts_refl h
  | client_event what =>
    simp only [react]
    split
    · have hread : Flow (mode ws) { ws.client with reading := ws.client.reading && !what.eof }
          ws.up := by
        refine h.flow.frame rfl (fun _ hr => ?_) rfl
        rw [hr, Bool.false_and]
      exact (reacts_client_eventcb (streams_bufs h hread rfl rfl rfl) what).bufs rfl rfl
        prefix_rfl prefix_rfl
    · exact reacts_refl h
  | up_event what =>
    simp only [react]
    split
    · rename_i halive
      have hread : Flow (mode ws) ws.client { ws.up with reading := ws.up.reading && !what.eof } :=
        h.flow.frame rfl (fun _ hr => hr) rfl
      exact (reacts_up_eventcb (streams_bufs h hread rfl rfl rfl) halive what).bufs rfl rfl
        prefix_rfl prefix_rfl
    · exact reacts_refl h
  | idle_fires =>
    simp only [react]
    split
    · exact reacts_finish h false ws.total false
    · exact reacts_refl h
  | total_fires =>
    simp only [react]
    split
    · exact reacts_finish h ws.idle false false
    · exact reacts_refl h
  | deadline_fires =>
    simp only [react]
    split
    · exact reacts_same (streams_control h) rfl fun hl => .inr (deadline_cb_next hl)
    · exact reacts_refl h
  | step_runs =>
    simp only [react]
    split
    · exact reacts_same (streams_step (streams_control h)) (sent_step _)
        fun hl => stepped_next (step_next hl)
    · exact reacts_refl h
  | close_all =>
    simp only [react]
    split
    · exact reacts_same (streams_teardown h) rfl fun hl => .inl (gone_teardown hl.not_yet)
    · exact reacts_refl h

/-! ## Runs -/

theorem gone_react (h : Gone ws) (e : Event) : react ws e = ws := by
  cases e <;>
    simp [react, h.client_freed, h.up_freed, h.idle_freed, h.total_freed, h.deadline_freed,
      h.step_freed, h.unlinked]

/-- At most `n` bounds away from its end. -/
def Within (n : ℕ) (ws : Relay) : Prop := Streams ws ∧ (Gone ws ∨ Live ws ∧ rank ws ≤ n)

variable {n : ℕ}

lemma within_react (h : Within n ws) (e : Event) : Within n (react ws e) := by
  refine ⟨(reacts h.1 e).streams, ?_⟩
  rcases h.2 with hg | ⟨hl, hr⟩
  · rw [gone_react hg]
    exact .inl hg
  · rcases (reacts h.1 e).next hl with hg | ⟨hl', hr'⟩
    · exact .inl hg
    · exact .inr ⟨hl', Nat.le_trans hr' hr⟩

lemma within_zero (h : Within 0 ws) : Gone ws := by
  rcases h.2 with hg | ⟨hl, hr⟩
  · exact hg
  · have hpos : 0 < rank ws := by
      unfold rank
      rw [if_pos hl.not_yet]
      cases ws.stage <;> dsimp only <;> split <;> decide
    omega

lemma odd_rank_step (h : Live ws) (hr : rank ws = 5 ∨ rank ws = 3 ∨ rank ws = 1) :
    ws.step = true ∧ ¬ (ws.timed_out = false ∧ (ws.stage = .FLUSH ∨ ws.stage = .LINGER)) := by
  by_cases hopen : ws.stage ≠ .FLUSH ∧ ws.stage ≠ .LINGER
  · rw [rank_open h.not_yet hopen.1 hopen.2] at hr
    cases hf : ws.finishing with
    | false =>
      rw [hf] at hr
      simp at hr
    | true => exact ⟨h.closing hf hopen.1 hopen.2, fun hw => hw.2.elim hopen.1 hopen.2⟩
  · unfold rank at hr
    rw [if_pos h.not_yet] at hr
    cases hs : ws.stage <;> cases hto : ws.timed_out <;> cases hst : ws.step <;> simp_all

lemma within_lower (h : Within (n + 1) ws) (e : Event) (hdown : Live ws → rank ws = n + 1 →
    Gone (react ws e) ∨ Live (react ws e) ∧ rank (react ws e) ≤ n) : Within n (react ws e) := by
  refine ⟨(reacts h.1 e).streams, ?_⟩
  rcases h.2 with hg | ⟨hl, hr⟩
  · rw [gone_react hg]
    exact .inl hg
  · by_cases hlt : rank ws ≤ n
    · exact (within_react ⟨h.1, .inr ⟨hl, hlt⟩⟩ e).2
    · exact hdown hl (by omega)

lemma within_step (hn : n = 4 ∨ n = 2 ∨ n = 0) (h : Within (n + 1) ws) :
    Within n (react ws .step_runs) := by
  refine within_lower h .step_runs fun hl hr => ?_
  obtain ⟨hstep, hwait⟩ := odd_rank_step hl (by omega)
  simp only [react]
  rw [if_pos hstep]
  rcases step_next hl with hg | ⟨hl', hlt' | ⟨-, h6 | hw⟩⟩
  · exact .inl hg
  · exact .inr ⟨hl', by omega⟩
  · omega
  · exact absurd hw hwait

lemma within_deadline (hn : n = 3 ∨ n = 1) (h : Within (n + 1) ws) :
    Within n (react ws .deadline_fires) := by
  refine within_lower h .deadline_fires fun hl hr => ?_
  -- it is in `FLUSH` or `LINGER`, and its deadline has not passed
  have hrank : rank ws = 4 ∨ rank ws = 2 := by omega
  have hwait : (ws.stage = .FLUSH ∨ ws.stage = .LINGER) ∧ (ws.timed_out && ws.step) = false := by
    unfold rank at hrank
    rw [if_pos hl.not_yet] at hrank
    cases hs : ws.stage <;> rw [hs] at hrank <;> dsimp only at hrank <;>
      cases hto : ws.timed_out && ws.step <;> cases hf : ws.finishing <;> simp_all
  have harmed : ws.deadline = true := by
    rcases hl.waits (by rcases hwait.1 with hs | hs <;> rw [hs] <;> simp) with hd | hb
    · exact hd
    · exact nomatch hb.symm.trans hwait.2
  simp only [react]
  rw [if_pos harmed]
  obtain ⟨hl', -⟩ := deadline_cb_next hl
  refine .inr ⟨hl', ?_⟩
  have hrank' : rank (fpm_gw_ws_deadline_cb { ws with deadline := false }) + 1 = rank ws := by
    unfold rank
    rw [if_pos hl.not_yet, if_pos hl'.not_yet]
    rw [hwait.2]
    rcases hwait.1 with hs | hs <;> rw [hs] <;> rfl
  omega

lemma rank_le_five (h : ws.finishing = true) : rank ws ≤ 5 := by
  unfold rank
  split
  · cases ws.stage <;> dsimp only <;> first | decide | (split <;> decide)
  · decide

lemma within_total (h : Within 6 ws) : Within 5 (react ws .total_fires) := by
  refine within_lower h .total_fires fun hl hr => ?_
  have hopen : ws.finishing = false := by
    by_contra hf
    have hle : rank ws ≤ 5 := rank_le_five (by simpa using hf)
    omega
  simp only [react]
  rw [if_pos (hl.open_total hopen)]
  obtain ⟨hg | ⟨hl', -⟩, hfin⟩ := next_finish hl ws.idle false false
  · exact .inl hg
  · exact .inr ⟨hl', rank_le_five hfin⟩

/-- The bounds in the order they pass: the total timer, and twice a linger, each
with the step behind it. -/
def bounds : ℕ → List Event
  | 0 => []
  | n + 1 =>
    (if n + 1 = 6 then .total_fires else if (n + 1) % 2 = 1 then .step_runs else .deadline_fires) ::
      bounds n

lemma within_bound (hn : n + 1 ≤ 6) (h : Within (n + 1) ws) :
    Within n (react ws (if n + 1 = 6 then .total_fires else if (n + 1) % 2 = 1 then .step_runs
        else .deadline_fires)) := by
  rcases Nat.lt_or_ge n 5 with hlt | hge
  · rw [if_neg (by omega)]
    by_cases hodd : (n + 1) % 2 = 1
    · rw [if_pos hodd]
      exact within_step (by omega) h
    · rw [if_neg hodd]
      exact within_deadline (by omega) h
  · obtain rfl : n = 5 := by omega
    exact within_total h

/-- **The relay ends** once the bounds have passed, whatever else happens between
them. -/
theorem within_run (hn : n ≤ 6) (h : Within n ws) {events : List Event}
    (hbounds : (bounds n).Sublist events) : Gone (run react ws events) := by
  induction events generalizing n ws with
  | nil =>
    cases n with
    | zero => exact within_zero h
    | succ n => simp [bounds] at hbounds
  | cons e events ih =>
    cases n with
    | zero => exact ih hn (within_react h e) (by simp [bounds])
    | succ n =>
      rw [bounds] at hbounds
      rcases sublist_cons_iff.mp hbounds with hskip | ⟨rest, heq, htake⟩
      · exact ih hn (within_react h e) hskip
      · rw [cons.injEq] at heq
        rw [← heq.2] at htake
        rw [← heq.1]
        exact ih (by omega) (within_bound hn h) htake

lemma live_start (early head tail : Bytes) : Live (fpm_http_gw_ws_start early head tail) where
  client_alive := rfl
  linked := rfl
  not_yet := rfl
  open_up := fun _ => rfl
  open_total := fun _ => rfl
  closing := by simp [fpm_http_gw_ws_start]
  waits := fun hs => absurd rfl hs
  closed := by simp [fpm_http_gw_ws_start]

lemma within_start (early head tail : Bytes) : Within 6 (fpm_http_gw_ws_start early head tail) :=
  ⟨streams_start early head tail, .inr ⟨live_start early head tail, rank_le_six _⟩⟩

lemma close_all_run (h : Within n ws) {events : List Event} (hclose : Event.close_all ∈ events) :
    Gone (run react ws events) := by
  induction events generalizing ws with
  | nil => simp at hclose
  | cons e events ih =>
    rcases mem_cons.mp hclose with rfl | hmem
    · have hgone : Gone (react ws .close_all) := by
        rcases h.2 with hg | ⟨hl, -⟩
        · rw [gone_react hg]
          exact hg
        · simp only [react]
          rw [if_pos hl.linked]
          exact gone_teardown hl.not_yet
      exact run_invariant (fun s e hs => by rw [gone_react hs]; exact hs) _ events hgone
    · exact ih (within_react h e) hmem

/-! ## The relay -/

/-- **The relay is faithful.** From `fpm_http_gw_ws_start` and for every sequence of
events: what either side was sent is a prefix of what the other one sent, which
begins with the head and the bytes that came with it; once the relay lingers
behind a client EOF, the upstream has all of the client's bytes; no relay is torn
down twice, and it is once its timers have run out or the gateway ends. -/
theorem relay_is_faithful (early head tail : Bytes) (events : List Event) :
    let ws := run react (fpm_http_gw_ws_start early head tail) events
    ws.client.delivered <+: ws.up.received ∧ head ++ tail <+: ws.up.received ∧
      ws.up.delivered <+: ws.client.received ∧ early <+: ws.client.received ∧
      (ws.stage = .UP_LINGER → ws.up.delivered = ws.client.received) ∧
      ws.teardowns ≤ 1 ∧
      ((bounds 6).Sublist events ∨ .close_all ∈ events → ws.teardowns = 1) := by
  intro ws
  obtain ⟨hwithin, hsent⟩ : Within 6 ws ∧ early <+: (sent ws).1 ∧ head ++ tail <+: (sent ws).2 := by
    refine run_invariant (I := fun s => Within 6 s ∧ early <+: (sent s).1 ∧ head ++ tail <+: (sent s).2)
      ?_ _ events ⟨within_start early head tail, prefix_rfl, prefix_rfl⟩
    rintro s e ⟨hs, hc, hu⟩
    exact ⟨within_react hs e, hc.trans (reacts hs.1 e).client_sent, hu.trans (reacts hs.1 e).up_sent⟩
  have hflow := hwithin.1.flow
  refine ⟨(prefix_append _ _).trans hflow.down, hsent.2,
    (prefix_append _ _).trans hflow.upward, hsent.1, ?_, ?_, ?_⟩
  · intro hstage
    have hmode : mode ws = .lingering := by
      unfold mode
      rw [hstage]
    have hall := (hflow.ended (.inr hmode)).1
    rw [hflow.lingering hmode, append_nil] at hall
    exact hall.symm
  · rcases hwithin.2 with hg | ⟨hl, -⟩
    · exact Nat.le_of_eq hg.once
    · rw [hl.not_yet]
      exact Nat.zero_le 1
  · rintro (hbounds | hclose)
    · exact (within_run (Nat.le_refl 6) (within_start early head tail) hbounds).once
    · exact (close_all_run (within_start early head tail) hclose).once

end FpmNg.UpgradeRelay
