/-
The relay of an upgraded connection: `fpm_http_gw_ws.c`.

A bufferevent is two first-in-first-out buffers and the socket behind them.
`received` and `delivered` record what came in from that socket and what went out
to it; they are read by the theorems only. An event of the model is what the
event loop can do next: bytes read from or written to a socket, an end or an
error, a timer, the activated `step`. A resource that is freed, an event that is
not armed and a side that is not read cannot deliver its event, and then nothing
happens.

The client's socket may be a TLS layer that holds plaintext behind a paused read
(`pending`); pulling takes all of it. On a plain connection it is empty.
-/
import FpmNg.Bytes
import FpmNg.Lib.Runs

open Runs List

namespace FpmNg.UpgradeRelay

abbrev FPM_GW_WS_HIGH : ℕ := 65536
abbrev FPM_GW_WS_LOW : ℕ := 16384

/-! ## State -/

/-- `enum fpm_gw_ws_stage_e`. -/
inductive Stage where
  /-- both directions open -/
  | RELAY
  /-- upstream gone: the client's pending output is being sent -/
  | FLUSH
  /-- client shut down for writing, draining until its EOF -/
  | LINGER
  /-- client EOF: the bytes it sent are being sent upstream -/
  | UP_FLUSH
  /-- upstream shut down for writing, draining until its EOF -/
  | UP_LINGER
  deriving DecidableEq

/-- The callbacks `bufferevent_setcb` installs, by the call that installs them. -/
inductive Callbacks where
  | none
  /-- `readcb`, `writecb`, `eventcb`. -/
  | relay
  /-- On the client: `flush_writecb` and `stage_eventcb`. -/
  | flush
  /-- On the client: `linger_read` and `stage_eventcb`. -/
  | linger
  /-- On the client: `stage_eventcb` alone. -/
  | ended
  /-- On the upstream: `linger_read`, `flush_writecb`, `up_eventcb`. -/
  | drain
  deriving DecidableEq

/-- A bufferevent and its socket; `low` is the write watermark. -/
structure Bev where
  alive : Bool
  cb : Callbacks
  reading : Bool
  low : ℕ
  shut : Bool
  pending : Bytes
  input : Bytes
  output : Bytes
  received : Bytes
  delivered : Bytes
  deriving DecidableEq

/-- `struct fpm_gw_ws_s`. The four events are armed or not; `linked` is its place
in `gw->ws_relays`, and `teardowns` counts the calls of `fpm_gw_ws_teardown`. -/
structure Relay where
  client : Bev
  up : Bev
  idle : Bool
  total : Bool
  deadline : Bool
  step : Bool
  stage : Stage
  finishing : Bool
  client_gone : Bool
  timed_out : Bool
  up_gone : Bool
  linked : Bool
  teardowns : ℕ
  deriving DecidableEq

/-- `BEV_EVENT_EOF`, `BEV_EVENT_ERROR` and `BEV_EVENT_TIMEOUT` of an event. -/
structure What where
  eof : Bool
  error : Bool
  timeout : Bool
  deriving DecidableEq

def What.any (w : What) : Bool := w.eof || w.error || w.timeout

inductive Side where
  | client
  | up
  deriving DecidableEq

/-! ## The functions of the source -/

def fpm_gw_ws_kick (ws : Relay) : Relay := { ws with step := true }

def fpm_gw_ws_touch (ws : Relay) : Relay :=
  if !ws.finishing then { ws with idle := true } else ws

/-- `if (ws->ubev) bufferevent_setcb(ws->ubev, NULL, NULL, NULL, NULL)`. -/
def unhook (b : Bev) : Bev := if b.alive then { b with cb := .none } else b

def fpm_gw_ws_finish (ws : Relay) (client_gone : Bool) : Relay :=
  let ws := if client_gone then { ws with client_gone := true } else ws
  fpm_gw_ws_kick
    (if !ws.finishing then
      { ws with finishing := true, idle := false, total := false, up := unhook ws.up }
    else ws)

/-- `evbuffer_add_buffer(out, in)` and the pause of a source whose peer is full. -/
def move_bytes (src dst : Bev) : Bev × Bev :=
  let out := dst.output ++ src.input
  ({ src with input := [], reading := if FPM_GW_WS_HIGH ≤ out.length then false else src.reading },
    { dst with output := out })

/-- `fpm_gw_ws_move` from that side to the other. -/
def fpm_gw_ws_move (ws : Relay) : Side → Relay
  | .client =>
    let m := move_bytes ws.client ws.up
    fpm_gw_ws_touch { ws with client := m.1, up := m.2 }
  | .up =>
    let m := move_bytes ws.up ws.client
    fpm_gw_ws_touch { ws with up := m.1, client := m.2 }

def fpm_gw_ws_readcb (ws : Relay) (bev : Side) : Relay :=
  if ws.finishing then ws else fpm_gw_ws_move ws bev

/-- `fpm_http_direct_tls_pull_pending`. -/
def pull_pending (b : Bev) : Bev := { b with input := b.input ++ b.pending, pending := [] }

def fpm_gw_ws_writecb (ws : Relay) : Side → Relay
  | .client =>
    if ws.finishing || !ws.up.alive || decide (FPM_GW_WS_LOW < ws.client.output.length) then ws
    else fpm_gw_ws_move { ws with up := { ws.up with reading := true } } .up
  | .up =>
    if ws.finishing || decide (FPM_GW_WS_LOW < ws.up.output.length) then ws
    else fpm_gw_ws_move { ws with client := pull_pending { ws.client with reading := true } } .client

def fpm_gw_ws_arm_deadline (ws : Relay) : Relay := { ws with timed_out := false, deadline := true }

/-- The bytes the gateway still holds for the upstream go to its output; the
client's input is no longer read. -/
def fpm_gw_ws_client_eof (ws : Relay) : Relay :=
  let cbev := pull_pending ws.client
  fpm_gw_ws_kick (fpm_gw_ws_arm_deadline
    { ws with
      stage := .UP_FLUSH
      idle := false
      client := { cbev with input := [], reading := false, cb := .ended }
      up := { ws.up with output := ws.up.output ++ cbev.input, low := 0, cb := .drain } })

def fpm_gw_ws_eventcb (ws : Relay) (bev : Side) (what : What) : Relay :=
  if !what.any then ws
  else if bev = .client ∧ what.eof = true ∧ (what.error || what.timeout) = false ∧
      ws.finishing = false then
    fpm_gw_ws_client_eof ws
  else fpm_gw_ws_finish ws (decide (bev = .client))

def fpm_gw_ws_idle_cb (ws : Relay) : Relay := fpm_gw_ws_finish ws false

def fpm_gw_ws_deadline_cb (ws : Relay) : Relay := fpm_gw_ws_kick { ws with timed_out := true }

/-- `fpm_gw_ws_teardown`: every event and both bufferevents are freed. -/
def fpm_gw_ws_teardown (ws : Relay) : Relay :=
  { ws with
    linked := false
    up := { ws.up with alive := false }
    idle := false
    total := false
    deadline := false
    client := { ws.client with cb := .none, alive := false }
    step := false
    teardowns := ws.teardowns + 1 }

def fpm_gw_ws_linger_read (b : Bev) : Bev := { b with input := [] }

def fpm_gw_ws_stage_eventcb (ws : Relay) (what : What) : Relay :=
  if what.any then fpm_gw_ws_kick { ws with client_gone := true } else ws

def fpm_gw_ws_up_eventcb (ws : Relay) (what : What) : Relay :=
  if what.any then fpm_gw_ws_kick { ws with up_gone := true } else ws

def fpm_gw_ws_up_step (ws : Relay) : Relay :=
  if ws.finishing || ws.timed_out || ws.up_gone || ws.client_gone then fpm_gw_ws_teardown ws
  else if ws.stage = .UP_FLUSH ∧ ws.up.output = [] then
    { ws with up := { ws.up with shut := true }, stage := .UP_LINGER }
  else ws

def fpm_gw_ws_enter_flush (ws : Relay) : Relay :=
  fpm_gw_ws_arm_deadline
    { ws with stage := .FLUSH, client := { ws.client with low := 0, cb := .flush, reading := false } }

def fpm_gw_ws_enter_linger (ws : Relay) : Relay :=
  if ws.client_gone then fpm_gw_ws_teardown ws
  else fpm_gw_ws_arm_deadline
    { ws with
      stage := .LINGER
      client := { ws.client with shut := true, cb := .linger, reading := true } }

/-- `bufferevent_free(ws->ubev)`. -/
def free_up (ws : Relay) : Relay := { ws with up := { ws.up with alive := false } }

/-- The `switch` of `fpm_gw_ws_step`. -/
def close_step (ws : Relay) : Relay :=
  match ws.stage with
  | .RELAY =>
    if ws.client_gone || ws.client.output.isEmpty then fpm_gw_ws_enter_linger ws
    else fpm_gw_ws_enter_flush ws
  | .FLUSH =>
    if ws.client_gone then fpm_gw_ws_teardown ws
    else if ws.timed_out || ws.client.output.isEmpty then fpm_gw_ws_enter_linger ws
    else ws
  | .LINGER => if ws.client_gone || ws.timed_out then fpm_gw_ws_teardown ws else ws
  | _ => ws

def fpm_gw_ws_step (ws : Relay) : Relay :=
  if ws.stage = .UP_FLUSH ∨ ws.stage = .UP_LINGER then fpm_gw_ws_up_step ws
  else if !ws.finishing then ws
  else close_step (free_up ws)

/-- `fpm_http_gw_ws_start`, once it owns both connections. `early` is what the
client sent behind its request; `head` and `tail` are what the upstream sent. The
client's output is empty, as evhttp has written every earlier answer. -/
def fpm_http_gw_ws_start (early head tail : Bytes) : Relay where
  client :=
    { alive := true, cb := .relay, reading := true, low := FPM_GW_WS_LOW, shut := false,
      pending := [], input := early, output := head ++ tail, received := early, delivered := [] }
  up :=
    { alive := true, cb := .relay, reading := true, low := FPM_GW_WS_LOW, shut := false,
      pending := [], input := [], output := [], received := head ++ tail, delivered := [] }
  idle := true
  total := true
  deadline := false
  step := false
  stage := .RELAY
  finishing := false
  client_gone := false
  timed_out := false
  up_gone := false
  linked := true
  teardowns := 0

/-! ## The event loop -/

inductive Event where
  /-- The client's socket yields `bs`; `k` bytes of what is then there reach the
  input buffer, the TLS layer keeps the rest. -/
  | client_in (bs : Bytes) (k : ℕ)
  | up_in (bs : Bytes)
  /-- `n` bytes of the output are written to the socket. -/
  | client_out (n : ℕ)
  | up_out (n : ℕ)
  | client_event (what : What)
  | up_event (what : What)
  | idle_fires
  | total_fires
  | deadline_fires
  | step_runs
  /-- `fpm_http_gw_ws_close_all`, when the gateway ends. -/
  | close_all
  deriving DecidableEq

def client_readcb (ws : Relay) : Relay :=
  match ws.client.cb with
  | .relay => fpm_gw_ws_readcb ws .client
  | .linger => { ws with client := fpm_gw_ws_linger_read ws.client }
  | _ => ws

def up_readcb (ws : Relay) : Relay :=
  match ws.up.cb with
  | .relay => fpm_gw_ws_readcb ws .up
  | .drain => { ws with up := fpm_gw_ws_linger_read ws.up }
  | _ => ws

/-- The write callbacks: `writecb` in the relay, `flush_writecb` afterwards. -/
def client_writecb (ws : Relay) : Relay :=
  match ws.client.cb with
  | .relay => fpm_gw_ws_writecb ws .client
  | .flush => fpm_gw_ws_kick ws
  | _ => ws

def up_writecb (ws : Relay) : Relay :=
  match ws.up.cb with
  | .relay => fpm_gw_ws_writecb ws .up
  | .drain => fpm_gw_ws_kick ws
  | _ => ws

def client_eventcb (ws : Relay) (what : What) : Relay :=
  match ws.client.cb with
  | .relay => fpm_gw_ws_eventcb ws .client what
  | .flush => fpm_gw_ws_stage_eventcb ws what
  | .linger => fpm_gw_ws_stage_eventcb ws what
  | .ended => fpm_gw_ws_stage_eventcb ws what
  | _ => ws

def up_eventcb (ws : Relay) (what : What) : Relay :=
  match ws.up.cb with
  | .relay => fpm_gw_ws_eventcb ws .up what
  | .drain => fpm_gw_ws_up_eventcb ws what
  | _ => ws

def Bev.take_in (b : Bev) (bs : Bytes) (k : ℕ) : Bev :=
  { b with
    received := b.received ++ bs
    input := b.input ++ (b.pending ++ bs).take k
    pending := (b.pending ++ bs).drop k }

def Bev.put_out (b : Bev) (n : ℕ) : Bev :=
  { b with delivered := b.delivered ++ b.output.take n, output := b.output.drop n }

def react (ws : Relay) : Event → Relay
  | .client_in bs k =>
    if ws.client.alive && ws.client.reading then
      client_readcb { ws with client := ws.client.take_in bs k }
    else ws
  | .up_in bs =>
    if ws.up.alive && ws.up.reading then
      up_readcb { ws with up := ws.up.take_in bs bs.length }
    else ws
  | .client_out n =>
    if ws.client.alive && !ws.client.shut then
      let ws := { ws with client := ws.client.put_out n }
      if ws.client.output.length ≤ ws.client.low then client_writecb ws else ws
    else ws
  | .up_out n =>
    if ws.up.alive && !ws.up.shut then
      let ws := { ws with up := ws.up.put_out n }
      if ws.up.output.length ≤ ws.up.low then up_writecb ws else ws
    else ws
  | .client_event what =>
    if ws.client.alive then
      client_eventcb { ws with client := { ws.client with reading := ws.client.reading && !what.eof } }
        what
    else ws
  | .up_event what =>
    if ws.up.alive then
      up_eventcb { ws with up := { ws.up with reading := ws.up.reading && !what.eof } } what
    else ws
  | .idle_fires => if ws.idle then fpm_gw_ws_idle_cb { ws with idle := false } else ws
  | .total_fires => if ws.total then fpm_gw_ws_idle_cb { ws with total := false } else ws
  | .deadline_fires => if ws.deadline then fpm_gw_ws_deadline_cb { ws with deadline := false } else ws
  | .step_runs => if ws.step then fpm_gw_ws_step { ws with step := false } else ws
  | .close_all => if ws.linked then fpm_gw_ws_teardown ws else ws

/-! ## What the buffers hold

Four situations matter to the streams. While the relay is `copying`, nothing is
lost on the way in either direction. Once it is `closing`, what is not yet in an
output buffer may be dropped. After a client EOF (`ended`) every byte of the
client is in the upstream's output or behind it, and in `lingering` that output
is empty. -/

inductive Mode where
  | copying
  | closing
  | ended
  | lingering
  deriving DecidableEq

def mode (ws : Relay) : Mode :=
  match ws.stage with
  | .RELAY => if ws.finishing then .closing else .copying
  | .FLUSH => .closing
  | .LINGER => .closing
  | .UP_FLUSH => .ended
  | .UP_LINGER => .lingering

structure Flow (m : Mode) (c u : Bev) : Prop where
  down : c.delivered ++ c.output <+: u.received
  upward : u.delivered ++ u.output <+: c.received
  no_pending : u.pending = []
  copying : m = .copying → u.received = c.delivered ++ c.output ++ u.input ∧
    c.received = u.delivered ++ u.output ++ (c.input ++ c.pending)
  ended : m = .ended ∨ m = .lingering →
    c.received = u.delivered ++ u.output ∧ c.reading = false
  lingering : m = .lingering → u.output = []

variable {c u : Bev} {m : Mode}

lemma flow_closing (h : Flow m c u) : Flow .closing c u :=
  ⟨h.down, h.upward, h.no_pending, nofun, nofun, nofun⟩

def Bev.bytes (b : Bev) : Bytes × Bytes × Bytes × Bytes × Bytes :=
  (b.received, b.pending, b.input, b.output, b.delivered)

/-- Nothing else of the two sides matters to the streams, but that the client is not read
again after its EOF. -/
lemma Flow.frame (h : Flow m c u) {c' u' : Bev} (hc : c'.bytes = c.bytes)
    (hread : m ≠ .copying → c.reading = false → c'.reading = false) (hu : u'.bytes = u.bytes) :
    Flow m c' u' := by
  simp only [Bev.bytes, Prod.mk.injEq] at hc hu
  obtain ⟨hcr, hcp, hci, hco, hcd⟩ := hc
  obtain ⟨hur, hup, hui, huo, hud⟩ := hu
  constructor
  · rw [hcd, hco, hur]
    exact h.down
  · rw [hud, huo, hcr]
    exact h.upward
  · rw [hup]
    exact h.no_pending
  · rw [hur, hcd, hco, hui, hcr, hud, huo, hci, hcp]
    exact h.copying
  · intro hm
    rw [hcr, hud, huo]
    refine ⟨(h.ended hm).1, hread ?_ (h.ended hm).2⟩
    rcases hm with rfl | rfl <;> decide
  · rw [huo]
    exact h.lingering

lemma flow_client_in (h : Flow m c u) (hread : c.reading = true) (bs : Bytes) (k : ℕ) :
    Flow m (c.take_in bs k) u where
  down := h.down
  upward := h.upward.trans (prefix_append _ _)
  no_pending := h.no_pending
  copying := by
    intro hm
    refine ⟨(h.copying hm).1, ?_⟩
    show c.received ++ bs = u.delivered ++ u.output ++
      (c.input ++ (c.pending ++ bs).take k ++ (c.pending ++ bs).drop k)
    rw [(h.copying hm).2, append_assoc c.input, take_append_drop]
    simp
  ended := by
    intro hm
    exact absurd (hread.symm.trans (h.ended hm).2) (by simp)
  lingering := h.lingering

lemma flow_up_in (h : Flow m c u) (bs : Bytes) :
    Flow m c (u.take_in bs bs.length) where
  down := h.down.trans (prefix_append _ _)
  upward := h.upward
  no_pending := by
    show (u.pending ++ bs).drop bs.length = []
    rw [h.no_pending, nil_append, drop_length]
  copying := by
    intro hm
    refine ⟨?_, (h.copying hm).2⟩
    show u.received ++ bs = c.delivered ++ c.output ++ (u.input ++ (u.pending ++ bs).take bs.length)
    rw [(h.copying hm).1, h.no_pending, nil_append, take_length, append_assoc,
      append_assoc]
  ended := h.ended
  lingering := h.lingering

lemma put_out_bytes (b : Bev) (n : ℕ) :
    (b.put_out n).delivered ++ (b.put_out n).output = b.delivered ++ b.output := by
  show b.delivered ++ b.output.take n ++ b.output.drop n = b.delivered ++ b.output
  rw [append_assoc, take_append_drop]

lemma flow_client_out (h : Flow m c u) (n : ℕ) :
    Flow m (c.put_out n) u where
  down := by
    rw [put_out_bytes]
    exact h.down
  upward := h.upward
  no_pending := h.no_pending
  copying := by
    intro hm
    rw [put_out_bytes]
    exact h.copying hm
  ended := h.ended
  lingering := h.lingering

lemma flow_up_out (h : Flow m c u) (n : ℕ) :
    Flow m c (u.put_out n) where
  down := h.down
  upward := by
    rw [put_out_bytes]
    exact h.upward
  no_pending := h.no_pending
  copying := by
    intro hm
    rw [put_out_bytes]
    exact h.copying hm
  ended := by
    intro hm
    rw [put_out_bytes]
    exact h.ended hm
  lingering := by
    intro hm
    show u.output.drop n = []
    rw [h.lingering hm, drop_nil]

lemma flow_move_down (h : Flow .copying c u) :
    Flow .copying (move_bytes u c).2 (move_bytes u c).1 := by
  obtain ⟨hdown, hup⟩ := h.copying rfl
  have hmoved : u.received = c.delivered ++ (c.output ++ u.input) := by
    rw [hdown, append_assoc]
  refine ⟨?_, h.upward, h.no_pending, fun _ => ⟨?_, hup⟩, nofun, nofun⟩
  · show c.delivered ++ (c.output ++ u.input) <+: u.received
    exact hmoved ▸ prefix_rfl
  · show u.received = c.delivered ++ (c.output ++ u.input) ++ []
    rw [hmoved, append_nil]

/-- A move towards the upstream, likewise; what the TLS layer holds comes behind. -/
lemma flow_move_up (h : Flow .copying c u) :
    Flow .copying (move_bytes c u).1 (move_bytes c u).2 := by
  obtain ⟨hdown, hup⟩ := h.copying rfl
  have hmoved : c.received = u.delivered ++ (u.output ++ c.input) ++ c.pending := by
    rw [hup]
    simp
  refine ⟨h.down, ?_, h.no_pending, fun _ => ⟨hdown, ?_⟩, nofun, nofun⟩
  · show u.delivered ++ (u.output ++ c.input) <+: c.received
    rw [hmoved]
    exact prefix_append _ _
  · show c.received = u.delivered ++ (u.output ++ c.input) ++ ([] ++ c.pending)
    rw [hmoved, nil_append]

lemma flow_pull (h : Flow .copying c u) : Flow .copying (pull_pending c) u := by
  obtain ⟨hdown, hup⟩ := h.copying rfl
  refine ⟨h.down, h.upward, h.no_pending, fun _ => ⟨hdown, ?_⟩, nofun, nofun⟩
  show c.received = u.delivered ++ u.output ++ (c.input ++ c.pending ++ [])
  rw [hup, append_nil]

/-! ## The streams in every run -/

structure Streams (ws : Relay) : Prop where
  flow : Flow (mode ws) ws.client ws.up
  client_relay : ws.client.cb = .relay → ws.stage = .RELAY
  client_linger : ws.client.cb = .linger → ws.stage ≠ .RELAY
  up_relay : ws.up.alive = true → ws.up.cb = .relay → mode ws = .copying
  up_drain : ws.up.alive = true → ws.up.cb = .drain → ws.stage ≠ .RELAY

variable {ws : Relay}

lemma mode_relay (hstage : ws.stage = .RELAY) (hfin : ws.finishing = false) :
    mode ws = .copying := by
  unfold mode
  rw [hstage, hfin]
  rfl

lemma stage_of_copying (h : mode ws = .copying) : ws.stage = .RELAY ∧ ws.finishing = false := by
  unfold mode at h
  cases hstage : ws.stage <;> rw [hstage] at h <;> cases hfin : ws.finishing <;> simp_all

lemma mode_closing (hstage : ws.stage = .RELAY ∨ ws.stage = .FLUSH ∨ ws.stage = .LINGER)
    (hfin : ws.finishing = true) : mode ws = .closing := by
  unfold mode
  rcases hstage with h | h | h <;> rw [h]
  rw [hfin]
  rfl

lemma streams_bufs (h : Streams ws) (hflow : Flow (mode ws) c u) (hc : c.cb = ws.client.cb)
    (hu : u.cb = ws.up.cb) (ha : u.alive = ws.up.alive) :
    Streams { ws with client := c, up := u } where
  flow := hflow
  client_relay := by
    intro hcb
    exact h.client_relay (hc.symm.trans hcb)
  client_linger := by
    intro hcb
    exact h.client_linger (hc.symm.trans hcb)
  up_relay := by
    intro halive hcb
    exact h.up_relay (ha.symm.trans halive) (hu.symm.trans hcb)
  up_drain := by
    intro halive hcb
    exact h.up_drain (ha.symm.trans halive) (hu.symm.trans hcb)

lemma streams_control (h : Streams ws) {idle total deadline step client_gone timed_out up_gone : Bool} :
    Streams { ws with
      idle := idle, total := total, deadline := deadline, step := step, client_gone := client_gone,
      timed_out := timed_out, up_gone := up_gone } :=
  ⟨h.flow, h.client_relay, h.client_linger, h.up_relay, h.up_drain⟩

lemma streams_touch (h : Streams ws) : Streams (fpm_gw_ws_touch ws) := by
  unfold fpm_gw_ws_touch
  split
  · exact streams_control h
  · exact h

lemma flow_unhook (h : Flow m c u) : Flow m c (unhook u) := by
  unfold unhook
  split
  · exact h.frame rfl (fun _ hr => hr) rfl
  · exact h

lemma unhook_cb {b : Bev} (h : (unhook b).alive = true) : (unhook b).cb = .none := by
  unfold unhook at h ⊢
  split
  · rfl
  · rename_i hb
    rw [if_neg hb] at h
    exact absurd h hb

theorem streams_finish (h : Streams ws) (client_gone : Bool) :
    Streams (fpm_gw_ws_finish ws client_gone) := by
  have hgone : Streams (if client_gone then { ws with client_gone := true } else ws) := by
    split
    · exact streams_control h
    · exact h
  apply streams_control
  generalize (if client_gone then { ws with client_gone := true } else ws) = v at hgone ⊢
  split
  · refine ⟨?_, hgone.client_relay, hgone.client_linger, ?_, ?_⟩
    · -- only the open relay changes its mode
      by_cases hstage : v.stage = .RELAY
      · have hmode : mode { v with finishing := true, idle := false, total := false,
                                   up := unhook v.up } = .closing :=
          mode_closing (.inl hstage) rfl
        rw [hmode]
        exact flow_unhook (flow_closing hgone.flow)
      · have hmode : mode { v with finishing := true, idle := false, total := false,
                                   up := unhook v.up } = mode v := by
          unfold mode
          cases hs : v.stage <;> first | rfl | exact absurd hs hstage
        rw [hmode]
        exact flow_unhook hgone.flow
    · exact fun halive hcb => absurd (unhook_cb halive) (by rw [hcb]; simp)
    · exact fun halive hcb => absurd (unhook_cb halive) (by rw [hcb]; simp)
  · exact hgone

theorem streams_move (h : Streams ws) (hmode : mode ws = .copying) (src : Side) :
    Streams (fpm_gw_ws_move ws src) := by
  have hflow := h.flow
  rw [hmode] at hflow
  cases src with
  | client =>
    have hmoved := flow_move_up hflow
    rw [← hmode] at hmoved
    exact streams_touch (streams_bufs h hmoved rfl rfl rfl)
  | up =>
    have hmoved := flow_move_down hflow
    rw [← hmode] at hmoved
    exact streams_touch (streams_bufs h hmoved rfl rfl rfl)

theorem streams_client_eof (h : Streams ws) (hmode : mode ws = .copying) :
    Streams (fpm_gw_ws_client_eof ws) := by
  have hflow := h.flow
  rw [hmode] at hflow
  obtain ⟨-, hup⟩ := hflow.copying rfl
  have hall : ws.client.received = ws.up.delivered ++
      (ws.up.output ++ (ws.client.input ++ ws.client.pending)) := by
    rw [hup, append_assoc]
  refine ⟨?_, nofun, nofun, fun _ => nofun, fun _ _ => nofun⟩
  refine ⟨hflow.down, ?_, hflow.no_pending, nofun, fun _ => ⟨hall, rfl⟩, nofun⟩
  exact hall ▸ prefix_rfl

lemma streams_teardown (h : Streams ws) : Streams (fpm_gw_ws_teardown ws) := by
  refine ⟨h.flow.frame rfl (fun _ hr => hr) rfl, ?_, ?_, ?_, ?_⟩ <;> simp [fpm_gw_ws_teardown]

lemma streams_up_step (h : Streams ws) (hstage : ws.stage = .UP_FLUSH ∨ ws.stage = .UP_LINGER) :
    Streams (fpm_gw_ws_up_step ws) := by
  have hended : mode ws = .ended ∨ mode ws = .lingering := by
    unfold mode
    rcases hstage with hs | hs <;> rw [hs]
    · exact .inl rfl
    · exact .inr rfl
  unfold fpm_gw_ws_up_step
  split
  · exact streams_teardown h
  · split
    · rename_i hempty
      refine ⟨⟨h.flow.down, h.flow.upward, h.flow.no_pending, by simp [mode],
        fun _ => h.flow.ended hended, fun _ => hempty.2⟩, ?_, ?_, ?_, ?_⟩
      · intro hcb
        exact absurd (hempty.1.symm.trans (h.client_relay hcb)) (by simp)
      · exact fun _ => by simp
      · intro halive hcb
        have hcopy := h.up_relay halive hcb
        rcases hended with hm | hm <;> rw [hm] at hcopy <;> simp at hcopy
      · exact fun _ _ => by simp
    · exact h

lemma streams_leave (h : Streams ws) (hmode : mode ws = .closing) {c : Bev} {stage : Stage}
    (hstage : stage = .FLUSH ∨ stage = .LINGER) (hc : c.delivered = ws.client.delivered ∧
      c.output = ws.client.output ∧ c.received = ws.client.received) (hcb : c.cb ≠ .relay) :
    Streams (fpm_gw_ws_arm_deadline { ws with stage := stage, client := c }) := by
  obtain ⟨hdeliv, hout, hrec⟩ := hc
  have hmode' : mode (fpm_gw_ws_arm_deadline { ws with stage := stage, client := c }) = .closing := by
    rcases hstage with rfl | rfl <;> rfl
  refine ⟨?_, fun hr => absurd hr hcb, ?_, ?_, ?_⟩
  · rw [hmode']
    refine ⟨?_, ?_, h.flow.no_pending, nofun, nofun, nofun⟩
    · show c.delivered ++ c.output <+: ws.up.received
      rw [hdeliv, hout]
      exact h.flow.down
    · show ws.up.delivered ++ ws.up.output <+: c.received
      rw [hrec]
      exact h.flow.upward
  · intro _
    rcases hstage with rfl | rfl <;> simp [fpm_gw_ws_arm_deadline]
  · intro halive hr
    exact absurd (hmode.symm.trans (h.up_relay halive hr)) (by simp)
  · intro _ _
    rcases hstage with rfl | rfl <;> simp [fpm_gw_ws_arm_deadline]

lemma streams_enter_flush (h : Streams ws) (hmode : mode ws = .closing) :
    Streams (fpm_gw_ws_enter_flush ws) :=
  streams_leave h hmode (.inl rfl) ⟨rfl, rfl, rfl⟩ (by simp)

lemma streams_enter_linger (h : Streams ws) (hmode : mode ws = .closing) :
    Streams (fpm_gw_ws_enter_linger ws) := by
  unfold fpm_gw_ws_enter_linger
  split
  · exact streams_teardown h
  · exact streams_leave h hmode (.inr rfl) ⟨rfl, rfl, rfl⟩ (by simp)

lemma streams_free_up (h : Streams ws) : Streams (free_up ws) :=
  ⟨h.flow.frame rfl (fun _ hr => hr) rfl, h.client_relay, h.client_linger,
    by simp [free_up], by simp [free_up]⟩

lemma streams_close_step (h : Streams ws) (hmode : mode ws = .closing) :
    Streams (close_step ws) := by
  unfold close_step
  split
  · split
    · exact streams_enter_linger h hmode
    · exact streams_enter_flush h hmode
  · split
    · exact streams_teardown h
    · split
      · exact streams_enter_linger h hmode
      · exact h
  · split
    · exact streams_teardown h
    · exact h
  · exact h

theorem streams_step (h : Streams ws) : Streams (fpm_gw_ws_step ws) := by
  unfold fpm_gw_ws_step
  split
  · rename_i hstage
    exact streams_up_step h hstage
  · rename_i hstage
    split
    · exact h
    · rename_i hfin
      have hmode : mode ws = .closing := by
        apply mode_closing _ (by simpa using hfin)
        cases hs : ws.stage <;> simp_all
      exact streams_close_step (streams_free_up h) hmode

lemma streams_start (early head tail : Bytes) :
    Streams (fpm_http_gw_ws_start early head tail) := by
  refine ⟨⟨?_, ?_, rfl, fun _ => ⟨?_, ?_⟩, ?_, ?_⟩, fun _ => rfl, ?_, fun _ _ => rfl, ?_⟩
  · show [] ++ (head ++ tail) <+: head ++ tail
    exact prefix_rfl
  · exact nil_prefix
  · show head ++ tail = [] ++ (head ++ tail) ++ []
    rw [nil_append, append_nil]
  · show early = [] ++ [] ++ (early ++ [])
    rw [append_nil, append_nil, nil_append]
  · exact by simp [mode, fpm_http_gw_ws_start]
  · exact by simp [mode, fpm_http_gw_ws_start]
  · exact by simp [fpm_http_gw_ws_start]
  · exact by simp [fpm_http_gw_ws_start]

end FpmNg.UpgradeRelay
