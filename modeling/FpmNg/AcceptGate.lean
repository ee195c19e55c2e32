/-
The accept gates: who switches a listener off and on again.

Two mechanisms share every listener. The accept backoff
(`fpm_http_accept_backoff.c`) pauses it for 100 ms when `accept()` fails. And each of
the three owners has a gate of its own: the worker executor stops after
`worker.accept_threshold` accepts until a cooldown is over, the classic executor stops
after each accept until it is idle again and below `http.max_connections`, and a
gateway stops both of its listeners at `http.max_connections`. An owner that opens its
gate asks whether the pause is on, and the end of a pause asks the owner.

The connections are those of the tracker (`FpmNg.ConnTracker`), so a step gives `none`
where the tracker touches a freed record. The classic executor runs PHP inside its
request callback; while it does, no callback of the event loop runs. Its tick and the
gateway's are persistent and pending as long as the loop runs. Timers can be
registered and memory suffices, except that the model keeps the answer of the backoff's
own `event_add()`. Log lines and metrics are left out.
-/
import FpmNg.ConnLive

namespace FpmNg.AcceptGate

open ConnTracker

open FpmNg.ConnTracker (Tracker Limits Alloc)

/-! ## A listener and its backoff -/

/-- An `evconnlistener` with its `struct fpm_http_accept_backoff`. `timer`: the resume
timer is pending. -/
structure Listener where
  enabled : Bool
  paused : Bool
  timer : Bool
  deriving DecidableEq

namespace Listener

def opened : Listener := ⟨true, false, false⟩

def evconnlistener_enable (l : Listener) : Listener := { l with enabled := true }

def evconnlistener_disable (l : Listener) : Listener := { l with enabled := false }

/-- `fpm_http_accept_backoff_resume()`; `may` is the owner's answer. -/
def fpm_http_accept_backoff_resume (may : Bool) (l : Listener) : Listener :=
  let l := { l with timer := false, paused := false }
  if may then l.evconnlistener_enable else l

/-- `fpm_http_accept_backoff_error()`; `added` is whether the timer could be added. -/
def fpm_http_accept_backoff_error (added : Bool) (l : Listener) : Listener :=
  let l := l.evconnlistener_disable
  if added then { l with timer := true, paused := true } else l.evconnlistener_enable

def set (on : Bool) (l : Listener) : Listener :=
  if on then if l.paused then l else l.evconnlistener_enable else l.evconnlistener_disable

end Listener

def accepts (l : Option Listener) : Bool := l.any Listener.enabled

def resumes (l : Option Listener) : Bool := l.any Listener.timer

/-! ## The worker executor -/

/-- The accept gate of `fpm_http_direct_worker.c`. `accept_cooldown`: that timer is
pending. -/
structure Worker where
  listener : Option Listener
  accept_taken : ℕ
  accept_closed : Bool
  accept_cooling : Bool
  accept_cooldown : Bool
  deriving DecidableEq

namespace Worker

def fpm_worker_accept_enable (on : Bool) (w : Worker) : Worker :=
  { w with listener := w.listener.map (Listener.set on) }

def fpm_worker_accept_maybe_close (accept_threshold : ℕ) (w : Worker) : Worker :=
  if accept_threshold = 0 ∨ w.accept_closed = true ∨ w.accept_taken < accept_threshold then w
  else
    let w := fpm_worker_accept_enable false { w with accept_closed := true }
    { w with accept_cooling := true, accept_cooldown := true }

def fpm_worker_accept_reopen (w : Worker) : Worker :=
  if !w.accept_closed || w.accept_cooling then w
  else fpm_worker_accept_enable true { w with accept_taken := 0, accept_closed := false }

/-- `fpm_worker_accept_tick()`, the callback of the cooldown timer. -/
def fpm_worker_accept_tick (w : Worker) : Worker :=
  fpm_worker_accept_reopen { w with accept_cooling := false }

def fpm_worker_accept_hook (accept_threshold : ℕ) (w : Worker) : Worker :=
  fpm_worker_accept_maybe_close accept_threshold { w with accept_taken := w.accept_taken + 1 }

def fpm_worker_backoff_may_resume (w : Worker) : Bool := !w.accept_closed

/-- `fpm_worker_finish_output()` takes the listener away. -/
def fpm_worker_finish_output (w : Worker) : Worker := { w with listener := none }

inductive Event where
  | accept
  /-- `accept()` fails. -/
  | error (added : Bool)
  /-- The resume timer of the backoff fires. -/
  | backoff
  /-- The cooldown timer fires. -/
  | cooldown
  /-- An iteration of `fpmng_worker_loop()` begins. -/
  | loop
  | finish_output

def step (accept_threshold : ℕ) (w : Worker) : Event → Worker
  | .accept => if accepts w.listener then w.fpm_worker_accept_hook accept_threshold else w
  | .error added =>
    if accepts w.listener then
      { w with listener := w.listener.map (Listener.fpm_http_accept_backoff_error added) }
    else w
  | .backoff =>
    if resumes w.listener then
      { w with listener :=
          w.listener.map (Listener.fpm_http_accept_backoff_resume w.fpm_worker_backoff_may_resume) }
    else w
  | .cooldown =>
    if w.accept_cooldown then fpm_worker_accept_tick { w with accept_cooldown := false } else w
  | .loop => w.fpm_worker_accept_reopen
  | .finish_output => w.fpm_worker_finish_output

def init : Worker := ⟨some .opened, 0, false, false, false⟩

def run (accept_threshold : ℕ) (events : List Event) : Worker :=
  Runs.run (step accept_threshold) init events

end Worker

/-! ## The classic executor -/

/-- The accept gate of `fpm_http_direct.c`. -/
structure Classic where
  listener : Option Listener
  in_request : Bool
  retiring : Bool
  stopping : Bool
  conns : Tracker

namespace Classic

variable (lim : Limits)

def fpm_direct_accept_enable (on : Bool) (c : Classic) : Classic :=
  { c with listener := c.listener.map (Listener.set on) }

/-- The first thing `fpm_direct_retire_enter()` does. -/
def fpm_direct_retire_enter (c : Classic) : Classic := { c with listener := none }

def may_open (c : Classic) : Option (Bool × Classic) :=
  if c.retiring || c.in_request then some (false, c)
  else (may_accept lim c.conns).map fun r => (r.1, { c with conns := r.2 })

/-- `fpm_direct_tick_body()`, up to the end of the gate. -/
def fpm_direct_tick_body (sweep : Bool) (c : Classic) : Option Classic :=
  if c.stopping then some { c with listener := none }
  else do
    let c := if c.retiring then c.fpm_direct_retire_enter else c
    let swept := if sweep then ConnTracker.sweep c.conns else some c.conns
    let conns ← swept
    let r ← may_open lim { c with conns := conns }
    some (if r.1 then fpm_direct_accept_enable true r.2 else r.2)

def fpm_direct_backoff_may_resume (c : Classic) : Option (Bool × Classic) := may_open lim c

/-- `fpm_direct_accept_close_gate()`. -/
def fpm_direct_accept_close_gate (bev a now : ℕ) (ok : Alloc) (c : Classic) : Option Classic :=
  let c := c.fpm_direct_accept_enable false
  (ConnTracker.step lim c.conns (.accepted bev a now ok)).map fun conns => { c with conns := conns }

inductive Event where
  | accept (bev a now : ℕ) (ok : Alloc)
  | error (added : Bool)
  | backoff
  | tick
  /-- A request begins to run PHP. -/
  | request
  /-- `fpmng_respond()` ends the response, and the request goes on. -/
  | respond
  /-- The request is over. -/
  | request_end
  /-- The signals, and `pm.max_requests`. -/
  | retire
  | stop
  /-- A request finds that the child retires. -/
  | retire_now
  /-- What else happens to the connections. -/
  | conns (e : ConnTracker.Event)

def on_loop (c : Classic) (next : Option Classic) : Option Classic :=
  if c.in_request then some c else next

def step (c : Classic) : Event → Option Classic
  | .accept bev a now ok =>
    c.on_loop (if accepts c.listener then c.fpm_direct_accept_close_gate lim bev a now ok else some c)
  | .error added =>
    c.on_loop (some (if accepts c.listener then
      { c with listener := c.listener.map (Listener.fpm_http_accept_backoff_error added) } else c))
  | .backoff =>
    c.on_loop (if resumes c.listener then do
        let r ← fpm_direct_backoff_may_resume lim c
        some { r.2 with
          listener := r.2.listener.map (Listener.fpm_http_accept_backoff_resume r.1) }
      else some c)
  | .tick => c.on_loop (c.fpm_direct_tick_body lim true)
  | .request => c.on_loop (some { c with in_request := true })
  | .respond => if c.in_request then c.fpm_direct_tick_body lim false else some c
  | .request_end =>
    if c.in_request then fpm_direct_tick_body lim false { c with in_request := false } else some c
  | .retire => some { c with retiring := true }
  | .stop => some { c with stopping := true }
  | .retire_now => some (if c.retiring then c.fpm_direct_retire_enter else c)
  | .conns e =>
    if e.other then (ConnTracker.step lim c.conns e).map fun conns => { c with conns := conns }
    else some c

def init : Classic := ⟨some .opened, false, false, false, .new⟩

def run (events : List Event) : Option Classic := Runs.attempt (step lim) init events

end Classic

/-! ## The gateway -/

inductive Bound where
  | tls
  | plain
  deriving DecidableEq

/-- The accept gate of `fpm_http_gw_proc.c`. `conns` is there if `http.max_connections`
is set. -/
structure Gateway where
  bound : Bound → Option Listener
  conns : Option Tracker
  stopping : Bool

namespace Gateway

variable (lim : Limits)

/-- The limits `fpm_http_gateway_cap_init()` sets. -/
def limits (max_connections max_per_client : ℤ) : Limits := ⟨0, max_connections, max_per_client, true⟩

def set_bound (g : Gateway) (b : Bound) (l : Option Listener) : Gateway :=
  { g with bound := Function.update g.bound b l }

def fpm_http_gateway_accepting (g : Gateway) : Option (Bool × Gateway) :=
  if g.stopping then some (false, g)
  else match g.conns with
    | none => some (true, g)
    | some t => (may_accept lim t).map fun r => (r.1, { g with conns := some r.2 })

/-- `fpm_http_gateway_listener_set()`, for both listeners. -/
def fpm_http_gateway_listener_set (on : Bool) (g : Gateway) : Gateway :=
  { g with bound := fun b => (g.bound b).map (Listener.set on) }

def fpm_http_gateway_gate (g : Gateway) : Option Gateway :=
  if g.conns.isNone || g.stopping then some g
  else do
    let r ← g.fpm_http_gateway_accepting lim
    some (r.2.fpm_http_gateway_listener_set r.1)

def fpm_http_gateway_may_resume (g : Gateway) : Option (Bool × Gateway) :=
  g.fpm_http_gateway_accepting lim

def fpm_http_gateway_accepted (bev a now : ℕ) (ok : Alloc) (g : Gateway) : Option Gateway :=
  match g.conns with
  | none => some g
  | some t => do
    let t ← ConnTracker.step lim t (.accepted bev a now ok)
    fpm_http_gateway_gate lim { g with conns := some t }

def fpm_http_gateway_cap_tick (g : Gateway) : Option Gateway :=
  match g.conns with
  | none => some g
  | some t => do
    let t ← ConnTracker.sweep t
    fpm_http_gateway_gate lim { g with conns := some t }

/-- `fpm_http_gateway_tls_listener_hook()`: the first certificate is there. -/
def fpm_http_gateway_tls_listener_hook (g : Gateway) : Option Gateway :=
  if g.stopping then some g
  else fpm_http_gateway_gate lim (g.set_bound .tls (some .opened))

def fpm_http_drain_start (g : Gateway) : Gateway :=
  if g.stopping then g else { g with stopping := true, bound := fun _ => none }

inductive Event where
  | accept (b : Bound) (bev a now : ℕ) (ok : Alloc)
  | error (b : Bound) (added : Bool)
  | backoff (b : Bound)
  | cap_tick
  | first_cert
  | drain
  | conns (e : ConnTracker.Event)

def step (g : Gateway) : Event → Option Gateway
  | .accept b bev a now ok =>
    if accepts (g.bound b) then g.fpm_http_gateway_accepted lim bev a now ok else some g
  | .error b added =>
    some (if accepts (g.bound b) then
      g.set_bound b ((g.bound b).map (Listener.fpm_http_accept_backoff_error added))
    else g)
  | .backoff b =>
    if resumes (g.bound b) then do
      let r ← g.fpm_http_gateway_may_resume lim
      some (r.2.set_bound b ((r.2.bound b).map (Listener.fpm_http_accept_backoff_resume r.1)))
    else some g
  | .cap_tick => g.fpm_http_gateway_cap_tick lim
  | .first_cert =>
    if (g.bound .tls).isNone then g.fpm_http_gateway_tls_listener_hook lim else some g
  | .drain => some g.fpm_http_drain_start
  | .conns e =>
    match e.other, g.conns with
    | true, some t => (ConnTracker.step lim t e).map fun t => { g with conns := some t }
    | _, _ => some g

def init (tls plain : Bool) : Gateway where
  bound := fun b => match b with
    | .tls => if tls then some .opened else none
    | .plain => if plain then some .opened else none
  conns := if 0 < lim.max_connections then some .new else none
  stopping := false

def run (tls plain : Bool) (events : List Event) : Option Gateway :=
  Runs.attempt (step lim) (init lim tls plain) events

end Gateway

end FpmNg.AcceptGate
