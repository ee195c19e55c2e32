/-
The worker executor of an http-direct pool (`fpm_http_direct_worker.c`,
`fpm_http_direct_ws.c`): the table of accepted requests, the builtins a worker script
answers them with, and the events of the loop that take entries out of the table
behind the script's back.

**Entries.** A builtin looks an entry up once and goes on with the pointer. The
pointer is the entry's id here, because ids are never used twice: an entry that is no
longer in the table is a record that was freed, and reading it gives `none`. So `none`
is the use of an entry after it was removed. `zend_hash_destroy()` at the end of the
child frees what is still in the table without taking it out; from then on a lookup
that finds an entry, or a pointer to one, is such a use too.

**User code.** `fpmng_worker_respond()` and `fpmng_worker_respond_start()` turn the
header values into strings, and an object's `__toString` runs inside that. A call that
has reached such a value is put aside in `calls` with its locals and the rest of its
loop, and `resume` goes on with it. Between the two any event may come: the
`__toString` may call the builtins, it may run the event loop, and it may suspend the
fiber it runs in, so calls need not end in the order they began.

**Transport.** A request of libevent is a record by arrival number, with what has been
handed over for it (`sent`), its callbacks and whether its connection is still
attached. libevent writes a reply when the socket lets it (`written`), and until then
the reply is only in memory.

**History.** `History` records what the table and the two queues have seen. Nothing
reads it; it is there to be spoken about.

The metrics and the scoreboard are left out, and so is `fw.ws_unflushed`, which can
only make the last flush wait longer.
-/
import Mathlib.Algebra.Ring.Int.Defs
import Mathlib.Algebra.Ring.Nat
import FpmNg.Lib.Runs
import FpmNg.DirectResponse
import FpmNg.Reply

namespace FpmNg.WorkerExecutor

open FpmNg.DirectResponse Function Prod
open FpmNg.Reply (fpm_http_direct_status_final)

/-! ## The state -/

structure Request where
  command : Command
  major : ℕ
  minor : ℕ
  headers : List (Bytes × Bytes)

/-- What is handed to libevent: a final head with its body, the answer of `ping.path`,
the 101 head, the head of a stream, a chunk of it, its end. -/
inductive Sent where
  | reply (status : ℕ) (headers : List (Bytes × Bytes)) (body : Bytes)
  | ping (body : Bytes)
  | switching (headers : List (Bytes × Bytes))
  | start (status : ℕ) (headers : List (Bytes × Bytes))
  | chunk (data : Bytes)
  | last
  deriving DecidableEq

def Sent.isHead : Sent → Bool
  | .reply _ _ _ | .ping _ | .switching _ | .start _ _ => true
  | _ => false

def Sent.isEnd : Sent → Bool
  | .reply _ _ _ | .ping _ | .switching _ | .last => true
  | _ => false

/-- The close callback of a connection: none, `fpm_worker_conn_closed()` with the
entry, or `fpm_worker_reply_aborted()`. -/
inductive Closecb where
  | none
  | conn_closed (id : ℕ)
  | reply_aborted
  deriving DecidableEq

/-- A `struct evhttp_request`: `out` are its output headers, `on_complete` is whether
`fpm_worker_reply_done()` is still to be called for it, `hijacked` whether its
connection was taken over by an upgrade, `written` whether its whole reply is on the
socket. -/
structure Http where
  request : Request
  connection : Bool
  closecb : Closecb
  on_complete : Bool
  hijacked : Bool
  out : List (Bytes × Bytes)
  sent : List Sent
  written : Bool

def Http.heads (h : Http) : ℕ := h.sent.countP Sent.isHead

def Http.complete (h : Http) : Bool := h.sent.any Sent.isEnd

/-- `struct fpm_worker_pending`; `http` is the arrival number of the request. -/
structure Pending where
  http : Option ℕ
  accepted_at : ℕ
  streaming : Bool
  backpressured : Bool

/-- How a call ends once its headers are in: a whole response, or a started one. -/
inductive Ending where
  | respond (status : ℕ) (body : Bytes)
  | start (status : ℕ)

/-- The locals of a call that is in its header loop. `out` is the request whose
output headers the current header goes to. -/
structure Locals where
  id : ℕ
  ending : Ending
  out : ℕ
  total : ℕ
  headers_ok : Bool

/-- A call that waits for the `__toString` of a value of the header `name`. -/
structure Call where
  vars : Locals
  name : Bytes
  rest : List Item

/-- The script runs; it has returned and `fpm_worker_finish_output()` walks the table;
`fpm_worker_grace_drain()` runs; the flush after it; `evhttp_free()`; the table is
destroyed and what PHP runs on shutdown runs. -/
inductive Phase where
  | serving
  | answering
  | draining
  | flushing
  | freeing
  | destroyed
  deriving DecidableEq

/-- `fw.finishing`. -/
def Phase.finishing : Phase → Bool
  | .answering | .draining | .flushing => true
  | _ => false

/-- How a request leaves the table: the script answers it, it is upgraded, it is
answered 504, its client is gone, or the child ends it when it stops. -/
inductive Leave where
  | answered
  | upgraded
  | timed_out
  | closed
  | stopped
  deriving DecidableEq

/-- What has happened: the entries that left with the way they took, the ids
`next_request` returned, the ids whose clients closed, and how many of those there
were at the last `closed_requests`. -/
structure History where
  left : List (ℕ × Leave)
  handed : List ℕ
  closes : List ℕ
  drained : ℕ

/-- The directives, the `Sec-WebSocket-Accept` of a key, and whether libevent's
`evhttp_add_header()` takes a header. -/
structure Config where
  max_pending : ℕ
  pm_max_requests : ℕ
  worker_request_timeout : ℕ
  worker_send_buffer_limit : ℕ
  accept_key : Bytes → Bytes
  takes : Bytes → Bytes → Bool

/-- `struct fpm_worker_state`. -/
structure Worker where
  http : ℕ → Http
  arrived : ℕ
  pending : ℕ → Option Pending
  next_id : ℕ
  ready : List ℕ
  closed : List ℕ
  answered : ℕ
  unflushed : ℕ
  stopping : Bool
  flush_expired : Bool
  flush_failed : Bool
  phase : Phase
  calls : List Call
  hist : History

def Http.none : Http := ⟨⟨.other, 1, 1, []⟩, false, .none, false, false, [], [], false⟩

/-- The state `fpm_http_direct_worker_child_main()` begins with. -/
def Worker.init : Worker where
  http := fun _ => Http.none
  arrived := 0
  pending := fun _ => none
  next_id := 1
  ready := []
  closed := []
  answered := 0
  unflushed := 0
  stopping := false
  flush_expired := false
  flush_failed := false
  phase := .serving
  calls := []
  hist := ⟨[], [], [], 0⟩

/-- What a builtin returns; `waits` if it does not return yet. -/
inductive Result where
  | bool (b : Bool)
  | null
  | request (id : ℕ)
  | requests (ids : List ℕ)
  | stream (id : ℕ)
  | throws (arg : ℕ) (message : String)
  | waits
  deriving DecidableEq

/-! ## The table and the transport -/

def Worker.set_http (w : Worker) (s : ℕ) (h : Http) : Worker :=
  { w with http := update w.http s h }

def Worker.set_pending (w : Worker) (id : ℕ) (p : Pending) : Worker :=
  { w with pending := update w.pending id (some p) }

def Worker.ids (w : Worker) : List ℕ :=
  (List.range w.next_id).filter fun id => (w.pending id).isSome

/-- `fpm_worker_pending_get()`. -/
def Worker.pending_get (w : Worker) (id : ℤ) : Option (Option Pending) :=
  if id ≤ 0 then some none
  else match w.pending id.toNat with
    | none => some none
    | some p => if w.phase = .destroyed then none else some (some p)

/-- `p->http` through a pointer that was kept. -/
def Worker.http_of (w : Worker) (id : ℕ) : Option ℕ :=
  if w.phase = .destroyed then none else (w.pending id).bind Pending.http

/-- `fpm_worker_reap()`. -/
def Worker.reap (w : Worker) (id : ℕ) (how : Leave) : Worker :=
  { w with
    pending := update w.pending id none
    hist.left := w.hist.left ++ [(id, how)] }

/-- `evhttp_connection_set_closecb(connection, NULL, NULL)`. -/
def Worker.clear_closecb (w : Worker) (s : ℕ) : Worker :=
  w.set_http s { w.http s with closecb := .none }

/-- `fpm_worker_count_reply()`. -/
def Worker.fpm_worker_count_reply (w : Worker) (s : ℕ) : Worker :=
  { w.set_http s { w.http s with closecb := .reply_aborted, on_complete := true } with
    unflushed := w.unflushed + 1 }

/-- `fpm_worker_reply_settled()` and with it the end of the count of request `s`. -/
def Worker.fpm_worker_reply_settled (w : Worker) (s : ℕ) : Worker :=
  { w.set_http s { w.http s with closecb := .none, on_complete := false } with
    unflushed := w.unflushed - 1 }

def Worker.hand_over (w : Worker) (s : ℕ) (m : Sent) : Worker :=
  w.set_http s { w.http s with sent := (w.http s).sent ++ [m] }

/-- `fpm_worker_send_error()`: libevent clears the output headers and answers with
its own. -/
def Worker.fpm_worker_send_error (w : Worker) (s status : ℕ) : Worker :=
  let w := w.fpm_worker_count_reply s
  let w := w.set_http s { w.http s with out := [(str "Connection", str "close")] }
  w.hand_over s (.reply status (w.http s).out [])

/-- `fpm_worker_send_reply()`. -/
def Worker.fpm_worker_send_reply (w : Worker) (s status : ℕ) (body : Bytes) : Worker :=
  let w := w.fpm_worker_count_reply s
  w.hand_over s (.reply status (w.http s).out body)

def Worker.add_header (w : Worker) (s : ℕ) (name value : Bytes) : Worker :=
  w.set_http s { w.http s with out := (w.http s).out ++ [(name, value)] }

/-- `fpm_worker_account_answered_request()`. -/
def Worker.fpm_worker_account_answered_request (cfg : Config) (w : Worker) : Worker :=
  { w with
    answered := w.answered + 1
    stopping := w.stopping || (cfg.pm_max_requests ≠ 0 && cfg.pm_max_requests ≤ w.answered + 1) }

/-! ## The events of the loop -/

/-- What the checks of `fpm_worker_accept()` say: the ACL, the authority, the
configured ping path with the body of its answer, the request as a whole. -/
structure Admission where
  acl : Bool
  authority : Bool
  ping : Option Bytes
  acceptable : Bool

def Worker.enqueue (w : Worker) (s now : ℕ) : Worker :=
  let id := w.next_id
  let w := w.set_http s { w.http s with closecb := .conn_closed id }
  let w := w.set_pending id ⟨some s, now, false, false⟩
  { w with next_id := id + 1, ready := w.ready ++ [id] }

def Worker.deliver (w : Worker) (r : Request) : Worker :=
  { w.set_http w.arrived ⟨r, true, .none, false, false, [], [], false⟩ with
    arrived := w.arrived + 1 }

/-- The checks of `fpm_worker_accept()`, in their order. -/
def Worker.examine (cfg : Config) (w : Worker) (s : ℕ) (v : Admission) (now : ℕ) : Worker :=
  if !v.acl then w.fpm_worker_send_error s 403
  else if !v.authority then w.fpm_worker_send_error s 400
  else if w.stopping || cfg.max_pending ≤ w.ready.length || cfg.max_pending ≤ w.ids.length then
    { w.fpm_worker_send_error s 503 with stopping := true }
  else match v.ping with
    | some body => w.hand_over s (.ping body)
    | none =>
      if !v.acceptable then w.fpm_worker_send_error s 400 else w.enqueue s now

/-- `fpm_worker_accept()`. -/
def Worker.fpm_worker_accept (cfg : Config) (w : Worker) (r : Request) (v : Admission)
    (now : ℕ) : Worker :=
  (w.deliver r).examine cfg w.arrived v now

/-- The ring of ids whose client is gone: the oldest falls out of a full one. -/
def Worker.record_closed (cfg : Config) (w : Worker) (id : ℕ) : Worker :=
  { w with
    closed := (w.closed ++ [id]).drop (w.closed.length + 1 - cfg.max_pending)
    hist.closes := w.hist.closes ++ [id] }

/-- `fpm_worker_conn_closed()` on the entry `id`. -/
def Worker.fpm_worker_conn_closed (cfg : Config) (w : Worker) (id : ℕ) : Option Worker :=
  if w.phase = .destroyed then none
  else match w.pending id with
    | none => none
    | some p =>
      let w := if p.http.isSome || p.streaming then w.record_closed cfg id else w
      let w := w.set_pending id { p with http := none }
      some (if w.phase.finishing then { w with hist.left := w.hist.left ++ [(id, .closed)] }
        else w.reap id .closed)

/-- The connection of request `s` closes: libevent detaches it and runs its close
callback. -/
def Worker.close (cfg : Config) (w : Worker) (s : ℕ) : Option Worker :=
  if (w.http s).connection then
    let cb := (w.http s).closecb
    let w := w.set_http s { w.http s with connection := false, closecb := .none }
    match cb with
    | .none => some w
    | .conn_closed id => w.fpm_worker_conn_closed cfg id
    | .reply_aborted => some (w.fpm_worker_reply_settled s)
  else some w

/-- The reply of request `s` is on the socket (`evhttp_send_done()`); if it was
counted, `fpm_worker_reply_done()` is called. -/
def Worker.write_done (w : Worker) (s : ℕ) : Worker :=
  if (w.http s).connection && (w.http s).complete && !(w.http s).written then
    let w := w.set_http s { w.http s with written := true }
    if (w.http s).on_complete then w.fpm_worker_reply_settled s else w
  else w

/-- One round of `fpm_worker_sweep_expired()`. -/
def Worker.sweep_one (cfg : Config) (now : ℕ) (w : Worker) (id : ℕ) : Worker :=
  match w.pending id with
  | none => w
  | some p =>
    match p.http with
    | none => w
    | some s =>
      if p.streaming || now - p.accepted_at < cfg.worker_request_timeout then w
      else
        let w := w.clear_closecb s
        let w := w.fpm_worker_send_error s 504
        let w := w.set_pending id { p with http := none }
        w.reap id .timed_out

/-- `fpm_worker_sweep_expired()`, armed if the directive is set. -/
def Worker.fpm_worker_sweep_expired (cfg : Config) (w : Worker) (now : ℕ) : Worker :=
  if cfg.worker_request_timeout = 0 then w else w.ids.foldl (sweep_one cfg now) w

/-- One round of the walk of `fpm_worker_finish_output()`. -/
def Worker.finish_one (w : Worker) (id : ℕ) : Worker :=
  match w.pending id with
  | none => w
  | some p =>
    match p.http with
    | none => w
    | some s =>
      let w := w.clear_closecb s
      let w := if p.streaming then (w.fpm_worker_count_reply s).hand_over s .last
        else w.fpm_worker_send_error s 503
      let w := w.set_pending id { p with http := none }
      { w with hist.left := w.hist.left ++ [(id, .stopped)] }

/-- `fpm_worker_finish_output()`: the listener is gone, the worker stops, and every
request that is left gets its end. -/
def Worker.fpm_worker_finish_output (w : Worker) : Worker :=
  let w := { w with stopping := true, phase := .answering }
  { w.ids.foldl finish_one w with phase := .draining }

/-- The flush loop of `fpm_worker_finish_output()` ends: nothing is unwritten, the budget
has run out, or there is no timer for it or `event_base_loop()` fails. -/
def Worker.flushed (w : Worker) : Bool :=
  w.phase == .flushing && (w.unflushed == 0 || w.flush_expired || w.flush_failed)

/-- The end of the child: `evhttp_free()` closes every connection, then
`zend_hash_destroy()` frees the entries. -/
def Worker.destroy (cfg : Config) (w : Worker) : Option Worker :=
  let w := { w with phase := .freeing }
  ((List.range w.arrived).foldlM (close cfg) w).map fun w => { w with phase := .destroyed }

/-! ## Responses -/

/-- `fpm_worker_add_header()` from the string on: `none` if there is none. -/
def Worker.add_value (cfg : Config) (w : Worker) (l : Locals) (name : Bytes)
    (text : Option Bytes) : Worker × Locals :=
  match text with
  | none => (w, { l with headers_ok := false })
  | some s =>
    match fpm_http_direct_header_charge l.total name s.length with
    | none => (w, { l with headers_ok := false })
    | some total =>
      if cfg.takes name (cstr s) then
        (w.add_header l.out name (cstr s), { l with total := total })
      else (w, { l with total := total, headers_ok := false })

/-- The loop over the headers, as far as it gets without running code of the
application: to its end, or to a value that is an object. -/
def Worker.header_loop (cfg : Config) (w : Worker) (l : Locals) :
    List Item → Option (Worker × Locals × Option (Bytes × List Item))
  | [] => some (w, l, none)
  | .unnamed :: rest => header_loop cfg w { l with headers_ok := false } rest
  | .named _ :: rest =>
    match w.http_of l.id with
    | none => none
    | some s => header_loop cfg w { l with out := s } rest
  | .value name v :: rest =>
    if fpm_http_direct_header_dropped name then header_loop cfg w l rest
    else if !fpm_http_direct_header_name_ok name then
      header_loop cfg w { l with headers_ok := false } rest
    else match v with
      | .text s =>
        header_loop cfg (w.add_value cfg l name (some s)).1 (w.add_value cfg l name (some s)).2 rest
      | .object => some (w, l, some (name, rest))

/-- After the loop of `fpmng_worker_respond()` and of `fpmng_worker_respond_start()`.
`memory` is whether `evbuffer_new()` succeeds. -/
def Worker.conclude (cfg : Config) (w : Worker) (l : Locals) (memory : Bool) :
    Option (Worker × Result) :=
  if !l.headers_ok then
    match w.http_of l.id with
    | none => none
    | some s =>
      let w := w.clear_closecb s
      let w := w.fpm_worker_send_error s 500
      some (w.reap l.id .answered, .bool false)
  else match l.ending with
    | .respond status body =>
      if !memory then some (w, .bool false)
      else match w.http_of l.id with
        | none => none
        | some s =>
          let body := if fpm_http_direct_status_bodyless (w.http s).request.command status then []
            else body
          let w := if w.stopping || (cfg.pm_max_requests ≠ 0 &&
              cfg.pm_max_requests ≤ w.answered + 1) then
            w.add_header s (str "Connection") (str "close") else w
          let w := w.clear_closecb s
          let w := w.fpm_worker_send_reply s status body
          some ((w.reap l.id .answered).fpm_worker_account_answered_request cfg, .bool true)
    | .start status =>
      match w.http_of l.id, w.pending l.id with
      | some s, some p =>
        let w := if w.stopping then w.add_header s (str "Connection") (str "close") else w
        let w := w.hand_over s (.start status (w.http s).out)
        some (w.set_pending l.id { p with streaming := true }, .bool true)
      | _, _ => none

def Worker.settle (cfg : Config) (memory : Bool) :
    Worker × Locals × Option (Bytes × List Item) → Option (Worker × Result)
  | (w, l, none) => w.conclude cfg l memory
  | (w, l, some (name, rest)) => some ({ w with calls := w.calls ++ [⟨l, name, rest⟩] }, .waits)

def Worker.begin (cfg : Config) (w : Worker) (id : ℕ) (ending : Ending) (headers : List Header)
    (memory : Bool) : Option (Worker × Result) :=
  (w.header_loop cfg ⟨id, ending, 0, 0, true⟩ (items headers)).bind (settle cfg memory)

def FPM_WORKER_BODY_MAX : ℕ := 8 * 1024 * 1024

/-- `fpmng_worker_respond()`. -/
def Worker.fpmng_worker_respond (cfg : Config) (w : Worker) (id status : ℤ)
    (headers : List Header) (body : Bytes) (memory : Bool) : Option (Worker × Result) :=
  if !fpm_http_direct_status_final status.toNat then
    some (w, .throws 2 "must be a final HTTP status between 200 and 599")
  else if FPM_WORKER_BODY_MAX < body.length then
    some (w, .throws 4 "must not exceed 8388608 bytes")
  else match w.pending_get id with
    | none => none
    | some none => some (w, .bool false)
    | some (some p) =>
      if p.http.isNone then some (w.reap id.toNat .closed, .bool false)
      else if p.streaming then some (w, .bool false)
      else w.begin cfg id.toNat (.respond status.toNat body) headers memory

/-- `fpmng_worker_respond_start()`. -/
def Worker.fpmng_worker_respond_start (cfg : Config) (w : Worker) (id status : ℤ)
    (headers : List Header) : Option (Worker × Result) :=
  if !fpm_http_direct_status_final status.toNat then
    some (w, .throws 2 "must be a final HTTP status between 200 and 599")
  else match w.pending_get id with
    | none => none
    | some none => some (w, .bool false)
    | some (some p) =>
      match p.http with
      | none => some (w.reap id.toNat .closed, .bool false)
      | some s =>
        if p.streaming then some (w, .bool false)
        else if (w.http s).request.major ≠ 1 ∨ (w.http s).request.minor < 1 then
          some (w, .bool false)
        else if fpm_http_direct_status_bodyless (w.http s).request.command status.toNat then
          some (w, .bool false)
        else w.begin cfg id.toNat (.start status.toNat) headers true

/-- `fpmng_worker_respond_chunk()`; `queued` bytes are on the connection already. -/
def Worker.fpmng_worker_respond_chunk (cfg : Config) (w : Worker) (id : ℤ) (data : Bytes)
    (queued : ℕ) (memory : Bool) : Option (Worker × Result) :=
  match w.pending_get id with
  | none => none
  | some none => some (w, .bool false)
  | some (some p) =>
    if !p.streaming then some (w, .bool false)
    else match p.http with
      | none => some (w.reap id.toNat .closed, .bool false)
      | some s =>
        if 0 < cfg.worker_send_buffer_limit ∧ data ≠ [] ∧
            cfg.worker_send_buffer_limit < queued + data.length then
          some (w.set_pending id.toNat { p with backpressured := true }, .bool false)
        else if data = [] then some (w, .bool true)
        else if !memory then some (w, .bool false)
        else
          let w := w.set_pending id.toNat { p with backpressured := false }
          some (w.hand_over s (.chunk data), .bool true)

/-- `fpmng_worker_respond_end()`. -/
def Worker.fpmng_worker_respond_end (cfg : Config) (w : Worker) (id : ℤ) :
    Option (Worker × Result) :=
  match w.pending_get id with
  | none => none
  | some none => some (w, .bool false)
  | some (some p) =>
    if !p.streaming then some (w, .bool false)
    else match p.http with
      | none => some (w.reap id.toNat .closed, .bool false)
      | some s =>
        let w := w.clear_closecb s
        let w := w.fpm_worker_count_reply s
        let w := w.hand_over s .last
        some ((w.reap id.toNat .answered).fpm_worker_account_answered_request cfg, .bool true)

/-- The loop of `fpmng_worker_next_request()` over the queue. -/
def Worker.dequeue (w : Worker) : List ℕ → Option (Worker × Result)
  | [] => some ({ w with ready := [] }, .null)
  | id :: rest =>
    match w.pending_get id with
    | none => none
    | some none => dequeue w rest
    | some (some p) =>
      if p.http.isSome then
        some ({ w with ready := rest, hist.handed := w.hist.handed ++ [id] }, .request id)
      else dequeue (w.reap id .closed) rest

/-- `fpmng_worker_next_request()`. -/
def Worker.fpmng_worker_next_request (w : Worker) : Option (Worker × Result) :=
  w.dequeue w.ready

/-- `fpmng_worker_closed_requests()`. -/
def Worker.fpmng_worker_closed_requests (w : Worker) : Worker × Result :=
  ({ w with closed := [], hist.drained := w.hist.closes.length }, .requests w.closed)

/-! ## The upgrade -/

/-- `fpm_ws_header_count()`: how often the header is there, and its last value. -/
def fpm_ws_header_count (headers : List (Bytes × Bytes)) (name : Bytes) : ℕ × Option Bytes :=
  let named := headers.filter fun h => strcaseeq h.1 name
  (named.length, named.getLast?.map snd)

/-- The elements of a comma-separated header value, without the blanks around them. -/
def tokens (value : Bytes) : List Bytes :=
  (value.splitOn 44).map fun t =>
    ((t.dropWhile fun c => c == SP || c == HT).reverse.dropWhile fun c => c == SP || c == HT).reverse

/-- `fpm_ws_header_has_token()`. -/
def fpm_ws_header_has_token (headers : List (Bytes × Bytes)) (name token : Bytes) : Bool :=
  headers.any fun h => strcaseeq h.1 name && (tokens h.2).any fun t => strcaseeq t token

/-- `fpm_ws_base64_value()`. -/
def fpm_ws_base64_value (c : UInt8) : Option ℕ :=
  if 65 ≤ c ∧ c ≤ 90 then some (c.toNat - 65)
  else if 97 ≤ c ∧ c ≤ 122 then some (c.toNat - 97 + 26)
  else if 48 ≤ c ∧ c ≤ 57 then some (c.toNat - 48 + 52)
  else if c = 43 then some 62
  else if c = 47 then some 63
  else none

/-- `fpm_ws_key_valid()`: 22 base64 digits and `==`, with the four unused bits of the
last digit zero. -/
def fpm_ws_key_valid (key : Bytes) : Bool :=
  key.length == 24 && key.drop 22 == [61, 61] &&
    (key.take 22).all (fun c => (fpm_ws_base64_value c).isSome) &&
    (((key.drop 21).head?.bind fpm_ws_base64_value).getD 1) % 16 == 0

/-- `is not a WebSocket upgrade request` is not thrown. -/
def Request.is_upgrade (r : Request) : Bool :=
  r.command == .get && (fpm_ws_header_count r.headers (str "Upgrade")).1 == 1 &&
    strcaseeq ((fpm_ws_header_count r.headers (str "Upgrade")).2.getD []) (str "websocket")

def Request.handshake_key (r : Request) : Option Bytes :=
  if fpm_ws_header_has_token r.headers (str "Connection") (str "Upgrade") &&
      (fpm_ws_header_count r.headers (str "Sec-WebSocket-Key")).1 == 1 then
    (fpm_ws_header_count r.headers (str "Sec-WebSocket-Key")).2.filter fpm_ws_key_valid
  else none

def Request.version_13 (r : Request) : Bool :=
  fpm_ws_header_count r.headers (str "Sec-WebSocket-Version") == (1, some (str "13"))

/-- Why the first header of the call that cannot be sent is refused; a value that is
not a string is `none`. -/
def refused_header : List (Option Bytes × Option Bytes) → Option String
  | [] => none
  | (none, _) :: _ => some "contains an invalid or hop-by-hop header name"
  | (some name, value) :: rest =>
    if !fpm_http_direct_header_name_ok name || fpm_http_direct_header_dropped name then
      some "contains an invalid or hop-by-hop header name"
    else match value with
      | none => some "must be an array of strings"
      | some v =>
        if v.any fun c => c == CR || c == LF || c == 0 then
          some "contains a header value with a control character"
        else refused_header rest

/-- `fpm_ws_reject_upgrade()`. -/
def Worker.fpm_ws_reject_upgrade (cfg : Config) (w : Worker) (id s status : ℕ)
    (version_required memory : Bool) : Worker :=
  if !(w.http s).connection then w.reap id .closed
  else
    let w := if version_required then
      w.add_header s (str "Sec-WebSocket-Version") (str "13") else w
    let w := if w.stopping || (cfg.pm_max_requests ≠ 0 &&
        cfg.pm_max_requests ≤ w.answered + 1) then
      w.add_header s (str "Connection") (str "close") else w
    let w := w.clear_closecb s
    let w := if memory then w.fpm_worker_send_reply s status [] else w.fpm_worker_send_error s 500
    (w.reap id .answered).fpm_worker_account_answered_request cfg

/-- `fpmng_worker_upgrade()` of a request whose handshake is complete: `stream` is
whether the stream can be allocated, `write` whether the head can be queued. -/
def Worker.switch (cfg : Config) (w : Worker) (id s : ℕ) (key : Bytes)
    (headers : List (Option Bytes × Option Bytes)) (stream write : Bool) : Worker × Result :=
  match refused_header headers with
  | some message => (w, .throws 2 message)
  | none =>
    if !(w.http s).connection then (w.reap id .closed, .bool false)
    else if !stream then (w, .bool false)
    else
      let w := w.set_http s { w.http s with closecb := .none, hijacked := true }
      if !write then ((w.reap id .upgraded).fpm_worker_account_answered_request cfg, .bool false)
      else
        let w := w.hand_over s (.switching ([(str "Upgrade", str "websocket"),
          (str "Connection", str "Upgrade"), (str "Sec-WebSocket-Accept", cfg.accept_key key)]
          ++ headers.map fun h => (h.1.getD [], h.2.getD [])))
        ((w.reap id .upgraded).fpm_worker_account_answered_request cfg, .stream id)

/-- `fpmng_worker_upgrade()`. -/
def Worker.fpmng_worker_upgrade (cfg : Config) (w : Worker) (id : ℤ)
    (headers : List (Option Bytes × Option Bytes)) (stream write memory : Bool) :
    Option (Worker × Result) :=
  match w.pending_get id with
  | none => none
  | some none => some (w, .throws 1 "is not an in-flight request")
  | some (some p) =>
    match p.http with
    | none => some (w, .throws 1 "is not an in-flight request")
    | some s =>
      if !(w.http s).request.is_upgrade then
        some (w, .throws 1 "is not a WebSocket upgrade request")
      else match (w.http s).request.handshake_key with
        | none => some (w.fpm_ws_reject_upgrade cfg id.toNat s 400 false memory, .null)
        | some key =>
          if !(w.http s).request.version_13 then
            some (w.fpm_ws_reject_upgrade cfg id.toNat s 426 true memory, .null)
          else some (w.switch cfg id.toNat s key headers stream write)

/-! ## Steps -/

/-- A call of a builtin by the script, with what the allocator and the transport
answer inside it. -/
inductive Builtin where
  | next_request
  | closed_requests
  | respond (id status : ℤ) (headers : List Header) (body : Bytes) (memory : Bool)
  | respond_start (id status : ℤ) (headers : List Header)
  | respond_chunk (id : ℤ) (data : Bytes) (queued : ℕ) (memory : Bool)
  | respond_end (id : ℤ)
  | upgrade (id : ℤ) (headers : List (Option Bytes × Option Bytes)) (stream write memory : Bool)

def Worker.call (cfg : Config) (w : Worker) : Builtin → Option (Worker × Result)
  | .next_request => w.fpmng_worker_next_request
  | .closed_requests => some w.fpmng_worker_closed_requests
  | .respond id status headers body memory =>
    w.fpmng_worker_respond cfg id status headers body memory
  | .respond_start id status headers => w.fpmng_worker_respond_start cfg id status headers
  | .respond_chunk id data queued memory => w.fpmng_worker_respond_chunk cfg id data queued memory
  | .respond_end id => w.fpmng_worker_respond_end cfg id
  | .upgrade id headers stream write memory =>
    w.fpmng_worker_upgrade cfg id headers stream write memory

/-- The `i`-th call that waits goes on with the string it waited for, or with the
failure of its conversion. -/
def Worker.resume (cfg : Config) (w : Worker) (i : ℕ) (text : Option Bytes) (memory : Bool) :
    Option (Worker × Result) :=
  match w.calls[i]? with
  | none => some (w, .null)
  | some c =>
    let w := { w with calls := w.calls.eraseIdx i }
    let (w, l) := w.add_value cfg c.vars c.name text
    (w.header_loop cfg l c.rest).bind (settle cfg memory)

inductive Event where
  | accept (r : Request) (v : Admission) (now : ℕ)
  | close (s : ℕ)
  | written (s : ℕ)
  | sweep (now : ℕ)
  | stop
  | call (b : Builtin)
  | resume (i : ℕ) (text : Option Bytes) (memory : Bool)
  | finish
  | drained
  | expire
  | fail
  | destroy

/-- The event loop runs, from the script or for the last time in `finish_output`. -/
def Phase.looping : Phase → Bool
  | .serving | .draining | .flushing => true
  | _ => false

def Phase.scripting : Phase → Bool
  | .serving | .destroyed => true
  | _ => false

def step (cfg : Config) (w : Worker) : Event → Option Worker
  | .accept r v now => some (if w.phase.looping then w.fpm_worker_accept cfg r v now else w)
  | .close s => if w.phase.looping then w.close cfg s else some w
  | .written s => some (if w.phase.looping then w.write_done s else w)
  | .sweep now => some (if w.phase.looping then w.fpm_worker_sweep_expired cfg now else w)
  | .stop => some { w with stopping := true }
  | .call b => if w.phase.scripting then (w.call cfg b).map fst else some w
  | .resume i text memory =>
    if w.phase.scripting then (w.resume cfg i text memory).map fst else some w
  | .finish => some (if w.phase = .serving then w.fpm_worker_finish_output else w)
  | .drained => some (if w.phase = .draining then { w with phase := .flushing } else w)
  | .expire => some (if w.phase = .flushing then { w with flush_expired := true } else w)
  | .fail => some (if w.phase = .flushing then { w with flush_failed := true } else w)
  | .destroy => if w.flushed then w.destroy cfg else some w

/-- The worker after a sequence of events, `none` once a removed entry was used. -/
def run (cfg : Config) : List Event → Option Worker := Runs.attempt (step cfg) Worker.init

/-! ## A request and a worker to try things on -/

/-- A `GET` that asks for a WebSocket. -/
def websocket : Request := ⟨.get, 1, 1, [(str "Upgrade", str "websocket"),
  (str "Connection", str "Upgrade"), (str "Sec-WebSocket-Version", str "13"),
  (str "Sec-WebSocket-Key", str "dGhlIHNhbXBsZSBub25jZQ==")]⟩

def admitted : Admission := ⟨true, true, none, true⟩

def small : Config := ⟨4, 0, 0, 0, fun key => key, fun _ _ => true⟩

end FpmNg.WorkerExecutor
