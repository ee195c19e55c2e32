/-
The classic executor of an http-direct pool: `fpm_http_direct.c`.

A child serves its connections from one event loop and runs the script of a request
inside the request callback, so while a script runs the loop stands still. Three
things can end the response of a script: `fpmng_respond()`, the end of a request that
streams, and the end of one that does not. All of them hand the response to libevent,
and the child counts in `pending` what libevent has not finished with.

The functions of the executor that a script can call run code of the script
themselves: the output callbacks and the header callback in `fpmng_respond()`, the
header callback in `flush()`, `__toString` in `fpm_send_early_hints()`. A function that
waits for such code is a frame on `stack`; what the code does are events of its own,
and `ret` is its end.

While a script runs, its connection is in the `Run` and its slot in `conns` is empty.
What libevent does on its own are events: a reply is on the wire, a connection is
gone. It runs the completion callback of the one and the close callback of the other;
what else it does is a parameter of `Config`. Whether a pump over the socket ends in an
abort, and whether `evhttp_send_reply_end()` finishes the request at once, comes with the
event too. The accept gate, the access log, the scoreboard and the headers of the response
are left out, as far as they have no part in which response is handed over. Memory
suffices, and the counts of requests and of pending responses, an `unsigned` and an `int`,
do not wrap.
-/
import FpmNg.DirectResponse
import FpmNg.Reply
import FpmNg.Lib.Runs
import FpmNg.Lib.WhileLoop
import Mathlib.Algebra.Ring.Int.Defs

open WhileLoop

namespace FpmNg.ClassicExecutor

open FpmNg.DirectResponse
open FpmNg.Reply (fpm_http_direct_status_final)

def FPM_DIRECT_RESPONSE_MAX : ℕ := 8 * 1024 * 1024

def FPM_DIRECT_PENDING_MAX : ℤ := 16

def FPM_DIRECT_STREAM_CHUNK : ℕ := 64 * 1024

/-! ## What libevent holds -/

/-- What a script's request hands to the connection: a complete 103 head, a final
head with its body, the head of a stream, a chunk of it, its end. -/
inductive Sent where
  | hint (headers : List (Bytes × Bytes))
  | reply (status : ℕ) (body : Bytes)
  | start (status : ℕ)
  | chunk (data : Bytes)
  | last
  deriving DecidableEq

inductive Closecb where
  | none
  | response_closed
  | stream_closed
  deriving DecidableEq

inductive Complete where
  | none
  | budget_done
  | response_done
  | completed_inline
  deriving DecidableEq

/-- What became of the response to a request: nothing yet, an answer nobody counts, a
response of PHP or a file that libevent was handed, one that was cut short. -/
inductive Answer where
  | none
  | plain
  | handed
  | aborted
  deriving DecidableEq

/-- `struct evhttp_request`. `content_length`: its output headers have one. `ended`:
libevent has the whole reply. -/
structure Http where
  command : Command
  major : ℕ
  minor : ℕ
  on_complete : Complete
  content_length : Bool
  answer : Answer
  ended : Bool
  deriving DecidableEq

/-- What the pool is configured with, and what libevent does: `takes` is whether
`evhttp_add_header()` takes a header, `frames` whether a `Content-Length` is among the
headers of a reply after `evhttp_send_reply()`. -/
structure Config where
  http_stream : Bool
  http_static : Bool
  pm_max_requests : ℕ
  http_read_timeout : ℕ
  takes : Bytes → Bytes → Bool
  frames : Http → ℕ → Bool
  /-- A reply that may have a body is sent to an HTTP/1.1 client with its length. -/
  frames_body : ∀ q status, (q.major == 1 && decide (1 ≤ q.minor)) = true →
    fpm_http_direct_status_final status = true →
    fpm_http_direct_status_bodyless q.command status = false → frames q status = true

structure Conn where
  alive : Bool
  closecb : Closecb
  request : Option Http
  deriving DecidableEq

namespace Conn

def gone : Conn := ⟨false, .none, none⟩

def idle : Conn := ⟨true, .none, none⟩

def outstanding (c : Conn) : Bool := c.request.any fun q => q.answer == .handed

end Conn

/-! ## The child -/

/-- A call of `event_base_loopbreak()`, and what it found. -/
structure Break where
  stopping : Bool
  pending : ℤ
  deriving DecidableEq

/-- A request that ran a script, when its callback returned: the count of served
requests before and after, what the connection was handed, and its state. -/
structure Ended where
  before : ℕ
  after : ℕ
  sent : List Sent
  conn : Conn
  deriving DecidableEq

/-- `struct fpm_direct_worker`, the two signal flags, and the clock. `dangling`: a
callback was run whose argument no longer exists. -/
structure Worker where
  requests : ℕ
  pending : ℤ
  in_request : Bool
  stopping : Bool
  retiring : Bool
  retire_deadline : Option ℕ
  now : ℕ
  conns : List Conn
  breaks : List Break
  ended : List Ended
  dangling : Bool

namespace Worker

def set_conn (w : Worker) (i : ℕ) (c : Conn) : Worker := { w with conns := w.conns.set i c }

def event_base_loopbreak (w : Worker) : Worker :=
  { w with breaks := w.breaks ++ [⟨w.stopping, w.pending⟩] }

def fpm_direct_retire_enter (cfg : Config) (w : Worker) : Worker :=
  if w.retire_deadline.isSome then w
  else { w with retire_deadline := some (w.now + cfg.http_read_timeout) }

def fpm_direct_retire_extend (cfg : Config) (w : Worker) : Worker :=
  match w.retiring, w.retire_deadline with
  | true, some d =>
    if d < w.now + cfg.http_read_timeout then
      { w with retire_deadline := some (w.now + cfg.http_read_timeout) }
    else w
  | _, _ => w

def fpm_direct_retire_done (w : Worker) : Bool :=
  if w.retire_deadline.getD 0 ≤ w.now then true
  else if w.pending ≠ 0 then false
  else !w.conns.any Conn.alive

def settled (cfg : Config) (w : Worker) : Worker :=
  let w := fpm_direct_retire_extend cfg { w with pending := w.pending - 1 }
  if w.stopping && w.pending == 0 then w.event_base_loopbreak else w

def fpm_direct_response_closed (cfg : Config) (w : Worker) : Worker := w.settled cfg

/-- `fpm_direct_tick_body()`, without the accept gate and the sweep. -/
def fpm_direct_tick_body (cfg : Config) (w : Worker) : Worker :=
  if w.stopping then if w.pending == 0 then w.event_base_loopbreak else w
  else
    let w := if w.retiring then w.fpm_direct_retire_enter cfg else w
    if w.retiring && w.fpm_direct_retire_done then w.event_base_loopbreak else w

def fpm_direct_retire (cfg : Config) (w : Worker) : Worker :=
  let w := { w with requests := w.requests + 1 }
  if cfg.pm_max_requests ≠ 0 ∧ cfg.pm_max_requests ≤ w.requests then
    fpm_direct_retire_enter cfg { w with retiring := true }
  else w

end Worker

/-- `fpm_direct_response_done()`, with the connection it clears the callback of. -/
def fpm_direct_response_done (cfg : Config) (w : Worker) (c : Conn) : Worker × Conn :=
  (w.settled cfg, { c with closecb := .none })

def connection_ends (cfg : Config) (w : Worker) (i : ℕ) (c : Conn) : Worker :=
  let w := match c.closecb with
    | .none => w
    | .response_closed => w.fpm_direct_response_closed cfg
    | .stream_closed => { w with dangling := true }
  w.set_conn i .gone

/-- A reply is on the wire: the completion callback, the end of the request, and, if
the reply said so, of the connection. -/
def reply_written (cfg : Config) (close : Bool) (w : Worker) (i : ℕ) (c : Conn) (q : Http) :
    Worker :=
  let p := match q.on_complete with
    | .none => (w, c)
    | .budget_done => (w, c)
    | .response_done => fpm_direct_response_done cfg w c
    | .completed_inline => ({ w with dangling := true }, c)
  let c := { p.2 with request := none }
  if close then connection_ends cfg p.1 i c else p.1.set_conn i c

/-! ## A script -/

inductive Frame where
  /-- `sapi_send_headers()`, called by PHP's output layer. -/
  | header
  /-- `fpm_direct_flush()`; whether it is in `sapi_send_headers()`. -/
  | flush (sending : Bool)
  /-- `fpmng_respond()` in `php_output_end_all()`. -/
  | respond_output
  /-- `fpmng_respond()` in `sapi_send_headers()`. -/
  | respond_headers
  /-- `fpm_send_early_hints()` at a value that is an object. -/
  | hints (name : Bytes) (rest : List Item) (total : ℕ) (validated : List (Bytes × Bytes))
  deriving DecidableEq

/-- Why a response cannot go out as the application built it. -/
inductive Cause where
  | invalid_status
  | malformed_name
  | headers_limit
  | refused_header
  | body_limit
  deriving DecidableEq

namespace Cause

def text : Cause → String
  | .invalid_status => "invalid response Status"
  | .malformed_name => "malformed response header name"
  | .headers_limit => "response headers exceed POC limits"
  | .refused_header => "response header refused by the transport"
  | .body_limit => "response body exceeds POC limits"

/-- `rejected_status`, or the 500 that stands in for it. -/
def status : Cause → ℕ
  | .invalid_status => 502
  | _ => 500

end Cause

/-- `struct fpm_direct_request` and its connection. `http`: its pointer of that name is not null.
`code` and `fault`: what `fpm_direct_send_headers()` makes of the headers the script has set, the
status and the cause of a rejection. `executed`: `php_execute_script()` is behind it. -/
structure Run where
  slot : ℕ
  conn : Conn
  http : Bool
  streaming : Bool
  responded : Bool
  stream_declined : Bool
  may_stream : Bool
  status : ℕ
  rejected : Option Cause
  output : Bytes
  headers_sent : Bool
  code : ℕ
  fault : Option Cause
  executed : Bool
  stack : List Frame
  before : ℕ
  sent : List Sent

namespace Run

/-- The request behind `r->http`. -/
def request (r : Run) : Option Http := if r.http then r.conn.request else none

def set_closecb (r : Run) (cb : Closecb) : Run := { r with conn := { r.conn with closecb := cb } }

def set_http (r : Run) (f : Http → Http) : Run :=
  { r with conn := { r.conn with request := r.conn.request.map f } }

def hand (r : Run) (m : Sent) : Run := { r with sent := r.sent ++ [m] }

def push (r : Run) (f : Frame) : Run := { r with stack := f :: r.stack }

/-- `fpm_direct_send_headers()`. The first cause of a rejection stays. -/
def fpm_direct_send_headers (r : Run) : Run :=
  let r := { r with status := r.code }
  if r.http && r.rejected.isNone then { r with rejected := r.fault } else r

/-- `sapi_send_headers()` from the return of the header callback on. -/
def sapi_send_headers (r : Run) : Run :=
  fpm_direct_send_headers { r with headers_sent := true }

end Run

structure Exec where
  w : Worker
  r : Run

/-- What the socket and libevent decide in a call: the pump aborts; the end of the
reply finishes the request at once, and then perhaps the connection. -/
structure Outcome where
  abort : Bool
  inline : Option Bool

namespace Exec

/-! ### `http.stream` -/

def may_begin (cfg : Config) (r : Run) : Bool :=
  r.request.any fun q =>
    cfg.http_stream && r.rejected.isNone && q.major == 1 && decide (1 ≤ q.minor) &&
      fpm_http_direct_status_final r.status && !q.content_length &&
      !fpm_http_direct_status_bodyless q.command r.status

def fpm_direct_stream_begin (cfg : Config) (x : Exec) : Exec :=
  if x.r.streaming || x.r.stream_declined then x
  else if !may_begin cfg x.r then { x with r := { x.r with stream_declined := true } }
  else
    let r := x.r.set_closecb .stream_closed
    let r := r.set_http fun q => { q with on_complete := .response_done, answer := .handed }
    { w := { x.w with pending := x.w.pending + 1 }
      r := { r.hand (.start r.status) with streaming := true } }

def fpm_direct_stream_abort (x : Exec) : Exec :=
  if !x.r.http then x
  else
    let r := x.r.set_http fun q => { q with on_complete := .none, answer := .aborted }
    { w := { x.w with pending := x.w.pending - 1 }
      r := { r.set_closecb .none with http := false, output := [] } }

/-- `fpm_direct_stream_pump()`, as far as it does not only write. -/
def fpm_direct_stream_pump (abort : Bool) (x : Exec) : Exec :=
  if abort then fpm_direct_stream_abort x else x

def chunk (x : Exec) : Exec :=
  if x.r.output.isEmpty then x
  else { x with r := { x.r.hand (.chunk x.r.output) with output := [] } }

def fpm_direct_stream_push (abort : Bool) (x : Exec) : Exec :=
  if !x.r.http then { x with r := { x.r with output := [] } }
  else fpm_direct_stream_pump abort x.chunk

/-- `fpm_direct_stream_completed_inline()`, and what libevent does around it. -/
def fpm_direct_stream_completed_inline (cfg : Config) (close : Bool) (x : Exec) : Exec :=
  let p := fpm_direct_response_done cfg x.w x.r.conn
  { w := p.1
    r := { x.r with
      http := false, conn := if close then .gone else { p.2 with request := none } } }

/-- `evhttp_send_reply_end()`. The connection goes back to the callback of the buffered
path, and the completion callback is borrowed for the call. -/
def send_reply_end (x : Exec) : Exec :=
  let r := x.r.set_closecb .response_closed
  let r := r.set_http fun q => { q with on_complete := .completed_inline, ended := true }
  { x with r := r.hand .last }

def queued (x : Exec) : Exec :=
  { x with r := x.r.set_http fun q => { q with on_complete := .response_done } }

def fpm_direct_stream_finish (cfg : Config) (flush : Bool) (o : Outcome) (x : Exec) : Exec :=
  if !x.r.http then x
  else if x.r.rejected.isSome then fpm_direct_stream_abort x
  else if !x.r.conn.alive then { x with r := { x.chunk.r with http := false } }
  else
    match o.inline with
    | some close => fpm_direct_stream_completed_inline cfg close x.chunk.send_reply_end
    | none =>
      if flush then fpm_direct_stream_pump o.abort x.chunk.send_reply_end.queued
      else x.chunk.send_reply_end.queued

/-! ### The buffered ending -/

/-- The request after `evhttp_send_reply()`. -/
def replied (cfg : Config) (status : ℕ) (q : Http) : Http :=
  { q with answer := .handed, ended := true, content_length := cfg.frames q status }

def replaced (r : Run) : Run :=
  if r.rejected.isSome || !fpm_http_direct_status_final r.status then
    let why := (r.rejected.map Cause.text).getD "response status is not a final status"
    { r.set_http fun q => { q with content_length := false } with
      output := str "http-direct: " ++ str why ++ [LF]
      status := (r.rejected.map Cause.status).getD 500 }
  else r

def final (r : Run) : Run :=
  let r := replaced r
  if r.conn.request.any fun q => fpm_http_direct_status_bodyless q.command r.status then
    { r with output := [] }
  else r

/-- `fpm_direct_send_buffered()`. What it does after the reply is queued only writes. -/
def fpm_direct_send_buffered (cfg : Config) (x : Exec) : Exec :=
  let r := final x.r
  let w := x.w.fpm_direct_retire cfg
  let w := Worker.fpm_direct_tick_body cfg { w with pending := w.pending + 1 }
  let r := r.set_closecb .response_closed
  let r := r.set_http fun q => replied cfg r.status { q with on_complete := .response_done }
  { w, r := { r.hand (.reply r.status r.output) with output := [] } }

/-! ### What a script calls -/

/-- The room in the chunk being filled; `size_t` wraps. -/
def room (length : ℕ) : ℕ :=
  if length ≤ FPM_DIRECT_STREAM_CHUNK then FPM_DIRECT_STREAM_CHUNK - length
  else 18446744073709551616 + FPM_DIRECT_STREAM_CHUNK - length

/-- A write to a response that streams, on its way: the number of the next push, the
bytes to come. -/
structure Writing where
  k : ℕ
  rest : Bytes
  x : Exec

/-- One pass of the loop in `fpm_direct_write()`. `abort k`: the `k`-th push ends in an
abort. -/
def write_pass (abort : ℕ → Bool) (s : Writing) : Pass Writing :=
  if s.rest.isEmpty || !s.x.r.http then .leave s
  else
    let take := min s.rest.length (room s.x.r.output.length)
    let x := { s.x with r := { s.x.r with output := s.x.r.output ++ s.rest.take take } }
    if FPM_DIRECT_STREAM_CHUNK ≤ x.r.output.length then
      .again ⟨s.k + 1, s.rest.drop take, fpm_direct_stream_push (abort s.k) x⟩
    else .again ⟨s.k, s.rest.drop take, x⟩

def Writing.left (s : Writing) : ℕ :=
  2 * s.rest.length + if FPM_DIRECT_STREAM_CHUNK ≤ s.x.r.output.length then 1 else 0

def fpm_direct_write (cfg : Config) (abort : ℕ → Bool) (data : Bytes) (x : Exec) : Exec :=
  if x.r.responded then x
  else
    let x := if !x.r.streaming && x.r.may_stream && decide (room x.r.output.length < data.length)
      then fpm_direct_stream_begin cfg x else x
    if x.r.streaming then (loop Writing.left (write_pass abort) ⟨0, data, x⟩).x
    else if x.r.rejected.isSome then x
    else if FPM_DIRECT_RESPONSE_MAX - x.r.output.length < data.length then
      { x with r := { x.r with rejected := some .body_limit } }
    else { x with r := { x.r with output := x.r.output ++ data } }

/-- `fpm_direct_flush()` from the end of `sapi_send_headers()` on. -/
def fpm_direct_flush (cfg : Config) (abort : Bool) (x : Exec) : Exec :=
  let x := { x with r := { x.r with headers_sent := true } }
  if x.r.may_stream then
    let x := fpm_direct_stream_begin cfg x
    if x.r.streaming then fpm_direct_stream_push abort x else x
  else x

/-- `fpmng_respond()` from the moment the headers are sent on. -/
def fpmng_respond (cfg : Config) (o : Outcome) (x : Exec) : Exec :=
  let x := if x.r.streaming then
      fpm_direct_stream_finish cfg true o { x with w := x.w.fpm_direct_retire cfg }
    else fpm_direct_send_buffered cfg x
  { x with r := { x.r with responded := true } }

/-- `fpm_direct_early_hint_add()` from the string on. -/
def fpm_direct_early_hint_add (cfg : Config) (total : ℕ) (validated : List (Bytes × Bytes))
    (name : Bytes) (text : Option Bytes) : ℕ × List (Bytes × Bytes) :=
  match text with
  | none => (total, validated)
  | some s =>
    match fpm_http_direct_header_charge total name s.length with
    | none => (total, validated)
    | some total =>
      (total, if cfg.takes name (cstr s) then validated ++ [(name, cstr s)] else validated)

/-- The loop of `fpm_send_early_hints()`, to its end or to a value that is an object. -/
def hint_loop (cfg : Config) (total : ℕ) (validated : List (Bytes × Bytes)) (x : Exec) :
    List Item → Exec
  | [] => { x with r := x.r.hand (.hint validated) }
  | .unnamed :: rest => hint_loop cfg total validated x rest
  | .named _ :: rest => hint_loop cfg total validated x rest
  | .value name v :: rest =>
    if fpm_http_direct_header_dropped name || !fpm_http_direct_header_name_ok name then
      hint_loop cfg total validated x rest
    else match v with
      | .text s =>
        let added := fpm_direct_early_hint_add cfg total validated name (some s)
        hint_loop cfg added.1 added.2 x rest
      | .object => { x with r := x.r.push (.hints name rest total validated) }

end Exec

inductive Call where
  | header
  | flush
  | respond
  | hints (headers : List Header)

namespace Exec

def call (cfg : Config) (x : Exec) : Call → Exec
  | .header => if x.r.headers_sent then x else { x with r := x.r.push .header }
  | .flush => { x with r := x.r.push (.flush !x.r.headers_sent) }
  | .respond =>
    if !x.r.http || x.r.responded then x else { x with r := x.r.push .respond_output }
  | .hints headers =>
    if x.r.responded || x.r.streaming || x.r.headers_sent then x
    else if x.r.request.any fun q => q.major == 1 && decide (1 ≤ q.minor) then
      hint_loop cfg 0 [] x (items headers)
    else x

/-- The code a function waited for is over: the function goes on. `text` is the string
`fpm_send_early_hints()` gets. -/
def ret (cfg : Config) (text : Option Bytes) (o : Outcome) (x : Exec) : Exec :=
  match x.r.stack with
  | [] => x
  | .header :: stack => { x with r := { x.r with stack := stack }.sapi_send_headers }
  | .flush sending :: stack =>
    let r := { x.r with stack := stack }
    fpm_direct_flush cfg o.abort { x with r := if sending then r.sapi_send_headers else r }
  | .respond_output :: stack =>
    if x.r.headers_sent then fpmng_respond cfg o { x with r := { x.r with stack := stack } }
    else { x with r := { x.r with stack := .respond_headers :: stack } }
  | .respond_headers :: stack =>
    fpmng_respond cfg o { x with r := { x.r with stack := stack }.sapi_send_headers }
  | .hints name rest total validated :: stack =>
    let added := fpm_direct_early_hint_add cfg total validated name text
    hint_loop cfg added.1 added.2 { x with r := { x.r with stack := stack } } rest

end Exec

inductive Script where
  /-- Output, which PHP hands on only after it has sent the headers. -/
  | write (data : Bytes) (abort : ℕ → Bool)
  /-- `header()` and its like, which do nothing once the headers are sent. -/
  | header (code : ℕ) (fault : Option Cause)
  | call (c : Call)
  | ret (text : Option Bytes) (o : Outcome)
  /-- The close callback of a response that streams. -/
  | lose
  /-- A fatal error unwinds everything. -/
  | bail
  /-- `php_execute_script()` returns. -/
  | finish

namespace Exec

def fpm_direct_stream_closed (cfg : Config) (x : Exec) : Exec :=
  { w := x.w.settled cfg, r := { x.r with http := false, conn := .gone } }

def script (cfg : Config) (x : Exec) : Script → Exec
  | .write data abort => if x.r.headers_sent then fpm_direct_write cfg abort data x else x
  | .header code fault =>
    if x.r.headers_sent then x else { x with r := { x.r with code := code, fault := fault } }
  | .call c => x.call cfg c
  | .ret text o => x.ret cfg text o
  | .lose => if x.r.conn.closecb == .stream_closed then fpm_direct_stream_closed cfg x else x
  | .bail =>
    { x with r := { x.r with
        stack := []
        may_stream := false
        executed := true
        code := if x.r.executed || x.r.headers_sent then x.r.code else 500 } }
  | .finish =>
    if x.r.stack.isEmpty then { x with r := { x.r with may_stream := false, executed := true } }
    else x

def put_back (x : Exec) : Worker :=
  { x.w.set_conn x.r.slot x.r.conn with
    ended := x.w.ended ++ [⟨x.r.before, x.w.requests, x.r.sent, x.r.conn⟩] }

/-- The three endings of `fpm_direct_handle()`. -/
def leave (cfg : Config) (o : Outcome) (x : Exec) : Worker :=
  if x.r.responded then
    Worker.fpm_direct_tick_body cfg { x.put_back with in_request := false }
  else if x.r.streaming then
    let x := fpm_direct_stream_finish cfg false o { x with w := x.w.fpm_direct_retire cfg }
    Worker.fpm_direct_tick_body cfg { x.put_back with in_request := false }
  else (fpm_direct_send_buffered cfg { x with w := { x.w with in_request := false } }).put_back

end Exec

/-! ## A request -/

/-- What the checks of `fpm_direct_handle()` say about a request. -/
structure Admission where
  allowed : Bool
  authority_ok : Bool
  over_client_cap : Bool
  /-- `ping.path` and the status page. -/
  ops_local : Bool
  /-- `fpm_http_static_serve()` answers it; `none` without a path to ask it for. -/
  answered : Option Bool
  prepared : Bool
  /-- The script may be run and can be opened; otherwise `code` says 403 or 404. -/
  runs : Bool
  code : ℕ

structure World where
  w : Worker
  run : Option Run

def plain (w : Worker) (i : ℕ) (c : Conn) (q : Http) : World :=
  ⟨w.set_conn i { c with request := some { q with answer := .plain, ended := true } }, none⟩

/-- `fpm_direct_try_static()`: the child, the connection and the request after it, and
whether it answered. -/
def fpm_direct_try_static (cfg : Config) (answered : Option Bool) (w : Worker) (c : Conn)
    (q : Http) : Worker × Conn × Http × Bool :=
  if !cfg.http_static || answered.isNone then (w, c, q, false)
  else
    let w := { w with pending := w.pending + 1 }
    let c := { c with closecb := .response_closed }
    let q := { q with on_complete := .response_done }
    if answered.getD false then (w, c, Exec.replied cfg 200 q, true)
    else ({ w with pending := w.pending - 1 }, { c with closecb := .none },
      { q with on_complete := .none }, false)

/-- The request of a script, when `php_execute_script()` is called. -/
def Run.start (w : Worker) (i : ℕ) (c : Conn) (q : Http) (a : Admission) : Run where
  slot := i
  conn := { c with request := some q }
  http := true
  streaming := false
  responded := false
  stream_declined := false
  may_stream := a.runs
  status := 200
  rejected := none
  output := []
  headers_sent := false
  code := if a.runs then 200 else a.code
  fault := none
  executed := !a.runs
  stack := []
  before := w.requests
  sent := []

def fpm_direct_handle (cfg : Config) (a : Admission) (w : Worker) (i : ℕ) (c : Conn) (q : Http) :
    World :=
  if !a.allowed then plain w i c q
  else if !a.authority_ok then plain w i c q
  else if a.over_client_cap then plain w i c q
  else if w.stopping || decide (FPM_DIRECT_PENDING_MAX ≤ w.pending) then plain w i c q
  else
    let w := if w.retiring then w.fpm_direct_retire_enter cfg else w
    if a.ops_local then plain w i c q
    else
      let s := fpm_direct_try_static cfg a.answered w c q
      if s.2.2.2 then ⟨s.1.set_conn i { s.2.1 with request := some s.2.2.1 }, none⟩
      else if !a.prepared then plain s.1 i s.2.1 s.2.2.1
      else
        ⟨{ s.1.set_conn i .gone with in_request := true },
          some (Run.start s.1 i s.2.1 s.2.2.1 a)⟩

/-! ## The event loop -/

inductive Event where
  | accept
  /-- A request has arrived on an idle connection. -/
  | request (i : ℕ) (command : Command) (major minor : ℕ) (a : Admission)
  /-- The reply on a connection is on the wire. -/
  | written (i : ℕ) (close : Bool)
  /-- The client closes a connection, or writing to it fails. -/
  | fail (i : ℕ)
  | tick
  | wait (ms : ℕ)
  | stop
  | retire
  | script (e : Script)
  /-- The request callback comes to its end. -/
  | leave (o : Outcome)

namespace World

def looping (x : World) : Bool := x.run.isNone && x.w.breaks.isEmpty

def on_conn (x : World) (i : ℕ) (f : Conn → World) : World :=
  match x.looping, x.w.conns[i]? with
  | true, some c => f c
  | _, _ => x

def step (cfg : Config) (x : World) : Event → World
  | .accept => if x.looping then ⟨{ x.w with conns := x.w.conns ++ [.idle] }, none⟩ else x
  | .request i command major minor a =>
    x.on_conn i fun c =>
      if c.alive && c.request.isNone then
        fpm_direct_handle cfg a x.w i c ⟨command, major, minor, .budget_done, false, .none, false⟩
      else x
  | .written i close =>
    x.on_conn i fun c =>
      match c.request with
      | some q => if q.ended then ⟨reply_written cfg close x.w i c q, none⟩ else x
      | none => x
  | .fail i =>
    x.on_conn i fun c => if c.alive then ⟨connection_ends cfg x.w i c, none⟩ else x
  | .tick => if x.looping then ⟨x.w.fpm_direct_tick_body cfg, none⟩ else x
  | .wait ms => { x with w := { x.w with now := x.w.now + ms } }
  | .stop => { x with w := { x.w with stopping := true } }
  | .retire => { x with w := { x.w with retiring := true } }
  | .script e =>
    match x.run with
    | none => x
    | some r =>
      let y := Exec.script cfg ⟨x.w, r⟩ e
      ⟨y.w, some y.r⟩
  | .leave o =>
    match x.run with
    | none => x
    | some r => if r.executed && r.stack.isEmpty then ⟨Exec.leave cfg o ⟨x.w, r⟩, none⟩ else x

def init : World where
  w := {
    requests := 0, pending := 0, in_request := false, stopping := false, retiring := false
    retire_deadline := none, now := 0, conns := [], breaks := [], ended := [], dangling := false }
  run := none

end World

def run (cfg : Config) (events : List Event) : World := Runs.run (World.step cfg) World.init events

end FpmNg.ClassicExecutor
