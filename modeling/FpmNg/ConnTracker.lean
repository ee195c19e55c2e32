/-
The connection tracker of a child (`fpm_http_direct_conn.c`): every connection it
holds, on a list linked both ways and in a hash index by bufferevent, with the
request deadline, the fd pickup, the EOF watcher, the sweeps and the per-client cap.

The heap is modelled by address. `Tracker.conn` says which records are allocated
and what they hold; their link fields stand in columns of their own (`next`, `prev`,
`hash_next`), and a link is only read or written through a record that is
allocated. A handler that touches a record after it was freed, or walks a list that
does not end, gives `none`. So the value `none` is the use-after-free, and a run
that reaches a state has never made one.

libevent, evhttp and the kernel are what the tracker sees of them: for each
bufferevent its fd, what `getpeername()` and a peek at the socket say, the length
of its input and whether evhttp has let go of it (`Bev`), for each record the
pending events that have it as their argument. They change as they like between two
events. What is assumed of them is written in `step`: only pending events fire, a
new record or bufferevent is not at the address of one in use, and evhttp calls
back for a request only on a bufferevent it has not let go of and that has its fd.
The counters are natural numbers for `unsigned` words: `live` counts records that are
allocated, and `requests`, `timed_out` and `refused`, which may wrap, are only reported.
-/
import Mathlib.Algebra.Ring.Int.Defs
import Mathlib.Algebra.Ring.Nat
import FpmNg.Lib.Runs

open Function

namespace FpmNg.ConnTracker

/-! ## What the tracker sees -/

/-- What `getpeername()` fills in. -/
inductive Sockaddr where
  | inet (addr port : ℕ)
  | inet6 (addr port flowinfo scope_id : ℕ)
  | other (family len : ℕ)
  deriving DecidableEq

/-- The length `getpeername()` returns with it. -/
def Sockaddr.len : Sockaddr → ℕ
  | .inet _ _ => 16
  | .inet6 _ _ _ _ => 28
  | .other _ len => len

/-- What `recv()` with `MSG_PEEK` says: a byte, nothing yet, or the end. -/
inductive Peek where
  | byte
  | would_block
  | ended
  deriving DecidableEq

structure Bev where
  fd : Option ℕ
  peer : Option Sockaddr
  let_go : Bool
  input : ℕ
  peek : Peek

/-- `struct fpm_http_direct_conns_limits`. -/
structure Limits where
  read_timeout_ms : ℤ
  max_connections : ℤ
  max_per_client : ℤ
  track_live : Bool

/-- `fpm_direct_conn_limited()`. -/
def limited (lim : Limits) : Bool := 0 < lim.max_connections || 0 < lim.max_per_client

/-! ## The records -/

/-- `struct fpm_direct_conn` without its links. `fd` is `none` for -1, `peer` is
`none` for a `peer_len` of 0 that no `getpeername()` has filled in. -/
structure Conn where
  bev : ℕ
  fd : Option ℕ
  has_deadline : Bool
  peer : Option Sockaddr
  checked : Bool
  served : Bool
  over_client_cap : Bool
  accepted : ℕ
  requests : ℕ
  deriving DecidableEq

def Conn.peer_len (c : Conn) : ℕ := (c.peer.map Sockaddr.len).getD 0

inductive Watch where
  | pickup
  | eof
  | first_byte
  deriving DecidableEq

/-- `struct fpm_http_direct_conns`, the records by address, and of libevent: the pending watch and
deadline events by their record, the bufferevents, and the references the tracker holds on them.
-/
structure Tracker where
  conn : ℕ → Option Conn
  next : ℕ → Option ℕ
  prev : ℕ → Option ℕ
  hash_next : ℕ → Option ℕ
  list : Option ℕ
  tail : Option ℕ
  buckets : ℕ → Option ℕ
  bucket_count : ℕ
  live : ℕ
  timed_out : ℕ
  refused : ℕ
  said_timed_out : Bool
  said_refused : Bool
  watch : ℕ → Option Watch
  deadline : ℕ → Bool
  bevs : ℕ → Bev
  refs : ℕ → ℕ

/-- `fpm_http_direct_conns_new()`. -/
def Tracker.new : Tracker where
  conn := fun _ => none
  next := fun _ => none
  prev := fun _ => none
  hash_next := fun _ => none
  list := none
  tail := none
  buckets := fun _ => none
  bucket_count := 0
  live := 0
  timed_out := 0
  refused := 0
  said_timed_out := false
  said_refused := false
  watch := fun _ => none
  deadline := fun _ => false
  bevs := fun _ => ⟨none, none, true, 0, .ended⟩
  refs := fun _ => 0

def Tracker.set_conn (s : Tracker) (a : ℕ) (c : Conn) : Tracker :=
  { s with conn := update s.conn a (some c) }

/-- `a->next = v`. -/
def Tracker.set_next (s : Tracker) (a : ℕ) (v : Option ℕ) : Option Tracker :=
  (s.conn a).map fun _ => { s with next := update s.next a v }

/-- `a->prev = v`. -/
def Tracker.set_prev (s : Tracker) (a : ℕ) (v : Option ℕ) : Option Tracker :=
  (s.conn a).map fun _ => { s with prev := update s.prev a v }

/-- `a->hash_next = v`. -/
def Tracker.set_hash_next (s : Tracker) (a : ℕ) (v : Option ℕ) : Option Tracker :=
  (s.conn a).map fun _ => { s with hash_next := update s.hash_next a v }

/-! ## The list -/

/-- The link before the record, or the head: the first `if` of `fpm_direct_conn_unlink()`. -/
def unlink_prev (s : Tracker) (a : ℕ) : Option Tracker :=
  match s.prev a with
  | some p => s.set_next p (s.next a)
  | none => some { s with list := s.next a }

def unlink_next (s : Tracker) (a : ℕ) : Option Tracker :=
  match s.next a with
  | some n => s.set_prev n (s.prev a)
  | none => some { s with tail := s.prev a }

/-- `fpm_direct_conn_unlink()`. -/
def unlink (s : Tracker) (a : ℕ) : Option Tracker := do
  let _ ← s.conn a
  let s ← unlink_prev s a
  let s ← unlink_next s a
  let s ← s.set_next a none
  s.set_prev a none

/-- The link back to a new head, or the tail: the `if` of `fpm_direct_conn_link_front()`. -/
def link_back (s : Tracker) (a : ℕ) : Option Tracker :=
  match s.list with
  | some h => s.set_prev h (some a)
  | none => some { s with tail := some a }

/-- `fpm_direct_conn_link_front()`. -/
def link_front (s : Tracker) (a : ℕ) : Option Tracker := do
  let s ← s.set_prev a none
  let s ← s.set_next a s.list
  let s ← link_back s a
  some { s with list := some a }

/-! ## The index -/

/-- `FPM_DIRECT_CONN_INDEX_INITIAL_BUCKETS`. -/
abbrev INDEX_INITIAL_BUCKETS : ℕ := 64

/-- `fpm_direct_conn_hash()`. -/
def hash (bev : ℕ) : ℕ :=
  let x : UInt64 := UInt64.ofNat bev + 0x9e3779b97f4a7c15
  let x := (x ^^^ (x >>> 30)) * 0xbf58476d1ce4e5b9
  let x := (x ^^^ (x >>> 27)) * 0x94d049bb133111eb
  (x ^^^ (x >>> 31)).toNat

/-- The bucket of a bufferevent among `count`. -/
def bucket (count bev : ℕ) : ℕ := hash bev &&& (count - 1)

/-- The walk of `fpm_direct_conn_index_find()`. -/
def find_loop (s : Tracker) (bev : ℕ) : ℕ → Option ℕ → Option (Option ℕ)
  | _, none => some none
  | 0, some _ => none
  | fuel + 1, some a => do
    let c ← s.conn a
    if c.bev = bev then some (some a) else find_loop s bev fuel (s.hash_next a)

/-- `fpm_direct_conn_index_find()`. -/
def index_find (s : Tracker) (bev : ℕ) : Option (Option ℕ) :=
  if s.bucket_count = 0 then some none
  else find_loop s bev (s.live + 1) (s.buckets (bucket s.bucket_count bev))

/-- The inner loop of `fpm_direct_conn_index_grow()`: one chain of the old buckets
goes to the new ones. -/
def grow_chain (count : ℕ) :
    ℕ → Option ℕ → Tracker × (ℕ → Option ℕ) → Option (Tracker × (ℕ → Option ℕ))
  | _, none, r => some r
  | 0, some _, _ => none
  | fuel + 1, some a, (s, new) => do
    let c ← s.conn a
    let next := s.hash_next a
    let s ← s.set_hash_next a (new (bucket count c.bev))
    grow_chain count fuel next (s, update new (bucket count c.bev) (some a))

/-- The outer loop, over the first `n` of the old buckets. -/
def grow_buckets (count : ℕ) (s : Tracker) : ℕ → Option (Tracker × (ℕ → Option ℕ))
  | 0 => some (s, fun _ => none)
  | n + 1 => do
    let (s', new) ← grow_buckets count s n
    grow_chain count (s.live + 1) (s'.buckets n) (s', new)

/-- `SIZE_MAX / sizeof(*buckets)`. -/
abbrev MAX_BUCKETS : ℕ := 18446744073709551615 / 8

/-- `fpm_direct_conn_index_grow()`; `ok` is whether `calloc()` succeeds. -/
def index_grow (s : Tracker) (ok : Bool) : Option Tracker :=
  let count := if s.bucket_count ≠ 0 then s.bucket_count * 2 % 18446744073709551616
    else INDEX_INITIAL_BUCKETS
  if count < s.bucket_count ∨ MAX_BUCKETS < count then some s
  else if ok = false then some s
  else do
    let (s, new) ← grow_buckets count s s.bucket_count
    some { s with buckets := new, bucket_count := count }

/-- `fpm_direct_conn_index_insert()`. -/
def index_insert (s : Tracker) (a : ℕ) (ok : Bool) : Option (Bool × Tracker) := do
  let s ← (if s.bucket_count ≤ s.live then index_grow s ok else some s)
  if s.bucket_count = 0 then some (false, s)
  else do
    let c ← s.conn a
    let s ← s.set_hash_next a (s.buckets (bucket s.bucket_count c.bev))
    some (true, { s with
      buckets := update s.buckets (bucket s.bucket_count c.bev) (some a) })

/-- What the pointer of `fpm_direct_conn_index_remove()` points to: a bucket, or the
`hash_next` of a record. -/
inductive Place where
  | head (i : ℕ)
  | field (a : ℕ)

def Tracker.load (s : Tracker) : Place → Option (Option ℕ)
  | .head i => some (s.buckets i)
  | .field a => (s.conn a).map fun _ => s.hash_next a

def Tracker.store (s : Tracker) (v : Option ℕ) : Place → Option Tracker
  | .head i => some { s with buckets := update s.buckets i v }
  | .field a => s.set_hash_next a v

/-- The loop of `fpm_direct_conn_index_remove()`. -/
def seek (s : Tracker) (a : ℕ) : ℕ → Place → Option Place
  | 0, _ => none
  | fuel + 1, p => do
    let v ← s.load p
    match v with
    | none => some p
    | some b => if b = a then some p else seek s a fuel (.field b)

/-- `fpm_direct_conn_index_remove()`. -/
def index_remove (s : Tracker) (a : ℕ) : Option Tracker := do
  let c ← s.conn a
  let p ← seek s a (s.live + 1) (.head (bucket s.bucket_count c.bev))
  let v ← s.load p
  let s ← (if v.isSome then s.store (s.hash_next a) p else some s)
  s.set_hash_next a none

/-! ## The end of a record -/

/-- `bufferevent_decref()` and `free()`. -/
def Tracker.free (s : Tracker) (a : ℕ) (c : Conn) : Tracker :=
  { s with
    refs := update s.refs c.bev (s.refs c.bev - 1)
    conn := update s.conn a none }

/-- `fpm_direct_conn_forget()`. -/
def forget (s : Tracker) (a : ℕ) : Option Tracker := do
  let s ← unlink s a
  let s ← index_remove s a
  let c ← s.conn a
  let s := { s with
    live := s.live - 1
    deadline := update s.deadline a false
    watch := update s.watch a none }
  some (s.free a c)

/-- `fpm_direct_conn_abandoned()`. -/
def abandoned (s : Tracker) (c : Conn) : Bool := (s.bevs c.bev).let_go

/-- `fpm_direct_conn_released()`. -/
def released (s : Tracker) (c : Conn) : Bool :=
  if !c.served && c.fd.isNone then false else abandoned s c

/-! ## The sweeps -/

/-- The loop of `fpm_direct_conn_sweep_all()`. -/
def sweep_all_loop : ℕ → Option ℕ → Tracker → Option Tracker
  | _, none, s => some s
  | 0, some _, _ => none
  | fuel + 1, some a, s => do
    let c ← s.conn a
    let prev := s.prev a
    let s ← (if released s c then forget s a else some s)
    sweep_all_loop fuel prev s

/-- `fpm_direct_conn_sweep_all()`. -/
def sweep_all (s : Tracker) : Option Tracker := sweep_all_loop (s.live + 1) s.tail s

/-- `FPM_DIRECT_SWEEP_MAX`. -/
abbrev SWEEP_MAX : ℕ := 32

/-- The loop of `fpm_http_direct_conns_sweep()`. -/
def sweep_loop : ℕ → Tracker → Option Tracker
  | 0, s => some s
  | budget + 1, s =>
    match s.tail with
    | none => some s
    | some a => do
      let c ← s.conn a
      if released s c then do
        let s ← forget s a
        sweep_loop budget s
      else do
        let s ← unlink s a
        let s ← link_front s a
        sweep_loop budget s

/-- `fpm_http_direct_conns_sweep()`. -/
def sweep (s : Tracker) : Option Tracker :=
  sweep_loop (if s.live < SWEEP_MAX then s.live else SWEEP_MAX) s

/-! ## The per-client cap -/

/-- The record once `fpm_direct_conn_resolve()` has looked at it. -/
def resolved (s : Tracker) (c : Conn) : Conn :=
  match c.fd, (s.bevs c.bev).fd with
  | some _, _ => c
  | none, none => c
  | none, some fd => { c with fd := some fd, peer := (s.bevs c.bev).peer }

/-- `fpm_direct_conn_resolve()`; the result is whether the connection has an fd. -/
def resolve (s : Tracker) (a : ℕ) : Option (Bool × Tracker) := do
  let c ← s.conn a
  some ((resolved s c).fd.isSome, s.set_conn a (resolved s c))

/-- The comparison of `fpm_direct_conn_peer_count()`, of a counted record with the
one that is judged. -/
def same_client (self c : Conn) : Bool :=
  match self.peer, c.peer with
  | some (.inet a _), some (.inet b _) => a = b
  | some (.inet6 a _ _ _), some (.inet6 b _ _ _) => a = b
  | _, _ => false

/-- Whether `fpm_direct_conn_peer_count()` counts the record at `a`. -/
def counts (self : ℕ) (me : Conn) (a : ℕ) (c : Conn) : Bool :=
  if a = self || c.over_client_cap || c.peer_len ≠ me.peer_len then false else same_client me c

/-- The loop of `fpm_direct_conn_peer_count()`. -/
def peer_count_loop (self : ℕ) : ℕ → Option ℕ → ℕ → Tracker → Option (ℕ × Tracker)
  | _, none, n, s => some (n, s)
  | 0, some _, _, _ => none
  | fuel + 1, some a, n, s => do
    let s ← (if a = self then some s else (resolve s a).map (·.2))
    let c ← s.conn a
    let me ← s.conn self
    peer_count_loop self fuel (s.next a) (if counts self me a c then n + 1 else n) s

/-- `fpm_direct_conn_peer_count()`, of the tracker `self->conns`. -/
def peer_count (s : Tracker) (self : ℕ) : Option (ℕ × Tracker) := do
  let _ ← s.conn self
  peer_count_loop self (s.live + 1) s.list 0 s

/-- `fpm_direct_conn_check_peer()`; the result is whether the connection is over the
cap. `fpm_direct_conn_drop()` only sets timeouts of the bufferevent. -/
def check_peer (lim : Limits) (s : Tracker) (a : ℕ) (drop : Bool) : Option (Bool × Tracker) := do
  let c ← s.conn a
  if c.checked || lim.max_per_client ≤ 0 then some (false, s)
  else do
    let s := s.set_conn a { c with checked := true }
    if c.peer_len = 0 then some (false, s)
    else do
      let s ← sweep_all s
      let (n, s) ← peer_count s a
      if n < lim.max_per_client then some (false, s)
      else do
        let c ← s.conn a
        let s := { s with refused := s.refused + 1, said_refused := true }
        if drop then some (true, s.set_conn a { c with over_client_cap := true })
        else do
          let s ← forget s a
          some (true, s)

/-! ## The handlers -/

/-- Whether the allocations and event registrations of an accept succeed. -/
structure Alloc where
  node : Bool
  watch : Bool
  deadline : Bool
  buckets : Bool
  add_watch : Bool
  add_deadline : Bool

/-- The record `fpm_http_direct_conns_accepted()` allocates at `a`, with its
reference on the bufferevent. -/
def Tracker.alloc (s : Tracker) (a : ℕ) (c : Conn) : Tracker :=
  { s with
    conn := update s.conn a (some c)
    next := update s.next a none
    prev := update s.prev a none
    hash_next := update s.hash_next a none
    refs := update s.refs c.bev (s.refs c.bev + 1) }

def new_conn (lim : Limits) (bev now : ℕ) : Conn where
  bev := bev
  fd := none
  has_deadline := 0 < lim.read_timeout_ms
  peer := none
  checked := false
  served := false
  over_client_cap := false
  accepted := now
  requests := 0

/-- `fpm_http_direct_conns_accepted()`. -/
def accepted (lim : Limits) (s : Tracker) (bev a now : ℕ) (ok : Alloc) : Option Tracker :=
  if lim.read_timeout_ms ≤ 0 ∧ limited lim = false then some s
  else do
    let s ← sweep s
    if ok.node = false then some s
    else do
      let c := new_conn lim bev now
      let s := s.alloc a c
      if ok.watch = false then some (s.free a c)
      else if c.has_deadline && !ok.deadline then some (s.free a c)
      else do
        let (indexed, s) ← index_insert s a ok.buckets
        if indexed = false then some (s.free a c)
        else do
          let s ← link_front s a
          let s := { s with live := s.live + 1 }
          if ok.add_watch = false then forget s a
          else
            let s := { s with watch := update s.watch a (some .pickup) }
            if c.has_deadline = false then some s
            else if ok.add_deadline = false then forget s a
            else some { s with deadline := update s.deadline a true }

/-- The end of `fpm_direct_conn_pickup()`: the EOF watcher. -/
def watch_eof (s : Tracker) (a : ℕ) (ok : Bool) : Option Tracker := do
  let _ ← s.conn a
  if ok = false then forget s a
  else some { s with watch := update s.watch a (some .eof) }

/-- `fpm_direct_conn_pickup()`; `ok` is whether the watcher can be added. -/
def pickup (lim : Limits) (s : Tracker) (a : ℕ) (ok : Bool) : Option Tracker := do
  let (has_fd, s) ← resolve s a
  if has_fd = false then forget s a
  else do
    let (refuse, s) ← check_peer lim s a true
    if refuse then some s else watch_eof s a ok

/-- `recv()` of one byte with `MSG_PEEK` on the record's fd. -/
def peek (s : Tracker) (c : Conn) : Peek :=
  if c.fd.isNone then .ended else (s.bevs c.bev).peek

/-- `fpm_direct_conn_eof()`; `read` is `what & EV_READ`. -/
def eof (s : Tracker) (a : ℕ) (read : Bool) : Option Tracker := do
  let c ← s.conn a
  if read && !abandoned s c && peek s c ≠ .ended then some s else forget s a

/-- `fpm_direct_conn_deadline_fire()`. -/
def deadline_fire (s : Tracker) (a : ℕ) : Option Tracker := do
  let _ ← s.conn a
  forget { s with timed_out := s.timed_out + 1, said_timed_out := true } a

/-- `fpm_direct_conn_arm_deadline()`; there has to be a deadline event. -/
def arm_deadline (s : Tracker) (a : ℕ) (ok : Bool) : Option Tracker := do
  let c ← s.conn a
  if c.has_deadline = false then none
  else if ok = false then forget s a
  else some { s with deadline := update s.deadline a true }

/-- `fpm_direct_conn_first_byte()`. -/
def first_byte (s : Tracker) (a : ℕ) (ok : Bool) : Option Tracker := do
  let c ← s.conn a
  if abandoned s c then forget s a
  else match peek s c with
    | .byte => arm_deadline s a ok
    | .would_block =>
      if ok = false then forget s a
      else some { s with watch := update s.watch a (some .first_byte) }
    | .ended => forget s a

/-- The end of `fpm_http_direct_conns_request()`, for a connection that is let in. -/
def serve (lim : Limits) (s : Tracker) (a : ℕ) : Option Tracker := do
  let c ← s.conn a
  let s := { s with deadline := update s.deadline a false }
  if !lim.track_live && !limited lim then forget s a
  else do
    let s := { s with watch := update s.watch a none }
    let s := s.set_conn a { c with served := true }
    let s ← unlink s a
    link_front s a

/-- `fpm_http_direct_conns_request()`: whether the connection is over the cap, and
the accept time and number of requests if it is tracked. -/
def request (lim : Limits) (s : Tracker) (bev : ℕ) :
    Option ((Bool × Option (ℕ × ℕ)) × Tracker) := do
  let found ← index_find s bev
  match found with
  | none => some ((false, none), s)
  | some a => do
    let c ← s.conn a
    let info := some (c.accepted, c.requests + 1)
    let s := s.set_conn a { c with requests := c.requests + 1 }
    if c.over_client_cap then do
      let s ← forget s a
      some ((true, info), s)
    else do
      let (_, s) ← resolve s a
      let (refuse, s) ← check_peer lim s a false
      if refuse then some ((true, info), s)
      else do
        let s ← serve lim s a
        some ((false, info), s)

/-- `fpm_http_direct_conns_response_done()`. -/
def response_done (lim : Limits) (s : Tracker) (bev : ℕ) (ok : Bool) : Option Tracker :=
  if lim.read_timeout_ms ≤ 0 then some s
  else do
    let found ← index_find s bev
    match found with
    | none => some s
    | some a => do
      let c ← s.conn a
      if !c.served || !c.has_deadline then some s
      else do
        let (has_fd, s) ← resolve s a
        if has_fd = false then forget s a
        else if 0 < (s.bevs bev).input then arm_deadline s a ok
        else if ok = false then forget { s with watch := update s.watch a none } a
        else some { s with watch := update s.watch a (some .first_byte) }

/-- `fpm_http_direct_conns_may_accept()`. -/
def may_accept (lim : Limits) (s : Tracker) : Option (Bool × Tracker) :=
  if lim.max_connections ≤ 0 then some (true, s)
  else if s.live < lim.max_connections then some (true, s)
  else do
    let s ← sweep_all s
    some (s.live < lim.max_connections, s)

/-- `fpm_http_direct_conns_live_exact()`. -/
def live_exact (s : Tracker) : Option (ℕ × Tracker) := do
  let s ← sweep_all s
  some (s.live, s)

/-- The loop of `fpm_http_direct_conns_free()`. -/
def free_loop : ℕ → Tracker → Option Tracker
  | 0, s => if s.list.isNone then some s else none
  | fuel + 1, s =>
    match s.list with
    | none => some s
    | some a => do
      let s ← forget s a
      free_loop fuel s

/-- `fpm_http_direct_conns_free()`, of what the tracker holds. -/
def conns_free (s : Tracker) : Option Tracker := free_loop s.live s

/-! ## Events -/

/-- What can happen: an accept, with the addresses of the new bufferevent and record; a watch or
deadline event fires; evhttp has a request or has ended a response; the child asks whether it may
accept, sweeps, or counts; a bufferevent changes. -/
inductive Event where
  | accepted (bev a now : ℕ) (ok : Alloc)
  | watch (a : ℕ) (read ok : Bool)
  | deadline (a : ℕ)
  | request (bev : ℕ)
  | response_done (bev : ℕ) (ok : Bool)
  | may_accept
  | sweep
  | live_exact
  | bev (b : ℕ) (v : Bev)

/-- The callback of a watch event that fires. The pickup and the first-byte watcher
are one-shot, the EOF watcher is persistent. -/
def fire (lim : Limits) (s : Tracker) (a : ℕ) (read ok : Bool) : Watch → Option Tracker
  | .pickup => pickup lim { s with watch := update s.watch a none } a ok
  | .eof => eof s a read
  | .first_byte => first_byte { s with watch := update s.watch a none } a ok

/-- **One event**; `none` if a handler touches a record that is not there. -/
def step (lim : Limits) (s : Tracker) : Event → Option Tracker
  | .accepted bev a now ok =>
    -- the record gets an address that is free, be it since the sweep of the accept itself
    if ((sweep s).bind (·.conn a)).isSome ∨ s.refs bev ≠ 0 then some s
    else accepted lim s bev a now ok
  | .watch a read ok =>
    match s.watch a with
    | none => some s
    | some w => fire lim s a read ok w
  | .deadline a =>
    if s.deadline a then deadline_fire { s with deadline := update s.deadline a false } a
    else some s
  | .request bev =>
    if (s.bevs bev).let_go ∨ (s.bevs bev).fd = none then some s
    else (request lim s bev).map (·.2)
  | .response_done bev ok => response_done lim s bev ok
  | .may_accept => (may_accept lim s).map (·.2)
  | .sweep => sweep s
  | .live_exact => (live_exact s).map (·.2)
  | .bev b v => some { s with bevs := update s.bevs b v }

def run (lim : Limits) (events : List Event) : Option Tracker :=
  Runs.attempt (step lim) Tracker.new events

/-- A connection is picked up after evhttp has let go of it, under a per-client cap
and with its peer still known. -/
def late_pickup (lim : Limits) (s : Tracker) : Event → Bool
  | .watch a _ _ =>
    s.watch a = some .pickup && 0 < lim.max_per_client && (s.conn a).any fun c =>
      !c.checked && abandoned s c && (resolved s c).fd.isSome && (resolved s c).peer_len ≠ 0
  | _ => false

end FpmNg.ConnTracker
