/-
The PROXY header reader, `fpm_http_proxy_read` of `fpm_http_proxy.c`, on a
socket whose bytes arrive in any portions.

The reader peeks, asks the parser, and consumes only what the parser said is
header. The invariant below is `Tracks`: what was consumed and what is still in
the socket are together the client's stream, and the consumed part alone is
incomplete. Every result about a run is read off it.

Left out: the read deadline that bounds the wait, and the ACL check in front of
the first read. Both end the reader without looking at a byte.
-/
import FpmNg.Lib.Runs
import FpmNg.ProxyProtocol

open Runs List

namespace FpmNg.ProxyProtocol

/-! ## The socket -/

/-- The client's side of the connection: what the kernel holds, what the client
has still to send, its end of stream, and a failed connection. -/
structure Socket where
  queue : Bytes
  coming : Bytes
  fin : Bool
  failed : Bool
  deriving DecidableEq

/-- What `recv(…, MSG_PEEK | MSG_DONTWAIT)` returned: bytes, would-block, or the
`n <= 0` that is neither. -/
inductive Recv where
  | bytes (b : Bytes)
  | would_block
  | closed

namespace Socket

def peek (k : Socket) (room : ℕ) : Recv :=
  if k.failed then .closed
  else if k.queue = [] then
    if k.fin then .closed else .would_block
  else if k.queue.take room = [] then .closed
  else .bytes (k.queue.take room)

/-- `recv` without MSG_PEEK: the bytes, and the socket behind them. -/
def recv (k : Socket) (n : ℕ) : Bytes × Socket :=
  (k.queue.take n, { k with queue := k.queue.drop n })

end Socket

/-! ## The reader -/

/-- `fpm_http_read_deadline_proxy_done` was not called, was called with 0, or
with 1 for a header. -/
inductive Outcome where
  | pending
  | refused
  | accepted (hdr : Header)
  deriving DecidableEq

structure Reader where
  sock : Socket
  /-- The first `proxy_len` bytes of `proxy_buf`. -/
  proxy_buf : Bytes
  outcome : Outcome
  deriving DecidableEq

variable (inet : Inet)

def fpm_http_proxy_read (r : Reader) : Reader :=
  let room := FPM_HTTP_PROXY_MAX - r.proxy_buf.length
  match r.sock.peek room with
  | .would_block => r
  | .closed => { r with outcome := .refused }
  | .bytes b =>
    let total := r.proxy_buf.length + b.length
    match fpm_http_proxy_parse inet (r.proxy_buf ++ b) with
    | .bad => { r with outcome := .refused }
    | .need_more =>
      let (got, sock) := r.sock.recv b.length
      if got.length ≠ b.length then { r with sock := sock, outcome := .refused }
      else { r with sock := sock, proxy_buf := r.proxy_buf ++ got }
    | .done hdr =>
      if hdr.length ≤ r.proxy_buf.length ∨ hdr.length > total then { r with outcome := .refused }
      else
        let need := hdr.length - r.proxy_buf.length
        let (got, sock) := r.sock.recv need
        if got.length ≠ need then { r with sock := sock, outcome := .refused }
        else { sock := sock, proxy_buf := [], outcome := .accepted hdr }

/-- What can happen around the reader. The end of the stream arrives behind its
last byte; a failure can arrive at any time. -/
inductive Event where
  | arrive (n : ℕ)
  | fin
  | fail
  | readable
  deriving DecidableEq

def step (r : Reader) : Event → Reader
  | .arrive n =>
    { r with sock := { r.sock with
        queue := r.sock.queue ++ r.sock.coming.take n, coming := r.sock.coming.drop n } }
  | .fin => if r.sock.coming = [] then { r with sock := { r.sock with fin := true } } else r
  | .fail => { r with sock := { r.sock with failed := true } }
  -- the read event is deleted with the outcome
  | .readable => if r.outcome = .pending then fpm_http_proxy_read inet r else r

lemma step_readable (r : Reader) :
    step inet r .readable = if r.outcome = .pending then fpm_http_proxy_read inet r else r := rfl

@[simp] lemma step_arrive_outcome (r : Reader) (n : ℕ) :
    (step inet r (.arrive n)).outcome = r.outcome := rfl

/-- `fpm_http_proxy_start` on a connection that will carry `stream`. -/
def start (stream : Bytes) : Reader :=
  { sock := { queue := [], coming := stream, fin := false, failed := false }
    proxy_buf := []
    outcome := .pending }

/-! ## The invariant -/

def Reader.unread (r : Reader) : Bytes := r.sock.queue ++ r.sock.coming

structure Tracks (stream : Bytes) (r : Reader) : Prop where
  pending : r.outcome = .pending →
    r.proxy_buf ++ r.unread = stream ∧ fpm_http_proxy_parse inet r.proxy_buf = .need_more
  accepted : ∀ hdr, r.outcome = .accepted hdr →
    fpm_http_proxy_parse inet stream = .done hdr ∧ r.unread = stream.drop hdr.length
  refused : r.outcome = .refused →
    r.sock.failed = true ∨ fpm_http_proxy_parse inet stream = .bad ∨
      (r.sock.fin = true ∧ fpm_http_proxy_parse inet stream = .need_more)
  fin : r.sock.fin = true → r.sock.coming = []

variable (stream : Bytes)

lemma tracks_start : Tracks inet stream (start stream) where
  pending := fun _ => ⟨rfl, rfl⟩
  accepted := nofun
  refused := nofun
  fin := nofun

lemma peek_bytes {k : Socket} {room : ℕ} {b : Bytes} (h : k.peek room = .bytes b) :
    k.failed = false ∧ b = k.queue.take room ∧ b ≠ [] := by
  unfold Socket.peek at h
  split at h
  · cases h
  rename_i hfailed
  split at h
  · split at h <;> cases h
  split at h
  · cases h
  rename_i hne
  cases h
  exact ⟨by simpa using hfailed, rfl, hne⟩

lemma peek_closed {k : Socket} {room : ℕ} (hroom : 0 < room) (h : k.peek room = .closed) :
    k.failed = true ∨ (k.queue = [] ∧ k.fin = true) := by
  unfold Socket.peek at h
  split at h
  · exact .inl (by assumption)
  split at h
  · rename_i hq
    split at h
    · exact .inr ⟨hq, by assumption⟩
    · cases h
  rename_i hq
  split at h
  · rename_i htake
    rcases take_eq_nil_iff.mp htake with h0 | hnil
    · omega
    · exact absurd hnil hq
  · cases h

/-- The one case analysis of the reader: from a pending state it waits, ends
with the connection, or does what the parser said about the bytes it saw. -/
lemma proxy_read_cases (r : Reader) (ht : Tracks inet stream r)
    (hp : r.outcome = .pending) :
    (fpm_http_proxy_read inet r = r ∧ r.sock.queue = [] ∧ r.sock.fin = false) ∨
    (fpm_http_proxy_read inet r = { r with outcome := .refused } ∧
      (r.sock.failed = true ∨ (r.sock.queue = [] ∧ r.sock.fin = true))) ∨
    ∃ b rest, b ≠ [] ∧ r.sock.queue = b ++ rest ∧
      b.length ≤ FPM_HTTP_PROXY_MAX - r.proxy_buf.length ∧
      (rest ≠ [] → b.length = FPM_HTTP_PROXY_MAX - r.proxy_buf.length) ∧
      ((fpm_http_proxy_parse inet (r.proxy_buf ++ b) = .bad ∧
          fpm_http_proxy_read inet r = { r with outcome := .refused }) ∨
        (fpm_http_proxy_parse inet (r.proxy_buf ++ b) = .need_more ∧
          fpm_http_proxy_read inet r =
            { r with sock := { r.sock with queue := rest }, proxy_buf := r.proxy_buf ++ b }) ∨
        ∃ hdr, fpm_http_proxy_parse inet (r.proxy_buf ++ b) = .done hdr ∧
          r.proxy_buf.length < hdr.length ∧
          fpm_http_proxy_read inet r =
            { sock := { r.sock with queue := r.sock.queue.drop (hdr.length - r.proxy_buf.length) }
              proxy_buf := []
              outcome := .accepted hdr }) := by
  obtain ⟨-, hneed⟩ := ht.pending hp
  have hroom : 0 < FPM_HTTP_PROXY_MAX - r.proxy_buf.length := by
    have := (parse_bounds inet r.proxy_buf).1 hneed
    omega
  unfold fpm_http_proxy_read
  dsimp only
  cases hpeek : r.sock.peek (FPM_HTTP_PROXY_MAX - r.proxy_buf.length) with
  | would_block =>
    refine .inl ⟨rfl, ?_⟩
    unfold Socket.peek at hpeek
    split at hpeek
    · cases hpeek
    split at hpeek
    · rename_i hq
      split at hpeek
      · cases hpeek
      · exact ⟨hq, by simpa using ‹¬ r.sock.fin = true›⟩
    split at hpeek <;> cases hpeek
  | closed => exact .inr (.inl ⟨rfl, peek_closed hroom hpeek⟩)
  | bytes b =>
    obtain ⟨-, hb, hne⟩ := peek_bytes hpeek
    have hblen : b.length ≤ r.sock.queue.length := by rw [hb, length_take]; omega
    have hbtake : r.sock.queue.take b.length = b := by
      conv_rhs => rw [hb]
      rw [hb, length_take, ← take_take, take_length]
    refine .inr (.inr ⟨b, r.sock.queue.drop b.length, hne, ?_, ?_, ?_, ?_⟩)
    · conv_lhs => rw [← take_append_drop b.length r.sock.queue, hbtake]
    · rw [hb, length_take]
      omega
    · intro hrest
      rw [hb, length_take] at hrest ⊢
      by_contra hlt
      exact hrest (drop_eq_nil_of_le (by omega))
    dsimp only
    cases hparse : fpm_http_proxy_parse inet (r.proxy_buf ++ b) with
    | bad => exact .inl ⟨rfl, rfl⟩
    | need_more =>
      refine .inr (.inl ⟨rfl, ?_⟩)
      simp only [Socket.recv, hbtake]
      rw [if_neg (by simp)]
    | done hdr =>
      -- the guard of the source never fires
      have hlt := parse_need_more_lt inet _ b hdr hneed hparse
      have hle := (parse_bounds inet _).2 hdr hparse
      rw [length_append] at hle
      refine .inr (.inr ⟨hdr, rfl, hlt, ?_⟩)
      have hgot : (r.sock.recv (hdr.length - r.proxy_buf.length)).1.length
          = hdr.length - r.proxy_buf.length := by
        rw [Socket.recv, length_take]
        omega
      dsimp only
      rw [if_neg (by omega), if_neg (not_ne_iff.mpr hgot)]
      rfl

lemma stream_eq {stream : Bytes} {r : Reader} (ht : Tracks inet stream r)
    (hp : r.outcome = .pending) {b rest : Bytes} (hq : r.sock.queue = b ++ rest) :
    stream = (r.proxy_buf ++ b) ++ (rest ++ r.sock.coming) := by
  rw [← (ht.pending hp).1, Reader.unread, hq]
  simp

lemma tracks_read (r : Reader) (ht : Tracks inet stream r)
    (hp : r.outcome = .pending) : Tracks inet stream (fpm_http_proxy_read inet r) := by
  rcases proxy_read_cases inet stream r ht hp with ⟨heq, -, -⟩ | ⟨heq, hwhy⟩ |
    ⟨b, rest, hne, hq, hroom, hfull, hcase⟩
  · rw [heq]; exact ht
  · rw [heq]
    refine ⟨nofun, nofun, ?_,
      ht.fin⟩
    intro _
    rcases hwhy with hf | ⟨hq, hfin⟩
    · exact .inl hf
    · -- everything was consumed, and it is incomplete
      obtain ⟨hstream, hneed⟩ := ht.pending hp
      rw [Reader.unread, hq, ht.fin hfin, append_nil, append_nil] at hstream
      exact .inr (.inr ⟨hfin, hstream ▸ hneed⟩)
  · have hs := stream_eq inet ht hp hq
    -- the verdict on what was read is the verdict on the stream
    rcases hcase with ⟨hbad, heq⟩ | ⟨hneed, heq⟩ | ⟨hdr, hdone, hlt, heq⟩
    · rw [heq]
      refine ⟨nofun, nofun, ?_,
        ht.fin⟩
      intro _
      refine .inr (.inl ?_)
      rw [hs, parse_append inet _ _ (by rw [hbad]; exact nofun), hbad]
    · rw [heq]
      refine ⟨fun _ => ⟨?_, hneed⟩, fun _ h => absurd (hp.symm.trans h) nofun,
        fun h => absurd (hp.symm.trans h) nofun, ht.fin⟩
      rw [hs, Reader.unread]
    · rw [heq]
      refine ⟨nofun, ?_, nofun,
        ht.fin⟩
      intro hdr' h
      cases h
      have hle := (parse_bounds inet _).2 hdr hdone
      rw [length_append] at hle
      constructor
      · rw [hs, parse_append inet _ _ (by rw [hdone]; exact nofun), hdone]
      · have hin : hdr.length - r.proxy_buf.length ≤ r.sock.queue.length := by
          rw [hq, length_append]
          omega
        rw [← (ht.pending hp).1, drop_append,
          drop_eq_nil_of_le (Nat.le_of_lt hlt), nil_append]
        unfold Reader.unread
        rw [drop_append_of_le_length hin]

theorem tracks_step (r : Reader) (e : Event) (h : Tracks inet stream r) :
    Tracks inet stream (step inet r e) := by
  cases e with
  | arrive n =>
    have hun : (step inet r (.arrive n)).unread = r.unread := by
      simp [step, Reader.unread]
    refine ⟨?_, ?_, h.refused, ?_⟩
    · rw [hun]; exact h.pending
    · rw [hun]; exact h.accepted
    · intro hfin
      have : r.sock.coming = [] := h.fin hfin
      simp [step, this]
  | fin =>
    unfold step
    dsimp only
    split
    · rename_i hcoming
      refine ⟨h.pending, h.accepted, ?_, fun _ => hcoming⟩
      intro hr
      rcases h.refused hr with hf | hb | ⟨-, hn⟩
      · exact .inl hf
      · exact .inr (.inl hb)
      · exact .inr (.inr ⟨rfl, hn⟩)
    · exact h
  | fail => exact ⟨h.pending, h.accepted, fun _ => .inl rfl, h.fin⟩
  | readable =>
    unfold step
    dsimp only
    split
    · rename_i hp
      exact tracks_read inet stream r h hp
    · exact h

theorem tracks_run (events : List Event) :
    Tracks inet stream (run (step inet) (start stream) events) :=
  run_invariant (tracks_step inet stream) _ events (tracks_start inet stream)

/-! ## Completeness

A verdict is not only right when it comes, it comes: once the client's bytes have
all arrived, the next callback decides whatever the parser decides. -/

def verdict : Status → Outcome
  | .need_more => .pending
  | .done hdr => .accepted hdr
  | .bad => .refused

lemma read_decides (r : Reader) (ht : Tracks inet stream r)
    (hp : r.outcome = .pending) (hcoming : r.sock.coming = []) (hf : r.sock.failed = false) :
    (fpm_http_proxy_read inet r).outcome = verdict (fpm_http_proxy_parse inet stream) ∨
      (fpm_http_proxy_parse inet stream = .need_more ∧ r.sock.fin = true ∧
        (fpm_http_proxy_read inet r).outcome = .refused) := by
  have hall : ∀ b, r.sock.queue = b → r.proxy_buf ++ b = stream := by
    intro b hq
    rw [← (ht.pending hp).1, Reader.unread, hq, hcoming, append_nil]
  have hneed := (ht.pending hp).2
  rcases proxy_read_cases inet stream r ht hp with ⟨heq, hq, -⟩ | ⟨heq, hwhy⟩ |
    ⟨b, rest, hne, hq, hroom, hfull, hcase⟩
  · have hs := hall [] hq
    rw [append_nil] at hs
    refine .inl ?_
    rw [heq, ← hs, hneed, hp]
    rfl
  · rcases hwhy with hfail | ⟨hq, hfin⟩
    · rw [hf] at hfail
      cases hfail
    · have hs := hall [] hq
      rw [append_nil] at hs
      exact .inr ⟨hs ▸ hneed, hfin, by rw [heq]⟩
  · refine .inl ?_
    have hs := stream_eq inet ht hp hq
    rcases hcase with ⟨hbad, heq⟩ | ⟨hmore, heq⟩ | ⟨hdr, hdone, -, heq⟩
    · rw [heq, hs, parse_append inet _ _ (by rw [hbad]; exact nofun), hbad]
      rfl
    · -- a full buffer is never "need more", so nothing was left in the socket
      have hlt := (parse_bounds inet _).1 hmore
      rw [length_append] at hlt
      have hrest : rest = [] := by
        by_contra hne'
        have := hfull hne'
        omega
      rw [heq, hs, hrest, hcoming, append_nil, append_nil, hmore, hp]
      rfl
    · rw [heq, hs, parse_append inet _ _ (by rw [hdone]; exact nofun), hdone]
      rfl

/-- **The reader is the parser.** Over every stream and every order of arrivals,
callbacks and failures. -/
theorem proxy_reader_refines_parse (stream : Bytes) (events : List Event) :
    let r := run (step inet) (start stream) events
    -- an accepted header is the stream's, and what is left is what stands behind it
    (∀ hdr, r.outcome = .accepted hdr →
      fpm_http_proxy_parse inet stream = .done hdr ∧ hdr.length ≤ stream.length ∧
        r.unread = stream.drop hdr.length) ∧
    -- a refusal is the parser's, or the connection ended in front of a verdict
    (r.outcome = .refused →
      fpm_http_proxy_parse inet stream = .bad ∨ r.sock.failed = true ∨
        (r.sock.fin = true ∧ fpm_http_proxy_parse inet stream = .need_more)) ∧
    -- a waiting reader has lost nothing and has room
    (r.outcome = .pending →
      r.proxy_buf ++ r.unread = stream ∧ fpm_http_proxy_parse inet r.proxy_buf = .need_more ∧
        r.proxy_buf.length + 1 ≤ FPM_HTTP_PROXY_MAX) ∧
    -- with the bytes there, the next callback reaches the verdict on the whole stream
    (r.sock.failed = false →
      let r' := run (step inet) r [.arrive r.sock.coming.length, .readable]
      r'.outcome = verdict (fpm_http_proxy_parse inet stream) ∨
        (fpm_http_proxy_parse inet stream = .need_more ∧ r.sock.fin = true ∧
          r'.outcome = .refused)) ∧
    -- "need more" for a prefix: no header ends inside it
    (∀ p rest tail hdr, p ++ rest = stream → fpm_http_proxy_parse inet p = .need_more →
      fpm_http_proxy_parse inet (stream ++ tail) = .done hdr → p.length < hdr.length) ∧
    -- the other verdicts are final
    (∀ p rest, fpm_http_proxy_parse inet p ≠ .need_more →
      fpm_http_proxy_parse inet (p ++ rest) = fpm_http_proxy_parse inet p) := by
  intro r
  have ht : Tracks inet stream r := tracks_run inet stream events
  refine ⟨?_, ?_, ?_, ?_, ?_, parse_append inet⟩
  · intro hdr h
    obtain ⟨hdone, hun⟩ := ht.accepted hdr h
    exact ⟨hdone, (parse_bounds inet stream).2 hdr hdone, hun⟩
  · intro h
    rcases ht.refused h with hf | hb | hn
    · exact .inr (.inl hf)
    · exact .inl hb
    · exact .inr (.inr hn)
  · intro h
    obtain ⟨hs, hneed⟩ := ht.pending h
    exact ⟨hs, hneed, (parse_bounds inet _).1 hneed⟩
  · intro hf r'
    have ht' := tracks_step inet stream r (.arrive r.sock.coming.length) ht
    have hr' : r' = step inet (step inet r (.arrive r.sock.coming.length)) .readable := rfl
    -- a reader that has decided is not called again
    cases hp : r.outcome with
    | pending =>
      have hp' : (step inet r (.arrive r.sock.coming.length)).outcome = .pending := hp
      rw [hr', step_readable, if_pos hp']
      exact read_decides inet stream _ ht' hp' (drop_length) hf
    | accepted hdr =>
      refine .inl ?_
      rw [hr', step_readable, (ht.accepted hdr hp).1, if_neg (by rw [step_arrive_outcome, hp]; simp)]
      exact hp
    | refused =>
      have hsame : r'.outcome = .refused := by
        rw [hr', step_readable, if_neg (by rw [step_arrive_outcome, hp]; simp)]
        exact hp
      rcases ht.refused hp with hfail | hbad | ⟨hfin, hneed⟩
      · rw [hf] at hfail
        cases hfail
      · exact .inl (by rw [hsame, hbad]; rfl)
      · exact .inr ⟨hneed, hfin, hsame⟩
  · intro p rest tail hdr hsplit hneed hdone
    rw [← hsplit, append_assoc] at hdone
    exact parse_need_more_lt inet p _ hdr hneed hdone

end FpmNg.ProxyProtocol
