/-
The accounts of the classic executor: what `pending` and the count of served requests
say in every state, and when a stop breaks the event loop.

`pending` is counted up where a response is handed to libevent and down in the two
callbacks the response was given, or by the abort that takes the callbacks away. So the
argument is about callbacks: a response that counts has exactly one completion and one
close callback that count it down, and nothing else has one (`Settled`). The connection
of a running script is the one place where this is different for a while (`Stage`).

A script that calls `fpmng_respond()` from code that `fpmng_respond()` itself runs is
counted twice. What is said here is said of the other scripts.
-/
import FpmNg.ClassicExecutor

open WhileLoop Runs List Option

namespace FpmNg.ClassicExecutor

open FpmNg.DirectResponse Worker World Conn Exec
open FpmNg.Reply (fpm_http_direct_status_final)

/-! ## Counting -/

variable {i : ℕ}

lemma countP_set {α : Type} {p : α → Bool} {l : List α} {a : α} (h : l[i]? = some a) (b : α) :
    ((l.set i b).countP p : ℤ) = l.countP p - (if p a then 1 else 0) + (if p b then 1 else 0) := by
  induction l generalizing i with
  | nil => simp at h
  | cons c l ih =>
    cases i with
    | zero =>
      obtain rfl : c = a := by simpa using h
      rw [set_cons_zero, countP_cons, countP_cons]
      push_cast
      omega
    | succ i =>
      have htail := ih (by simpa using h)
      rw [set_cons_succ, countP_cons, countP_cons]
      push_cast
      omega

/-! ## The callbacks of a connection -/

/-- The callbacks of a connection that no script holds: they count down exactly what
was counted up. -/
inductive Settled : Conn → Prop where
  | idle (alive : Bool) : Settled ⟨alive, .none, none⟩
  | counted {alive : Bool} {q : Http} (answer : q.answer = .handed)
      (complete : q.on_complete = .response_done) : Settled ⟨alive, .response_closed, some q⟩
  | uncounted {alive : Bool} {q : Http} (answer : q.answer ≠ .handed)
      (complete : q.on_complete = .none ∨ q.on_complete = .budget_done) :
      Settled ⟨alive, .none, some q⟩

def Worker.Breaks (w : Worker) : Prop := ∀ b ∈ w.breaks, b.stopping = true → b.pending = 0

variable {w : Worker}

namespace Worker

structure Same (w w' : Worker) : Prop where
  conns : w'.conns = w.conns
  ended : w'.ended = w.ended
  dangling : w'.dangling = w.dangling
  breaks : w.Breaks → w'.Breaks

lemma Same.trans {w1 w2 w3 : Worker} (h : Same w1 w2) (h' : Same w2 w3) : Same w1 w3 :=
  ⟨h'.conns.trans h.conns, h'.ended.trans h.ended, h'.dangling.trans h.dangling,
    fun hb => h'.breaks (h.breaks hb)⟩

lemma Same.after {w1 w2 w3 : Worker} (h' : Same w2 w3) (h : Same w1 w2) : Same w1 w3 := h.trans h'

structure Quiet (w w' : Worker) : Prop extends Same w w' where
  pending : w'.pending = w.pending
  requests : w'.requests = w.requests

lemma loopbreak_breaks (h : w.Breaks) (hzero : w.stopping = true → w.pending = 0) :
    w.event_base_loopbreak.Breaks := by
  intro b hb
  rcases mem_append.mp hb with hb | hb
  · exact h b hb
  · obtain rfl := mem_singleton.mp hb
    exact hzero

lemma retire_enter_same (cfg : Config) (w : Worker) :
    Quiet w (w.fpm_direct_retire_enter cfg) ∧
      (w.fpm_direct_retire_enter cfg).stopping = w.stopping := by
  unfold fpm_direct_retire_enter
  split <;> exact ⟨⟨⟨rfl, rfl, rfl, id⟩, rfl, rfl⟩, rfl⟩

lemma retire_enter_if (cfg : Config) (w : Worker) :
    Quiet w (if w.retiring then w.fpm_direct_retire_enter cfg else w) ∧
      (if w.retiring then w.fpm_direct_retire_enter cfg else w).stopping = w.stopping := by
  split
  · exact retire_enter_same cfg w
  · exact ⟨⟨⟨rfl, rfl, rfl, id⟩, rfl, rfl⟩, rfl⟩

lemma retire_extend_same (cfg : Config) (w : Worker) :
    Quiet w (w.fpm_direct_retire_extend cfg) := by
  unfold fpm_direct_retire_extend
  split
  · split <;> exact ⟨⟨rfl, rfl, rfl, id⟩, rfl, rfl⟩
  · exact ⟨⟨rfl, rfl, rfl, id⟩, rfl, rfl⟩

/-- **The callbacks of a response count it down**, and break the loop only at zero. -/
theorem settled_spec (cfg : Config) (w : Worker) :
    Same w (w.settled cfg) ∧ (w.settled cfg).pending = w.pending - 1 ∧
      (w.settled cfg).requests = w.requests := by
  obtain ⟨hsame, hpending, hrequests⟩ :=
    retire_extend_same cfg { w with pending := w.pending - 1 }
  have hsame' : Same w _ := hsame.after ⟨rfl, rfl, rfl, id⟩
  unfold settled
  dsimp only
  split
  · rename_i hzero
    rw [Bool.and_eq_true, beq_iff_eq] at hzero
    refine ⟨⟨hsame'.conns, hsame'.ended, hsame'.dangling, fun h => ?_⟩, hpending, hrequests⟩
    exact loopbreak_breaks (hsame'.breaks h) fun _ => hzero.2
  · exact ⟨hsame', hpending, hrequests⟩

lemma tick_body_spec (cfg : Config) (w : Worker) : Quiet w (w.fpm_direct_tick_body cfg) := by
  unfold fpm_direct_tick_body
  cases hstop : w.stopping with
  | true =>
    simp only [if_true]
    split
    · rename_i hzero
      refine ⟨⟨rfl, rfl, rfl, fun h => ?_⟩, rfl, rfl⟩
      exact loopbreak_breaks h fun _ => beq_iff_eq.mp hzero
    · exact ⟨⟨rfl, rfl, rfl, id⟩, rfl, rfl⟩
  | false =>
    obtain ⟨hquiet, hstill⟩ := retire_enter_if cfg w
    simp only [Bool.false_eq_true, if_false]
    generalize (if w.retiring = true then w.fpm_direct_retire_enter cfg else w) = w'
      at hquiet hstill ⊢
    split
    · -- the deadline of a retiring child, which is not a stop
      refine ⟨⟨hquiet.conns, hquiet.ended, hquiet.dangling, fun h => ?_⟩, hquiet.pending,
        hquiet.requests⟩
      refine loopbreak_breaks (hquiet.breaks h) fun hstop' => ?_
      rw [hstill, hstop] at hstop'
      cases hstop'
    · exact hquiet

lemma retire_spec (cfg : Config) (w : Worker) :
    Same w (w.fpm_direct_retire cfg) ∧ (w.fpm_direct_retire cfg).pending = w.pending ∧
      (w.fpm_direct_retire cfg).requests = w.requests + 1 := by
  unfold fpm_direct_retire
  dsimp only
  split
  · obtain ⟨⟨hsame, hpending, hrequests⟩, -⟩ :=
      retire_enter_same cfg { w with requests := w.requests + 1, retiring := true }
    exact ⟨hsame.after ⟨rfl, rfl, rfl, id⟩, hpending, hrequests⟩
  · exact ⟨⟨rfl, rfl, rfl, id⟩, rfl, rfl⟩

end Worker

/-! ## A running script -/

namespace Frame

/-- A call of `fpmng_respond()` that has passed its guards. -/
def responds : Frame → Bool
  | .respond_output => true
  | .respond_headers => true
  | _ => false

end Frame

/-- The calls of `fpmng_respond()` in progress. -/
def Run.responding (r : Run) : ℕ := r.stack.countP Frame.responds

def Conn.weight (c : Conn) : ℤ := if c.outstanding then 1 else 0

/-- No stream can begin any more on a request that was answered from the buffer:
libevent's own `Content-Length` is among its headers, the client does not know
chunks, or there is no body. -/
def Sealed (q : Http) (r : Run) : Prop :=
  q.content_length = true ∨ (q.major == 1 && decide (1 ≤ q.minor)) = false ∨
    (fpm_http_direct_status_bodyless q.command r.status = true ∧
      fpm_http_direct_status_bodyless q.command r.code = true)

inductive Stage (r : Run) : Prop where
  /-- Nothing but hints is handed over. -/
  | buffered (q : Http) (streaming : r.streaming = false) (responded : r.responded = false)
      (http : r.http = true) (conn : r.conn = ⟨true, .none, some q⟩) (answer : q.answer = .none)
      (complete : q.on_complete = .none ∨ q.on_complete = .budget_done)
  /-- It streams. -/
  | live (q : Http) (streaming : r.streaming = true) (responded : r.responded = false)
      (http : r.http = true) (conn : r.conn = ⟨true, .stream_closed, some q⟩)
      (answer : q.answer = .handed) (complete : q.on_complete = .response_done)
  /-- It did, but it was aborted, completed or closed. -/
  | lost (streaming : r.streaming = true) (http : r.http = false) (conn : Settled r.conn)
      (weight : r.conn.weight = 0)
  /-- `fpmng_respond()` has sent it. -/
  | answered (q : Http) (responded : r.responded = true) (http : r.http = true)
      (conn : r.conn = ⟨true, .response_closed, some q⟩) (answer : q.answer = .handed)
      (complete : q.on_complete = .response_done)
      (closed : r.streaming = true ∨ (r.headers_sent = true ∧ Sealed q r))

structure Good (x : Exec) : Prop where
  conns : ∀ c ∈ x.w.conns, Settled c
  slot : x.w.conns[x.r.slot]? = some .gone
  pending : x.w.pending = x.w.conns.countP Conn.outstanding + x.r.conn.weight
  breaks : x.w.Breaks
  ended : ∀ e ∈ x.w.ended, e.after = e.before + 1
  dangling : x.w.dangling = false
  requests : x.w.requests = x.r.before + if x.r.responded then 1 else 0
  stage : Stage x.r
  agree : x.r.headers_sent = true → x.r.responded = false → x.r.status = x.r.code
  flushes : .flush false ∈ x.r.stack → x.r.headers_sent = true
  single : x.r.responding ≤ if x.r.responded then 0 else 1

structure Kept (r r' : Run) : Prop where
  slot : r'.slot = r.slot
  before : r'.before = r.before
  stack : r'.stack = r.stack
  headers_sent : r'.headers_sent = r.headers_sent
  code : r'.code = r.code
  responded : r'.responded = r.responded

/-- **A step that keeps the accounts**: `pending` moves with what the connection counts. -/
structure Accounts (x y : Exec) : Prop where
  same : x.w.Same y.w
  kept : Kept x.r y.r
  pending : y.w.pending = x.w.pending - x.r.conn.weight + y.r.conn.weight
  requests : y.w.requests = x.w.requests

lemma Accounts.trans {x y z : Exec} (h : Accounts x y) (h' : Accounts y z) : Accounts x z := by
  have hpending := h.pending
  have hpending' := h'.pending
  refine ⟨h.same.trans h'.same, ⟨h'.kept.slot.trans h.kept.slot, h'.kept.before.trans h.kept.before,
    h'.kept.stack.trans h.kept.stack, h'.kept.headers_sent.trans h.kept.headers_sent,
    h'.kept.code.trans h.kept.code, h'.kept.responded.trans h.kept.responded⟩, by omega,
    h'.requests.trans h.requests⟩

lemma Accounts.of_eq {x y : Exec} (hw : y.w = x.w) (hkept : Kept x.r y.r)
    (hweight : y.r.conn.weight = x.r.conn.weight) : Accounts x y := by
  refine ⟨?_, hkept, ?_, ?_⟩
  · rw [hw]
    exact ⟨rfl, rfl, rfl, id⟩
  · rw [hw, hweight]
    omega
  · rw [hw]

lemma Good.advance {x y : Exec} (h : Good x) (ha : Accounts x y) (stage : Stage y.r)
    (hstatus : y.r.status = x.r.status) : Good y := by
  refine ⟨?_, ?_, ?_, ha.same.breaks h.breaks, ?_, ha.same.dangling.trans h.dangling, ?_, stage, ?_,
    ?_, ?_⟩
  · rw [ha.same.conns]
    exact h.conns
  · rw [ha.same.conns, ha.kept.slot]
    exact h.slot
  · have hpending := h.pending
    have hpending' := ha.pending
    rw [ha.same.conns]
    omega
  · rw [ha.same.ended]
    exact h.ended
  · rw [ha.requests, ha.kept.before, ha.kept.responded]
    exact h.requests
  · rw [ha.kept.headers_sent, ha.kept.responded, hstatus, ha.kept.code]
    exact h.agree
  · rw [ha.kept.stack, ha.kept.headers_sent]
    exact h.flushes
  · have hsingle := h.single
    unfold Run.responding at hsingle ⊢
    rwa [ha.kept.stack, ha.kept.responded]

lemma Good.with_run {r r' : Run} (h : Good ⟨w, r⟩) (hslot : r'.slot = r.slot)
    (hconn : r'.conn = r.conn) (hbefore : r'.before = r.before)
    (hresponded : r'.responded = r.responded) (stage : Stage r')
    (agree : r'.headers_sent = true → r'.responded = false → r'.status = r'.code)
    (flushes : .flush false ∈ r'.stack → r'.headers_sent = true)
    (single : r'.responding ≤ if r'.responded then 0 else 1) : Good ⟨w, r'⟩ := by
  refine ⟨h.conns, ?_, ?_, h.breaks, h.ended, h.dangling, ?_, stage, agree, flushes, single⟩
  · rw [hslot]
    exact h.slot
  · rw [hconn]
    exact h.pending
  · rw [hbefore, hresponded]
    exact h.requests

lemma Stage.is_live {r : Run} (h : Stage r) (hstreaming : r.streaming = true)
    (hresponded : r.responded = false) (hhttp : r.http = true) :
    ∃ q, r.conn = ⟨true, .stream_closed, some q⟩ ∧ q.answer = .handed := by
  cases h with
  | buffered q streaming => simp [streaming] at hstreaming
  | live q streaming responded http conn answer complete => exact ⟨q, conn, answer⟩
  | lost streaming http => simp [http] at hhttp
  | answered q responded => simp [hresponded] at responded

lemma Stage.congr {r r' : Run} (h : Stage r) (hstreaming : r'.streaming = r.streaming)
    (hresponded : r'.responded = r.responded) (hhttp : r'.http = r.http)
    (hconn : r'.conn = r.conn) (hsent : r.headers_sent = true → r'.headers_sent = true)
    (hsealed : r.headers_sent = true → ∀ q, Sealed q r → Sealed q r') : Stage r' := by
  cases h with
  | buffered q streaming responded http conn answer complete =>
    exact .buffered q (hstreaming.trans streaming) (hresponded.trans responded)
      (hhttp.trans http) (hconn.trans conn) answer complete
  | live q streaming responded http conn answer complete =>
    exact .live q (hstreaming.trans streaming) (hresponded.trans responded) (hhttp.trans http)
      (hconn.trans conn) answer complete
  | lost streaming http conn weight =>
    exact .lost (hstreaming.trans streaming) (hhttp.trans http) (hconn ▸ conn) (hconn ▸ weight)
  | answered q responded http conn answer complete closed =>
    refine .answered q (hresponded.trans responded) (hhttp.trans http) (hconn.trans conn) answer
      complete ?_
    rcases closed with closed | ⟨sent, closed⟩
    · exact .inl (hstreaming.trans closed)
    · exact .inr ⟨hsent sent, hsealed sent q closed⟩

/-- The buffer, a rejection, the flags of streaming and what was handed over do not count. -/
lemma Good.aside {r : Run} (h : Good ⟨w, r⟩) (output : Bytes) (rejected : Option Cause)
    (may_stream stream_declined executed : Bool) (sent : List Sent) :
    Good ⟨w, { r with
      output := output, rejected := rejected, may_stream := may_stream
      stream_declined := stream_declined, executed := executed, sent := sent }⟩ :=
  h.with_run rfl rfl rfl rfl (h.stage.congr rfl rfl rfl rfl id fun _ _ hs => hs) h.agree h.flushes
    h.single

variable {q : Http} {c : Conn}

lemma weight_of_handed (h : c.request = some q) (ha : q.answer = .handed) : c.weight = 1 := by
  simp [Conn.weight, Conn.outstanding, h, ha]

lemma weight_of_not_handed (h : c.request = some q) (ha : q.answer ≠ .handed) : c.weight = 0 := by
  simp [Conn.weight, Conn.outstanding, h, ha]

lemma weight_of_none (h : c.request = none) : c.weight = 0 := by
  simp [Conn.weight, Conn.outstanding, h]

/-! ### Streaming -/

variable {x : Exec} {cfg : Config} {cb : Closecb} {r : Run}

namespace Exec

lemma set_conn_accounts {x y : Exec} (hw : y.w = x.w) (hkept : Kept x.r y.r)
    (hanswer : x.r.conn.request.map Http.answer = some q.answer)
    (hconn : y.r.conn = ⟨true, cb, some q⟩) : Accounts x y := by
  obtain ⟨p, hp, hpq⟩ := map_eq_some_iff.mp hanswer
  refine .of_eq hw hkept ?_
  simp [Conn.weight, Conn.outstanding, hconn, hp, hpq]

lemma chunk_spec (x : Exec) :
    x.chunk.w = x.w ∧ Kept x.r x.chunk.r ∧ x.chunk.r.conn = x.r.conn ∧
      x.chunk.r.http = x.r.http ∧ x.chunk.r.streaming = x.r.streaming ∧
      x.chunk.r.status = x.r.status ∧ x.chunk.r.output = [] := by
  unfold chunk
  split
  · rename_i hempty
    exact ⟨rfl, ⟨rfl, rfl, rfl, rfl, rfl, rfl⟩, rfl, rfl, rfl, rfl, List.isEmpty_iff.mp hempty⟩
  · exact ⟨rfl, ⟨rfl, rfl, rfl, rfl, rfl, rfl⟩, rfl, rfl, rfl, rfl, rfl⟩

lemma chunk_accounts (x : Exec) : Accounts x x.chunk := by
  obtain ⟨hw, hkept, hconn, -⟩ := chunk_spec x
  exact .of_eq hw hkept (by rw [hconn])

lemma may_begin_answered (h : Stage r) (hresponded : r.responded = true)
    (hstreaming : r.streaming = false) : may_begin cfg r = false := by
  cases h with
  | buffered q streaming responded => simp [responded] at hresponded
  | live q streaming => simp [hstreaming] at streaming
  | lost streaming => simp [hstreaming] at streaming
  | answered q responded http conn answer complete closed =>
    rcases closed with closed | ⟨-, closed | closed | ⟨closed, -⟩⟩
    · simp [hstreaming] at closed
    · simp [may_begin, Run.request, http, conn, closed]
    · simp only [may_begin, Run.request, http, conn, if_true, any_some]
      rw [Bool.and_eq_false_iff] at closed
      rcases closed with closed | closed <;> simp [closed]
    · simp [may_begin, Run.request, http, conn, closed]

theorem stream_begin_good (h : Good x) : Good (fpm_direct_stream_begin cfg x) := by
  unfold fpm_direct_stream_begin
  split
  · exact h
  rename_i hnot
  rw [Bool.or_eq_true, not_or] at hnot
  have hstreaming : x.r.streaming = false := Bool.eq_false_iff.mpr hnot.1
  split
  · exact h.aside ..
  rename_i hbegin
  cases hresponded : x.r.responded with
  | true => exact absurd (may_begin_answered h.stage hresponded hstreaming) (by simpa using hbegin)
  | false =>
    cases h.stage with
    | buffered q streaming responded http conn answer complete =>
      have hconn : ((x.r.set_closecb .stream_closed).set_http fun q =>
          { q with on_complete := .response_done, answer := .handed }).conn =
            ⟨true, .stream_closed,
              some { q with on_complete := .response_done, answer := .handed }⟩ := by
        simp [Run.set_closecb, Run.set_http, conn]
      refine h.advance ⟨⟨rfl, rfl, rfl, id⟩, ⟨rfl, rfl, rfl, rfl, rfl, rfl⟩, ?_, rfl⟩
        (.live _ rfl responded http hconn rfl rfl) rfl
      have hold : x.r.conn.weight = 0 :=
        weight_of_not_handed (by rw [conn]) (by rw [answer]; decide)
      have hnew := weight_of_handed (congrArg request hconn) rfl
      simp only [Run.hand]
      rw [hnew, hold, sub_zero]
    | live q streaming | lost streaming => simp [hstreaming] at streaming
    | answered q responded => simp [hresponded] at responded

theorem stream_abort_accounts (hhttp : x.r.http = true) (hconn : x.r.conn = ⟨true, cb, some q⟩)
    (hanswer : q.answer = .handed) :
    Accounts x (fpm_direct_stream_abort x) ∧ (fpm_direct_stream_abort x).r.http = false ∧
      Settled (fpm_direct_stream_abort x).r.conn ∧ (fpm_direct_stream_abort x).r.conn.weight = 0 := by
  have hnew : (fpm_direct_stream_abort x).r.conn =
      ⟨true, .none, some { q with on_complete := .none, answer := .aborted }⟩ := by
    simp [fpm_direct_stream_abort, hhttp, Run.set_closecb, Run.set_http, hconn]
  have hweight := weight_of_not_handed (congrArg request hnew) (by simp)
  refine ⟨?_, ?_, ?_, hweight⟩
  · have hold : x.r.conn.weight = 1 := weight_of_handed (by rw [hconn]) hanswer
    have hw : (fpm_direct_stream_abort x).w = { x.w with pending := x.w.pending - 1 } := by
      simp [fpm_direct_stream_abort, hhttp]
    refine ⟨?_, ?_, ?_, ?_⟩
    · rw [hw]
      exact ⟨rfl, rfl, rfl, id⟩
    · unfold fpm_direct_stream_abort
      rw [if_neg (by simp [hhttp])]
      exact ⟨rfl, rfl, rfl, rfl, rfl, rfl⟩
    · rw [hw, hweight, hold, add_zero]
    · rw [hw]
  · simp [fpm_direct_stream_abort, hhttp]
  · rw [hnew]
    exact .uncounted (by simp) (.inl rfl)

lemma stream_abort_fields (x : Exec) :
    (fpm_direct_stream_abort x).r.streaming = x.r.streaming ∧
      (fpm_direct_stream_abort x).r.status = x.r.status ∧
      (fpm_direct_stream_abort x).r.responded = x.r.responded ∧
      ((fpm_direct_stream_abort x).r.output = [] ∨ (fpm_direct_stream_abort x).r.output = x.r.output) := by
  unfold fpm_direct_stream_abort
  split
  · exact ⟨rfl, rfl, rfl, .inr rfl⟩
  · exact ⟨rfl, rfl, rfl, .inl rfl⟩

lemma stream_abort_good (h : Good x) (hstreaming : x.r.streaming = true) :
    Good (fpm_direct_stream_abort x) := by
  obtain ⟨hst, hstatus, -⟩ := stream_abort_fields x
  have key : ∀ {cb : Closecb} {q : Http}, x.r.http = true → x.r.conn = ⟨true, cb, some q⟩ →
      q.answer = .handed → Good (fpm_direct_stream_abort x) := by
    intro cb q http conn answer
    obtain ⟨ha, hhttp, hsettled, hweight⟩ := stream_abort_accounts http conn answer
    exact h.advance ha (.lost (hst.trans hstreaming) hhttp hsettled hweight) hstatus
  cases h.stage with
  | buffered q streaming => simp [streaming] at hstreaming
  | live q streaming responded http conn answer => exact key http conn answer
  | lost streaming http =>
    unfold fpm_direct_stream_abort
    rw [if_pos (by simp [http])]
    exact h
  | answered q responded http conn answer => exact key http conn answer

lemma chunk_good (h : Good x) : Good x.chunk := by
  obtain ⟨-, hkept, hconn, hhttp, hst, hstatus, -⟩ := chunk_spec x
  refine h.advance (chunk_accounts x) (h.stage.congr hst hkept.responded hhttp hconn ?_ ?_) hstatus
  · exact fun hsent => hkept.headers_sent.trans hsent
  · intro _ q hq
    unfold Sealed
    rwa [hstatus, hkept.code]

lemma stream_push_good (abort : Bool) (h : Good x) (hstreaming : x.r.streaming = true) :
    Good (fpm_direct_stream_push abort x) := by
  unfold fpm_direct_stream_push
  split
  · exact h.aside ..
  · unfold fpm_direct_stream_pump
    split
    · exact stream_abort_good (chunk_good h) ((chunk_spec x).2.2.2.2.1.trans hstreaming)
    · exact chunk_good h

end Exec

/-! ### What a script calls -/

namespace Exec

lemma stream_begin_fields (cfg : Config) (x : Exec) :
    (fpm_direct_stream_begin cfg x).r.responded = x.r.responded ∧
      (fpm_direct_stream_begin cfg x).r.http = x.r.http ∧
      (fpm_direct_stream_begin cfg x).r.conn.alive = x.r.conn.alive ∧
      (fpm_direct_stream_begin cfg x).r.headers_sent = x.r.headers_sent := by
  unfold fpm_direct_stream_begin
  split
  · exact ⟨rfl, rfl, rfl, rfl⟩
  split <;> exact ⟨rfl, rfl, rfl, rfl⟩

lemma stream_push_fields (abort : Bool) (x : Exec) :
    (fpm_direct_stream_push abort x).r.output = [] ∧
      (fpm_direct_stream_push abort x).r.streaming = x.r.streaming ∧
      (fpm_direct_stream_push abort x).r.responded = x.r.responded := by
  obtain ⟨-, hkept, -, -, hst, -, hchunk⟩ := chunk_spec x
  unfold fpm_direct_stream_push
  split
  · exact ⟨rfl, rfl, rfl⟩
  unfold fpm_direct_stream_pump
  split
  · obtain ⟨hst', -, hresponded, hempty⟩ := stream_abort_fields x.chunk
    exact ⟨hempty.elim id (·.trans hchunk), hst'.trans hst, hresponded.trans hkept.responded⟩
  · exact ⟨hchunk, hst, hkept.responded⟩

lemma full_of_room {length : ℕ} (h : room length = 0) : FPM_DIRECT_STREAM_CHUNK ≤ length := by
  unfold room FPM_DIRECT_STREAM_CHUNK at *
  split at h <;> omega

variable (abort : ℕ → Bool)

/-- Every pass of the loop takes a byte or empties a full chunk. -/
lemma write_decreases (I : Writing → Prop)
    (keep : ∀ s s', I s → write_pass abort s = .again s' → I s') :
    Decreases Writing.left (write_pass abort) I := by
  refine ⟨keep, fun s s' _ hpass => ?_⟩
  unfold write_pass at hpass
  split at hpass
  · simp at hpass
  rename_i hgo
  simp only [Bool.or_eq_true, List.isEmpty_iff, not_or] at hgo
  have hrest : 0 < s.rest.length := length_pos_iff.mpr hgo.1
  dsimp only at hpass
  split at hpass
  · obtain rfl := Pass.again.inj hpass
    have hzero : ¬ FPM_DIRECT_STREAM_CHUNK ≤ ([] : Bytes).length := by decide
    simp only [Writing.left, (stream_push_fields _ _).1, if_neg hzero, length_drop]
    by_cases hroom : room s.x.r.output.length = 0
    · rw [if_pos (full_of_room hroom)]
      omega
    · omega
  · rename_i hroom
    obtain rfl := Pass.again.inj hpass
    rw [length_append] at hroom
    have hsmall : ¬ FPM_DIRECT_STREAM_CHUNK ≤ s.x.r.output.length := by omega
    have hpos : room s.x.r.output.length ≠ 0 := fun h => hsmall (full_of_room h)
    simp only [Writing.left, length_append, if_neg hroom, if_neg hsmall, length_drop]
    omega

theorem write_rule {P : Exec → Prop}
    (hadd : ∀ (x : Exec) (out : Bytes), P x → P { x with r := { x.r with output := out } })
    (hpush : ∀ (x : Exec) (k : ℕ), P x → P (fpm_direct_stream_push (abort k) x)) (data : Bytes)
    (h : P x) : P (loop Writing.left (write_pass abort) ⟨0, data, x⟩).x := by
  have keep : ∀ s s' : Writing, P s.x → write_pass abort s = .again s' → P s'.x := by
    intro s s' hs hpass
    unfold write_pass at hpass
    split at hpass
    · simp at hpass
    dsimp only at hpass
    split at hpass
    · obtain rfl := Pass.again.inj hpass
      exact hpush _ s.k (hadd _ _ hs)
    · obtain rfl := Pass.again.inj hpass
      exact hadd _ _ hs
  refine loop_rule (Q := fun s => P s.x) (write_decreases abort _ keep) (fun s s' hs hpass => ?_)
    ⟨0, data, x⟩ h
  unfold write_pass at hpass
  split at hpass
  · obtain rfl := Pass.leave.inj hpass
    exact hs
  · dsimp only at hpass
    split at hpass <;> simp at hpass

/-- **What a write keeps**: a stream may begin, the buffer is filled, a chunk is pushed, or
the body is found to be too long. -/
theorem write_keeps {P : Exec → Prop} (data : Bytes) (h : P x)
    (hbegin : P (fpm_direct_stream_begin cfg x))
    (hadd : ∀ (z : Exec) (out : Bytes), z.r.responded = false → P z →
      P { z with r := { z.r with output := out } })
    (hpush : ∀ (z : Exec) (abort : Bool), z.r.streaming = true → P z →
      P (fpm_direct_stream_push abort z))
    (hlimit : ∀ z : Exec, z.r.streaming ≠ true → P z →
      P { z with r := { z.r with rejected := some .body_limit } }) :
    P (fpm_direct_write cfg abort data x) := by
  unfold fpm_direct_write
  split
  · exact h
  rename_i hresponded
  rw [Bool.not_eq_true] at hresponded
  dsimp only
  generalize hy : (if (!x.r.streaming && x.r.may_stream &&
    decide (room x.r.output.length < data.length)) = true then fpm_direct_stream_begin cfg x
    else x) = y
  obtain ⟨hP, hopen⟩ : P y ∧ y.r.responded = false := by
    rw [← hy]
    split
    · exact ⟨hbegin, (stream_begin_fields cfg x).1.trans hresponded⟩
    · exact ⟨h, hresponded⟩
  split
  · rename_i hstreaming
    -- the loop never leaves the stream
    refine (write_rule (P := fun z => P z ∧ z.r.streaming = true ∧ z.r.responded = false) abort ?_ ?_
      data ⟨hP, hstreaming, hopen⟩).1
    · rintro z out ⟨hz, hst, hr⟩
      exact ⟨hadd z out hr hz, hst, hr⟩
    · rintro z k ⟨hz, hst, hr⟩
      obtain ⟨-, hst', hr'⟩ := stream_push_fields (abort k) z
      exact ⟨hpush z _ hst hz, hst'.trans hst, hr'.trans hr⟩
  · rename_i hstreaming
    split
    · exact hP
    split
    · exact hlimit y hstreaming hP
    · exact hadd y _ hopen hP

lemma write_good (data : Bytes) (h : Good x) :
    Good (fpm_direct_write cfg abort data x) :=
  write_keeps abort data h (stream_begin_good h) (fun _ _ _ hz => hz.aside ..)
    (fun _ abort hst hz => stream_push_good abort hz hst) (fun _ _ hz => hz.aside ..)

end Exec

lemma send_headers_spec (r : Run) :
    r.sapi_send_headers = { r with
      headers_sent := true
      status := r.code
      rejected := r.sapi_send_headers.rejected } := by
  unfold Run.sapi_send_headers Run.fpm_direct_send_headers
  dsimp only
  split <;> rfl

lemma send_headers_fields (r : Run) :
    r.sapi_send_headers.headers_sent = true ∧ r.sapi_send_headers.responded = r.responded ∧
      r.sapi_send_headers.stack = r.stack := by
  rw [send_headers_spec]
  exact ⟨rfl, rfl, rfl⟩

lemma sealed_of_code {r r' : Run} (hcode : r'.code = r.code) (hstatus : r'.status = r.code)
    (h : Sealed q r) : Sealed q r' := by
  rcases h with h | h | ⟨-, h⟩
  · exact .inl h
  · exact .inr (.inl h)
  · refine .inr (.inr ⟨?_, ?_⟩)
    · rwa [hstatus]
    · rwa [hcode]

lemma send_headers_good (h : Good ⟨w, r⟩) : Good ⟨w, r.sapi_send_headers⟩ := by
  rw [send_headers_spec]
  exact h.with_run rfl rfl rfl rfl
    (h.stage.congr rfl rfl rfl rfl (fun _ => rfl) fun _ q hq => sealed_of_code (r := r) rfl rfl hq)
    (fun _ _ => rfl) (fun _ => rfl) h.single

variable {f : Frame}

lemma Good.pop {stack : List Frame} (h : Good ⟨w, r⟩) (hstack : r.stack = f :: stack) :
    Good ⟨w, { r with stack := stack }⟩ := by
  refine h.with_run rfl rfl rfl rfl (h.stage.congr rfl rfl rfl rfl id fun _ _ hs => hs) h.agree
    (fun hmem => h.flushes ?_) ?_
  · exact hstack ▸ mem_cons_of_mem f hmem
  · refine le_trans ?_ h.single
    unfold Run.responding
    rw [hstack, countP_cons]
    exact Nat.le_add_right _ _

lemma Good.push (h : Good ⟨w, r⟩)
    (hresponds : f.responds = true → r.responding = 0 ∧ r.responded = false)
    (hflush : f = .flush false → r.headers_sent = true) : Good ⟨w, r.push f⟩ := by
  refine h.with_run rfl rfl rfl rfl (h.stage.congr rfl rfl rfl rfl id fun _ _ hs => hs) h.agree
    (fun hmem => ?_) ?_
  · rcases mem_cons.mp hmem with heq | hmem
    · exact hflush heq.symm
    · exact h.flushes hmem
  · unfold Run.responding Run.push
    rw [countP_cons]
    cases hf : f.responds with
    | false => exact h.single
    | true =>
      obtain ⟨hzero, hresponded⟩ := hresponds hf
      unfold Run.responding at hzero
      rw [hzero, hresponded]
      decide

namespace Exec

lemma headers_sent_same (h : x.r.headers_sent = true) :
    { x with r := { x.r with headers_sent := true } } = x := by
  obtain ⟨w, r⟩ := x
  cases r
  simp_all

lemma flush_keeps {P : Exec → Prop} (abort : Bool) (hsent : x.r.headers_sent = true) (h : P x)
    (hbegin : P (fpm_direct_stream_begin cfg x))
    (hpush : ∀ z : Exec, z.r.streaming = true → P z → P (fpm_direct_stream_push abort z)) :
    P (fpm_direct_flush cfg abort x) := by
  unfold fpm_direct_flush
  rw [headers_sent_same hsent]
  dsimp only
  split
  · split
    · rename_i hstreaming
      exact hpush _ hstreaming hbegin
    · exact hbegin
  · exact h

lemma flush_good (abort : Bool) (h : Good x) (hsent : x.r.headers_sent = true) :
    Good (fpm_direct_flush cfg abort x) :=
  flush_keeps abort hsent h (stream_begin_good h) fun _ hst hz => stream_push_good abort hz hst

lemma hint_loop_good (h : Good x) (total : ℕ) (validated : List (Bytes × Bytes))
    (items : List Item) : Good (hint_loop cfg total validated x items) := by
  induction items generalizing total validated with
  | nil =>
    exact h.aside ..
  | cons item rest ih =>
    cases item with
    | unnamed | named name => exact ih total validated
    | value name v =>
      unfold hint_loop
      split
      · exact ih total validated
      · cases v with
        | text s => exact ih _ _
        | object =>
          exact Good.push h (by simp [Frame.responds])
            nofun

/-! ### The endings -/

/-- The response has been handed over in full, or it is lost. -/
inductive Done (r : Run) : Prop where
  | lost (http : r.http = false) (conn : Settled r.conn) (weight : r.conn.weight = 0)
  | sent (q : Http) (http : r.http = true) (conn : r.conn = ⟨true, .response_closed, some q⟩)
      (answer : q.answer = .handed) (complete : q.on_complete = .response_done)

lemma Done.settled (h : Done r) : Settled r.conn := by
  cases h with
  | lost http conn weight => exact conn
  | sent q http conn answer complete =>
    rw [conn]
    exact .counted answer complete

lemma queued_accounts (hconn : x.r.conn = ⟨true, cb, some q⟩) :
    Accounts x x.send_reply_end.queued ∧ x.send_reply_end.queued.r.conn =
      ⟨true, .response_closed, some { q with on_complete := .response_done, ended := true }⟩ := by
  have hnew : x.send_reply_end.queued.r.conn =
      ⟨true, .response_closed, some { q with on_complete := .response_done, ended := true }⟩ := by
    simp [queued, send_reply_end, Run.set_closecb, Run.set_http, Run.hand, hconn]
  exact ⟨set_conn_accounts rfl ⟨rfl, rfl, rfl, rfl, rfl, rfl⟩ (by rw [hconn]; rfl) hnew, hnew⟩

/-- libevent is done with the request before `evhttp_send_reply_end()` returns. -/
lemma inline_accounts (cfg : Config) (close : Bool) (hconn : x.r.conn = ⟨true, cb, some q⟩)
    (hanswer : q.answer = .handed) :
    Accounts x (fpm_direct_stream_completed_inline cfg close x.send_reply_end) ∧
      Done (fpm_direct_stream_completed_inline cfg close x.send_reply_end).r := by
  have hold : x.r.conn.weight = 1 := weight_of_handed (by rw [hconn]) hanswer
  have hnew : (fpm_direct_stream_completed_inline cfg close x.send_reply_end).r.conn =
      ⟨!close, .none, none⟩ := by
    cases close
    · simp [fpm_direct_stream_completed_inline, fpm_direct_response_done, send_reply_end,
        Run.set_closecb, Run.set_http, Run.hand, hconn]
    · rfl
  have hweight := weight_of_none (congrArg request hnew)
  obtain ⟨hsame, hpending, hrequests⟩ := x.w.settled_spec cfg
  refine ⟨⟨hsame, ⟨rfl, rfl, rfl, rfl, rfl, rfl⟩, ?_, hrequests⟩, .lost rfl ?_ hweight⟩
  · rw [hweight, hold, add_zero]
    exact hpending
  · rw [hnew]
    exact .idle _

theorem stream_finish_spec (cfg : Config) (flush : Bool) (o : Outcome) (h : Stage x.r)
    (hstreaming : x.r.streaming = true) (hresponded : x.r.responded = false) :
    Accounts x (fpm_direct_stream_finish cfg flush o x) ∧
      Done (fpm_direct_stream_finish cfg flush o x).r ∧
      (fpm_direct_stream_finish cfg flush o x).r.streaming = true := by
  cases h with
  | buffered q streaming => simp [streaming] at hstreaming
  | answered q responded => simp [hresponded] at responded
  | lost streaming http conn weight =>
    unfold fpm_direct_stream_finish
    rw [if_pos (by simp [http])]
    exact ⟨.of_eq rfl ⟨rfl, rfl, rfl, rfl, rfl, rfl⟩ rfl, .lost http conn weight, streaming⟩
  | live q streaming responded http conn answer complete =>
    unfold fpm_direct_stream_finish
    rw [if_neg (by simp [http])]
    split
    · obtain ⟨ha, hhttp, hsettled, hweight⟩ := stream_abort_accounts http conn answer
      exact ⟨ha, .lost hhttp hsettled hweight, (stream_abort_fields x).1.trans streaming⟩
    rw [if_neg (by simp [conn])]
    -- the last chunk goes out before the end is handed over
    obtain ⟨-, -, hconn, hhttp, hst, -⟩ := chunk_spec x
    have hchunk := chunk_accounts x
    rw [conn] at hconn
    have hst' := hst.trans streaming
    have hhttp' := hhttp.trans http
    -- libevent finishes the request at once, or leaves it in the queue
    cases o.inline with
    | some close =>
      obtain ⟨ha, hdone⟩ := inline_accounts cfg close hconn answer
      exact ⟨hchunk.trans ha, hdone, hst'⟩
    | none =>
      obtain ⟨ha, hconn'⟩ := queued_accounts hconn
      have hsent : Accounts x x.chunk.send_reply_end.queued ∧
          Done x.chunk.send_reply_end.queued.r ∧
          x.chunk.send_reply_end.queued.r.streaming = true :=
        ⟨hchunk.trans ha, .sent _ hhttp' hconn' answer rfl, hst'⟩
      dsimp only
      split
      · unfold fpm_direct_stream_pump
        split
        · -- the client does not take the end
          obtain ⟨ha', hhttp', hsettled, hweight⟩ :=
            stream_abort_accounts (x := x.chunk.send_reply_end.queued) hhttp' hconn' answer
          exact ⟨hsent.1.trans ha', .lost hhttp' hsettled hweight,
            (stream_abort_fields _).1.trans hst'⟩
        · exact hsent
      · exact hsent

/-- The response as it is sent still belongs to the same request and has a final status,
which is the script's own if it has no body for any other reason than a `HEAD`. -/
structure Framed (r s : Run) (cb : Closecb) (q : Http) : Prop where
  kept : Kept r s
  http : s.http = r.http
  request : ∃ q', s.conn = ⟨true, cb, some q'⟩ ∧ q'.command = q.command
  status : fpm_http_direct_status_final s.status = true
  body : fpm_http_direct_status_bodyless q.command s.status = true →
    q.command = .head ∨ s.status = r.status

lemma replaced_framed (hconn : r.conn = ⟨true, cb, some q⟩) : Framed r (replaced r) cb q := by
  unfold replaced
  split
  · have hstatus : ∀ c : Option Cause, (c.map Cause.status).getD 500 = 500 ∨
        (c.map Cause.status).getD 500 = 502 := by
      rintro (_ | c)
      · exact .inl rfl
      · cases c <;> simp [Cause.status]
    refine ⟨⟨rfl, rfl, rfl, rfl, rfl, rfl⟩, rfl,
      ⟨{ q with content_length := false }, by simp [Run.set_http, hconn], rfl⟩, ?_, fun h => .inl ?_⟩
    · rcases hstatus r.rejected with h | h <;> rw [h] <;> rfl
    · rcases hstatus r.rejected with h' | h' <;>
        simpa [h', fpm_http_direct_status_bodyless] using h
  · rename_i hgood
    simp only [Bool.or_eq_true, Bool.not_eq_true', not_or, Bool.not_eq_false] at hgood
    exact ⟨⟨rfl, rfl, rfl, rfl, rfl, rfl⟩, rfl, ⟨q, hconn, rfl⟩, hgood.2, fun _ => .inr rfl⟩

lemma final_framed (hconn : r.conn = ⟨true, cb, some q⟩) : Framed r (final r) cb q := by
  obtain ⟨kept, http, request, status, body⟩ := replaced_framed hconn
  unfold final
  dsimp only
  split
  · exact ⟨⟨kept.slot, kept.before, kept.stack, kept.headers_sent, kept.code, kept.responded⟩,
      http, request, status, body⟩
  · exact ⟨kept, http, request, status, body⟩

/-- **The buffered ending**: the request is counted, its response is handed over with
the callbacks that count it down, and no stream can follow. -/
theorem send_buffered_spec (cfg : Config) {y : Exec} (hy : fpm_direct_send_buffered cfg x = y)
    (h : Stage x.r) (hstreaming : x.r.streaming = false) (hresponded : x.r.responded = false)
    (hagree : x.r.headers_sent = true → x.r.status = x.r.code) :
    ∃ q, x.w.Same y.w ∧ y.w.requests = x.w.requests + 1 ∧
      y.w.pending = x.w.pending - x.r.conn.weight + y.r.conn.weight ∧ Kept x.r y.r ∧
      y.r.http = true ∧ y.r.conn = ⟨true, .response_closed, some q⟩ ∧ q.answer = .handed ∧
      q.on_complete = .response_done ∧ (x.r.headers_sent = true → Sealed q y.r) := by
  subst hy
  cases h with
  | live q streaming => simp [hstreaming] at streaming
  | lost streaming => simp [hstreaming] at streaming
  | answered q responded => simp [hresponded] at responded
  | buffered q streaming responded http conn answer complete =>
    obtain ⟨hkept, hhttp, ⟨q', hconn, hcommand⟩, hfinal, hbody⟩ := final_framed conn
    obtain ⟨hsame, hpending, hrequests⟩ := x.w.retire_spec cfg
    obtain ⟨hsame', hpending', hrequests'⟩ := tick_body_spec cfg
      { x.w.fpm_direct_retire cfg with pending := (x.w.fpm_direct_retire cfg).pending + 1 }
    have hold : x.r.conn.weight = 0 := weight_of_not_handed (by rw [conn]) (by rw [answer]; decide)
    have hnew : (fpm_direct_send_buffered cfg x).r.conn = ⟨true, .response_closed,
        some (replied cfg (final x.r).status { q' with on_complete := .response_done })⟩ := by
      simp [fpm_direct_send_buffered, Run.set_closecb, Run.set_http, Run.hand, hconn]
    have hweight := weight_of_handed (congrArg request hnew) rfl
    refine ⟨_, ?_, ?_, ?_, ?_, hhttp.trans http, hnew, rfl, rfl, ?_⟩
    · exact hsame.trans (hsame'.after ⟨rfl, rfl, rfl, id⟩)
    · exact hrequests'.trans hrequests
    · rw [hweight, hold, sub_zero]
      exact hpending'.trans (congrArg (· + 1) hpending)
    · exact ⟨hkept.slot, hkept.before, hkept.stack, hkept.headers_sent, hkept.code,
        hkept.responded⟩
    · intro hsent
      -- libevent frames the reply, or it has no body
      cases hversion : (q'.major == 1 && decide (1 ≤ q'.minor)) with
      | false => exact .inr (.inl hversion)
      | true =>
        have hcode : (fpm_direct_send_buffered cfg x).r.code = x.r.code := hkept.code
        cases hless : fpm_http_direct_status_bodyless q.command (final x.r).status with
        | false =>
          exact .inl (cfg.frames_body { q' with on_complete := .response_done } _ hversion hfinal
            (hcommand ▸ hless))
        | true =>
          refine .inr (.inr ⟨hcommand ▸ hless, ?_⟩)
          change fpm_http_direct_status_bodyless q'.command _ = true
          rw [hcode, hcommand]
          rcases hbody hless with hhead | hstatus
          · simp [fpm_http_direct_status_bodyless, hhead]
          · rw [← hagree hsent, ← hstatus]
            exact hless

end Exec

/-! ### `fpmng_respond()` and the calls -/

theorem Good.conclude {x y : Exec} (h : Good x) (hsame : x.w.Same y.w)
    (hrequests : y.w.requests = x.w.requests + 1)
    (hpending : y.w.pending = x.w.pending - x.r.conn.weight + y.r.conn.weight)
    (hkept : Kept x.r y.r) (hresponded : x.r.responded = false) (hsingle : x.r.responding = 0)
    (stage : Stage { y.r with responded := true }) :
    Good { y with r := { y.r with responded := true } } := by
  refine ⟨?_, ?_, ?_, hsame.breaks h.breaks, ?_, hsame.dangling.trans h.dangling, ?_, stage,
    by simp, ?_, ?_⟩
  · rw [hsame.conns]
    exact h.conns
  · rw [hsame.conns]
    exact hkept.slot ▸ h.slot
  · have hold := h.pending
    rw [hsame.conns]
    dsimp only
    omega
  · rw [hsame.ended]
    exact h.ended
  · have hold := h.requests
    rw [hresponded] at hold
    rw [hrequests, hold, ← hkept.before]
    rfl
  · intro hmem
    refine hkept.headers_sent.trans (h.flushes ?_)
    exact hkept.stack ▸ hmem
  · refine le_of_eq ?_
    dsimp only
    rw [hkept.stack]
    exact hsingle

namespace Exec

lemma respond_good (o : Outcome) (h : Good x) (hsent : x.r.headers_sent = true)
    (hresponded : x.r.responded = false) (hsingle : x.r.responding = 0) :
    Good (fpmng_respond cfg o x) := by
  unfold fpmng_respond
  cases hstreaming : x.r.streaming with
  | true =>
    obtain ⟨hretire, hpending, hrequests⟩ := x.w.retire_spec cfg
    obtain ⟨ha, hdone, hst⟩ := stream_finish_spec cfg
      (x := { x with w := x.w.fpm_direct_retire cfg }) true o h.stage hstreaming hresponded
    refine h.conclude (hretire.trans ha.same) (ha.requests.trans hrequests) ?_ ha.kept hresponded
      hsingle ?_
    · rw [← hpending]
      exact ha.pending
    · cases hdone with
      | lost http conn weight => exact .lost hst http conn weight
      | sent q http conn answer complete =>
        exact .answered q rfl http conn answer complete (.inl hst)
  | false =>
    obtain ⟨q, hsame, hrequests, hpending, hkept, http, conn, answer, complete, hsealed⟩ :=
      send_buffered_spec cfg rfl h.stage hstreaming hresponded fun hs => h.agree hs hresponded
    refine h.conclude hsame hrequests hpending hkept hresponded hsingle ?_
    exact .answered q rfl http conn answer complete
      (.inr ⟨hkept.headers_sent.trans hsent, hsealed hsent⟩)

/-- `fpmng_respond()` is not called from code that it runs itself, unless it would not
answer anyway. -/
def Single (r : Run) : Script → Prop
  | .call .respond => r.http = true → r.responded = false → r.responding = 0
  | _ => True

lemma call_good {c : Call} (hsingle : Single x.r (.call c)) (h : Good x) : Good (x.call cfg c) := by
  cases c with
  | header =>
    simp only [call]
    split
    · exact h
    · exact Good.push h nofun nofun
  | flush =>
    refine Good.push h (by simp [Frame.responds]) fun hf => ?_
    simpa using hf
  | respond =>
    simp only [call]
    split
    · exact h
    · rename_i hgo
      simp only [Bool.or_eq_true, Bool.not_eq_true', not_or, Bool.not_eq_true] at hgo
      exact Good.push h (fun _ => ⟨hsingle (by simpa using hgo.1) hgo.2, hgo.2⟩)
        nofun
  | hints headers =>
    simp only [call]
    split
    · exact h
    split
    · exact hint_loop_good h 0 [] _
    · exact h

lemma responding_pop {stack : List Frame} (h : Good x) (hstack : x.r.stack = f :: stack)
    (hf : f.responds = true) :
    x.r.responded = false ∧ stack.countP Frame.responds = 0 := by
  have hsingle := h.single
  unfold Run.responding at hsingle
  rw [hstack, countP_cons_of_pos hf] at hsingle
  cases hresponded : x.r.responded with
  | true =>
    rw [hresponded] at hsingle
    simp at hsingle
  | false =>
    rw [hresponded] at hsingle
    exact ⟨rfl, by simpa using hsingle⟩

lemma ret_good (text : Option Bytes) (o : Outcome) (h : Good x) : Good (x.ret cfg text o) := by
  unfold ret
  split
  · exact h
  · rename_i stack hstack
    exact send_headers_good (h.pop hstack)
  · rename_i sending stack hstack
    have hpop := h.pop hstack
    -- a flush that waited inside `sapi_send_headers()` sends them first
    cases sending with
    | true =>
      exact flush_good o.abort (send_headers_good hpop) (send_headers_fields _).1
    | false =>
      refine flush_good o.abort hpop (h.flushes ?_)
      rw [hstack]
      exact .head _
  · rename_i stack hstack
    obtain ⟨hresponded, hnone⟩ := responding_pop h hstack rfl
    split
    · rename_i hsent
      exact respond_good o (h.pop hstack) hsent hresponded hnone
    · -- the header callback comes next
      refine Good.with_run h rfl rfl rfl rfl (h.stage.congr rfl rfl rfl rfl id fun _ _ hs => hs)
        h.agree (fun hmem => h.flushes ?_) ?_
      · rw [hstack]
        exact .tail _ ((mem_cons.mp hmem).resolve_left (by decide))
      · unfold Run.responding
        rw [countP_cons_of_pos rfl, hnone, hresponded]
        decide
  · rename_i stack hstack
    obtain ⟨hresponded, hnone⟩ := responding_pop h hstack rfl
    have hpop := send_headers_good (h.pop hstack)
    obtain ⟨hsent, hresponded', hstack'⟩ := send_headers_fields { x.r with stack := stack }
    refine respond_good o hpop hsent (hresponded'.trans hresponded) ?_
    unfold Run.responding
    rw [hstack']
    exact hnone
  · rename_i stack hstack
    exact hint_loop_good (h.pop hstack) _ _ _

lemma stream_closed_good (h : Good x) (hcb : x.r.conn.closecb = .stream_closed) :
    Good (fpm_direct_stream_closed cfg x) := by
  cases h.stage with
  | buffered q streaming responded http conn | answered q responded http conn => simp [conn] at hcb
  | lost streaming http conn =>
    generalize x.r.conn = c at conn hcb
    cases conn <;> simp at hcb
  | live q streaming responded http conn answer complete =>
    obtain ⟨hsame, hpending, hrequests⟩ := x.w.settled_spec cfg
    have hold : x.r.conn.weight = 1 := weight_of_handed (by rw [conn]) answer
    refine h.advance ⟨hsame, ⟨rfl, rfl, rfl, rfl, rfl, rfl⟩, ?_, hrequests⟩
      (.lost streaming rfl (.idle false) rfl) rfl
    rw [hold]
    exact hpending.trans (by simp [fpm_direct_stream_closed, Conn.weight, Conn.outstanding, gone])

lemma script_good {e : Script} (hsingle : Single x.r e) (h : Good x) : Good (x.script cfg e) := by
  cases e with
  | write data abort =>
    simp only [script]
    split
    · exact write_good abort data h
    · exact h
  | header code fault =>
    simp only [script]
    split
    · exact h
    · rename_i hsent
      refine Good.with_run h rfl rfl rfl rfl
        (h.stage.congr rfl rfl rfl rfl id fun hs => absurd hs hsent) (fun hs => absurd hs hsent)
        h.flushes h.single
  | call c => exact call_good hsingle h
  | ret text o => exact ret_good text o h
  | lose =>
    simp only [script]
    split
    · rename_i hcb
      exact stream_closed_good h (beq_iff_eq.mp hcb)
    · exact h
  | bail =>
    -- the status becomes 500 only while no headers are sent
    refine Good.with_run h rfl rfl rfl rfl (h.stage.congr rfl rfl rfl rfl id fun hs q hq => ?_)
      (fun hs hr => ?_) nofun (Nat.zero_le _)
    · unfold Sealed
      simp only [hs, Bool.or_true, if_true]
      exact hq
    · dsimp only at hs
      simp only [hs, Bool.or_true, if_true]
      exact h.agree hs hr
  | finish =>
    simp only [script]
    split
    · exact h.aside ..
    · exact h

end Exec

/-! ## The event loop -/

structure Rest (w : Worker) : Prop where
  conns : ∀ c ∈ w.conns, Settled c
  pending : w.pending = w.conns.countP Conn.outstanding
  breaks : w.Breaks
  ended : ∀ e ∈ w.ended, e.after = e.before + 1
  dangling : w.dangling = false

lemma Rest.quiet {w w' : Worker} (h : Rest w) (hquiet : w.Quiet w') : Rest w' := by
  refine ⟨?_, ?_, hquiet.breaks h.breaks, ?_, hquiet.dangling.trans h.dangling⟩
  · rw [hquiet.conns]
    exact h.conns
  · rw [hquiet.pending, hquiet.conns]
    exact h.pending
  · rw [hquiet.ended]
    exact h.ended

lemma mem_set {α : Type} {l : List α} {a : α} {P : α → Prop} (h : ∀ c ∈ l, P c) (ha : P a) :
    ∀ c ∈ l.set i a, P c := by
  intro c hc
  rcases mem_or_eq_of_mem_set hc with hc | rfl
  · exact h c hc
  · exact ha

lemma Rest.set_conn (h : Rest w) (w' : Worker) (c' : Conn) (hc : w.conns[i]? = some c)
    (hsame : w.Same w') (hpending : w'.pending = w.pending - c.weight + c'.weight)
    (hsettled : Settled c') : Rest (w'.set_conn i c') := by
  refine ⟨?_, ?_, hsame.breaks h.breaks, ?_, hsame.dangling.trans h.dangling⟩
  · simp only [Worker.set_conn]
    rw [hsame.conns]
    exact mem_set h.conns hsettled
  · have hold := h.pending
    have hcount := countP_set (p := Conn.outstanding) hc c'
    simp only [Worker.set_conn]
    rw [hsame.conns, hcount, hpending, hold]
    rfl
  · simp only [Worker.set_conn]
    rw [hsame.ended]
    exact h.ended

theorem connection_free_rest (h : Rest w) (hc : w.conns[i]? = some c) :
    Rest (connection_ends cfg w i c) := by
  have hsettled := h.conns c (mem_of_getElem? hc)
  cases hsettled with
  | idle alive =>
    refine h.set_conn w .gone hc ⟨rfl, rfl, rfl, id⟩ ?_ (.idle false)
    rw [weight_of_none rfl, weight_of_none rfl]
    omega
  | counted answer complete =>
    obtain ⟨hsame, hpending, -⟩ := w.settled_spec cfg
    refine h.set_conn (w.settled cfg) .gone hc hsame ?_ (.idle false)
    rw [weight_of_handed rfl answer, weight_of_none rfl, add_zero]
    exact hpending
  | uncounted answer complete =>
    refine h.set_conn w .gone hc ⟨rfl, rfl, rfl, id⟩ ?_ (.idle false)
    rw [weight_of_not_handed rfl answer, weight_of_none rfl]
    omega

theorem send_done_rest {close : Bool} (h : Rest w) (hc : w.conns[i]? = some c)
    (hq : c.request = some q) :
    Rest (reply_written cfg close w i c q) := by
  -- both kinds of replies end alike, once the callback has settled the count
  have key : ∀ (w' : Worker) (c' : Conn), w.Same w' → w'.pending = w.pending - c.weight →
      c'.closecb = .none →
      Rest (if close then connection_ends cfg w' i { c' with request := none }
        else w'.set_conn i { c' with request := none }) := by
    intro w' c' hsame hpending hcb
    have hidle : Settled { c' with request := none } := by
      obtain ⟨alive, cb, request⟩ := c'
      obtain rfl : cb = .none := hcb
      exact .idle alive
    have hpending' : ∀ d : Conn, d.request = none → w'.pending = w.pending - c.weight + d.weight := by
      intro d hd
      rw [weight_of_none hd, add_zero]
      exact hpending
    split
    · unfold connection_ends
      rw [hcb]
      exact h.set_conn w' .gone hc hsame (hpending' _ rfl) (.idle false)
    · exact h.set_conn w' _ hc hsame (hpending' _ rfl) hidle
  have hsettled := h.conns c (mem_of_getElem? hc)
  unfold reply_written
  cases hsettled with
  | idle alive => simp at hq
  | counted answer complete =>
    cases hq
    obtain ⟨hsame, hpending, -⟩ := w.settled_spec cfg
    rw [complete]
    refine key (w.settled cfg) _ hsame ?_ rfl
    rw [weight_of_handed rfl answer]
    exact hpending
  | uncounted answer complete =>
    obtain rfl := some.inj hq
    have hweight := weight_of_not_handed hq answer
    rcases complete with complete | complete
    · rw [complete]
      exact key w _ ⟨rfl, rfl, rfl, id⟩ (by rw [hweight, sub_zero]) rfl
    · rw [complete]
      exact key w _ ⟨rfl, rfl, rfl, id⟩ (by rw [hweight, sub_zero]) rfl

lemma put_back_rest {x y : Exec} (h : Good x) (hsame : x.w.Same y.w) (hslot : y.r.slot = x.r.slot)
    (hpending : y.w.pending = x.w.pending - x.r.conn.weight + y.r.conn.weight)
    (hsettled : Settled y.r.conn) (hrequests : y.w.requests = y.r.before + 1) : Rest y.put_back := by
  have hcount : x.w.pending - x.r.conn.weight = x.w.conns.countP Conn.outstanding := by
    rw [h.pending, add_sub_cancel_right]
  have hrest : Rest { x.w with pending := x.w.pending - x.r.conn.weight } :=
    ⟨h.conns, hcount, h.breaks, h.ended, h.dangling⟩
  have hset := hrest.set_conn y.w y.r.conn h.slot (hsame.after ⟨rfl, rfl, rfl, id⟩)
    (by rw [hpending, weight_of_none (c := .gone) rfl, sub_zero]) hsettled
  rw [← hslot] at hset
  refine ⟨hset.conns, hset.pending, hset.breaks, ?_, hset.dangling⟩
  intro e he
  rcases mem_append.mp he with he | he
  · exact hset.ended e he
  · obtain rfl := mem_singleton.mp he
    exact hrequests

lemma Stage.settled (h : Stage r) (hresponded : r.responded = true) : Settled r.conn := by
  cases h with
  | buffered q streaming responded | live q streaming responded => simp [responded] at hresponded
  | lost streaming http conn => exact conn
  | answered q responded http conn answer complete =>
    rw [conn]
    exact .counted answer complete

/-- **Each of the three endings** leaves the accounts in order, and the request counted
once. -/
theorem leave_rest (o : Outcome) (h : Good x) : Rest (x.leave cfg o) := by
  -- the tick behind a request counts nothing
  have htick : ∀ w : Worker, Rest w →
      Rest (fpm_direct_tick_body cfg { w with in_request := false }) := by
    intro w hw
    obtain ⟨hsame, hpending, hrequests⟩ := tick_body_spec cfg { w with in_request := false }
    exact hw.quiet ⟨hsame.after ⟨rfl, rfl, rfl, id⟩, hpending, hrequests⟩
  unfold leave
  -- a response that was handed over early, a stream, or a buffered one
  cases hresponded : x.r.responded with
  | true =>
    have hrequests := h.requests
    rw [hresponded] at hrequests
    refine htick _ (put_back_rest h ⟨rfl, rfl, rfl, id⟩ rfl (by omega) (h.stage.settled hresponded)
      hrequests)
  | false =>
    have hrequests := h.requests
    rw [hresponded] at hrequests
    cases hstreaming : x.r.streaming with
    | true =>
      obtain ⟨hretire, hpending, hcount⟩ := x.w.retire_spec cfg
      obtain ⟨ha, hdone, -⟩ := stream_finish_spec cfg
        (x := { x with w := x.w.fpm_direct_retire cfg }) false o h.stage hstreaming hresponded
      refine htick _ (put_back_rest h (hretire.trans ha.same) ha.kept.slot ?_ hdone.settled ?_)
      · rw [← hpending]
        exact ha.pending
      · rw [ha.requests, ha.kept.before]
        exact hcount.trans (congrArg (· + 1) hrequests)
    | false =>
      obtain ⟨q, hsame, hcount, hpending, hkept, -, conn, answer, complete, -⟩ :=
        send_buffered_spec cfg (x := { x with w := { x.w with in_request := false } }) rfl
          h.stage hstreaming hresponded fun hs => h.agree hs hresponded
      refine put_back_rest h (hsame.after ⟨rfl, rfl, rfl, id⟩) hkept.slot hpending ?_ ?_
      · rw [conn]
        exact .counted answer complete
      · rw [hcount, hkept.before]
        exact congrArg (· + 1) hrequests

lemma try_static_spec (cfg : Config) (answered : Option Bool) (w : Worker) (c : Conn) (q : Http)
    (hcb : c.closecb = .none) (hq : q.on_complete = .budget_done) (hanswer : q.answer = .none) :
    ∃ w' c' q' b, fpm_direct_try_static cfg answered w c q = (w', c', q', b) ∧ w.Same w' ∧
      c'.alive = c.alive ∧
      if b then w'.pending = w.pending + 1 ∧ c'.closecb = .response_closed ∧ q'.answer = .handed ∧
        q'.on_complete = .response_done
      else w'.pending = w.pending ∧ c'.closecb = .none ∧ q'.answer = .none ∧
        (q'.on_complete = .none ∨ q'.on_complete = .budget_done) := by
  unfold fpm_direct_try_static
  split
  · exact ⟨_, _, _, _, rfl, ⟨rfl, rfl, rfl, id⟩, rfl, rfl, hcb, hanswer, .inr hq⟩
  · cases answered.getD false with
    | true => exact ⟨_, _, _, _, rfl, ⟨rfl, rfl, rfl, id⟩, rfl, rfl, rfl, rfl, rfl⟩
    | false =>
      refine ⟨_, _, _, _, rfl, ⟨rfl, rfl, rfl, id⟩, rfl, ?_, rfl, hanswer, .inl rfl⟩
      exact add_sub_cancel_right _ _

def Inv (x : World) : Prop :=
  match x.run with
  | none => Rest x.w
  | some r => Good ⟨x.w, r⟩

lemma Inv.good {x : World} (h : Inv x) (hr : x.run = some r) : Good ⟨x.w, r⟩ := by
  unfold Inv at h
  rwa [hr] at h

lemma plain_inv {w w' : Worker} {c c' : Conn} (h : Rest w) (hc : w.conns[i]? = some c)
    (hnone : c.request = none) (hsame : w.Same w') (hpending : w'.pending = w.pending)
    (hcb : c'.closecb = .none) (hq : q.on_complete = .none ∨ q.on_complete = .budget_done) :
    Inv (plain w' i c' q) := by
  obtain ⟨alive, cb, request⟩ := c'
  obtain rfl : cb = .none := hcb
  refine h.set_conn w' _ hc hsame ?_ (.uncounted (by simp) hq)
  rw [weight_of_none hnone, weight_of_not_handed rfl (by simp), hpending]
  omega

theorem handle_inv {a : Admission} (h : Rest w) (hc : w.conns[i]? = some c)
    (halive : c.alive = true) (hnone : c.request = none) (hq : q.on_complete = .budget_done)
    (hanswer : q.answer = .none) :
    Inv (fpm_direct_handle cfg a w i c q) := by
  have hcb : c.closecb = .none := by
    have hsettled := h.conns c (mem_of_getElem? hc)
    cases hsettled with
    | idle alive => rfl
    | counted answer complete => simp at hnone
    | uncounted answer complete => rfl
  have hplain := plain_inv h hc hnone ⟨rfl, rfl, rfl, id⟩ rfl hcb (.inr hq)
  unfold fpm_direct_handle
  split
  · exact hplain
  split
  · exact hplain
  split
  · exact hplain
  split
  · exact hplain
  obtain ⟨⟨hsame, hpending, -⟩, -⟩ := retire_enter_if cfg w
  dsimp only
  generalize (if w.retiring = true then w.fpm_direct_retire_enter cfg else w) = w' at hsame hpending ⊢
  split
  · exact plain_inv h hc hnone hsame hpending hcb (.inr hq)
  obtain ⟨w'', ⟨alive, cb, request⟩, q', answered, hs, hsame', halive', hstatic⟩ :=
    try_static_spec cfg a.answered w' c q hcb hq hanswer
  rw [hs]
  dsimp only at halive' hstatic ⊢
  cases answered with
  | true =>
    -- a file
    obtain ⟨hpending', rfl, hanswer', hcomplete⟩ := hstatic
    refine h.set_conn w'' _ hc (hsame.trans hsame') ?_ (.counted hanswer' hcomplete)
    rw [weight_of_none hnone, weight_of_handed rfl hanswer']
    omega
  | false =>
    obtain ⟨hpending', rfl, hanswer', hcomplete⟩ := hstatic
    simp only [Bool.false_eq_true, if_false]
    split
    · exact plain_inv h hc hnone (hsame.trans hsame') (hpending'.trans hpending) rfl hcomplete
    · -- a script: its connection leaves the table
      have hgone : Rest (w''.set_conn i .gone) := by
        refine h.set_conn w'' .gone hc (hsame.trans hsame') ?_ (.idle false)
        rw [weight_of_none hnone, weight_of_none rfl]
        omega
      have hlt : i < w''.conns.length := by
        rw [hsame'.conns, hsame.conns]
        exact (List.getElem?_eq_some_iff.mp hc).1
      refine ⟨hgone.conns, ?_, ?_, hgone.breaks, hgone.ended, hgone.dangling, rfl,
        .buffered q' rfl rfl rfl ?_ hanswer' hcomplete, by simp [Run.start],
        fun hmem => absurd hmem not_mem_nil, Nat.zero_le _⟩
      · exact getElem?_set_self hlt
      · have hold := hgone.pending
        have hweight : Conn.weight (Run.start w'' i ⟨alive, .none, request⟩ q' a).conn = 0 :=
          weight_of_not_handed rfl (by rw [hanswer']; decide)
        rw [hweight, add_zero]
        exact hold
      · rw [halive] at halive'
        subst halive'
        rfl

/-- No `fpmng_respond()` inside another. -/
def Single (x : World) : Event → Prop
  | .script e => ∀ r, x.run = some r → Exec.Single r e
  | _ => True

lemma step_inv {x : World} {e : Event} (hsingle : Single x e) (h : Inv x) :
    Inv (x.step cfg e) := by
  have hrest : x.looping = true → Rest x.w := by
    intro hloop
    unfold looping at hloop
    rw [Bool.and_eq_true, isNone_iff_eq_none] at hloop
    unfold Inv at h
    rwa [hloop.1] at h
  have hon : ∀ (i : ℕ) (f : Conn → World), (∀ c, x.w.conns[i]? = some c → Rest x.w → Inv (f c)) →
      Inv (x.on_conn i f) := by
    intro i f hf
    unfold on_conn
    split
    · rename_i c hloop hc
      exact hf c hc (hrest hloop)
    · exact h
  -- a change of the child that the accounts do not see
  have hquiet : ∀ w' : Worker, x.w.Quiet w' → Inv { x with w := w' } := by
    rintro w' ⟨hsame, hpending, hrequests⟩
    unfold Inv at h ⊢
    cases hrun : x.run with
    | none =>
      rw [hrun] at h
      exact h.quiet ⟨hsame, hpending, hrequests⟩
    | some r =>
      rw [hrun] at h
      refine Good.advance h ⟨hsame, ⟨rfl, rfl, rfl, rfl, rfl, rfl⟩, ?_, hrequests⟩ h.stage rfl
      dsimp only
      omega
  cases e with
  | accept =>
    simp only [step]
    split
    · rename_i hloop
      obtain ⟨hconns, hpending, hbreaks, hended, hdangling⟩ := hrest hloop
      refine ⟨fun c hc => ?_, ?_, hbreaks, hended, hdangling⟩
      · rcases mem_append.mp hc with hc | hc
        · exact hconns c hc
        · obtain rfl := mem_singleton.mp hc
          exact .idle true
      · rw [countP_append]
        exact hpending
    · exact h
  | request i command major minor a =>
    refine hon i _ fun c hc hr => ?_
    split
    · rename_i hidle
      rw [Bool.and_eq_true, isNone_iff_eq_none] at hidle
      exact handle_inv hr hc hidle.1 hidle.2 rfl rfl
    · exact h
  | written i close =>
    refine hon i _ fun c hc hr => ?_
    split
    · rename_i q hq
      split
      · exact send_done_rest hr hc hq
      · exact h
    · exact h
  | fail i =>
    refine hon i _ fun c hc hr => ?_
    split
    · exact connection_free_rest hr hc
    · exact h
  | tick =>
    simp only [step]
    split
    · rename_i hloop
      exact (hrest hloop).quiet (x.w.tick_body_spec cfg)
    · exact h
  | script e =>
    simp only [step]
    cases hrun : x.run with
    | none => exact h
    | some r => exact script_good (hsingle r hrun) (h.good hrun)
  | leave o =>
    simp only [step]
    cases hrun : x.run with
    | none => exact h
    | some r =>
      dsimp only
      split
      · exact leave_rest o (h.good hrun)
      · exact h
  | _ => exact hquiet _ ⟨⟨rfl, rfl, rfl, id⟩, rfl, rfl⟩

/-! ## The accounts -/

/-- The responses of scripts and the files that libevent was handed and that are
neither completed nor closed nor aborted. -/
def World.outstanding (x : World) : ℤ :=
  x.w.conns.countP Conn.outstanding + (x.run.map fun r => r.conn.weight).getD 0

structure Accounted (x : World) : Prop where
  pending : x.w.pending = x.outstanding
  nonneg : 0 ≤ x.w.pending
  /-- Each request that ran a script has added one to the count of served requests. -/
  served : ∀ e ∈ x.w.ended, e.after = e.before + 1
  /-- After a stop the loop is broken with nothing pending. -/
  stopped : ∀ b ∈ x.w.breaks, b.stopping = true → b.pending = 0

lemma Conn.weight_nonneg (c : Conn) : 0 ≤ c.weight := by
  unfold Conn.weight
  split <;> decide

lemma Inv.accounted {x : World} (h : Inv x) : Accounted x := by
  unfold Inv at h
  cases hrun : x.run with
  | none =>
    rw [hrun] at h
    have hpending : x.w.pending = x.outstanding := by
      rw [h.pending, World.outstanding, hrun]
      exact (add_zero _).symm
    refine ⟨hpending, ?_, h.ended, h.breaks⟩
    rw [h.pending]
    exact Int.natCast_nonneg _
  | some r =>
    rw [hrun] at h
    have hpending : x.w.pending = x.outstanding := by
      rw [World.outstanding, hrun]
      exact h.pending
    refine ⟨hpending, ?_, h.ended, h.breaks⟩
    have hweight := r.conn.weight_nonneg
    have hcount := h.pending
    dsimp only at hcount
    omega

/-- **The accounts of the classic executor**, in every state a child can come to. -/
theorem accounts_exact (cfg : Config) (events : List Event)
    (hsingle : Along (step cfg) Single init events) : Accounted (run cfg events) := by
  have hinit : Inv init :=
    ⟨fun c hc => absurd hc not_mem_nil, rfl, fun b hb => absurd hb not_mem_nil,
      fun e he => absurd he not_mem_nil, rfl⟩
  exact (run_invariant_along (fun _ _ hG h => step_inv hG h) init events hsingle
    hinit).accounted

instance (r : Run) (e : Script) : Decidable (Exec.Single r e) := by
  unfold Exec.Single
  split <;> infer_instance

instance (x : World) (e : Event) : Decidable (Single x e) :=
  match e with
  | .script e => inferInstanceAs (Decidable (∀ r, x.run = some r → Exec.Single r e))
  | .accept => isTrue trivial
  | .request .. => isTrue trivial
  | .written .. => isTrue trivial
  | .fail _ => isTrue trivial
  | .tick => isTrue trivial
  | .wait _ => isTrue trivial
  | .stop => isTrue trivial
  | .retire => isTrue trivial
  | .leave _ => isTrue trivial

/-- A pool over a libevent that takes every header and frames every reply. -/
def pool (http_stream http_static : Bool) : Config :=
  ⟨http_stream, http_static, 0, 30, fun _ _ => true, fun _ _ => true, fun _ _ _ _ _ => rfl⟩

def file_and_script : List Event :=
  let file : Admission := ⟨true, true, false, false, some true, true, true, 200⟩
  let page : Admission := ⟨true, true, false, false, some false, true, true, 200⟩
  [.accept, .accept, .request 0 .get 1 1 file, .request 1 .get 1 1 page,
    .script (.call .header), .script (.ret none ⟨false, none⟩),
    .script (.write [104] fun _ => false), .script (.call .respond),
    .script (.ret none ⟨false, none⟩), .stop,
    .script (.call .respond), .script .finish, .leave ⟨false, none⟩, .written 1 true, .fail 0]

theorem accounts_of_file_and_script :
    Along (step (pool true true)) Single init file_and_script ∧
      (run (pool true true) file_and_script).w.breaks.map (·.stopping) = [true] ∧
      (run (pool true true) (file_and_script.take 12)).w.pending = 2 ∧
      Accounted (run (pool true true) file_and_script) := by
  refine ⟨by decide, by decide, by decide, ?_⟩
  exact accounts_exact (pool true true) file_and_script (by decide)

end FpmNg.ClassicExecutor
