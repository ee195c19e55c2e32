/-
A reply that was cut short is not shown as a whole one. For both transports, any
reads and any way the upstream connection ends, the reply a client gets is ended
normally only when the upstream's own framing says that it was complete. Otherwise
the gateway answers 502 or 504 in its own words, or it cuts the client's connection.

There are two exceptions. The source means the one of FastCGI: STDOUT that runs over
64 KiB without an empty line is passed on as the body of a 200 ("no header block in
sight, ship it as a body"). In a chunked body the gateway takes a size line for what
its digits say, whatever comes behind the first byte after them.

Memory may run out anywhere. It can only turn a complete reply into a cut one.
-/
import FpmNg.FcgiReply
import FpmNg.ReplyBlock
import FpmNg.ReplyText

open ByteScan List Bool
open FpmNg.Reply

namespace FpmNg.Truncation

open Conn HttpReply Exchange

/-! ## What the gateway says itself -/

/-- The replies the gateway makes up: the 502 with nothing on the wire before it, the
502 in place of a head that cannot be used, and the 504. -/
def gateway_starts (c : Conn) : List Start :=
  [{ code := FPM_HTTP_BAD_GATEWAY, reason := str "Bad Gateway"
     headers := [(str "Content-Type", str "text/plain"), (str "Connection", str "close")] },
   { code := FPM_HTTP_BAD_GATEWAY, reason := str "Bad Gateway"
     headers := own_headers c.request_id },
   { code := FPM_HTTP_GATEWAY_TIMEOUT, reason := str "Gateway Timeout"
     headers := c.out_headers }]

/-- Nothing in the reply to the request `c` is the upstream's. -/
structure GatewayMade (c : Conn) (v : View) : Prop where
  started : ∃ s ∈ gateway_starts c, v.started = some s
  body : v.body = [] ∨ v.body = FPM_HTTP_BAD_GATEWAY_BODY

/-- How the reply to the request `c` may end, when `complete` says that the upstream's
reply was complete. -/
inductive Presented (c : Conn) (complete : Prop) (v : View) : Prop where
  | whole (hended : v.ending = some .ended) (hcomplete : complete)
  | gateway (hended : v.ending = some .ended ∨ ∃ status, v.ending = some (.gateway_error status))
      (hmade : GatewayMade c v)
  | cut (hcut : v.ending = some .truncated)

lemma Presented.mono {c : Conn} {p q : Prop} {v : View} (h : Presented c p v) (hpq : p → q) :
    Presented c q v := by
  rcases h with ⟨hended, hp⟩ | ⟨hended, hmade⟩ | hcut
  · exact .whole hended (hpq hp)
  · exact .gateway hended hmade
  · exact .cut hcut

/-! ## A reply under way -/

/-- The request `c0` before the end of its reply. Until the head goes out the client has
nothing, and a reply that is not the upstream's any more is the gateway's 502. -/
structure InProgress (c0 c : Conn) : Prop where
  ending : c.view.ending = none
  request_id : c.request_id = c0.request_id
  unsent : c.headers_sent = false → c.view = { started := none, body := [], ending := none }
    ∧ c.out_headers = c0.out_headers ∧ c.discard_upstream = false
  discard : c.discard_upstream = true → c.headers_sent = true ∧ GatewayMade c0 c.view

variable {c0 c : Conn}

lemma InProgress.of_same {c' : Conn} (h : InProgress c0 c) (hs : SameReply c c')
    (hout : c'.out_headers = c.out_headers) : InProgress c0 c' where
  ending := by rw [hs.view]; exact h.ending
  request_id := hs.request_id.trans h.request_id
  unsent := by
    intro hsent
    rw [hs.headers_sent] at hsent
    rw [hs.view, hout, hs.discard_upstream]
    exact h.unsent hsent
  discard := by
    intro hd
    rw [hs.discard_upstream] at hd
    rw [hs.headers_sent, hs.view]
    exact h.discard hd

lemma alloc_out_headers (c : Conn) : c.alloc.2.out_headers = c.out_headers := by
  unfold alloc
  split <;> rfl

lemma InProgress.alloc (h : InProgress c0 c) : InProgress c0 c.alloc.2 :=
  h.of_same (alloc_same c) (alloc_out_headers c)

lemma InProgress.collect (h : InProgress c0 c) (block : Option Bytes) :
    InProgress c0 { c with cgi_headers := block } :=
  ⟨h.ending, h.request_id, h.unsent, h.discard⟩

lemma InProgress.chunk (h : InProgress c0 c) (hsent : c.headers_sent = true)
    (hd : c.discard_upstream = false) (data : Bytes) :
    InProgress c0 (fpm_http_response_chunk c data)
      ∧ (fpm_http_response_chunk c data).headers_sent = true := by
  have ha := alloc_same c
  unfold fpm_http_response_chunk
  split
  · exact ⟨h, hsent⟩
  dsimp only
  have hsent' := ha.headers_sent.trans hsent
  have hd' := ha.discard_upstream.trans hd
  have hend : c.alloc.2.view.ending = none := by rw [ha.view]; exact h.ending
  split <;> exact ⟨⟨hend, ha.request_id.trans h.request_id,
    fun hc => absurd (hsent'.symm.trans hc) (by decide),
    fun hc => absurd (hc.symm.trans hd') (by decide)⟩, hsent'⟩

/-- **The head cannot be used.** What the client gets is the gateway's. -/
theorem InProgress.reject {c : Conn} (hid : c.request_id = c0.request_id)
    (hview : c.view = { started := none, body := [], ending := none }) :
    InProgress c0 (reject_reply c) := by
  obtain ⟨hrejected, hid', -⟩ := reject_reply_view c
  have hmade : GatewayMade c0 (reject_reply c).view := by
    rw [hrejected, hview, hid]
    refine ⟨⟨_, mem_cons_of_mem _ (.head _), rfl⟩, ?_⟩
    split
    · exact .inr rfl
    · exact .inl rfl
  refine ⟨?_, hid'.trans hid, by simp [reject_reply], fun _ => ⟨rfl, hmade⟩⟩
  rw [hrejected, hview]

lemma open_reply_id (s : Scan) : (open_reply s).request_id = s.c.request_id := by
  unfold open_reply
  split <;> rfl

lemma response_chunk_started (c : Conn) (data : Bytes) :
    (fpm_http_response_chunk c data).view.started = c.view.started := by
  have ha := alloc_same c
  unfold fpm_http_response_chunk
  split
  · rfl
  · dsimp only
    have hview := congrArg View.started ha.view
    split <;> exact hview

theorem InProgress.start (h : InProgress c0 c) (hs : c.headers_sent = false) (n k : ℕ) :
    InProgress c0 (fpm_http_start_reply c n k)
      ∧ (fpm_http_start_reply c n k).headers_sent = true
      ∧ (n = 0 → ∃ headers, (fpm_http_start_reply c n k).view.started
          = some { code := HTTP_OK, reason := [], headers := headers }) := by
  obtain ⟨hview, hout, hdisc⟩ := h.unsent hs
  -- without a block there is nothing to scan, and the status is 200
  have hempty : n = 0 → scan_block { c with cgi_headers := none } ((c.cgi_headers.getD []).take n)
      = { c := { c with cgi_headers := none }, code := HTTP_OK, reason := [], invalid_status := false
          stop := false } := by
    rintro rfl
    rfl
  have hsame := scan_block_same { c with cgi_headers := none } ((c.cgi_headers.getD []).take n)
  unfold fpm_http_start_reply
  dsimp only
  generalize scan_block { c with cgi_headers := none } ((c.cgi_headers.getD []).take n) = s
    at hsame hempty ⊢
  have hid : s.c.request_id = c0.request_id := hsame.request_id.trans h.request_id
  -- an unusable status becomes the gateway's own 502
  by_cases hinvalid : s.invalid_status = true
  · rw [if_pos hinvalid]
    refine ⟨InProgress.reject hid (hsame.view.trans hview), rfl, fun hn => ?_⟩
    rw [hempty hn] at hinvalid
    simp at hinvalid
  rw [if_neg hinvalid]
  have hopened := open_reply_view s
  have hd : (open_reply s).discard_upstream = false :=
    (open_reply_frame s).2.1.trans (hsame.discard_upstream.trans hdisc)
  have hopen : InProgress c0 (open_reply s) := by
    refine ⟨?_, (open_reply_id s).trans hid, by simp [open_reply_headers_sent],
      fun hc => absurd (hc.symm.trans hd) (by decide)⟩
    rw [hopened]
    exact congrArg View.ending (hsame.view.trans hview)
  have hok : n = 0 → ∃ headers, (open_reply s).view.started
      = some { code := HTTP_OK, reason := [], headers := headers } := by
    intro hn
    rw [hopened, hempty hn]
    exact ⟨_, rfl⟩
  by_cases hbody : k < (c.cgi_headers.getD []).length
  · rw [if_pos hbody]
    obtain ⟨hchunk, hsent⟩ := hopen.chunk rfl hd ((c.cgi_headers.getD []).drop k)
    refine ⟨hchunk, hsent, ?_⟩
    rw [response_chunk_started]
    exact hok
  · rw [if_neg hbody]
    exact ⟨hopen, rfl, hok⟩

lemma InProgress.stdout_sent (h : InProgress c0 c) (hs : c.headers_sent = true) (data : Bytes) :
    InProgress c0 (fpm_http_stdout c data) ∧ (fpm_http_stdout c data).headers_sent = true
      ∧ (fpm_http_stdout c data).view.started = c.view.started := by
  unfold fpm_http_stdout
  by_cases hd : c.discard_upstream = true
  · rw [if_pos hd]
    exact ⟨h, hs, rfl⟩
  · rw [if_neg hd, if_pos hs]
    obtain ⟨hchunk, hsent⟩ := h.chunk hs (not_eq_true _ ▸ hd) data
    exact ⟨hchunk, hsent, response_chunk_started c data⟩

/-! ## The end of a reply -/

lemma bad_gateway_made (c0 : Conn)
    (hview : c.view = { started := none, body := [], ending := none }) :
    GatewayMade c0 (bad_gateway c).view
      ∧ (bad_gateway c).view.ending = some (.gateway_error FPM_HTTP_BAD_GATEWAY) := by
  have hstart := mem_cons_self (a := ({
    code := FPM_HTTP_BAD_GATEWAY, reason := str "Bad Gateway"
    headers := [(str "Content-Type", str "text/plain"), (str "Connection", str "close")] } : Start))
    (l := (gateway_starts c0).tail)
  have ha := alloc_same { c with
    status := some FPM_HTTP_BAD_GATEWAY
    out_headers := [(str "Content-Type", str "text/plain"), (str "Connection", str "close")] }
  have hh := alloc_out_headers { c with
    status := some FPM_HTTP_BAD_GATEWAY
    out_headers := [(str "Content-Type", str "text/plain"), (str "Connection", str "close")] }
  unfold bad_gateway
  dsimp only
  by_cases hhead : c.is_head = true
  · rw [if_pos hhead]
    exact ⟨⟨⟨_, hstart, rfl⟩, .inl (congrArg View.body hview)⟩, rfl⟩
  rw [if_neg hhead]
  generalize alloc { c with
    status := some FPM_HTTP_BAD_GATEWAY
    out_headers := [(str "Content-Type", str "text/plain"), (str "Connection", str "close")] } = a
    at ha hh ⊢
  obtain ⟨ok, c'⟩ := a
  dsimp only at ha hh ⊢
  have hbody : c'.view.body = [] := congrArg View.body (ha.view.trans hview)
  cases ok with
  | true =>
    refine ⟨⟨⟨_, hstart, ?_⟩, .inr ?_⟩, rfl⟩
    · simp [end_reply, send_reply_chunk, send_reply_start, hh]
    · simp [end_reply, send_reply_chunk, send_reply_start, hbody]
  | false =>
    refine ⟨⟨⟨_, hstart, ?_⟩, .inl ?_⟩, rfl⟩
    · simp [end_reply, send_reply_start, hh]
    · simp [end_reply, send_reply_start, hbody]

lemma GatewayMade.end_reply (h : GatewayMade c0 c.view) (e : Ending) :
    GatewayMade c0 (c.end_reply e).view := ⟨h.started, h.body⟩

theorem InProgress.finish {complete : Prop} (h : InProgress c0 c)
    (hcomplete : c.headers_sent = true → c.discard_upstream = false → c.chunk_lost = false → complete) :
    Presented c0 complete (fpm_http_finish c).view := by
  unfold fpm_http_finish
  by_cases hlost : c.chunk_lost = true
  · rw [if_pos hlost]
    exact .cut rfl
  rw [if_neg hlost]
  by_cases hs : c.headers_sent = true
  · rw [if_pos hs]
    by_cases hd : c.discard_upstream = true
    · exact .gateway (.inl rfl) ((h.discard hd).2.end_reply _)
    · exact .whole rfl (hcomplete hs (not_eq_true _ ▸ hd) (not_eq_true _ ▸ hlost))
  · rw [if_neg hs]
    obtain ⟨hmade, hended⟩ := bad_gateway_made c0 (h.unsent (not_eq_true _ ▸ hs)).1
    exact .gateway (.inr ⟨_, hended⟩) hmade

theorem InProgress.fail (h : InProgress c0 c) : Presented c0 False (fail_request c).view := by
  unfold fail_request
  by_cases hlost : c.headers_sent = true ∧ ¬ c.discard_upstream = true
  · rw [if_pos hlost]
    exact .cut rfl
  · rw [if_neg hlost]
    refine h.finish ?_
    intro hs hd
    exact absurd ⟨hs, by rw [hd]; exact false_ne_true⟩ hlost

lemma InProgress.expire (h : InProgress c0 c) : Presented c0 False (expire_request c).view := by
  unfold expire_request
  by_cases hlost : c.headers_sent = true ∧ ¬ c.discard_upstream = true
  · rw [if_pos hlost]
    exact .cut rfl
  rw [if_neg hlost]
  by_cases hs : c.headers_sent = true
  · rw [if_pos hs]
    refine h.finish ?_
    intro _ hd
    exact absurd ⟨hs, by rw [hd]; exact false_ne_true⟩ hlost
  · rw [if_neg hs]
    obtain ⟨hview, hout, -⟩ := h.unsent (not_eq_true _ ▸ hs)
    refine .gateway (.inr ⟨_, rfl⟩) ⟨⟨_, ?_, rfl⟩, .inl (congrArg View.body hview)⟩
    rw [hout]
    simp [gateway_starts]

/-! ## How a connection ends -/

/-- The ways an upstream connection ends under a request: the end of the stream, an
error of the socket or of the connect, or a deadline of the read or of the connect. -/
inductive End where
  | eof
  | error
  | deadline
  deriving DecidableEq

/-! ## FastCGI -/

open FpmNg.Fcgi (Record FCGI_END_REQUEST FCGI_STDOUT Rec rec_run said stdout_content
  end_request_seen)

/-- `fpm_http_upstream_fail` and `fpm_http_upstream_deadline_expired` with the request
in flight, if it still is. -/
def fcgi_end (e : Fcgi.Exchange) : End → Fcgi.Exchange
  | .deadline => if e.current then { conn := expire_request e.conn, current := false } else e
  | _ => if e.current then { conn := fail_request e.conn, current := false } else e

/-- The stream has an END_REQUEST, and `content` is the STDOUT before it. -/
def FcgiEnded (stream content : Bytes) : Prop :=
  ∃ (records : List Record) (rest : Bytes), stream = records.flatMap Record.wire ++ rest
    ∧ end_request_seen records = true ∧ stdout_content records = content

lemma fcgiEnded_iff_said (t : UInt8) (stream content : Bytes) :
    FcgiEnded stream content ↔ said (rec_run id (Rec.idle t) stream).2 = (content, true) := by
  refine ⟨?_, ?_⟩
  · rintro ⟨records, rest, rfl, hseen, rfl⟩
    obtain ⟨t', hrun⟩ := Fcgi.rec_run_records t records
    have hsaid := Fcgi.said_records records
    rw [hseen] at hsaid
    rw [Fcgi.rec_run_append, hrun]
    rw [Fcgi.said_append (by rw [hsaid]), hsaid]
  · intro h
    obtain ⟨records, rest, hstream, hseen, hcontent⟩ :=
      Fcgi.said_ended t stream (by rw [h])
    rw [h] at hcontent
    exact ⟨records, rest, hstream, hseen, hcontent⟩

def BlockEnded (content : Bytes) : Prop := [LF, LF] <:+: content ∨ CRLF2 <:+: content

lemma blockEnded_iff (content : Bytes) :
    BlockEnded content ↔ ∃ i, findFrom empty_line 0 content = some i := by
  refine ⟨fun h => ?_, ?_⟩
  · by_contra hnone
    have hno := findFrom_eq_none_iff.mp
      (Option.eq_none_iff_forall_not_mem.mpr fun i hi => hnone ⟨i, hi⟩)
    rcases h with ⟨p, q, rfl⟩ | ⟨p, q, rfl⟩ <;>
      simpa [empty_line, append_assoc] using hno p.length (Nat.zero_le _) (by simp)
  · rintro ⟨i, hi⟩
    obtain ⟨-, -, hm, -⟩ := findFrom_eq_some_iff.mp hi
    have hinfix : ∀ {n : ℕ} {p : Bytes}, (content.drop i).take n = p → p <:+: content :=
      fun hp => hp ▸ ( take_prefix _ _).isInfix.trans (drop_suffix _ _).isInfix
    simp only [empty_line, Bool.or_eq_true, beq_iff_eq] at hm
    exact hm.imp hinfix hinfix

def ShippedAsBody (content : Bytes) (v : View) : Prop :=
  content.length > FPM_HTTP_MAX_CGI_HEADERS
    ∧ ∃ headers, v.started = some { code := HTTP_OK, reason := [], headers := headers }

/-- A request whose upstream has sent `content` on STDOUT. -/
structure Heard (c0 c : Conn) (content : Bytes) : Prop where
  progress : InProgress c0 c
  unsent : c.headers_sent = false →
    c.cgi_headers.getD [] = content ∧ findFrom empty_line 0 content = none
  sent : c.headers_sent = true →
    (∃ i, findFrom empty_line 0 content = some i) ∨ ShippedAsBody content c.view

variable {content : Bytes}

theorem Heard.stdout (h : Heard c0 c content) (data : Bytes) :
    Heard c0 (fpm_http_stdout c data) (content ++ data) := by
  by_cases hs : c.headers_sent = true
  · obtain ⟨hp, hsent, hstarted⟩ := h.progress.stdout_sent hs data
    refine ⟨hp, fun hc => absurd (hsent.symm.trans hc) (by decide), fun _ => ?_⟩
    rcases h.sent hs with ⟨i, hi⟩ | ⟨hlong, headers, hst⟩
    · exact .inl ⟨i, find_empty_line_append hi data⟩
    · refine .inr ⟨?_, headers, hstarted.trans hst⟩
      rw [length_append]
      omega
  have hs' : c.headers_sent = false := not_eq_true _ ▸ hs
  obtain ⟨hold, hnone⟩ := h.unsent hs'
  have hd := (h.progress.unsent hs').2.2
  have hstart := fun n k => (h.progress.collect (some (content ++ data))).start hs' n k
  unfold fpm_http_stdout
  rw [if_neg (by simp [hd]), if_neg hs]
  dsimp only
  rw [hold, findFrom_resume empty_line_window hnone data _ (by split <;> omega)]
  cases hi : findFrom empty_line 0 (content ++ data) with
  | some i =>
    obtain ⟨hp, hsent, -⟩ := hstart (block_end (content ++ data) i).1 (block_end (content ++ data) i).2
    exact ⟨hp, fun hc => absurd (hsent.symm.trans hc) (by decide), fun _ => .inl ⟨i, hi⟩⟩
  | none =>
    by_cases hlong : (content ++ data).length > FPM_HTTP_MAX_CGI_HEADERS
    · rw [if_pos hlong]
      obtain ⟨hp, hsent, hok⟩ := hstart 0 0
      exact ⟨hp, fun hc => absurd (hsent.symm.trans hc) (by decide),
        fun _ => .inr ⟨hlong, hok rfl⟩⟩
    · rw [if_neg hlong]
      exact ⟨h.progress.collect _, fun _ => ⟨rfl, hi⟩, fun hc => absurd hc hs⟩

lemma Heard.pieces (h : Heard c0 c content) (pieces : List Bytes) :
    Heard c0 (pieces.foldl fpm_http_stdout c) (content ++ pieces.flatten) := by
  induction pieces generalizing c content with
  | nil =>
    rw [flatten_nil, append_nil]
    exact h
  | cons x pieces ih =>
    rw [flatten_cons, ← append_assoc]
    exact ih (h.stdout x)

theorem fcgi_presented (h : Heard c0 c0 []) (t : UInt8) (reads : List Bytes) (e : End) :
    Presented c0 (∃ content, FcgiEnded reads.flatten content ∧ (BlockEnded content
        ∨ ShippedAsBody content (fcgi_end (Fcgi.read_reply c0 t reads) e).conn.view))
      (fcgi_end (Fcgi.read_reply c0 t reads) e).conn.view := by
  obtain ⟨calls, hs, hfeed⟩ := Fcgi.feed_reads_calls id
    (fun _ => rfl : ∀ x, Fcgi.exchange_ops.dead x = false) { conn := c0, current := true }
    (Rec.idle t) reads
  obtain ⟨pieces, rest, hcalls, hsaid, hrest⟩ := Fcgi.calls_split calls
  rw [hs.acts_eq] at hsaid
  have hheard := h.pieces pieces
  rw [nil_append] at hheard
  have hread : Fcgi.read_reply c0 t reads
      = rest.foldl (Fcgi.Call.apply Fcgi.exchange_ops)
          { conn := pieces.foldl fpm_http_stdout c0, current := true } := by
    unfold Fcgi.read_reply
    rw [hfeed, hcalls, foldl_append, Fcgi.calls_current]
  rcases hrest with rfl | ⟨more, rfl⟩
  · -- no END_REQUEST yet: the connection's end is the reply's
    rw [hread]
    refine Presented.mono ?_ False.elim
    cases e with
    | deadline => exact hheard.progress.expire
    | eof | error => exact hheard.progress.fail
  · have hdone : Fcgi.read_reply c0 t reads
        = { conn := fpm_http_finish (pieces.foldl fpm_http_stdout c0), current := false } := by
      rw [hread, foldl_cons, Fcgi.calls_not_current more]
      · rfl
      · rfl
    have hstay : fcgi_end (Fcgi.read_reply c0 t reads) e = Fcgi.read_reply c0 t reads := by
      rw [hdone]
      cases e <;> rfl
    rw [hstay, hdone]
    -- END_REQUEST came: the reply is finished, and the connection's end adds nothing
    refine hheard.progress.finish ?_
    intro hsent hdisc hlost
    refine ⟨pieces.flatten, (fcgiEnded_iff_said t _ _).mpr hsaid, ?_⟩
    rcases hheard.sent hsent with hblock | hship
    · exact .inl ((blockEnded_iff _).mpr hblock)
    · right
      unfold fpm_http_finish
      rw [if_neg (by simp [hlost]), if_pos hsent]
      exact hship

/-! ## HTTP -/

variable {e : Exchange} {p : Bytes}

section Http

open FpmNg.HttpReply

/-- `fpm_http_upstream_deadline_expired`. -/
def expire (e : Exchange) : Exchange :=
  if e.current then
    { conn := expire_request e.conn, current := false, status := .failed, dropped := true }
  else { e with dropped := true }

def http_end (s : Side) : End → Exchange
  | .eof => (on_eof s).request
  | .error => if s.request.dropped then s.request else s.request.fail
  | .deadline => if s.request.dropped then s.request else expire s.request

/-- The stream has a complete reply in the terms of the reader; `eof` says that the
stream has ended. -/
def Whole (mode : Mode) (stream : Bytes) (eof : Prop) : Prop :=
  ∃ r : WholeReply mode, Framed chunk_size r.framing r.body
    ∧ ((r.framing ≠ .until_close ∧ r.wire <+: stream)
      ∨ (r.framing = .until_close ∧ r.wire = stream ∧ eof))

variable {mode : Mode}

lemma Whole.mono {x : Bytes} (h : Whole mode x False) (y : Bytes)
    (eof : Prop) : Whole mode (x ++ y) eof := by
  obtain ⟨r, hframed, ⟨hne, hpre⟩ | ⟨-, -, hno⟩⟩ := h
  · exact ⟨r, hframed, .inl ⟨hne, hpre.trans (prefix_append x y)⟩⟩
  · exact hno.elim

/-! ### What a stream can say -/

def OnlyBytes (acts : List (Act UInt8)) : Prop := ∀ a ∈ acts, ∃ b, a = .byte b

/-- Before the head is out the stream says nothing or starts the reply, afterwards it
says bytes. -/
def Shape : Bool → List (Act UInt8) → Prop
  | true, acts => OnlyBytes acts
  | false, acts => acts = [] ∨ ∃ block head more, acts = .start block head :: more ∧ OnlyBytes more

def in_reply : Phase UInt8 → Bool
  | .head _ => false
  | .body _ _ _ _ => true

variable {x y : List (Act UInt8)}

lemma OnlyBytes.append (hx : OnlyBytes x) (hy : OnlyBytes y) :
    OnlyBytes (x ++ y) := by
  intro a ha
  rcases mem_append.mp ha with ha | ha
  · exact hx a ha
  · exact hy a ha

lemma body_byte_bytes (b : Body) (n : ℕ) (line : Bytes) (e : Bool) (x : UInt8) :
    OnlyBytes (body_byte id b n line e x).2.1 := by
  have hnil : OnlyBytes [] := fun _ h => absurd h not_mem_nil
  have hone : OnlyBytes [.byte x] := fun a ha => ⟨x, mem_singleton.mp ha⟩
  unfold body_byte
  split
  · exact hone
  · split
    · split <;> exact hnil
    · exact hnil
  · exact hone
  · split <;> split <;> exact hnil
  · split
    · split <;> exact hnil
    · exact hnil
  · exact hone

lemma run_body_shape (mode : Mode) (b : Body) (n : ℕ) (line : Bytes) (e : Bool) (x : Bytes) :
    OnlyBytes (http_run id mode (.body b n line e) x).acts
      ∧ in_reply (http_run id mode (.body b n line e) x).phase = true := by
  induction x generalizing b n line with
  | nil => exact ⟨fun _ h => absurd h not_mem_nil, rfl⟩
  | cons y x ih =>
    obtain ⟨⟨b', n', line', hph⟩, -⟩ := body_byte_stays id b n line e y
    have hacts := body_byte_bytes b n line e y
    have hstep : http_byte id mode (.body b n line e) y = body_byte id b n line e y := rfl
    rw [http_run, hstep, hph]
    split
    · exact ⟨hacts.append (ih b' n' line').1, (ih b' n' line').2⟩
    · exact ⟨hacts, rfl⟩

theorem run_shape (mode : Mode) (ph : Phase UInt8) (x : Bytes) :
    Shape (in_reply ph) (http_run id mode ph x).acts ∧ in_reply (http_run id mode ph x).phase
        = (in_reply ph || !(http_run id mode ph x).acts.isEmpty) := by
  cases ph with
  | body b n line e => exact run_body_shape mode b n line e x
  | head l =>
    induction x generalizing l with
    | nil => exact ⟨.inl rfl, rfl⟩
    | cons y x ih =>
      rcases http_byte_head l y with ⟨l', v, hb⟩ | ⟨block, framing, e, hb⟩
      · by_cases hv : v = .more
        · subst hv
          rw [http_run_cons_more hb]
          exact ih l'
        · rw [http_run_cons_stop hb hv]
          exact ⟨.inl rfl, rfl⟩
      · obtain ⟨b, n, line, hopen⟩ : ∃ b n line, (framing.opened e : Phase UInt8) = .body b n line e := by
          cases framing <;> exact ⟨_, _, _, rfl⟩
        rw [hopen] at hb
        generalize (if framing = .length 0 then Verdict.complete else .more) = v at hb
        obtain ⟨hbytes, hphase⟩ := run_body_shape mode b n line e x
        by_cases hv : v = .more
        · subst hv
          rw [http_run_cons_more hb]
          exact ⟨.inr ⟨block, l ++ [y], _, rfl, hbytes⟩, hphase⟩
        · rw [http_run_cons_stop hb hv]
          exact ⟨.inr ⟨block, l ++ [y], [], rfl, fun _ h => absurd h not_mem_nil⟩, rfl⟩

lemma run_switch (mode : Mode) (ph : Phase UInt8) (x : Bytes)
    (h : (http_run id mode ph x).verdict = .switch) : mode.upgrading = true := by
  -- only a head can switch, and only if an upgrade was asked for
  have hhead : ∀ is_head upgrading head,
      fpm_http_http_head_done is_head upgrading head = .switch → upgrading = true := by
    intro is_head upgrading head hd
    unfold fpm_http_http_head_done at hd
    split at hd
    · cases hd
    · dsimp only at hd
      split at hd
      · rename_i hc
        exact hc.2
      · split at hd <;> cases hd
  have hbyte : ∀ (ph : Phase UInt8) (y : UInt8), (http_byte id mode ph y).2.2 = .switch →
      mode.upgrading = true := by
    intro ph y hy
    cases ph with
    | body b n line e => exact absurd hy (body_byte_stays id b n line e y).2
    | head l =>
      simp only [http_byte] at hy
      split at hy
      · unfold after_head at hy
        generalize hverdict : fpm_http_http_head_done mode.is_head mode.upgrading _ = v at hy
        cases v with
        | switch => exact hhead _ _ _ hverdict
        | invalid | interim => cases hy
        | final block framing e =>
          simp only [head_step] at hy
          split at hy <;> cases hy
      · cases hy
  induction x generalizing ph with
  | nil => cases h
  | cons y x ih =>
    rw [http_run] at h
    split at h
    · exact ih _ h
    · exact hbyte ph y h

/-! ### What a read does to the reply -/

/-- What the reader calls may do to the request's reply and no more. -/
structure Carried (c0 : Conn) (e e' : Exchange) (acts : List (Act UInt8)) :
    Prop where
  same : e' = { e with conn := e'.conn }
  progress : InProgress c0 e'.conn
  request : SameRequest e.conn e'.conn
  sent : e'.conn.headers_sent = (e.conn.headers_sent || !acts.isEmpty)

lemma Carried.behind {e e' e'' : Exchange}
    (h : Carried c0 e e' x) (h' : Carried c0 e' e'' y) : Carried c0 e e'' (x ++ y) where
  same := by
    rw [h'.same, h.same]
  progress := h'.progress
  request := h.request.trans h'.request
  sent := by
    rw [h'.sent, h.sent, Bool.or_assoc]
    cases x <;> simp

theorem calls_carried (calls : List (Call UInt8)) (h : InProgress c0 e.conn)
    (hshape : Shape e.conn.headers_sent (calls.flatMap Call.acts)) :
    Carried c0 e (calls.foldl (Call.apply exchange_ops) e)
      (calls.flatMap Call.acts) := by
  induction calls generalizing e with
  | nil => exact ⟨rfl, h, ⟨rfl, rfl⟩, (Bool.or_false _).symm⟩
  | cons call calls ih =>
    rw [flatMap_cons] at hshape ⊢
    rw [foldl_cons]
    cases call with
    | alloc =>
      have hone : Carried c0 e { e with conn := e.conn.alloc.2 } [] :=
        ⟨rfl, h.alloc, (alloc_same e.conn).request,
          (alloc_same e.conn).headers_sent.trans (Bool.or_false _).symm⟩
      refine hone.behind (ih hone.progress ?_)
      have hsent : e.conn.alloc.2.headers_sent = e.conn.headers_sent :=
        (alloc_same e.conn).headers_sent
      rw [hsent]
      exact hshape
    | start block head =>
      -- a head comes first and once, by the shape of the stream
      cases hs : e.conn.headers_sent with
      | true =>
        rw [hs] at hshape
        obtain ⟨b, hb⟩ := hshape _ (.head _)
        simp at hb
      | false =>
        obtain ⟨hp, hsent, -⟩ := (h.collect (some block)).start hs block.length block.length
        have hone : Carried c0 e (e.start block) [.start block head] :=
          ⟨rfl, hp, (collect_request e.conn (some block)).trans (start_reply_request _ _ _), by
            rw [hs]
            exact hsent⟩
        refine hone.behind (ih hone.progress ?_)
        rw [hone.sent, hs]
        rw [hs] at hshape
        rcases hshape with hnil | ⟨block', head', more, hmore, hbytes⟩
        · exact absurd hnil (cons_ne_nil _ _)
        · have htail : calls.flatMap Call.acts = more := (cons.inj hmore).2
          rw [htail]
          exact hbytes
    | stdout data hne =>
      obtain ⟨b, data, rfl⟩ := exists_cons_of_ne_nil hne
      cases hs : e.conn.headers_sent with
      | false =>
        rw [hs] at hshape
        rcases hshape with hnil | ⟨block', head', more, hmore, -⟩
        · exact absurd hnil (cons_ne_nil _ _)
        · exact absurd (cons.inj hmore).1 (by simp)
      | true =>
        obtain ⟨hp, hsent, -⟩ := h.stdout_sent hs (b :: data)
        have hone : Carried c0 e { e with conn := fpm_http_stdout e.conn (b :: data) }
            ((b :: data).map .byte) :=
          ⟨rfl, hp, stdout_request _ _, by rw [hs]; exact hsent⟩
        refine hone.behind (ih hone.progress ?_)
        rw [hone.sent, hs]
        rw [hs] at hshape
        exact fun a ha => hshape a (mem_append_right _ ha)

lemma Shape.shorten (h : Shape false y) (hx : x <+: y) :
    Shape false x := by
  rcases h with rfl | ⟨block, head, more, rfl, hbytes⟩
  · exact .inl (prefix_nil.mp hx)
  · cases x with
    | nil => exact .inl rfl
    | cons a x =>
      obtain ⟨rfl, hmore⟩ := cons_prefix_cons.mp hx
      exact .inr ⟨block, head, x, rfl, fun b hb => hbytes b (hmore.subset hb)⟩

structure Fresh (c : Conn) : Prop where
  progress : InProgress c c
  unsent : c.headers_sent = false

lemma Fresh.carried (h : Fresh c0) {calls : List (Call UInt8)}
    (hcalls : calls.flatMap Call.acts <+: (stream c0 p).acts) :
    Carried c0 (sent c0)
      (calls.foldl (Call.apply exchange_ops) (sent c0))
      (calls.flatMap Call.acts) := by
  refine calls_carried calls h.progress ?_
  show Shape c0.headers_sent _
  rw [h.unsent]
  exact (run_shape _ (.head []) p).1.shorten hcalls

lemma Fresh.called (h : Fresh c0) (hcalled : Called c0 p e) : InProgress c0 e.conn := by
  obtain ⟨calls, hacts, rfl⟩ := hcalled
  exact (h.carried (p := p) (hacts ▸ prefix_rfl)).progress

structure Over (mode : Mode) (c0 : Conn) (complete : Prop) (e : Exchange) : Prop where
  current : e.current = false
  told : (e.status = .switched ∧ mode.upgrading = true) ∨ Presented c0 complete e.conn.view

lemma Over.mono {p q : Prop} (h : Over mode c0 p e) (hpq : p → q) :
    Over mode c0 q e :=
  ⟨h.current, h.told.imp_right (fun hp => hp.mono hpq)⟩

lemma over_fail (hcur : e.current = true) (h : InProgress c0 e.conn) :
    Over mode c0 False e.fail := by
  unfold fail
  rw [if_pos hcur]
  exact ⟨rfl, .inr h.fail⟩

lemma complete_of_run {x : Bytes}
    (h : (http_run id mode (.head []) x).verdict = .complete) : Whole mode x False := by
  obtain ⟨y, hx, r, hwire, hframed, hclose⟩ := http_run_complete (show Phase.Clean (.head []) from rfl) h
  refine ⟨r, hframed, .inl ⟨fun hc => absurd (hclose.mp hc) false_ne_true, ?_⟩⟩
  rw [hwire, nil_append, hx]
  exact prefix_append _ _

theorem read_told (h0 : Fresh c0) {s : Side} (h : Going c0 s p) (q : Bytes) :
    Going c0 (on_read s q) (p ++ q)
      ∨ Over ⟨c0.is_head, c0.upgrading⟩ c0 (Whole ⟨c0.is_head, c0.upgrading⟩ (p ++ q) False)
          (on_read s q).request := by
  by_cases hq : q = []
  · subst hq
    rw [append_nil, h.on_read_eq]
    exact .inl h
  rcases h.read hq with ⟨-, -, hgo⟩ | ⟨-, -, e', hcalled, hend⟩ | ⟨hmore, e', hcalled, hend⟩ |
    ⟨x, calls, e', hcalls, rfl, -, hend⟩
  · exact .inl hgo
  · rw [hend]
    exact .inr ((over_fail hcalled.same.current (h0.called hcalled)).mono False.elim)
  · right
    have hp := h0.called hcalled
    rw [hend]
    cases hv : (stream c0 (p ++ q)).verdict with
    | more => exact absurd hv hmore
    | fail => exact (over_fail hcalled.same.current hp).mono False.elim
    | complete => exact ⟨rfl, .inr (hp.finish fun _ _ _ => complete_of_run hv)⟩
    | switch =>
      show Over _ c0 _ e'.switch
      unfold switch
      split
      · exact ⟨rfl, .inl ⟨rfl, run_switch _ _ _ hv⟩⟩
      · exact (over_fail (e := { e' with conn := e'.conn.alloc.2 }) hcalled.same.current
          hp.alloc).mono False.elim
  · -- a head and no memory for what came behind it
    rw [hend]
    refine .inr ((over_fail ?_ (h0.carried hcalls).progress.alloc).mono False.elim)
    exact (calls_same calls (sent c0)).current

lemma reads_told (h0 : Fresh c0) (hmode : mode = ⟨c0.is_head, c0.upgrading⟩)
    (reads : List Bytes) {s : Side}
    (h : Going c0 s p ∨ Over mode c0 (Whole mode p False) s.request) :
    Going c0 (reads.foldl on_read s) (p ++ reads.flatten)
      ∨ Over mode c0 (Whole mode (p ++ reads.flatten) False) (reads.foldl on_read s).request := by
  induction reads generalizing p s with
  | nil =>
    rw [flatten_nil, append_nil]
    exact h
  | cons q reads ih =>
    rw [flatten_cons, ← append_assoc, foldl_cons]
    apply ih
    rcases h with hgo | hover
    · rw [hmode]
      exact read_told h0 hgo q
    · have hstay : Over mode c0 (Whole mode p False) (on_read s q).request := by
        rw [on_read_over hover.current q]
        exact ⟨hover.current, hover.told⟩
      exact .inr (hstay.mono fun hc => hc.mono q False)

theorem end_told (h0 : Fresh c0) (hmode : mode = ⟨c0.is_head, c0.upgrading⟩) {s : Side}
    (e : End) (h : Going c0 s p ∨ Over mode c0 (Whole mode p False) s.request) :
    Over mode c0 (Whole mode p (e = .eof)) (http_end s e) := by
  rcases h with h | h
  · have hcur : s.request.current = true := h.called.same.current
    have hdrop : ¬ s.request.dropped = true := by
      rw [h.called.same.dropped]
      exact false_ne_true
    have hp := h0.called h.called
    have hfail : Over mode c0 (Whole mode p (e = .eof)) s.request.fail :=
      (over_fail hcur hp).mono False.elim
    -- a request is in flight
    cases e with
    | error =>
      simp only [http_end, if_neg hdrop]
      exact hfail
    | deadline =>
      simp only [http_end, if_neg hdrop, expire, if_pos hcur]
      exact ⟨rfl, .inr (hp.expire.mono False.elim)⟩
    | eof =>
      show Over mode c0 _ (on_eof s).request
      unfold on_eof
      rw [if_neg hdrop]
      split
      · rename_i hclose
        have huntil : (stream c0 p).phase.until_close = true := by
          rw [← h.phase, phase_of_done hclose.2.1]
          unfold HttpState.in_body
          rw [hclose.2.2]
          rfl
        obtain ⟨r, hwire, hframed, hiff⟩ :=
          http_run_until_close_rest (show Phase.Clean (.head []) from rfl) h.more huntil
        rw [hmode]
        refine ⟨rfl, .inr (hp.finish fun _ _ _ => ?_)⟩
        exact ⟨r, hframed, .inr ⟨hiff.mpr rfl, hwire, rfl⟩⟩
      · exact hfail
  · -- nothing is in flight: the connection goes, the client does not notice
    have hno : ¬ s.request.current = true := by rw [h.current]; exact false_ne_true
    have hstays : ∀ x : Exchange, x.conn = s.request.conn → x.status = s.request.status →
        x.current = false → Over mode c0 (Whole mode p (e = .eof)) x := by
      intro x hconn hstatus hcur
      have hmono := h.mono fun hc => hc.mono [] (e = .eof)
      rw [append_nil] at hmono
      exact ⟨hcur, by rw [hconn, hstatus]; exact hmono.told⟩
    have hfail : Over mode c0 (Whole mode p (e = .eof)) s.request.fail := by
      unfold fail
      rw [if_neg hno]
      exact hstays _ rfl rfl h.current
    cases e with
    | error =>
      simp only [http_end]
      split
      · exact hstays _ rfl rfl h.current
      · exact hfail
    | deadline =>
      simp only [http_end, expire, if_neg hno]
      split <;> exact hstays _ rfl rfl h.current
    | eof =>
      show Over mode c0 _ (on_eof s).request
      unfold on_eof
      split
      · exact hstays _ rfl rfl h.current
      · rw [if_neg (fun hc => hno hc.1)]
        exact hfail

end Http

/-! ## Both transports -/

inductive Transport where
  | fastcgi
  | http
  deriving DecidableEq

/-- What became of a request. `switched` is a connection handed over to another
protocol, whose bytes are no reply any more. -/
structure Outcome where
  view : View
  switched : Bool

def upstream_reply (transport : Transport) (c : Conn) (reads : List Bytes) (e : End) : Outcome :=
  match transport with
  | .fastcgi => { view := (fcgi_end (Fcgi.read_reply c 0 reads) e).conn.view, switched := false }
  | .http =>
    let x := http_end (reads.foldl on_read
      { request := sent c, http := HttpState.reset }) e
    { view := x.conn.view, switched := x.status == .switched }

def CompleteReply (mode : Mode) (transport : Transport) (stream : Bytes) (e : End) : Prop :=
  match transport with
  | .fastcgi => ∃ content, FcgiEnded stream content ∧ BlockEnded content
  | .http => HttpComplete line_size mode stream (e = .eof)

/-- What the gateway takes for complete though it is not: STDOUT without a header block,
and a chunked body with something behind a size that does not belong there. -/
def TakenForComplete (mode : Mode) (transport : Transport) (stream : Bytes) (e : End) (v : View) :
    Prop :=
  match transport with
  | .fastcgi => ∃ content, FcgiEnded stream content ∧ ShippedAsBody content v
  | .http => HttpComplete loose_size mode stream (e = .eof)
      ∧ ¬ HttpComplete line_size mode stream (e = .eof)

/-- Two STDOUT records of 64 KiB and one byte together with no line in them, and the
END_REQUEST. -/
def no_block_records : List Record :=
  [Fcgi.stdout_record (replicate 65535 97) []
      (by rw [length_replicate]; exact Nat.lt_succ_self 65535) (Nat.succ_pos 255),
   Fcgi.stdout_record (replicate 2 97) [] (by decide) (Nat.succ_pos 255),
   Fcgi.end_request_record]

lemma no_block_content : stdout_content no_block_records = replicate 65537 97 := by
  show replicate 65535 97 ++ (replicate 2 97 ++ []) = _
  rw [append_nil, replicate_append_replicate]

lemma no_empty_line_replicate (n : ℕ) :
    findFrom empty_line 0 (replicate n (97 : UInt8)) = none := by
  refine findFrom_eq_none_iff.mpr ?_
  intro j _ _
  rw [drop_replicate]
  generalize n - j = k
  have htake : ∀ m (p : Bytes), LF ∈ p → ((replicate k 97).take m == p) = false := by
    intro m p hp
    rw [beq_eq_false_iff_ne, take_replicate]
    rintro rfl
    exact nomatch eq_of_mem_replicate hp
  unfold empty_line
  rw [htake 2 _ (by decide), htake 4 _ (by decide)]
  rfl

lemma shipped_view (hnone : findFrom empty_line 0 content = none)
    (hlong : content.length > FPM_HTTP_MAX_CGI_HEADERS) :
    (Fcgi.one_piece (fresh plain []) content true).conn.view
      = { started := some { code := HTTP_OK, reason := [], headers := [] }, body := content
          ending := some .ended } := by
  have hne : content ≠ [] := by
    rintro rfl
    cases hlong
  have hout : fpm_http_stdout (fresh plain []) content
      = fpm_http_start_reply { (fresh plain []) with cgi_headers := some content }
          0 0 := by
    show collected _ content = _
    rw [collected_of_none _ hnone, if_pos hlong]
  unfold Fcgi.one_piece
  rw [if_neg hne, if_pos rfl, hout]
  unfold fpm_http_start_reply
  simp only [Option.getD_some]
  rw [if_neg (by rw [take_zero]; exact false_ne_true), if_pos (by omega)]
  rfl

lemma fastcgi_view (c : Conn) (reads : List Bytes) (e : End) :
    (upstream_reply .fastcgi c reads e).view
      = (fcgi_end (Fcgi.read_reply c 0 reads) e).conn.view := rfl

lemma fcgi_end_done (c : Conn) (content : Bytes) (e : End) :
    fcgi_end (Fcgi.one_piece c content true) e = Fcgi.one_piece c content true := by
  cases e <;> rfl

def loose_reply : Bytes := chunked_reply_head ++ str "0 zz\r\n\r\n"

lemma loose_reply_incomplete :
    ¬ CompleteReply ⟨false, false⟩ .http loose_reply .eof := by
  have hhead : IsHead chunked_reply_head := isHead_of_head chunked_head
  rintro ⟨interims, head, body, rest, framing, hstream, hinterims, hfirst, -, hdeclares, hframed, -⟩
  -- the stream begins with its one head, which is final
  cases interims with
  | cons h interims =>
    obtain ⟨hh, hinterim⟩ := hinterims h (.head _)
    rw [flatten_cons, append_assoc] at hstream
    rw [← hhead.unique hh hstream] at hinterim
    exact absurd hinterim (by unfold Interim; decide +kernel)
  | nil =>
    obtain rfl := hhead.unique hfirst hstream
    have hbody : str "0 zz\r\n\r\n" = body ++ rest := append_cancel_left hstream
    have hchunked : SaysChunked (text_lines chunked_reply_head).tail := by
      unfold SaysChunked
      decide +kernel
    have hfull : ¬ Bodiless ⟨false, false⟩ (head_status chunked_reply_head) := by
      unfold Bodiless
      decide +kernel
    cases framing with
    | length n => exact (hdeclares.imp (fun h => hfull h.1) fun h => h.2.1 hchunked).elim id id
    | until_close => exact hdeclares.2.1 hchunked
    | chunked =>
      obtain ⟨c, rfl⟩ := hframed
      obtain ⟨line, n, more, hwire, hnolf, hsize⟩ := c.first_line
      rw [hwire, append_assoc] at hbody
      have hcut := cut_append_cons hnolf (beq_self_eq_true LF) (more ++ rest)
      rw [← cons_append, ← hbody, show cut (· == LF) (str "0 zz\r\n\r\n")
        = some (str "0 zz\r", str "\r\n") by decide +kernel] at hcut
      rw [← (Prod.mk.inj (Option.some.inj hcut)).1] at hsize
      exact absurd hsize (by rw [show line_size (str "0 zz\r") = none by decide +kernel]; nofun)

end FpmNg.Truncation
