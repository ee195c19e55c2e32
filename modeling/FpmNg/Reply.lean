/-
The client's side of a reply: `fpm_http_start_reply`, `fpm_http_stdout`,
`fpm_http_finish` and `fpm_http_finish_truncated` of `fpm_http_fcgi.c`, with
`fpm_http_response_chunk` and the timeout answer. Both transports end here.

libevent is taken at its word: a header that it takes is on the reply, a chunk
that is handed over is appended to the body, a reply that is ended is ended.
`Conn.view` is what the client gets by that reading. Which headers libevent takes is not
known here: `Request.takes` is any test of a name and a value. Memory is explicit. Each
allocation the source tests takes one answer from `Conn.mem`, and an exhausted
list answers yes.

The pause of a slow client is not here; it moves no byte.
-/
import FpmNg.Bytes
import FpmNg.Lib.ByteScan

open ByteScan List Bool

namespace FpmNg.Reply

abbrev Header := Bytes × Bytes

/-! ## What the client gets -/

/-- `evhttp_send_reply_start`: the status line and the headers. An empty reason
is libevent's own for the code. -/
structure Start where
  code : ℕ
  reason : Bytes
  headers : List Header
  deriving DecidableEq

/-- How a reply ends: by its normal end, as an error of the gateway's own, or
cut by closing the connection. -/
inductive Ending where
  | ended
  | gateway_error (status : ℕ)
  | truncated
  deriving DecidableEq

structure View where
  started : Option Start
  body : Bytes
  ending : Option Ending
  deriving DecidableEq

/-- What a request brings to its reply. `request_id` is empty when there is none to
send; `takes` is whether `evhttp_add_header()` takes a header. -/
structure Request where
  is_head : Bool
  upgrading : Bool
  request_id : Bytes
  queue_wait_ms : Option ℕ
  out_headers : List Header
  takes : Bytes → Bytes → Bool

/-- The fields of `fpm_http_conn` the reply side reads and writes. -/
structure Conn where
  is_head : Bool
  upgrading : Bool
  request_id : Bytes
  queue_wait_ms : Option ℕ
  out_headers : List Header
  takes : Bytes → Bytes → Bool
  cgi_headers : Option Bytes
  headers_sent : Bool
  discard_upstream : Bool
  chunk_lost : Bool
  status : Option ℕ
  mem : List Bool
  view : View

namespace Conn

def alloc (c : Conn) : Bool × Conn :=
  match c.mem with
  | [] => (true, c)
  | ok :: mem => (ok, { c with mem := mem })

def add_header (c : Conn) (key value : Bytes) : Conn :=
  { c with out_headers := c.out_headers ++ [(key, value)] }

def send_reply_start (c : Conn) (code : ℕ) (reason : Bytes) : Conn :=
  { c with view := { c.view with
      started := some { code := code, reason := reason, headers := c.out_headers } } }

def send_reply_chunk (c : Conn) (data : Bytes) : Conn :=
  { c with view := { c.view with body := c.view.body ++ data } }

def end_reply (c : Conn) (ending : Ending) : Conn :=
  { c with view := { c.view with ending := some ending } }

end Conn

/-! ## The body -/

def fpm_http_response_chunk (c : Conn) (data : Bytes) : Conn :=
  if c.chunk_lost then c
  else
    let (ok, c) := c.alloc
    if ok then c.send_reply_chunk data else { c with chunk_lost := true }

/-! ## The CGI header block -/

def block_lines : Bytes → List Bytes
  | [] => []
  | b :: rest =>
    if b = LF then [] :: block_lines rest
    else
      match block_lines rest with
      | [] => [[b]]
      | line :: lines => (b :: line) :: lines

def strip_cr (line : Bytes) : Bytes := if line.getLast? = some CR then line.dropLast else line

def is_blank (b : UInt8) : Bool := b == SP || b == HT

/-- `fpm_http_direct_status_final`. -/
def fpm_http_direct_status_final (status : ℕ) : Bool := 200 ≤ status && status ≤ 599

/-- `fpm_http_parse_cgi_status`: the code and the reason. -/
def fpm_http_parse_cgi_status (value : Bytes) : Option (ℕ × Bytes) :=
  match value with
  | d2 :: d1 :: d0 :: rest =>
    if isdigit d2 && isdigit d1 && isdigit d0 then
      let code := digit d2 * 100 + digit d1 * 10 + digit d0
      match rest with
      | [] => if fpm_http_direct_status_final code then some (code, []) else none
      | b :: reason =>
        if b = SP ∧ reason.all (fun ch => 0x20 ≤ ch && ch != 0x7f) then
          if fpm_http_direct_status_final code then some (code, reason) else none
        else none
    else none
  | _ => none

/-- The locals of the header loop; `stop` is its `break`. -/
structure Scan where
  c : Conn
  code : ℕ
  reason : Bytes
  invalid_status : Bool
  stop : Bool

def reply_header (s : Scan) (key value : Bytes) : Scan :=
  if strcaseeq key (str "Status") then
    match fpm_http_parse_cgi_status value with
    | some (code, reason) =>
      let (ok, c) := s.c.alloc
      if ok then { s with c := c, code := code, reason := reason }
      else { s with c := c, code := code, reason := [], invalid_status := true }
    | none => { s with reason := [], invalid_status := true }
  else if s.c.request_id ≠ [] ∧ strcaseeq key (str "X-Request-Id") then s
  -- the result of `evhttp_add_header()` is not looked at
  else if s.c.takes key (cstr value) then
    { s with c := s.c.add_header key (cstr value) }
  else s

def reply_line (s : Scan) (line : Bytes) : Scan :=
  if s.stop then s
  else
    match cut (· == COLON) (strip_cr line) with
    | none => s
    | some (key, value) =>
      let (key_ok, c) := s.c.alloc
      if !key_ok then { s with c := c, invalid_status := true, stop := true }
      else
        let (value_ok, c) := c.alloc
        if !value_ok then { s with c := c, invalid_status := true, stop := true }
        else reply_header { s with c := c } (cstr key) (value.dropWhile is_blank)

abbrev HTTP_OK : ℕ := 200
abbrev FPM_HTTP_BAD_GATEWAY : ℕ := 502
abbrev FPM_HTTP_GATEWAY_TIMEOUT : ℕ := 504

def FPM_HTTP_BAD_GATEWAY_BODY : Bytes := str "Bad Gateway\n"

def reject_reply (c : Conn) : Conn :=
  let (ok, c) := c.alloc
  let c := { c with out_headers := [(str "Content-Type", str "text/plain")] }
  let c := if c.request_id ≠ [] then c.add_header (str "X-Request-Id") c.request_id else c
  let c := c.send_reply_start FPM_HTTP_BAD_GATEWAY (str "Bad Gateway")
  let c := if ok then c.send_reply_chunk FPM_HTTP_BAD_GATEWAY_BODY else c
  { c with
    headers_sent := true
    discard_upstream := true
    status := some FPM_HTTP_BAD_GATEWAY }

def scan_block (c : Conn) (block : Bytes) : Scan :=
  (block_lines block).foldl reply_line
    { c := c, code := HTTP_OK, reason := [], invalid_status := false, stop := false }

def open_reply (s : Scan) : Conn :=
  let c := match s.c.queue_wait_ms with
    | some waited => s.c.add_header (str "X-Fpmng-Queue-Wait") (decimal waited)
    | none => s.c
  let c := c.send_reply_start s.code s.reason
  { c with headers_sent := true, status := some s.code }

def fpm_http_start_reply (c : Conn) (head_len body_off : ℕ) : Conn :=
  let block := c.cgi_headers.getD []
  -- the source frees the block on its way out; nothing in between reads the field
  let s := scan_block { c with cgi_headers := none } (block.take head_len)
  if s.invalid_status then reject_reply s.c
  else if body_off < block.length then
    fpm_http_response_chunk (open_reply s) (block.drop body_off)
  else open_reply s

/-! ## STDOUT -/

abbrev FPM_HTTP_MAX_CGI_HEADERS : ℕ := 64 * 1024

def empty_line (l : Bytes) : Bool :=
  l.take 2 == [LF, LF] || l.take 4 == [CR, LF, CR, LF]

/-- Where the block ends and where the body starts, for an empty line at `i`. -/
def block_end (h : Bytes) (i : ℕ) : ℕ × ℕ :=
  if (h.drop i).take 2 = [LF, LF] then (i + 1, i + 2) else (i + 2, i + 4)

def fpm_http_stdout (c : Conn) (data : Bytes) : Conn :=
  if c.discard_upstream then c
  else if c.headers_sent then fpm_http_response_chunk c data
  else
    let old := c.cgi_headers.getD []
    let scan_from := if old.length > 3 then old.length - 3 else 0
    let h := old ++ data
    let c := { c with cgi_headers := some h }
    match findFrom empty_line scan_from h with
    | some i => fpm_http_start_reply c (block_end h i).1 (block_end h i).2
    | none => if h.length > FPM_HTTP_MAX_CGI_HEADERS then fpm_http_start_reply c 0 0 else c

/-! ## The end of a request -/

def fpm_http_finish_truncated (c : Conn) : Conn := c.end_reply .truncated

def bad_gateway (c : Conn) : Conn :=
  let c := { c with
    status := some FPM_HTTP_BAD_GATEWAY
    out_headers := [(str "Content-Type", str "text/plain"), (str "Connection", str "close")] }
  let (ok, c) := if c.is_head then (false, c) else c.alloc
  let c := c.send_reply_start FPM_HTTP_BAD_GATEWAY (str "Bad Gateway")
  let c := if ok then c.send_reply_chunk FPM_HTTP_BAD_GATEWAY_BODY else c
  c.end_reply (.gateway_error FPM_HTTP_BAD_GATEWAY)

/-- `fpm_http_finish`. Whether the loss is already explained decides a log line only. -/
def fpm_http_finish (c : Conn) : Conn :=
  if c.chunk_lost then fpm_http_finish_truncated c
  else if c.headers_sent then c.end_reply .ended
  else bad_gateway c

/-- `fpm_http_upstream_timeout_reply`: `evhttp_send_error`, whose page is libevent's. -/
def fpm_http_upstream_timeout_reply (c : Conn) : Conn :=
  let c := { c with status := some FPM_HTTP_GATEWAY_TIMEOUT }
  let c := c.send_reply_start FPM_HTTP_GATEWAY_TIMEOUT (str "Gateway Timeout")
  c.end_reply (.gateway_error FPM_HTTP_GATEWAY_TIMEOUT)

/-- What `fpm_http_upstream_fail` does with the request in flight. -/
def fail_request (c : Conn) : Conn :=
  if c.headers_sent ∧ ¬ c.discard_upstream then fpm_http_finish_truncated c
  else fpm_http_finish c

/-- What `fpm_http_upstream_deadline_expired` does with it. -/
def expire_request (c : Conn) : Conn :=
  if c.headers_sent ∧ ¬ c.discard_upstream then fpm_http_finish_truncated c
  else if c.headers_sent then fpm_http_finish c
  else fpm_http_upstream_timeout_reply c

def fresh (q : Request) (mem : List Bool) : Conn where
  is_head := q.is_head
  upgrading := q.upgrading
  request_id := q.request_id
  queue_wait_ms := q.queue_wait_ms
  out_headers := q.out_headers
  takes := q.takes
  cgi_headers := none
  headers_sent := false
  discard_upstream := false
  chunk_lost := false
  status := none
  mem := mem
  view := { started := none, body := [], ending := none }

/-- A request with no id on a libevent that rejects CR and LF, as
`fpm_http_direct_request.c` says of it. -/
def plain : Request where
  is_head := false
  upgrading := false
  request_id := []
  queue_wait_ms := none
  out_headers := []
  takes := fun key value => (key ++ value).all fun b => b != CR && b != LF

/-! ## Frames

The header loop and the allocations touch the header list and the memory answers
of a request and nothing else of it. -/

/-- `c'` is `c` but for its header list and its memory. -/
structure SameReply (c c' : Conn) : Prop where
  is_head : c'.is_head = c.is_head
  upgrading : c'.upgrading = c.upgrading
  request_id : c'.request_id = c.request_id
  queue_wait_ms : c'.queue_wait_ms = c.queue_wait_ms
  takes : c'.takes = c.takes
  cgi_headers : c'.cgi_headers = c.cgi_headers
  headers_sent : c'.headers_sent = c.headers_sent
  discard_upstream : c'.discard_upstream = c.discard_upstream
  chunk_lost : c'.chunk_lost = c.chunk_lost
  status : c'.status = c.status
  view : c'.view = c.view
  mem : c.mem = [] → c'.mem = []

lemma SameReply.refl (c : Conn) : SameReply c c :=
  ⟨rfl, rfl, rfl, rfl, rfl, rfl, rfl, rfl, rfl, rfl, rfl, fun h => h⟩

lemma SameReply.trans {a b c : Conn} (h : SameReply a b) (h' : SameReply b c) : SameReply a c :=
  ⟨h'.is_head.trans h.is_head, h'.upgrading.trans h.upgrading, h'.request_id.trans h.request_id,
    h'.queue_wait_ms.trans h.queue_wait_ms, h'.takes.trans h.takes, h'.cgi_headers.trans h.cgi_headers,
    h'.headers_sent.trans h.headers_sent, h'.discard_upstream.trans h.discard_upstream,
    h'.chunk_lost.trans h.chunk_lost, h'.status.trans h.status, h'.view.trans h.view,
    fun hm => h'.mem (h.mem hm)⟩

lemma alloc_same (c : Conn) : SameReply c c.alloc.2 := by
  unfold Conn.alloc
  split
  · exact SameReply.refl c
  · rename_i ok mem hmem
    refine ⟨rfl, rfl, rfl, rfl, rfl, rfl, rfl, rfl, rfl, rfl, rfl, fun h => ?_⟩
    rw [hmem] at h
    simp at h

lemma add_header_same (c : Conn) (key value : Bytes) : SameReply c (c.add_header key value) :=
  ⟨rfl, rfl, rfl, rfl, rfl, rfl, rfl, rfl, rfl, rfl, rfl, fun h => h⟩

variable (s : Scan)

lemma reply_header_same (key value : Bytes) :
    SameReply s.c (reply_header s key value).c := by
  unfold reply_header
  split
  · split
    · dsimp only
      split <;> exact alloc_same s.c
    · exact SameReply.refl s.c
  split
  · exact SameReply.refl s.c
  split
  · exact add_header_same s.c _ _
  · exact SameReply.refl s.c

lemma reply_line_same (line : Bytes) : SameReply s.c (reply_line s line).c := by
  unfold reply_line
  split
  · exact SameReply.refl s.c
  split
  · exact SameReply.refl s.c
  dsimp only
  split
  · exact alloc_same s.c
  split
  · exact (alloc_same s.c).trans (alloc_same _)
  · exact ((alloc_same s.c).trans (alloc_same _)).trans
      (reply_header_same { s with c := s.c.alloc.2.alloc.2 } _ _)

lemma reply_lines_same (lines : List Bytes) (s : Scan) :
    SameReply s.c (lines.foldl reply_line s).c := by
  induction lines generalizing s with
  | nil => exact SameReply.refl s.c
  | cons line lines ih => exact (reply_line_same s line).trans (ih _)

lemma scan_block_same (c : Conn) (block : Bytes) : SameReply c (scan_block c block).c :=
  reply_lines_same _ { c := c, code := HTTP_OK, reason := [], invalid_status := false, stop := false }

lemma reject_reply_discards (c : Conn) : (reject_reply c).discard_upstream = true := rfl

variable {c : Conn}

lemma reject_reply_mem (hm : c.mem = []) : (reject_reply c).mem = [] := by
  unfold reject_reply Conn.alloc
  rw [hm]
  dsimp only
  by_cases hid : c.request_id ≠ []
  · rw [if_pos hid]
    exact hm
  · rw [if_neg hid]
    exact hm

lemma open_reply_headers_sent : (open_reply s).headers_sent = true := rfl

lemma open_reply_frame :
    (open_reply s).mem = s.c.mem ∧ (open_reply s).discard_upstream = s.c.discard_upstream
      ∧ (open_reply s).chunk_lost = s.c.chunk_lost
      ∧ (open_reply s).cgi_headers = s.c.cgi_headers := by
  unfold open_reply
  split <;> exact ⟨rfl, rfl, rfl, rfl⟩

structure SameRequest (c c' : Conn) : Prop where
  is_head : c'.is_head = c.is_head
  upgrading : c'.upgrading = c.upgrading

lemma SameRequest.trans {a b c : Conn} (h : SameRequest a b) (h' : SameRequest b c) :
    SameRequest a c :=
  ⟨h'.is_head.trans h.is_head, h'.upgrading.trans h.upgrading⟩

lemma SameReply.request {c c' : Conn} (h : SameReply c c') : SameRequest c c' :=
  ⟨h.is_head, h.upgrading⟩

lemma collect_request (c : Conn) (h : Option Bytes) :
    SameRequest c { c with cgi_headers := h } := ⟨rfl, rfl⟩

lemma reject_reply_request (c : Conn) : SameRequest c (reject_reply c) := by
  refine (alloc_same c).request.trans ?_
  unfold reject_reply
  dsimp only
  split <;> split <;> exact ⟨rfl, rfl⟩

lemma open_reply_request : SameRequest s.c (open_reply s) := by
  unfold open_reply
  split <;> exact ⟨rfl, rfl⟩

lemma response_chunk_request (c : Conn) (data : Bytes) :
    SameRequest c (fpm_http_response_chunk c data) := by
  unfold fpm_http_response_chunk
  split
  · exact ⟨rfl, rfl⟩
  · refine (alloc_same c).request.trans ?_
    dsimp only
    split <;> exact ⟨rfl, rfl⟩

lemma start_reply_request (c : Conn) (n k : ℕ) : SameRequest c (fpm_http_start_reply c n k) := by
  have hsame : SameRequest c (scan_block { c with cgi_headers := none }
      ((c.cgi_headers.getD []).take n)).c :=
    (collect_request c none).trans (scan_block_same { c with cgi_headers := none } _).request
  unfold fpm_http_start_reply
  dsimp only
  split
  · exact hsame.trans (reject_reply_request _)
  split
  · exact (hsame.trans (open_reply_request _)).trans (response_chunk_request _ _)
  · exact hsame.trans (open_reply_request _)

lemma stdout_request (c : Conn) (data : Bytes) : SameRequest c (fpm_http_stdout c data) := by
  unfold fpm_http_stdout
  split
  · exact ⟨rfl, rfl⟩
  split
  · exact response_chunk_request c data
  dsimp only
  split
  · exact (collect_request c _).trans (start_reply_request _ _ _)
  split
  · exact (collect_request c _).trans (start_reply_request _ _ _)
  · exact ⟨rfl, rfl⟩

/-! ## Body pieces

With memory to spare, two pieces handed over one after the other are one piece. -/

lemma response_chunk_of_mem (hm : c.mem = []) (data : Bytes) :
    fpm_http_response_chunk c data = if c.chunk_lost then c else c.send_reply_chunk data := by
  unfold fpm_http_response_chunk Conn.alloc
  rw [hm]
  rfl

@[simp] lemma send_reply_chunk_nil (c : Conn) : c.send_reply_chunk [] = c := by
  simp [Conn.send_reply_chunk]

lemma send_reply_chunk_append (c : Conn) (a b : Bytes) :
    (c.send_reply_chunk a).send_reply_chunk b = c.send_reply_chunk (a ++ b) := by
  simp [Conn.send_reply_chunk]

lemma response_chunk_nil (hm : c.mem = []) : fpm_http_response_chunk c [] = c := by
  rw [response_chunk_of_mem hm, send_reply_chunk_nil, ite_self]

lemma response_chunk_append (hm : c.mem = []) (a b : Bytes) :
    fpm_http_response_chunk (fpm_http_response_chunk c a) b
      = fpm_http_response_chunk c (a ++ b) := by
  rw [response_chunk_of_mem hm, response_chunk_of_mem hm]
  by_cases hl : c.chunk_lost
  · rw [if_pos hl, if_pos hl, response_chunk_of_mem hm, if_pos hl]
  · rw [if_neg hl, if_neg hl, response_chunk_of_mem (by exact hm), if_neg (by exact hl),
      send_reply_chunk_append]

lemma stdout_append_sent (hs : c.headers_sent = true) (hm : c.mem = []) (a b : Bytes) :
    fpm_http_stdout (fpm_http_stdout c a) b = fpm_http_stdout c (a ++ b) := by
  have hstep : ∀ (d : Conn) (data : Bytes), d.headers_sent = true →
      fpm_http_stdout d data
        = if d.discard_upstream then d else fpm_http_response_chunk d data := by
    intro d data hd
    unfold fpm_http_stdout
    rw [if_pos hd]
  rw [hstep c a hs, hstep c (a ++ b) hs]
  by_cases hd : c.discard_upstream
  · rw [if_pos hd, if_pos hd, hstep c b hs, if_pos hd]
  · rw [if_neg hd, if_neg hd, ← response_chunk_append hm]
    have hframe : ∀ x, (fpm_http_response_chunk c x).headers_sent = c.headers_sent
        ∧ (fpm_http_response_chunk c x).discard_upstream = c.discard_upstream := by
      intro x
      rw [response_chunk_of_mem hm]
      split <;> exact ⟨rfl, rfl⟩
    rw [hstep _ b ((hframe a).1.trans hs), if_neg (by rw [(hframe a).2]; exact hd)]

/-! ## The end of the header block

An empty line is decided by four bytes, and by two when they are LF LF. A search
that found one is not changed by bytes behind it, and one that found none may
resume three bytes before the end. -/

lemma empty_line_local {l : Bytes} (h : 4 ≤ l.length) (x : Bytes) :
    empty_line (l ++ x) = empty_line l := by
  unfold empty_line
  rw [take_append_of_le_length (by omega), take_append_of_le_length h]

lemma take_eq_of_append {l x p : Bytes} (h : l.take p.length = p) :
    (l ++ x).take p.length = p := by
  have hlen : p.length ≤ l.length := by
    have := congrArg length h
    rw [length_take] at this
    omega
  rw [take_append_of_le_length hlen, h]

lemma empty_line_mono {l : Bytes} (h : empty_line l = true) (x : Bytes) :
    empty_line (l ++ x) = true := by
  simp only [empty_line, or_eq_true, beq_iff_eq] at h ⊢
  rcases h with h | h
  · exact .inl (take_eq_of_append (p := [LF, LF]) h)
  · exact .inr (take_eq_of_append (p := [CR, LF, CR, LF]) h)

lemma empty_line_window : Window empty_line 4 :=
  ⟨by decide, fun _ x h => empty_line_local h x, fun _ x h => empty_line_mono h x⟩

variable {h : Bytes} {i : ℕ}

lemma find_empty_line_append (hi : findFrom empty_line 0 h = some i) (x : Bytes) :
    findFrom empty_line 0 (h ++ x) = some i := by
  refine findFrom_append (fun _ x hl => empty_line_mono hl x) hi x ?_
  intro j _ hji hfalse
  by_cases h4 : 4 ≤ (h.drop j).length
  · rw [empty_line_local h4, hfalse]
  -- fewer than four bytes are left: the match is the LF LF at the very end
  obtain ⟨-, hlt, hmatch, -⟩ := findFrom_eq_some_iff.mp hi
  rw [length_drop] at h4
  have hdrop : h.drop i = [LF, LF] := by
    simp only [empty_line, or_eq_true, beq_iff_eq] at hmatch
    have hshort : (h.drop i).length ≤ 2 := by rw [length_drop]; omega
    rcases hmatch with hm | hm
    · rwa [take_of_length_le hshort] at hm
    · have := congrArg length hm
      rw [length_take] at this
      simp only [length_cons, length_nil] at this
      omega
  have hlen : h.length = i + 2 := by
    have := congrArg length hdrop
    rw [length_drop] at this
    simp only [length_cons, length_nil] at this
    omega
  have hj : j + 1 = i := by omega
  obtain ⟨a, ha⟩ : ∃ a, h.drop j = [a, LF, LF] := by
    have hjlt : j < h.length := by omega
    refine ⟨h.get ⟨j, hjlt⟩, ?_⟩
    rw [drop_eq_getElem_cons hjlt, hj, hdrop]
    rfl
  rw [ha] at hfalse ⊢
  have hne : a ≠ LF := by
    rintro rfl
    cases hfalse
  simp only [empty_line, cons_append, nil_append, take_succ_cons, take_zero,
    or_eq_false_iff, beq_eq_false_iff_ne]
  refine ⟨?_, ?_⟩
  · intro heq
    exact hne (by simpa using heq)
  · intro heq
    have := (cons.inj (cons.inj (cons.inj heq).2).2).1
    cases this

lemma block_end_le (hi : findFrom empty_line 0 h = some i) :
    (block_end h i).1 ≤ (block_end h i).2 ∧ (block_end h i).2 ≤ h.length := by
  obtain ⟨-, hlt, hmatch, -⟩ := findFrom_eq_some_iff.mp hi
  have hlen : ∀ p : Bytes, (h.drop i).take p.length = p → i + p.length ≤ h.length := by
    intro p hp
    have := congrArg length hp
    rw [length_take, length_drop] at this
    omega
  unfold block_end
  by_cases hlf : (h.drop i).take 2 = [LF, LF]
  · rw [if_pos hlf]
    have := hlen [LF, LF] hlf
    exact ⟨by dsimp only; omega, by dsimp only; omega⟩
  · rw [if_neg hlf]
    simp only [empty_line, or_eq_true, beq_iff_eq] at hmatch
    have := hlen [CR, LF, CR, LF] (hmatch.resolve_left hlf)
    exact ⟨by dsimp only; omega, by dsimp only; omega⟩

lemma block_end_append (hi : findFrom empty_line 0 h = some i) (x : Bytes) :
    block_end (h ++ x) i = block_end h i := by
  obtain ⟨-, hlt, hmatch, -⟩ := findFrom_eq_some_iff.mp hi
  have htwo : 2 ≤ (h.drop i).length := by
    have := (block_end_le hi).2
    rw [length_drop]
    unfold block_end at this
    split at this <;> dsimp only at this <;> omega
  unfold block_end
  rw [drop_append_of_le_length (by omega), take_append_of_le_length htwo]

/-! ## The header block, in any pieces -/

lemma start_reply_append (hm : c.mem = []) (hd : c.discard_upstream = false) (h y : Bytes)
    (head_len body_off : ℕ) (h1 : head_len ≤ body_off) (h2 : body_off ≤ h.length) :
    fpm_http_stdout (fpm_http_start_reply { c with cgi_headers := some h } head_len body_off) y
      = fpm_http_start_reply { c with cgi_headers := some (h ++ y) } head_len body_off := by
  unfold fpm_http_start_reply
  simp only [Option.getD_some]
  rw [take_append_of_le_length (by omega)]
  have hsame := scan_block_same { c with cgi_headers := none } (h.take head_len)
  generalize scan_block { c with cgi_headers := none } (h.take head_len) = s at hsame ⊢
  by_cases hinv : s.invalid_status
  · -- the 502 is on the wire: the rest of the upstream's reply is dropped
    rw [if_pos hinv, if_pos hinv]
    unfold fpm_http_stdout
    rw [if_pos (reject_reply_discards s.c)]
  rw [if_neg hinv, if_neg hinv]
  obtain ⟨hmem, hdisc, -, -⟩ := open_reply_frame s
  have hs2 := open_reply_headers_sent s
  generalize open_reply s = c2 at hmem hdisc hs2 ⊢
  have hm2 : c2.mem = [] := hmem.trans (hsame.mem hm)
  have hd2 : c2.discard_upstream = false := hdisc.trans (hsame.discard_upstream.trans hd)
  have hout : ∀ data, fpm_http_stdout c2 data = fpm_http_response_chunk c2 data := by
    intro data
    unfold fpm_http_stdout
    rw [if_neg (by rw [hd2]; exact false_ne_true), if_pos hs2]
  by_cases hbody : body_off < h.length
  · rw [if_pos hbody, if_pos (by rw [length_append]; omega), ← hout,
      stdout_append_sent hs2 hm2, hout, drop_append_of_le_length h2]
  · have hend : body_off = h.length := by omega
    rw [if_neg hbody, hout, hend, drop_left]
    by_cases hy : y = []
    · rw [hy, append_nil, if_neg (by omega), response_chunk_nil hm2]
    · rw [if_pos (by rw [length_append]; have := length_pos_iff.mpr hy; omega)]

/-- A request whose reply has not started: what it has collected has no empty
line in it. -/
structure Collecting (c : Conn) : Prop where
  mem : c.mem = []
  headers_sent : c.headers_sent = false
  discard_upstream : c.discard_upstream = false
  open_ : findFrom empty_line 0 (c.cgi_headers.getD []) = none

/-- The header block of `h`, if it ends, ends within the limit. -/
def BlockFits (h : Bytes) : Prop :=
  ∀ i, findFrom empty_line 0 h = some i → (block_end h i).2 ≤ FPM_HTTP_MAX_CGI_HEADERS

lemma blockFits_of_append {h x : Bytes} (hfit : BlockFits (h ++ x)) : BlockFits h := by
  intro i hi
  have := hfit i (find_empty_line_append hi x)
  rwa [block_end_append hi x] at this

/-- A request that has `h` of STDOUT and has sent nothing: the block ends at the
first empty line of `h`, and the reply starts there. -/
def collected (c : Conn) (h : Bytes) : Conn :=
  match findFrom empty_line 0 h with
  | some i =>
    fpm_http_start_reply { c with cgi_headers := some h } (block_end h i).1 (block_end h i).2
  | none =>
    if h.length > FPM_HTTP_MAX_CGI_HEADERS then
      fpm_http_start_reply { c with cgi_headers := some h } 0 0
    else { c with cgi_headers := some h }

lemma collected_of_some (c : Conn) (hi : findFrom empty_line 0 h = some i) :
    collected c h
      = fpm_http_start_reply { c with cgi_headers := some h } (block_end h i).1
          (block_end h i).2 := by
  unfold collected
  rw [hi]

lemma collected_of_none (c : Conn) (hi : findFrom empty_line 0 h = none) :
    collected c h
      = if h.length > FPM_HTTP_MAX_CGI_HEADERS then
          fpm_http_start_reply { c with cgi_headers := some h } 0 0
        else { c with cgi_headers := some h } := by
  unfold collected
  rw [hi]

lemma stdout_collecting (hc : Collecting c) (data : Bytes) :
    fpm_http_stdout c data = collected c (c.cgi_headers.getD [] ++ data) := by
  unfold fpm_http_stdout collected
  rw [if_neg (by simp [hc.discard_upstream]),
    if_neg (by simp [hc.headers_sent])]
  dsimp only
  rw [findFrom_resume empty_line_window hc.open_ data _ (by split <;> omega)]

lemma no_empty_line_of_overrun {h y : Bytes} (hnone : findFrom empty_line 0 h = none)
    (hlong : h.length > FPM_HTTP_MAX_CGI_HEADERS) (hfit : BlockFits (h ++ y)) :
    findFrom empty_line 0 (h ++ y) = none := by
  cases hi : findFrom empty_line 0 (h ++ y) with
  | none => rfl
  | some i =>
    exfalso
    have hle := hfit i hi
    obtain ⟨-, -, hmatch, -⟩ := findFrom_eq_some_iff.mp hi
    have hbefore := findFrom_eq_none_iff.mp hnone i (Nat.zero_le i)
    -- the match ends within the limit, so it lies inside `h`
    have hinside : ∀ p : Bytes, ((h ++ y).drop i).take p.length = p → i + p.length ≤ h.length →
        (h.drop i).take p.length = p := by
      intro p hp hlen
      rw [drop_append_of_le_length (by omega),
        take_append_of_le_length (by rw [length_drop]; omega)] at hp
      exact hp
    unfold block_end at hle
    by_cases hlf : ((h ++ y).drop i).take 2 = [LF, LF]
    · rw [if_pos hlf] at hle
      have := hinside [LF, LF] hlf (by simp only [length_cons, length_nil]; omega)
      have hyes : empty_line (h.drop i) = true := by
        simp only [empty_line, or_eq_true, beq_iff_eq]
        exact .inl this
      rw [hbefore (by omega)] at hyes
      cases hyes
    · rw [if_neg hlf] at hle
      simp only [empty_line, or_eq_true, beq_iff_eq] at hmatch
      have := hinside [CR, LF, CR, LF] (hmatch.resolve_left hlf)
        (by simp only [length_cons, length_nil]; omega)
      have hyes : empty_line (h.drop i) = true := by
        simp only [empty_line, or_eq_true, beq_iff_eq]
        exact .inr this
      rw [hbefore (by omega)] at hyes
      cases hyes

/-- **Two pieces are one.** As long as the header block fits, where STDOUT is cut
does not show. -/
theorem stdout_append (hc : Collecting c) (x y : Bytes)
    (hfit : BlockFits (c.cgi_headers.getD [] ++ (x ++ y))) :
    fpm_http_stdout (fpm_http_stdout c x) y = fpm_http_stdout c (x ++ y) := by
  rw [stdout_collecting hc (x ++ y), stdout_collecting hc x]
  rw [← append_assoc] at hfit ⊢
  cases hi : findFrom empty_line 0 (c.cgi_headers.getD [] ++ x) with
  | some i =>
    obtain ⟨h1, h2⟩ := block_end_le hi
    rw [collected_of_some c hi, collected_of_some c (find_empty_line_append hi y),
      block_end_append hi y]
    exact start_reply_append hc.mem hc.discard_upstream _ y _ _ h1 h2
  | none =>
    rw [collected_of_none c hi]
    by_cases hlong : (c.cgi_headers.getD [] ++ x).length > FPM_HTTP_MAX_CGI_HEADERS
    · -- shipped as a body already: no empty line can follow within the limit
      rw [if_pos hlong, collected_of_none c (no_empty_line_of_overrun hi hlong hfit),
        if_pos (by rw [length_append]; omega)]
      exact start_reply_append hc.mem hc.discard_upstream _ y 0 0 (Nat.le_refl 0) (Nat.zero_le _)
    · rw [if_neg hlong]
      exact stdout_collecting (c := { c with cgi_headers := some (c.cgi_headers.getD [] ++ x) })
        ⟨hc.mem, hc.headers_sent, hc.discard_upstream, hi⟩ y

theorem foldl_stdout (hc : Collecting c) (x : Bytes) (pieces : List Bytes)
    (hfit : BlockFits (c.cgi_headers.getD [] ++ (x ++ pieces.flatten))) :
    pieces.foldl fpm_http_stdout (fpm_http_stdout c x)
      = fpm_http_stdout c (x ++ pieces.flatten) := by
  induction pieces generalizing x with
  | nil => rw [flatten_nil, append_nil]; rfl
  | cons y pieces ih =>
    rw [flatten_cons, ← append_assoc x] at hfit ⊢
    have hxy : BlockFits (c.cgi_headers.getD [] ++ (x ++ y)) := by
      rw [← append_assoc] at hfit
      exact blockFits_of_append hfit
    rw [foldl_cons, stdout_append hc x y hxy, ih (x ++ y) hfit]

end FpmNg.Reply
