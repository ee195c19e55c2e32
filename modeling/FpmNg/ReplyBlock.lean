/-
The CGI header block as a whole: what `fpm_http_start_reply` makes of its lines.

The loop of the source adds headers while it reads, and only at the end looks at what it
found of the Status lines. Here the block is a list of fields, and the reply a function
of that list: one Status line that cannot be used makes it the gateway's own 502, and
otherwise the last Status line gives the code and every other field goes out in its
place.
-/
import FpmNg.Reply

open ByteScan List Option Bool

namespace FpmNg.Reply

open Conn

/-! ## The fields of a block -/

/-- The name and the value of a line, without the CR at its end and the blanks in front
of the value. The name is a C string. -/
def line_field (line : Bytes) : Option Header :=
  (cut (· == COLON) (strip_cr line)).map fun kv => (cstr kv.1, kv.2.dropWhile is_blank)

def block_fields (block : Bytes) : List Header := (block_lines block).filterMap line_field

def is_status (f : Header) : Bool := strcaseeq f.1 (str "Status")

def bad_status (f : Header) : Bool := is_status f && (fpm_http_parse_cgi_status f.2).isNone

/-- The code and the reason of the last Status line, or `d`. -/
def final_status_from (d : ℕ × Bytes) (fields : List Header) : ℕ × Bytes :=
  ((fields.filter is_status).filterMap fun f => fpm_http_parse_cgi_status f.2).getLast?.getD d

def final_status (fields : List Header) : ℕ × Bytes := final_status_from (HTTP_OK, []) fields

/-- A field the reply carries: not a Status line, and not the target's own id where the
gateway assigned one. -/
def carried (request_id : Bytes) (f : Header) : Bool :=
  !is_status f && !(request_id != [] && strcaseeq f.1 (str "X-Request-Id"))

def carried_headers (request_id : Bytes) (takes : Bytes → Bytes → Bool) (fields : List Header) :
    List Header :=
  ((fields.filter (carried request_id)).map fun f => (f.1, cstr f.2)).filter fun h => takes h.1 h.2

/-! ## The loop -/

variable {c : Conn}

lemma alloc_of_mem (hm : c.mem = []) : c.alloc = (true, c) := by
  unfold alloc
  rw [hm]

variable {s : Scan}

lemma reply_line_eq (hm : s.c.mem = []) (hstop : s.stop = false) (line : Bytes) :
    reply_line s line
      = (line_field line).elim s fun f => reply_header s f.1 f.2 := by
  unfold reply_line line_field
  rw [if_neg (by simp [hstop])]
  cases cut (· == COLON) (strip_cr line) with
  | none => rfl
  | some kv =>
    dsimp
    rw [alloc_of_mem hm]
    rw [alloc_of_mem hm]
    rfl

def Scan.carry (s : Scan) (fields : List Header) : Scan :=
  { s with
    c := { s.c with out_headers := s.c.out_headers ++ carried_headers s.c.request_id s.c.takes fields }
    code := (final_status_from (s.code, s.reason) fields).1
    reason := (final_status_from (s.code, s.reason) fields).2 }

lemma carried_headers_append (request_id : Bytes) (takes : Bytes → Bytes → Bool)
    (fields more : List Header) :
    carried_headers request_id takes (fields ++ more)
      = carried_headers request_id takes fields ++ carried_headers request_id takes more := by
  simp [carried_headers]

lemma final_status_from_append (d : ℕ × Bytes) (fields more : List Header) :
    final_status_from d (fields ++ more) = final_status_from (final_status_from d fields) more := by
  unfold final_status_from
  rw [filter_append, filterMap_append, getLast?_append]
  cases ((more.filter is_status).filterMap fun f => fpm_http_parse_cgi_status f.2).getLast? <;> rfl

lemma Scan.carry_append (s : Scan) (fields more : List Header) :
    s.carry (fields ++ more) = (s.carry fields).carry more := by
  unfold Scan.carry
  rw [carried_headers_append, final_status_from_append, append_assoc]

lemma reply_header_eq (hm : s.c.mem = []) {f : Header} (hok : bad_status f = false) :
    reply_header s f.1 f.2 = s.carry [f] := by
  unfold reply_header Scan.carry
  by_cases hstatus : is_status f = true
  · have hparse : ∃ x, fpm_http_parse_cgi_status f.2 = some x := by
      rw [bad_status, hstatus, Bool.true_and, isNone_eq_false_iff] at hok
      exact isSome_iff_exists.mp hok
    obtain ⟨⟨code, reason⟩, hparse⟩ := hparse
    rw [if_pos (show strcaseeq f.1 (str "Status") = true from hstatus), hparse]
    rw [alloc_of_mem hm]
    simp [carried_headers, carried, final_status_from, hstatus, hparse]
  · rw [if_neg (show ¬ strcaseeq f.1 (str "Status") = true from hstatus)]
    rw [not_eq_true] at hstatus
    have hsame : final_status_from (s.code, s.reason) [f] = (s.code, s.reason) := by
      simp [final_status_from, hstatus]
    rw [hsame]
    by_cases hid : s.c.request_id ≠ [] ∧ strcaseeq f.1 (str "X-Request-Id") = true
    · rw [if_pos hid]
      simp [carried_headers, carried, hid.1, hid.2]
    · rw [if_neg hid]
      have hcarried : carried s.c.request_id f = true := by
        unfold carried
        rw [hstatus, Bool.not_false, Bool.true_and, not_eq_true', and_eq_false_iff]
        by_cases hnone : s.c.request_id = []
        · exact .inl (by simp [hnone])
        · refine .inr ?_
          rw [← not_eq_true]
          exact fun h => hid ⟨hnone, h⟩
      by_cases htake : s.c.takes f.1 (cstr f.2) = true
      · rw [if_pos htake]
        simp [carried_headers, hcarried, htake, add_header]
      · rw [if_neg htake]
        simp [carried_headers, hcarried, htake]

variable (lines : List Bytes)

theorem reply_lines_eq (hm : s.c.mem = []) (hstop : s.stop = false)
    (hok : ∀ f ∈ lines.filterMap line_field, bad_status f = false) :
    lines.foldl reply_line s = s.carry (lines.filterMap line_field) := by
  induction lines generalizing s with
  | nil =>
    unfold Scan.carry
    simp [carried_headers, final_status_from]
  | cons line lines ih =>
    rw [foldl_cons, reply_line_eq hm hstop]
    cases hf : line_field line with
    | none =>
      rw [filterMap_cons_none hf] at hok ⊢
      exact ih hm hstop hok
    | some f =>
      rw [filterMap_cons_some hf] at hok ⊢
      rw [elim_some, reply_header_eq hm (hok f (by simp)),
        ih (s := s.carry [f]) hm hstop fun g hg => hok g (by simp [hg]), ← Scan.carry_append]
      rfl

def Scan.Verdict (s : Scan) : Prop := s.stop = true → s.invalid_status = true

lemma reply_header_invalid (s : Scan) (key value : Bytes) (h : s.invalid_status = true) :
    (reply_header s key value).invalid_status = true := by
  unfold reply_header
  split
  · split
    · dsimp only
      split
      · exact h
      · rfl
    · rfl
  split
  · exact h
  split <;> exact h

lemma reply_line_invalid (s : Scan) (line : Bytes) (h : s.invalid_status = true) :
    (reply_line s line).invalid_status = true := by
  unfold reply_line
  split
  · exact h
  split
  · exact h
  dsimp only
  split
  · rfl
  split
  · rfl
  · exact reply_header_invalid _ _ _ h

lemma reply_lines_invalid (s : Scan) (h : s.invalid_status = true) :
    (lines.foldl reply_line s).invalid_status = true := by
  induction lines generalizing s with
  | nil => exact h
  | cons line lines ih => exact ih _ (reply_line_invalid s line h)

lemma reply_header_stop (s : Scan) (key value : Bytes) :
    (reply_header s key value).stop = s.stop := by
  unfold reply_header
  split
  · split
    · dsimp only
      split <;> rfl
    · rfl
  split
  · rfl
  split <;> rfl

lemma reply_line_verdict (h : s.Verdict) (line : Bytes) : (reply_line s line).Verdict := by
  unfold reply_line
  split
  · exact h
  · rename_i hgoing
    split
    · exact h
    dsimp only
    split
    · exact fun _ => rfl
    split
    · exact fun _ => rfl
    · intro hstop
      rw [reply_header_stop] at hstop
      exact absurd hstop hgoing

lemma reply_line_bad (h : s.Verdict) {line : Bytes} {f : Header} (hf : line_field line = some f)
    (hbad : bad_status f = true) :
    (reply_line s line).invalid_status = true := by
  obtain ⟨⟨key, value⟩, hcut, rfl⟩ := map_eq_some_iff.mp hf
  obtain ⟨hstatus, hparse⟩ := and_eq_true_iff.mp hbad
  unfold reply_line
  split
  · rename_i hstop
    exact h hstop
  · rw [hcut]
    dsimp only
    split
    · rfl
    split
    · rfl
    · unfold reply_header
      rw [if_pos (show strcaseeq (cstr key) (str "Status") = true from hstatus),
        isNone_iff_eq_none.mp hparse]

lemma reply_lines_bad (h : s.Verdict)
    (hbad : ∃ f ∈ lines.filterMap line_field, bad_status f = true) :
    (lines.foldl reply_line s).invalid_status = true := by
  induction lines generalizing s with
  | nil =>
    obtain ⟨f, hf, -⟩ := hbad
    exact nomatch hf
  | cons line lines ih =>
    obtain ⟨f, hf, hstatus⟩ := hbad
    obtain ⟨line', hmem, hline⟩ := mem_filterMap.mp hf
    rcases mem_cons.mp hmem with rfl | hmem
    · exact reply_lines_invalid lines _ (reply_line_bad h hline hstatus)
    · exact ih (reply_line_verdict h line) ⟨f, mem_filterMap.mpr ⟨line', hmem, hline⟩, hstatus⟩

/-! ## The reply -/

def own_headers (request_id : Bytes) : List Header :=
  (str "Content-Type", str "text/plain") ::
    if request_id ≠ [] then [(str "X-Request-Id", request_id)] else []

def queue_headers (queue_wait_ms : Option ℕ) : List Header :=
  match queue_wait_ms with
  | some waited => [(str "X-Fpmng-Queue-Wait", decimal waited)]
  | none => []

lemma scan_block_bad (c : Conn) {block : Bytes} (h : ∃ f ∈ block_fields block, bad_status f = true) :
    (scan_block c block).invalid_status = true :=
  reply_lines_bad _ (fun hstop => nomatch hstop) h

lemma scan_block_eq (hm : c.mem = []) {block : Bytes}
    (h : ∀ f ∈ block_fields block, bad_status f = false) :
    scan_block c block = (⟨c, HTTP_OK, [], false, false⟩ : Scan).carry (block_fields block) :=
  reply_lines_eq _ hm rfl h

structure OwnError (request_id : Bytes) (c : Conn) : Prop where
  started : c.view.started = some ⟨FPM_HTTP_BAD_GATEWAY, str "Bad Gateway", own_headers request_id⟩
  body : c.view.body = [] ∨ c.view.body = FPM_HTTP_BAD_GATEWAY_BODY
  sent : c.headers_sent = true
  discard : c.discard_upstream = true
  whole : c.chunk_lost = false

lemma reject_reply_view (c : Conn) :
    (reject_reply c).view
        = { started := some ⟨FPM_HTTP_BAD_GATEWAY, str "Bad Gateway", own_headers c.request_id⟩
            body := c.view.body ++ (if c.alloc.1 then FPM_HTTP_BAD_GATEWAY_BODY else [])
            ending := c.view.ending }
      ∧ (reject_reply c).request_id = c.request_id ∧ (reject_reply c).chunk_lost = c.chunk_lost := by
  have ha := alloc_same c
  unfold reject_reply own_headers
  generalize c.alloc = a at ha ⊢
  obtain ⟨ok, c'⟩ := a
  dsimp only at ha ⊢
  rw [← ha.request_id, ← ha.view, ← ha.chunk_lost]
  by_cases hne : c'.request_id ≠ []
  · rw [if_pos hne, if_pos hne]
    cases ok <;> simp [send_reply_start, send_reply_chunk, add_header]
  · rw [if_neg hne, if_neg hne]
    cases ok <;> simp [send_reply_start, send_reply_chunk]

lemma reject_reply_own (hview : c.view.body = []) (hwhole : c.chunk_lost = false) :
    OwnError c.request_id (reject_reply c) := by
  obtain ⟨hrejected, -, hlost⟩ := reject_reply_view c
  refine ⟨by rw [hrejected], ?_, rfl, rfl, hlost.trans hwhole⟩
  rw [hrejected, hview]
  split
  · exact .inr rfl
  · exact .inl rfl

lemma OwnError.stdout {request_id : Bytes} (h : OwnError request_id c) (later : List Bytes) :
    later.foldl fpm_http_stdout c = c := by
  induction later with
  | nil => rfl
  | cons data later ih =>
    have hsame : fpm_http_stdout c data = c := by
      unfold fpm_http_stdout
      rw [if_pos h.discard]
    rw [foldl_cons, hsame, ih]

lemma open_reply_view (s : Scan) :
    (open_reply s).view = { s.c.view with
      started := some ⟨s.code, s.reason, s.c.out_headers ++ queue_headers s.c.queue_wait_ms⟩ } := by
  unfold open_reply queue_headers
  cases hq : s.c.queue_wait_ms with
  | none => simp [send_reply_start]
  | some waited => simp [send_reply_start, add_header]

theorem start_reply_carried (hm : c.mem = []) {data : Bytes} (n k : ℕ)
    (hwhole : c.chunk_lost = false) (hdata : c.cgi_headers = some data)
    (h : ∀ f ∈ block_fields (data.take n), bad_status f = false) :
    (fpm_http_start_reply c n k).view
      = { started := some
            ⟨(final_status (block_fields (data.take n))).1, (final_status (block_fields (data.take n))).2,
              c.out_headers ++ carried_headers c.request_id c.takes (block_fields (data.take n))
                ++ queue_headers c.queue_wait_ms⟩
          body := c.view.body ++ data.drop k
          ending := c.view.ending } := by
  have hscan := scan_block_eq (c := { c with cgi_headers := none }) hm h
  unfold fpm_http_start_reply
  rw [hdata, getD_some]
  dsimp only
  rw [hscan]
  generalize hs : (⟨{ c with cgi_headers := none }, HTTP_OK, [], false, false⟩ : Scan).carry
    (block_fields (data.take n)) = s
  have hview : (open_reply s).view = { c.view with
      started := some ⟨(final_status (block_fields (data.take n))).1,
        (final_status (block_fields (data.take n))).2,
        c.out_headers ++ carried_headers c.request_id c.takes (block_fields (data.take n))
          ++ queue_headers c.queue_wait_ms⟩ } := by
    rw [open_reply_view, ← hs]
    rfl
  have hframe := open_reply_frame s
  have hvalid : s.invalid_status = false := by rw [← hs]; rfl
  rw [if_neg (by simp [hvalid])]
  have hsmem : s.c.mem = [] := by rw [← hs]; exact hm
  have hswhole : s.c.chunk_lost = false := by rw [← hs]; exact hwhole
  by_cases hk : k < data.length
  · rw [if_pos hk, response_chunk_of_mem (hframe.1.trans hsmem),
      if_neg (by rw [hframe.2.2.1, hswhole]; exact false_ne_true)]
    unfold send_reply_chunk
    rw [hview]
  · rw [if_neg hk, hview, drop_of_length_le (by omega), append_nil]

end FpmNg.Reply
