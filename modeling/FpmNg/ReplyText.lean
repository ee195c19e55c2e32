/-
A complete reply of an HTTP target, on its bytes.

`WholeReply` says it of a reply by what the gateway makes of its heads and its size
lines. Here nothing of the reader is used: a head is the text up to its first blank line,
its first line has the status, the other lines are fields; they declare how the body
ends, and a chunked body is made of chunks whose size lines spell their lengths. What the
reader completes on is complete in this sense, but for one leniency: it looks at one byte
behind the digits of a size line, and takes whatever comes after it (`loose_size`).
-/
import FpmNg.HttpChunks
import FpmNg.Numbers
import FpmNg.Lib.Separated

open ByteScan HttpGrammar Separated List
open FpmNg.Reply (strip_cr block_lines)

namespace FpmNg.HttpReply

/-! ## What a head declares -/

def text_lines (head : Bytes) : List Bytes := (head.splitOn LF).map strip_cr

def field_of (line : Bytes) : Option (Bytes × Bytes) :=
  if COLON ∈ line then
    some (line.takeWhile (· != COLON), trim (line.dropWhile (· != COLON)).tail)
  else none

def field_values (name : String) (lines : List Bytes) : List Bytes :=
  ((lines.filterMap field_of).filter fun f => strcaseeq f.1 (str name)).map Prod.snd

/-- The number that the second word of the status line begins with, as the bits of an
`int`; 200 if there is no such word. -/
def status_of (line : Bytes) : ℕ :=
  match line.splitOn SP with
  | _ :: word :: _ => digits_value (word.takeWhile isdigit) % 4294967296
  | _ => 200

/-- A reply of that status to such a request has no body. From 2147483648 on the `int` is
negative. -/
def Bodiless (mode : Mode) (status : ℕ) : Prop :=
  mode.is_head = true ∨ status < 200 ∨ status = 204 ∨ status = 304 ∨ 2147483648 ≤ status

/-- The value has `chunked` among its codings. -/
def names_chunked (value : Bytes) : Bool :=
  (value.splitOnP fun b => b == COMMA || b == SP || b == HT).any (strcaseeq · (str "chunked"))

def SaysChunked (lines : List Bytes) : Prop :=
  (field_values "Transfer-Encoding" lines).getLast?.any names_chunked = true

/-- The Content-Length of the lines is `n`. -/
def SaysLength (lines : List Bytes) (n : ℕ) : Prop :=
  field_values "Content-Length" lines ≠ [] ∧ ∀ v ∈ field_values "Content-Length" lines,
    v ≠ [] ∧ v.all isdigit = true ∧ digits_value v = n

def Declares (mode : Mode) (status : ℕ) (lines : List Bytes) : Framing → Prop
  | .length n => Bodiless mode status ∧ n = 0
      ∨ ¬ Bodiless mode status ∧ ¬ SaysChunked lines ∧ SaysLength lines n
  | .chunked => ¬ Bodiless mode status ∧ SaysChunked lines
  | .until_close => ¬ Bodiless mode status ∧ ¬ SaysChunked lines
      ∧ field_values "Content-Length" lines = []

/-! ## Replies -/

abbrev CRLF2 : Bytes := [CR, LF, CR, LF]

def IsHead (text : Bytes) : Prop := CRLF2 <:+ text ∧ ¬ CRLF2 <:+: text.dropLast

def head_status (text : Bytes) : ℕ := status_of ((text_lines text).headD [])

def Interim (status : ℕ) : Prop := 100 ≤ status ∧ status < 200

/-- **The stream has a complete reply**, if `size` says what a size line means: interim
heads, a final head, and the body it declares. `eof` says that the stream has ended. -/
def HttpComplete (size : Bytes → Option ℕ) (mode : Mode) (stream : Bytes) (eof : Prop) : Prop :=
  ∃ (interims : List Bytes) (head body rest : Bytes) (framing : Framing),
    stream = interims.flatten ++ (head ++ (body ++ rest))
      ∧ (∀ h ∈ interims, IsHead h ∧ Interim (head_status h))
      ∧ IsHead head ∧ ¬ Interim (head_status head)
      ∧ Declares mode (head_status head) (text_lines head).tail framing
      ∧ Framed size framing body ∧ (framing = .until_close → rest = [] ∧ eof)

def loose_size (line : Bytes) : Option ℕ :=
  if line.takeWhile is_hex ≠ [] ∧ (line.dropWhile is_hex).head?.all is_size_end = true then
    some (hex_value 0 (line.takeWhile is_hex)) else none

/-! ## Lines -/

lemma splitOn_cons_ne {b : UInt8} (h : b ≠ LF) (l : Bytes) :
    (b :: l).splitOn LF = (l.splitOn LF).modifyHead (cons b) := by
  unfold splitOn
  rw [splitOnP_cons_eq_if_modifyHead, if_neg (by simpa using h)]

lemma block_lines_concat (l : Bytes) : block_lines (l ++ [LF]) = l.splitOn LF := by
  induction l with
  | nil => rfl
  | cons b l ih =>
    rw [cons_append, block_lines, ih]
    by_cases hb : b = LF
    · subst hb
      rw [if_pos rfl]
      exact (splitOn_append_cons LF [] l).symm
    · rw [if_neg hb, splitOn_cons_ne hb]
      cases hsplit : l.splitOn LF with
      | nil => exact absurd hsplit (splitOnP_ne_nil _ _)
      | cons line lines => rfl

lemma text_lines_head {text x : Bytes} (h : text = x ++ CRLF2) :
    ∃ first fields, head_lines (text.take (text.length - 2)) = first :: fields
      ∧ text_lines text = first :: (fields ++ [[], []]) := by
  have hblock : text.take (text.length - 2) = (x ++ [CR]) ++ [LF] := by
    rw [h, length_append, show x.length + CRLF2.length - 2 = x.length + 2 from rfl, take_length_add_append]
    simp
  have hall : text = (x ++ [CR]) ++ LF :: ([CR] ++ LF :: []) := by
    rw [h]
    simp
  have hlines : text_lines text = ((x ++ [CR]).splitOn LF).map strip_cr ++ [[], []] := by
    rw [hall, text_lines, splitOn_append_cons, map_append]
    rfl
  cases hsplit : (x ++ [CR]).splitOn LF with
  | nil => exact absurd hsplit (splitOnP_ne_nil _ _)
  | cons line lines =>
    refine ⟨strip_cr line, lines.map strip_cr, ?_, ?_⟩
    · rw [hblock, head_lines, block_lines_concat, hsplit, map_cons]
    · rw [hlines, hsplit, map_cons, cons_append]

/-! ## The reader's view of a head -/

lemma split_header_eq (line : Bytes) : fpm_http_http_split_header line = field_of line := by
  unfold fpm_http_http_split_header field_of
  cases hcut : cut (· == COLON) line with
  | none =>
    have hno := (cut_eq_none_iff _ _).mp hcut
    rw [if_neg fun hc => by simpa using hno COLON hc]
    rfl
  | some kv =>
    obtain ⟨c, hc, hline, hname⟩ := cut_eq_some hcut
    obtain rfl : c = COLON := beq_iff_eq.mp hc
    have hsplit := takeWhile_append_head (p := (· != COLON)) (x := kv.1) (y := COLON :: kv.2)
      (fun b hb => by simpa using hname b hb) (by simp)
    rw [hline, if_pos (by simp), hsplit.1, hsplit.2]
    rfl

lemma token_in_from_eq (token cur value : Bytes) :
    token_in_from token cur value
      = ((value.splitOnP is_list_separator).modifyHead (cur ++ ·)).any (strcaseeq · token) := by
  induction value generalizing cur with
  | nil => simp [token_in_from]
  | cons b value ih =>
    rw [token_in_from, splitOnP_cons_eq_if_modifyHead]
    split
    · rw [ih]
      cases hsplit : value.splitOnP is_list_separator with
      | nil => exact absurd hsplit (splitOnP_ne_nil _ _)
      | cons piece pieces => simp
    · rw [ih, modifyHead_modifyHead]
      simp [Function.comp_def]

lemma token_in_eq (value : Bytes) :
    fpm_http_http_token_in value (str "chunked") = names_chunked value := by
  unfold fpm_http_http_token_in
  rw [token_in_from_eq]
  cases hsplit : value.splitOnP is_list_separator with
  | nil => exact absurd hsplit (splitOnP_ne_nil _ _)
  | cons piece pieces =>
    unfold names_chunked
    rw [show (fun b => b == COMMA || b == SP || b == HT) = is_list_separator from rfl, hsplit]
    rfl

lemma content_length_digits_eq {v n : ℕ} {value : Bytes}
    (h : content_length_digits v value = some n) :
    value.all isdigit = true ∧ value.foldl (fun v b => v * 10 + (b.toNat - 48)) v = n := by
  induction value generalizing v with
  | nil => exact ⟨rfl, Option.some.inj h⟩
  | cons b value ih =>
    rw [content_length_digits] at h
    split at h
    · exact nomatch h
    · rename_i hdigit
      split at h
      · exact nomatch h
      · obtain ⟨hall, hvalue⟩ := ih h
        exact ⟨by rw [all_cons, hall, Bool.and_true]; simpa using hdigit, hvalue⟩

lemma content_length_eq {value : Bytes} {n : ℕ} (h : fpm_http_http_content_length value = some n) :
    value ≠ [] ∧ value.all isdigit = true ∧ digits_value value = n := by
  unfold fpm_http_http_content_length at h
  split at h
  · exact nomatch h
  · rename_i hne
    exact ⟨hne, content_length_digits_eq h⟩

structure Knows (lines : List Bytes) (f : Fields) : Prop where
  chunked : f.chunked = true ↔ SaysChunked lines
  absent : f.has_length = false → field_values "Content-Length" lines = []
  present : f.has_length = true → SaysLength lines f.content_length

lemma field_values_append (name : String) (lines more : List Bytes) :
    field_values name (lines ++ more) = field_values name lines ++ field_values name more := by
  simp [field_values]

lemma field_values_other (name : String) (line : Bytes)
    (h : ∀ f ∈ field_of line, strcaseeq f.1 (str name) = false) (lines : List Bytes) :
    field_values name (lines ++ [line]) = field_values name lines := by
  rw [field_values_append]
  cases hfield : field_of line with
  | none => simp [field_values, hfield]
  | some f => simp [field_values, hfield, h f hfield]

lemma field_values_same {name : String} {line : Bytes} {f : Bytes × Bytes}
    (hfield : field_of line = some f) (h : strcaseeq f.1 (str name) = true) (lines : List Bytes) :
    field_values name (lines ++ [line]) = field_values name lines ++ [f.2] := by
  rw [field_values_append]
  simp [field_values, hfield, h]

lemma Knows.of_same {lines lines' : List Bytes} {f f' : Fields} (h : Knows lines f)
    (hte : field_values "Transfer-Encoding" lines' = field_values "Transfer-Encoding" lines)
    (hcl : field_values "Content-Length" lines' = field_values "Content-Length" lines)
    (hchunked : f'.chunked = f.chunked) (hhas : f'.has_length = f.has_length)
    (hlength : f'.content_length = f.content_length) : Knows lines' f' := by
  obtain ⟨chunked, absent, present⟩ := h
  refine ⟨?_, ?_, ?_⟩
  · rw [hchunked, SaysChunked, hte]
    exact chunked
  · rw [hhas, hcl]
    exact absent
  · rw [hhas, SaysLength, hcl, hlength]
    exact present

lemma other_name {key : Bytes} {name other : String} (h : strcaseeq key (str name) = true)
    (hne : strcaseeq (str name) (str other) = false) : strcaseeq key (str other) = false := by
  unfold strcaseeq at *
  rw [beq_iff_eq.mp h]
  exact hne

theorem Knows.line {lines : List Bytes} {f f' : Fields} {line : Bytes} (h : Knows lines f)
    (hf : framing_line f line = some f') : Knows (lines ++ [line]) f' := by
  unfold framing_line at hf
  rw [split_header_eq] at hf
  cases hfield : field_of line with
  | none =>
    rw [hfield] at hf
    obtain rfl := Option.some.inj hf
    exact h.of_same (field_values_other _ _ (by simp [hfield]) lines)
      (field_values_other _ _ (by simp [hfield]) lines) rfl rfl rfl
  | some kv =>
    obtain ⟨key, value⟩ := kv
    rw [hfield] at hf
    dsimp only at hf
    by_cases hcl : strcaseeq key (str "Content-Length") = true
    · rw [if_pos hcl] at hf
      have hte := field_values_other "Transfer-Encoding" line
        (by simpa [hfield] using other_name hcl (by decide +kernel)) lines
      have hvalues := field_values_same hfield hcl lines
      -- the reader takes a second length only if it is the same
      cases hlength : fpm_http_http_content_length value with
      | none =>
        rw [hlength] at hf
        exact nomatch hf
      | some n =>
        rw [hlength] at hf
        dsimp only at hf
        split at hf
        · exact nomatch hf
        · rename_i hsame
          obtain rfl := Option.some.inj hf
          refine ⟨?_, nofun, fun _ => ⟨by simp [hvalues], fun v hv => ?_⟩⟩
          · rw [SaysChunked, hte]
            exact h.chunked
          · rw [hvalues] at hv
            rcases mem_append.mp hv with hv | hv
            · -- an earlier one, with which this one agrees
              have hhas : f.has_length = true := by
                by_contra hno
                rw [h.absent (Bool.eq_false_iff.mpr hno)] at hv
                exact absurd hv not_mem_nil
              have hn : n = f.content_length := by
                by_contra hne
                exact hsame ⟨hhas, hne⟩
              rw [hn]
              exact (h.present hhas).2 v hv
            · rw [mem_singleton.mp hv]
              exact content_length_eq hlength
    · rw [if_neg hcl] at hf
      have hother := field_values_other "Content-Length" line
        (by simpa [hfield] using hcl) lines
      by_cases hte : strcaseeq key (str "Transfer-Encoding") = true
      · rw [if_pos hte] at hf
        obtain rfl := Option.some.inj hf
        refine ⟨?_, ?_, ?_⟩
        · -- a later coding replaces an earlier one
          rw [SaysChunked, field_values_same hfield hte, getLast?_concat]
          exact Bool.eq_iff_iff.mp (token_in_eq value)
        · rw [hother]
          exact h.absent
        · rw [SaysLength, hother]
          exact h.present
      · rw [if_neg hte] at hf
        have hsame := field_values_other "Transfer-Encoding" line
          (by simpa [hfield] using hte) lines
        split at hf <;> obtain rfl := Option.some.inj hf <;> exact h.of_same hsame hother rfl rfl rfl

theorem knows_fields {head : Bytes} {f : Fields} (h : framing_fields head = some f) :
    Knows (head_lines head).tail f := by
  unfold framing_fields at h
  generalize (head_lines head).tail = lines at h
  induction lines using reverseRecOn generalizing f with
  | nil =>
    obtain rfl := Option.some.inj h
    exact ⟨⟨nofun, nofun⟩, fun _ => rfl, nofun⟩
  | append_singleton lines line ih =>
    rw [foldlM_append, Option.bind_eq_bind, Option.bind_eq_some_iff] at h
    obtain ⟨g, hg, hline⟩ := h
    simp only [foldlM_cons, foldlM_nil, bind_pure] at hline
    exact (ih hg).line hline

lemma value_ulong_eq (v : Bytes) :
    fpm_http_http_value_ulong v % 4294967296 = digits_value (v.takeWhile isdigit) % 4294967296 := by
  unfold fpm_http_http_value_ulong digits_value
  have hfold : ∀ (ds : Bytes) (a b : ℕ), a % 4294967296 = b % 4294967296 →
      ds.foldl (fun value b => (value * 10 + digit b) % (SIZE_MAX + 1)) a % 4294967296
        = ds.foldl (fun v b => v * 10 + (b.toNat - 48)) b % 4294967296 := by
    intro ds
    induction ds with
    | nil => exact fun a b h => h
    | cons d ds ih =>
      intro a b h
      refine ih _ _ ?_
      dsimp only [digit]
      rw [show SIZE_MAX + 1 = 18446744073709551616 from rfl]
      omega
  exact hfold _ 0 0 rfl

lemma to_int_mod (v : ℕ) : to_int (v % 4294967296) = to_int v := by
  unfold to_int
  rw [Nat.mod_mod]

lemma status_code_eq (line : Bytes) : status_code line = to_int (status_of line) := by
  have hword : ∀ word, to_int (fpm_http_http_value_ulong word)
      = to_int (digits_value (word.takeWhile isdigit) % 4294967296) := by
    intro word
    rw [← value_ulong_eq, to_int_mod]
  have hno : ∀ {l : Bytes}, cut (· == SP) l = none → l.splitOn SP = [l] := by
    intro l hl
    refine splitOn_of_not_mem fun hc => ?_
    simpa using (cut_eq_none_iff _ _).mp hl SP hc
  have hsome : ∀ {l x y : Bytes}, cut (· == SP) l = some (x, y) →
      l.splitOn SP = x :: y.splitOn SP := by
    intro l x y hl
    obtain ⟨c, hc, rfl, hx⟩ := cut_eq_some hl
    obtain rfl : c = SP := beq_iff_eq.mp hc
    rw [splitOn_append_cons, splitOn_of_not_mem fun hc => by simpa using hx SP hc]
    rfl
  unfold status_code status_of
  cases hcut : cut (· == SP) line with
  | none =>
    rw [hno hcut]
    rfl
  | some parts =>
    obtain ⟨first, rest⟩ := parts
    rw [hsome hcut]
    dsimp only
    cases hcut' : cut (· == SP) rest with
    | none =>
      rw [hno hcut']
      exact hword rest
    | some parts' =>
      rw [hsome hcut']
      exact hword parts'.1

lemma status_of_lt (line : Bytes) : status_of line < 4294967296 := by
  unfold status_of
  split
  · exact Nat.mod_lt _ (by decide)
  · decide

lemma to_int_cases {s : ℕ} (h : s < 4294967296) :
    (100 ≤ to_int s ∧ to_int s < 200 ↔ Interim s)
      ∧ ∀ mode : Mode, (to_int s < 200 ∨ to_int s = 204 ∨ to_int s = 304 ∨ mode.is_head = true)
        ↔ Bodiless mode s := by
  have hint : s < 2147483648 ∧ to_int s = s ∨ 2147483648 ≤ s ∧ to_int s < 0 := by
    unfold to_int
    rw [Nat.mod_eq_of_lt h]
    dsimp only
    split <;> omega
  unfold Interim Bodiless
  refine ⟨by omega, fun mode => ?_⟩
  cases mode.is_head with
  | true => simp
  | false =>
    simp only [Bool.false_eq_true, or_false, false_or]
    omega

variable {mode : Mode} {h : Head}

lemma head_split (h : Head) : ∃ first fields,
    head_lines (h.text.take (h.text.length - 2)) = first :: fields
      ∧ head_status h.text = status_of first ∧ ∀ name, field_values name (text_lines h.text).tail
        = field_values name fields := by
  obtain ⟨x, hx, -⟩ := h.ends
  obtain ⟨first, fields, hlines, htext⟩ := text_lines_head hx
  refine ⟨first, fields, hlines, by rw [head_status, htext]; rfl, fun name => ?_⟩
  rw [htext, tail_cons, field_values_append]
  exact append_nil _

lemma interim_of_verdict (hv : h.verdict mode = .interim) : Interim (head_status h.text) := by
  obtain ⟨first, fields, hlines, hstatus, -⟩ := head_split h
  unfold Head.verdict fpm_http_http_head_done at hv
  rw [hlines, headD_cons, status_code_eq] at hv
  rw [hstatus]
  split at hv
  · exact nomatch hv
  · dsimp only at hv
    split at hv
    · exact nomatch hv
    · split at hv
      · rename_i hcode
        exact (to_int_cases (status_of_lt first)).1.mp hcode
      · exact nomatch hv

theorem declares_of_verdict {block : Bytes} {framing : Framing} {e : Bool}
    (hv : h.verdict mode = .final block framing e) :
    ¬ Interim (head_status h.text)
      ∧ Declares mode (head_status h.text) (text_lines h.text).tail framing := by
  obtain ⟨first, fields, hlines, hstatus, hvalues⟩ := head_split h
  obtain ⟨hinterim, hbodiless⟩ := to_int_cases (status_of_lt first)
  unfold Head.verdict fpm_http_http_head_done at hv
  rw [hlines, headD_cons, status_code_eq] at hv
  rw [hstatus]
  split at hv
  · exact nomatch hv
  · rename_i f hf
    obtain ⟨hchunked, habsent, hpresent⟩ := knows_fields hf
    rw [hlines, tail_cons] at hchunked habsent hpresent
    unfold SaysChunked at hchunked
    unfold SaysLength at hpresent
    simp only [← hvalues] at hchunked habsent hpresent
    dsimp only at hv
    split at hv
    · exact nomatch hv
    · split at hv
      · exact nomatch hv
      · rename_i hcode
        refine ⟨fun hc => hcode (hinterim.mpr hc), ?_⟩
        obtain ⟨-, rfl, -⟩ := HeadVerdict.final.inj hv
        -- the order of the source: status, coding, length, end of the connection
        by_cases hbody : Bodiless mode (status_of first)
        · rw [if_pos ((hbodiless mode).mpr hbody)]
          exact .inl ⟨hbody, rfl⟩
        · rw [if_neg fun hc => hbody ((hbodiless mode).mp hc)]
          by_cases hch : f.chunked = true
          · rw [if_pos hch]
            exact ⟨hbody, hchunked.mp hch⟩
          · rw [if_neg hch]
            have hno := fun hc => hch (hchunked.mpr hc)
            by_cases hlen : f.has_length = true
            · rw [if_pos hlen]
              exact .inr ⟨hbody, hno, hpresent hlen⟩
            · rw [if_neg hlen]
              exact ⟨hbody, hno, habsent (Bool.eq_false_iff.mpr hlen)⟩

/-! ## What the reader completes on -/

lemma isHead_of_head (h : Head) : IsHead h.text := by
  obtain ⟨x, hx, hfind⟩ := h.ends
  refine ⟨⟨x, hx.symm⟩, ?_⟩
  rintro ⟨p, q, hpq⟩
  obtain ⟨-, -, -, hfirst⟩ := findFrom_eq_some_iff.mp hfind
  have hlen := congrArg length hpq
  rw [length_dropLast, hx, length_append, length_append, length_append] at hlen
  have hdrop : h.text.drop p.length = CRLF2 ++ (q ++ [h.text.getLast (by rw [hx]; simp)]) := by
    conv_lhs => rw [← dropLast_append_getLast (l := h.text) (by rw [hx]; simp), ← hpq]
    simp
  have hmatch := hfirst p.length (Nat.zero_le _) (by simp only [length_cons, length_nil] at hlen; omega)
  rw [hdrop] at hmatch
  exact nomatch hmatch

lemma framed_loose {framing : Framing} {body : Bytes} (hf : Framed chunk_size framing body) :
    Framed loose_size framing body := by
  have hread : ∀ {line : Bytes} {n : ℕ}, chunk_size line = some n → loose_size line = some n := by
    intro line n hline
    rw [chunk_size_eq] at hline
    split at hline
    · rename_i hcond
      rw [loose_size, if_pos ⟨hcond.1, hcond.2.2⟩, hline]
    · exact nomatch hline
  cases framing with
  | length n => exact hf
  | until_close => trivial
  | chunked =>
    obtain ⟨c, rfl⟩ := hf
    have hc : ∀ k ∈ c.chunks, loose_size k.line = some k.data.length := fun k _ => hread k.sized
    exact ⟨c.read hc (hread c.last_sized), congrArg (· ++ _) (Chunked.flatMap_read hc _
      fun line data => line ++ [LF] ++ (data ++ [CR, LF]))⟩

lemma IsHead.unique {x y p q : Bytes} (hp : IsHead p) (hq : IsHead q) (h : p ++ x = q ++ y) :
    p = q := by
  have hshort : ∀ {p q : Bytes}, IsHead p → IsHead q → p <+: q → p = q := by
    intro p q hp hq hpq
    by_contra hne
    obtain ⟨z, rfl⟩ := hpq
    have hz : z ≠ [] := fun hz => hne (by rw [hz, append_nil])
    refine hq.2 (hp.1.isInfix.trans ?_)
    rw [dropLast_append_of_ne_nil hz]
    exact (prefix_append _ _).isInfix
  rcases prefix_or_prefix_of_prefix ⟨x, h⟩ (prefix_append q y) with hpq | hqp
  · exact hshort hp hq hpq
  · exact (hshort hq hp hqp).symm

lemma Chunked.first_line {size : Bytes → Option ℕ} (c : Chunked size) :
    ∃ line n rest, c.wire = line ++ LF :: rest ∧ NoLF line ∧ size line = some n := by
  unfold Chunked.wire
  cases c.chunks with
  | nil => exact ⟨c.last, 0, _, by rw [flatMap_nil, nil_append, append_assoc]; rfl, c.last_nolf, c.last_sized⟩
  | cons k chunks =>
    exact ⟨k.line, k.data.length, _, by simp only [flatMap_cons, Chunk.wire, append_assoc]; rfl,
      k.line_nolf, k.sized⟩

theorem complete_of_whole {stream : Bytes} {eof : Prop} (r : WholeReply mode)
    (hframed : Framed chunk_size r.framing r.body)
    (hr : r.framing ≠ .until_close ∧ r.wire <+: stream ∨ r.framing = .until_close ∧ r.wire = stream ∧ eof) :
    HttpComplete loose_size mode stream eof := by
  obtain ⟨hfinal, hdeclares⟩ := declares_of_verdict r.final
  have hinterims : ∀ t ∈ r.interims.map Head.text, IsHead t ∧ Interim (head_status t) := by
    intro t ht
    obtain ⟨h, hh, rfl⟩ := mem_map.mp ht
    exact ⟨isHead_of_head h, interim_of_verdict (r.interim h hh)⟩
  have hwire : ∀ rest, r.wire ++ rest
      = (r.interims.map Head.text).flatten ++ (r.head.text ++ (r.body ++ rest)) := by
    intro rest
    simp [WholeReply.wire, flatMap_def]
  rcases hr with ⟨hne, rest, rfl⟩ | ⟨-, rfl, heof⟩
  · exact ⟨_, _, _, rest, _, hwire rest, hinterims, isHead_of_head _, hfinal, hdeclares,
      framed_loose hframed, fun hc => absurd hc hne⟩
  · exact ⟨_, _, _, [], _, by rw [← hwire, append_nil], hinterims, isHead_of_head _, hfinal,
      hdeclares, framed_loose hframed, fun _ => ⟨rfl, heof⟩⟩

end FpmNg.HttpReply
