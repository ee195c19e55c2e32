/-
The response reader of the HTTP transport, `fpm_http_http_data` and
`fpm_http_http_body` of `fpm_http_client.c`: a head that is collected until its
blank line, interim heads that are skipped, and a body by length, in chunks or
until the connection ends.

Like the FastCGI loop the reader is generic in the state it acts on and in the
byte type. `http_run` is the same reader one byte at a time, without buffers to
resume and without the two limits that depend on where a read ended. The main
result says that `fpm_http_http_data` calls what `http_run` says and comes to the
same verdict, unless one of the limits was hit or memory ran out.
-/
import FpmNg.HttpHead

open ByteScan WhileLoop List

namespace FpmNg.HttpReply

/-! ## The parser state -/

/-- The `body` enumeration of `struct fpm_http_http_state_s`. -/
inductive Body where
  | CL
  | CHUNK_SIZE
  | CHUNK_DATA
  | CHUNK_CRLF
  | TRAILERS
  | EOF
  deriving DecidableEq

/-- `struct fpm_http_http_state_s`. -/
structure HttpState (β : Type) where
  head : List β
  head_scan : ℕ
  head_done : Bool
  body : Body
  remaining : ℕ
  line : List β
  expect_eof : Bool
  deriving DecidableEq

/-- `fpm_http_http_state_reset`. -/
def HttpState.reset {β : Type} : HttpState β where
  head := []
  head_scan := 0
  head_done := false
  body := .CL
  remaining := 0
  line := []
  expect_eof := false

/-- What the reader does with the rest of the gateway. `start` is given the CGI
block and the head it was made from, `complete` whether the connection is spent,
`switch` the head and what came behind it. -/
structure HttpOps (σ β : Type) where
  current : σ → Bool
  is_head : σ → Bool
  upgrading : σ → Bool
  start : σ → Bytes → List β → σ
  alloc : σ → Bool × σ
  stdout : σ → List β → σ
  complete : σ → Bool → σ
  fail : σ → σ
  switch : σ → List β → List β → σ
  dead : σ → Bool

inductive Verdict where
  | more
  | complete
  | fail
  | switch
  deriving DecidableEq

/-! ## Chunk sizes -/

def hex_digit (b : UInt8) : Option ℕ :=
  if 48 ≤ b ∧ b ≤ 57 then some (b.toNat - 48)
  else if 97 ≤ b ∧ b ≤ 102 then some (b.toNat - 97 + 10)
  else if 65 ≤ b ∧ b ≤ 70 then some (b.toNat - 65 + 10)
  else none

def chunk_size_digits : ℕ → Bytes → Option (ℕ × Bytes)
  | value, [] => some (value, [])
  | value, b :: line =>
    match hex_digit b with
    | none => some (value, b :: line)
    | some d =>
      if value > SIZE_MAX / 16 then none else chunk_size_digits (value * 16 + d) line

def chunk_size (line : Bytes) : Option ℕ :=
  match chunk_size_digits 0 line with
  | none => none
  | some (value, rest) =>
    if rest.length = line.length then none
    else
      match rest with
      | [] => some value
      | b :: _ => if b = 59 ∨ b = CR ∨ b = SP ∨ b = HT then some value else none

abbrev LINE_MAX : ℕ := 16384

def blank_line (line : Bytes) : Bool := line == [] || line == [CR]

/-! ## The body -/

structure BodyData (σ β : Type) where
  st : σ
  http : HttpState β
  buf : List β
  rc : Verdict

variable {e : Bool} {n : ℕ}

section
variable {σ β : Type}

/-- `take` payload bytes go to the client. -/
def take_payload (ops : HttpOps σ β) (d : BodyData σ β) : BodyData σ β :=
  let take := min d.http.remaining d.buf.length
  if take = 0 then d
  else
    { d with
      st := ops.stdout d.st (d.buf.take take)
      http := { d.http with remaining := d.http.remaining - take }
      buf := d.buf.drop take }

def length_pass (ops : HttpOps σ β) (d : BodyData σ β) : Pass (BodyData σ β) :=
  let d := take_payload ops d
  .leave { d with rc := if d.http.remaining = 0 then .complete else .more }

def size_pass (val : β → UInt8) (d : BodyData σ β) : Pass (BodyData σ β) :=
  match cut (fun b => val b == LF) d.buf with
  | none =>
    let http := { d.http with line := d.http.line ++ d.buf }
    if http.line.length > LINE_MAX then .leave { d with http := http, rc := .fail }
    else .leave { d with http := http, buf := [], rc := .more }
  | some (x, rest) =>
    match chunk_size ((d.http.line ++ x).map val) with
    | none => .leave { d with rc := .fail }
    | some n =>
      .again { d with
        http := { d.http with
          remaining := n, line := [], body := if n ≠ 0 then .CHUNK_DATA else .TRAILERS }
        buf := rest }

/-- The payload of a chunk. The inner loop of the source takes everything in its
first round. -/
def payload_pass (ops : HttpOps σ β) (d : BodyData σ β) : Pass (BodyData σ β) :=
  let d := take_payload ops d
  if d.http.remaining = 0 then .again { d with http := { d.http with body := .CHUNK_CRLF } }
  else .leave { d with rc := .more }

/-- The CRLF behind a payload; a CR may be held over in `line`. -/
def crlf_pass (val : β → UInt8) (d : BodyData σ β) : Pass (BodyData σ β) :=
  if d.http.line ≠ [] then
    let http := { d.http with line := [] }
    match d.buf with
    | b :: rest =>
      if val b ≠ LF then .leave { d with http := http, rc := .fail }
      else .again { d with http := { http with body := .CHUNK_SIZE }, buf := rest }
    | [] => .leave { d with rc := .more }
  else
    match d.buf with
    | b :: b' :: rest =>
      if val b = CR ∧ val b' = LF then
        .again { d with http := { d.http with body := .CHUNK_SIZE }, buf := rest }
      else .leave { d with rc := .fail }
    | [b] =>
      if val b = CR then
        .leave { d with http := { d.http with line := [b] }, buf := [], rc := .more }
      else .leave { d with rc := .fail }
    | [] => .leave { d with rc := .more }

def trailer_pass (val : β → UInt8) (d : BodyData σ β) : Pass (BodyData σ β) :=
  match cut (fun b => val b == LF) d.buf with
  | none =>
    let http := { d.http with line := d.http.line ++ d.buf }
    if http.line.length > LINE_MAX then .leave { d with http := http, rc := .fail }
    else .leave { d with http := http, buf := [], rc := .more }
  | some (x, rest) =>
    let line := d.http.line ++ x
    let http := { d.http with line := [] }
    if line.length > LINE_MAX then .leave { d with rc := .fail }
    else if blank_line (line.map val) then
      .leave { d with http := http, buf := rest, rc := .complete }
    else .again { d with http := http, buf := rest }

/-- One pass of the `while (*len > 0)` loop. -/
def body_pass (val : β → UInt8) (ops : HttpOps σ β) (d : BodyData σ β) : Pass (BodyData σ β) :=
  if d.buf = [] then .leave { d with rc := .more }
  else
    match d.http.body with
    | .CL => length_pass ops d
    | .CHUNK_SIZE => size_pass val d
    | .CHUNK_DATA => payload_pass ops d
    | .CHUNK_CRLF => crlf_pass val d
    | .TRAILERS => trailer_pass val d
    | .EOF => .leave { d with st := ops.stdout d.st d.buf, buf := [], rc := .more }

/-- Payload that is used up changes the state before it takes a byte. -/
def body_measure (d : BodyData σ β) : ℕ :=
  2 * d.buf.length + if d.http.body = .CHUNK_DATA then 1 else 0

def fpm_http_http_body (val : β → UInt8) (ops : HttpOps σ β) (st : σ) (http : HttpState β)
    (buf : List β) : BodyData σ β :=
  loop body_measure (body_pass val ops) { st := st, http := http, buf := buf, rc := .more }

/-! ## Heads -/

abbrev FPM_HTTP_HTTP_MAX_HEAD : ℕ := 256 * 1024

def crlf2 (val : β → UInt8) (l : List β) : Bool := (l.take 4).map val == [CR, LF, CR, LF]

inductive HeadOutcome (β : Type) where
  | wait
  | too_long
  | invalid
  | switch (head tail : List β)
  | final (block : Bytes) (framing : Framing) (expect_eof : Bool) (head tail : List β)

/-- From `rescan:` to the next `goto rescan`: one head, or none yet. -/
def rescan_pass (val : β → UInt8) (is_head upgrading : Bool)
    (s : HttpState β × HeadOutcome β) : Pass (HttpState β × HeadOutcome β) :=
  let http := s.1
  let scanned := { http with head_scan := http.head.length }
  match findFrom (crlf2 val) (http.head_scan - 3) http.head with
  | none =>
    .leave (scanned, if http.head.length > FPM_HTTP_HTTP_MAX_HEAD then .too_long else .wait)
  | some i =>
    let tail := http.head.drop (i + 4)
    match fpm_http_http_head_done is_head upgrading ((http.head.take (i + 2)).map val) with
    | .invalid => .leave (scanned, .invalid)
    | .switch => .leave (scanned, .switch (http.head.take (i + 4)) tail)
    | .interim =>
      if tail ≠ [] then .again ({ scanned with head_scan := 0, head := tail }, .wait)
      else .leave ({ scanned with head_scan := 0, head := [] }, .wait)
    | .final block framing expect_eof =>
      .leave (scanned, .final block framing expect_eof (http.head.take (i + 4)) tail)

def rescan (val : β → UInt8) (is_head upgrading : Bool) (http : HttpState β) :
    HttpState β × HeadOutcome β :=
  loop (fun s => s.1.head.length) (rescan_pass val is_head upgrading) (http, .wait)

/-- The fields the end of `fpm_http_http_head_done` sets. -/
def HttpState.frame (http : HttpState β) (framing : Framing) (expect_eof : Bool) : HttpState β :=
  let http := { http with expect_eof := expect_eof || http.expect_eof, head_done := true }
  match framing with
  | .length n => { http with body := .CL, remaining := n }
  | .chunked => { http with body := .CHUNK_SIZE, remaining := 0 }
  | .until_close => { http with body := .EOF }

/-- `smart_str_free(&st->head)`. -/
def HttpState.free_head (http : HttpState β) : HttpState β := { http with head := [] }

/-! ## The reader -/

structure HttpData (σ β : Type) where
  st : σ
  http : HttpState β
  buf : List β

/-- `fpm_http_http_complete`, which resets the parser first. -/
def complete_pass (ops : HttpOps σ β) (d : HttpData σ β) : Pass (HttpData σ β) :=
  let d := { d with st := ops.complete d.st d.http.expect_eof, http := HttpState.reset }
  if ops.dead d.st then .leave d else .again d

/-- What follows a return of `fpm_http_http_body`; `buf` is what it left. -/
def after_body (ops : HttpOps σ β) (r : BodyData σ β) (buf : List β) : Pass (HttpData σ β) :=
  if ops.dead r.st then .leave { st := r.st, http := r.http, buf := buf }
  else
    match r.rc with
    | .fail => .leave { st := ops.fail r.st, http := r.http, buf := buf }
    | .complete =>
      -- `fpm_http_http_leftover`: bytes behind a response spend the connection
      let http := if r.buf ≠ [] then { r.http with expect_eof := true } else r.http
      complete_pass ops { st := r.st, http := http, buf := buf }
    | _ => .again { st := r.st, http := r.http, buf := buf }

def start_pass (val : β → UInt8) (ops : HttpOps σ β) (st : σ) (http : HttpState β) (block : Bytes)
    (framing : Framing) (expect_eof : Bool) (head tail : List β) : Pass (HttpData σ β) :=
  let st := ops.start st block head
  let http := http.frame framing expect_eof
  if ops.dead st then .leave { st := st, http := http, buf := [] }
  else if tail = [] ∧ http.body = .CL ∧ http.remaining = 0 then
    complete_pass ops { st := st, http := http, buf := [] }
  else if tail = [] then .again { st := st, http := http.free_head, buf := [] }
  else
    let a := ops.alloc st
    if !a.1 then .leave { st := ops.fail a.2, http := http, buf := [] }
    else after_body ops (fpm_http_http_body val ops a.2 http.free_head tail) []

/-- One pass of the `while (len > 0)` loop. -/
def http_pass (val : β → UInt8) (ops : HttpOps σ β) (d : HttpData σ β) : Pass (HttpData σ β) :=
  if d.buf = [] then .leave d
  else if !ops.current d.st then .leave { d with st := ops.fail d.st }
  else if !d.http.head_done then
    let s := rescan val (ops.is_head d.st) (ops.upgrading d.st)
      { d.http with head := d.http.head ++ d.buf }
    match s.2 with
    | .wait => .again { d with http := s.1, buf := [] }
    | .too_long => .leave { st := ops.fail d.st, http := s.1, buf := [] }
    | .invalid => .leave { st := ops.fail d.st, http := s.1, buf := [] }
    | .switch head tail => .leave { st := ops.switch d.st head tail, http := s.1, buf := [] }
    | .final block framing expect_eof head tail =>
      start_pass val ops d.st s.1 block framing expect_eof head tail
  else
    let r := fpm_http_http_body val ops d.st d.http d.buf
    after_body ops r r.buf

def fpm_http_http_data (val : β → UInt8) (ops : HttpOps σ β) (st : σ) (http : HttpState β)
    (buf : List β) : HttpData σ β :=
  loop (fun d => d.buf.length) (http_pass val ops) { st := st, http := http, buf := buf }

/-! ## One byte at a time -/

inductive Phase (β : Type) where
  | head (l : List β)
  | body (b : Body) (remaining : ℕ) (line : List β) (expect_eof : Bool)
  deriving DecidableEq

/-- What the stream says: a final head, or a byte of the body. -/
inductive Act (β : Type) where
  | start (block : Bytes) (head : List β)
  | byte (b : β)

def Framing.opened (framing : Framing) (expect_eof : Bool) : Phase β :=
  match framing with
  | .length n => .body .CL n [] expect_eof
  | .chunked => .body .CHUNK_SIZE 0 [] expect_eof
  | .until_close => .body .EOF 0 [] expect_eof

structure Mode where
  is_head : Bool
  upgrading : Bool

def head_step (l : List β) : HeadVerdict → Phase β × List (Act β) × Verdict
  | .invalid => (.head l, [], .fail)
  | .switch => (.head l, [], .switch)
  | .interim => (.head [], [], .more)
  | .final block framing expect_eof =>
    (framing.opened expect_eof, [.start block l],
      if framing = .length 0 then .complete else .more)

def after_head (val : β → UInt8) (mode : Mode) (l : List β) :
    Phase β × List (Act β) × Verdict :=
  head_step l
    (fpm_http_http_head_done mode.is_head mode.upgrading ((l.take (l.length - 2)).map val))

def body_byte (val : β → UInt8) (b : Body) (remaining : ℕ) (line : List β) (expect_eof : Bool)
    (x : β) : Phase β × List (Act β) × Verdict :=
  match b with
  | .CL =>
    (.body .CL (remaining - 1) line expect_eof, [.byte x],
      if remaining - 1 = 0 then .complete else .more)
  | .CHUNK_SIZE =>
    if val x = LF then
      match chunk_size (line.map val) with
      | none => (.body b remaining line expect_eof, [], .fail)
      | some n =>
        (.body (if n ≠ 0 then .CHUNK_DATA else .TRAILERS) n [] expect_eof, [], .more)
    else (.body b remaining (line ++ [x]) expect_eof, [], .more)
  | .CHUNK_DATA =>
    (.body (if remaining - 1 = 0 then .CHUNK_CRLF else .CHUNK_DATA) (remaining - 1) line expect_eof,
      [.byte x], .more)
  | .CHUNK_CRLF =>
    if line ≠ [] then
      if val x = LF then (.body .CHUNK_SIZE remaining [] expect_eof, [], .more)
      else (.body b remaining line expect_eof, [], .fail)
    else if val x = CR then (.body b remaining [x] expect_eof, [], .more)
    else (.body b remaining line expect_eof, [], .fail)
  | .TRAILERS =>
    if val x = LF then
      if blank_line (line.map val) then (.body b remaining [] expect_eof, [], .complete)
      else (.body b remaining [] expect_eof, [], .more)
    else
      (.body b remaining (line ++ [x]) expect_eof, [],
        if (line ++ [x]).length > LINE_MAX then .fail else .more)
  | .EOF => (.body b remaining line expect_eof, [.byte x], .more)

def http_byte (val : β → UInt8) (mode : Mode) : Phase β → β → Phase β × List (Act β) × Verdict
  | .head l, x =>
    if crlf2 val ((l ++ [x]).drop (l.length - 3)) then after_head val mode (l ++ [x])
    else (.head (l ++ [x]), [], .more)
  | .body b remaining line expect_eof, x => body_byte val b remaining line expect_eof x

structure Result (β : Type) where
  phase : Phase β
  acts : List (Act β)
  verdict : Verdict
  rest : List β

def http_run (val : β → UInt8) (mode : Mode) : Phase β → List β → Result β
  | ph, [] => { phase := ph, acts := [], verdict := .more, rest := [] }
  | ph, x :: xs =>
    let s := http_byte val mode ph x
    if s.2.2 = .more then
      let r := http_run val mode s.1 xs
      { r with acts := s.2.1 ++ r.acts }
    else { phase := s.1, acts := s.2.1, verdict := s.2.2, rest := xs }

def Result.andThen (val : β → UInt8) (mode : Mode) (r : Result β) (y : List β) : Result β :=
  if r.verdict = .more then
    let r' := http_run val mode r.phase y
    { r' with acts := r.acts ++ r'.acts }
  else { r with rest := r.rest ++ y }

variable {val : β → UInt8} {mode : Mode}

lemma http_run_append (ph : Phase β) (x y : List β) :
    http_run val mode ph (x ++ y) = (http_run val mode ph x).andThen val mode y := by
  induction x generalizing ph with
  | nil => rfl
  | cons b x ih =>
    rw [cons_append, http_run, http_run]
    by_cases hv : (http_byte val mode ph b).2.2 = .more
    · rw [if_pos hv, if_pos hv, ih]
      unfold Result.andThen
      dsimp only
      split
      · rw [append_assoc]
      · rfl
    · rw [if_neg hv, if_neg hv]
      unfold Result.andThen
      rw [if_neg hv]

lemma http_run_cons_more {ph ph' : Phase β} {x : β} {acts : List (Act β)}
    (h : http_byte val mode ph x = (ph', acts, .more)) (xs : List β) :
    http_run val mode ph (x :: xs)
      = { http_run val mode ph' xs with acts := acts ++ (http_run val mode ph' xs).acts } := by
  rw [http_run]
  rw [h, if_pos rfl]

lemma http_run_cons_stop {ph ph' : Phase β} {x : β} {acts : List (Act β)} {v : Verdict}
    (h : http_byte val mode ph x = (ph', acts, v)) (hv : v ≠ .more) (xs : List β) :
    http_run val mode ph (x :: xs) = { phase := ph', acts := acts, verdict := v, rest := xs } := by
  rw [http_run]
  rw [h, if_neg hv]

lemma http_run_line_more {ph ph' ph'' : Phase β} {x : List β} {b : β}
    (hx : http_run val mode ph x = { phase := ph', acts := [], verdict := .more, rest := [] })
    (hb : http_byte val mode ph' b = (ph'', [], .more)) :
    http_run val mode ph (x ++ [b]) = { phase := ph'', acts := [], verdict := .more, rest := [] } := by
  rw [http_run_append, hx]
  unfold Result.andThen
  rw [http_run_cons_more hb]
  rfl

lemma http_run_line_stop {ph ph' ph'' : Phase β} {x : List β} {b : β} {v : Verdict}
    (hx : http_run val mode ph x = { phase := ph', acts := [], verdict := .more, rest := [] })
    (hb : http_byte val mode ph' b = (ph'', [], v)) (hv : v ≠ .more) (rest : List β) :
    http_run val mode ph (x ++ b :: rest)
      = { phase := ph'', acts := [], verdict := v, rest := rest } := by
  rw [http_run_append, hx]
  unfold Result.andThen
  rw [if_pos rfl]
  rw [http_run_cons_stop hb hv]
  rfl

/-! ### Heads -/

variable {l : List β}

lemma crlf2_local (h : 4 ≤ l.length) (x : List β) :
    crlf2 val (l ++ x) = crlf2 val l := by
  unfold crlf2
  rw [take_append_of_le_length h]

lemma crlf2_length (h : crlf2 val l = true) : 4 ≤ l.length := by
  have := congrArg length (beq_iff_eq.mp h)
  rw [length_map, length_take] at this
  simp only [length_cons, length_nil] at this
  omega

lemma crlf2_window : Window (crlf2 val) 4 :=
  ⟨by decide, fun _ x h => crlf2_local h x,
    fun _ x h => by rw [crlf2_local (crlf2_length h)]; exact h⟩

/-- The blank line a search found is the first one of every longer buffer. -/
lemma find_crlf2_append {h : List β} {i : ℕ} (hi : findFrom (crlf2 val) 0 h = some i)
    (x : List β) : findFrom (crlf2 val) 0 (h ++ x) = some i := by
  obtain ⟨-, hlt, hmatch, -⟩ := findFrom_eq_some_iff.mp hi
  have hlen := crlf2_length hmatch
  rw [length_drop] at hlen
  refine findFrom_append (crlf2_window).mono hi x ?_
  intro j _ hji hfalse
  rw [crlf2_local (by rw [length_drop]; omega), hfalse]

lemma find_crlf2_of_append {h x : List β} (hn : findFrom (crlf2 val) 0 (h ++ x) = none) :
    findFrom (crlf2 val) 0 h = none := by
  cases hi : findFrom (crlf2 val) 0 h with
  | none => rfl
  | some i =>
    rw [find_crlf2_append hi x] at hn
    simp at hn

lemma http_byte_head_open {x : β} (hn : findFrom (crlf2 val) 0 (l ++ [x]) = none) :
    http_byte val mode (.head l) x = (.head (l ++ [x]), [], .more) := by
  have hno := findFrom_eq_none_iff.mp hn (l.length - 3) (Nat.zero_le _)
    (by rw [length_append]; simp only [length_cons, length_nil]; omega)
  rw [http_byte, if_neg (by simp [hno])]

lemma http_byte_head (l : List β) (x : β) :
    (∃ l' v, http_byte val mode (.head l) x = (.head l', [], v))
      ∨ ∃ (block : Bytes) (framing : Framing) (e : Bool), http_byte val mode (.head l) x
          = (framing.opened e, [.start block (l ++ [x])],
              if framing = .length 0 then .complete else .more) := by
  unfold http_byte
  dsimp only
  split
  · unfold after_head head_step
    split
    · exact .inl ⟨_, _, rfl⟩
    · exact .inl ⟨_, _, rfl⟩
    · exact .inl ⟨_, _, rfl⟩
    · exact .inr ⟨_, _, _, rfl⟩
  · exact .inl ⟨_, _, rfl⟩

variable (val mode)

lemma http_run_head_open (l x : List β) (hn : findFrom (crlf2 val) 0 (l ++ x) = none) :
    http_run val mode (.head l) x
      = { phase := .head (l ++ x), acts := [], verdict := .more, rest := [] } := by
  induction x generalizing l with
  | nil => rw [append_nil]; rfl
  | cons b x ih =>
    have hsplit : l ++ b :: x = l ++ [b] ++ x := by simp
    rw [hsplit] at hn ⊢
    rw [http_run_cons_more (http_byte_head_open (find_crlf2_of_append hn)),
      ih _ hn]
    rfl

lemma http_run_head_end (l x : List β) (hl : findFrom (crlf2 val) 0 l = none) {i : ℕ}
    (hi : findFrom (crlf2 val) 0 (l ++ x) = some i) :
    http_run val mode (.head l) x
      = Result.andThen val mode
          { phase := (after_head val mode ((l ++ x).take (i + 4))).1
            acts := (after_head val mode ((l ++ x).take (i + 4))).2.1
            verdict := (after_head val mode ((l ++ x).take (i + 4))).2.2
            rest := [] }
          ((l ++ x).drop (i + 4)) := by
  obtain ⟨-, hlt, hmatch, hfirst⟩ := findFrom_eq_some_iff.mp hi
  have hlen := crlf2_length hmatch
  rw [length_drop] at hlen
  -- the blank line ends behind `l`: cut `x` at its last byte
  have hbeyond : l.length < i + 4 := by
    by_contra hle
    have hsome : crlf2 val (l.drop i) = true := by
      rw [← crlf2_local (by rw [length_drop]; omega) x,
        ← drop_append_of_le_length (by omega)]
      exact hmatch
    rw [findFrom_eq_none_iff.mp hl i (Nat.zero_le i) (by omega)] at hsome
    cases hsome
  have htake : (l ++ x).take (i + 4) = l ++ x.take (i + 4 - l.length) := by
    rw [take_append, take_of_length_le (by omega)]
  have hdrop : (l ++ x).drop (i + 4) = x.drop (i + 4 - l.length) := by
    rw [drop_append, drop_of_length_le (by omega), nil_append]
  rw [length_append] at hlen
  obtain ⟨y, b, hy⟩ : ∃ y b, x.take (i + 4 - l.length) = y ++ [b] := by
    have hne : x.take (i + 4 - l.length) ≠ [] := by
      intro h
      have := congrArg length h
      rw [length_take, length_nil] at this
      omega
    exact ⟨_, _, (dropLast_append_getLast hne).symm⟩
  have hylen : (l ++ y).length = i + 3 := by
    have := congrArg length hy
    simp only [length_append, length_take, length_cons, length_nil] at this ⊢
    omega
  have hwhole : l ++ x = l ++ y ++ [b] ++ x.drop (i + 4 - l.length) := by
    conv_lhs => rw [← take_append_drop (i + 4 - l.length) x, hy]
    simp
  -- no blank line ends before that byte
  have hopen : findFrom (crlf2 val) 0 (l ++ y) = none := by
    cases hj : findFrom (crlf2 val) 0 (l ++ y) with
    | none => rfl
    | some j =>
      exfalso
      have hj' := find_crlf2_append hj ([b] ++ x.drop (i + 4 - l.length))
      rw [← append_assoc, ← hwhole, hi] at hj'
      cases hj'
      obtain ⟨-, -, hm, -⟩ := findFrom_eq_some_iff.mp hj
      have := crlf2_length hm
      rw [length_drop] at this
      omega
  have hends : crlf2 val ((l ++ y ++ [b]).drop ((l ++ y).length - 3)) = true := by
    have hi3 : (l ++ y).length - 3 = i := by omega
    rw [hi3]
    have hlong : 4 ≤ ((l ++ y ++ [b]).drop i).length := by
      rw [length_drop, length_append]
      simp only [length_cons, length_nil]
      omega
    rw [← crlf2_local hlong (x.drop (i + 4 - l.length)),
      ← drop_append_of_le_length (by rw [length_append]; omega), ← hwhole]
    exact hmatch
  have hhead : http_byte val mode (.head (l ++ y)) b = after_head val mode (l ++ y ++ [b]) := by
    rw [http_byte, if_pos hends]
  have hcut : (l ++ x).take (i + 4) = l ++ y ++ [b] := by
    rw [htake, hy, append_assoc]
  rw [hcut, hdrop]
  conv_lhs => rw [← take_append_drop (i + 4 - l.length) x, hy, append_assoc]
  rw [http_run_append, http_run_head_open val mode l y hopen]
  unfold Result.andThen
  rw [if_pos rfl]
  rw [cons_append, nil_append]
  generalize after_head val mode (l ++ y ++ [b]) = s at hhead ⊢
  obtain ⟨ph, acts, v⟩ := s
  by_cases hv : v = .more
  · subst hv
    rw [if_pos rfl, http_run_cons_more hhead]
    simp
  · rw [if_neg hv, http_run_cons_stop hhead hv]
    simp

/-! ### Bodies -/

variable (x : List β)

lemma http_run_length (hne : x ≠ []) (hx : x.length ≤ n) :
    http_run val mode (.body .CL n l e) x
      = { phase := .body .CL (n - x.length) l e, acts := x.map .byte,
          verdict := if n - x.length = 0 then .complete else .more, rest := [] } := by
  induction x generalizing n with
  | nil => exact absurd rfl hne
  | cons b x ih =>
    rw [length_cons] at hx
    have hstep : http_byte val mode (.body .CL n l e) b
        = (.body .CL (n - 1) l e, [.byte b], if n - 1 = 0 then .complete else .more) := rfl
    by_cases hnil : x = []
    · subst hnil
      by_cases hn : n - 1 = 0
      · rw [if_pos hn] at hstep
        rw [http_run_cons_stop hstep (by decide)]
        simp [hn]
      · rw [if_neg hn] at hstep
        rw [http_run_cons_more hstep]
        simp [http_run, hn]
    · have hpos := length_pos_iff.mpr hnil
      rw [if_neg (by omega)] at hstep
      have hsub : n - 1 - x.length = n - (x.length + 1) := by omega
      rw [http_run_cons_more hstep, ih hnil (by omega)]
      simp [hsub]

lemma http_run_chunk_data (hne : x ≠ []) (hx : x.length ≤ n) :
    http_run val mode (.body .CHUNK_DATA n l e) x
      = { phase := .body (if n - x.length = 0 then .CHUNK_CRLF else .CHUNK_DATA) (n - x.length)
            l e,
          acts := x.map .byte, verdict := .more, rest := [] } := by
  induction x generalizing n with
  | nil => exact absurd rfl hne
  | cons b x ih =>
    rw [length_cons] at hx
    have hstep : http_byte val mode (.body .CHUNK_DATA n l e) b
        = (.body (if n - 1 = 0 then .CHUNK_CRLF else .CHUNK_DATA) (n - 1) l e, [.byte b],
            .more) := rfl
    rw [http_run_cons_more hstep]
    by_cases hnil : x = []
    · subst hnil
      simp [http_run]
    · have hpos := length_pos_iff.mpr hnil
      have hsub : n - 1 - x.length = n - (x.length + 1) := by omega
      rw [if_neg (by omega), ih hnil (by omega)]
      simp [hsub]

lemma http_run_size_open (hx : ∀ b ∈ x, (val b == LF) = false) :
    http_run val mode (.body .CHUNK_SIZE n l e) x
      = { phase := .body .CHUNK_SIZE n (l ++ x) e, acts := [], verdict := .more, rest := [] } := by
  induction x generalizing l with
  | nil => rw [append_nil]; rfl
  | cons b x ih =>
    have hb : ¬ val b = LF := beq_eq_false_iff_ne.mp (hx b (by simp))
    have hstep : http_byte val mode (.body .CHUNK_SIZE n l e) b
        = (.body .CHUNK_SIZE n (l ++ [b]) e, [], .more) := if_neg hb
    rw [http_run_cons_more hstep, ih (fun c hc => hx c (by simp [hc]))]
    simp

lemma http_run_trailer_open (hx : ∀ b ∈ x, (val b == LF) = false)
    (hlen : (l ++ x).length ≤ LINE_MAX) :
    http_run val mode (.body .TRAILERS n l e) x
      = { phase := .body .TRAILERS n (l ++ x) e, acts := [], verdict := .more, rest := [] } := by
  induction x generalizing l with
  | nil => rw [append_nil]; rfl
  | cons b x ih =>
    have hb : ¬ val b = LF := beq_eq_false_iff_ne.mp (hx b (by simp))
    have hsplit : l ++ b :: x = l ++ [b] ++ x := by simp
    rw [hsplit] at hlen ⊢
    have hstep : http_byte val mode (.body .TRAILERS n l e) b
        = (.body .TRAILERS n (l ++ [b]) e, [], .more) := by
      simp only [http_byte, body_byte]
      rw [if_neg hb, if_neg (by rw [length_append] at hlen; omega)]
    rw [http_run_cons_more hstep, ih (fun c hc => hx c (by simp [hc])) hlen]
    rfl

lemma http_run_trailer_long (hx : ∀ b ∈ x, (val b == LF) = false)
    (hline : l.length ≤ LINE_MAX) (hlen : (l ++ x).length > LINE_MAX) :
    (http_run val mode (.body .TRAILERS n l e) x).verdict = .fail
      ∧ (http_run val mode (.body .TRAILERS n l e) x).acts = [] := by
  induction x generalizing l with
  | nil => rw [append_nil] at hlen; omega
  | cons b x ih =>
    have hb : ¬ val b = LF := beq_eq_false_iff_ne.mp (hx b (by simp))
    by_cases hlong : (l ++ [b]).length > LINE_MAX
    · have hstep : http_byte val mode (.body .TRAILERS n l e) b
          = (.body .TRAILERS n (l ++ [b]) e, [], .fail) := by
        simp only [http_byte, body_byte]
        rw [if_neg hb, if_pos hlong]
      rw [http_run_cons_stop hstep (by decide)]
      exact ⟨rfl, rfl⟩
    · have hstep : http_byte val mode (.body .TRAILERS n l e) b
          = (.body .TRAILERS n (l ++ [b]) e, [], .more) := by
        simp only [http_byte, body_byte]
        rw [if_neg hb, if_neg hlong]
      rw [http_run_cons_more hstep]
      exact ih (fun c hc => hx c (by simp [hc])) (by omega) (by simpa using hlen)

lemma http_run_until_close :
    http_run val mode (.body .EOF n l e) x
      = { phase := .body .EOF n l e, acts := x.map .byte, verdict := .more, rest := [] } := by
  induction x with
  | nil => rfl
  | cons b x ih =>
    have hstep : http_byte val mode (.body .EOF n l e) b
        = (.body .EOF n l e, [.byte b], .more) := rfl
    rw [http_run_cons_more hstep, ih]
    rfl

end

end FpmNg.HttpReply
