/-
The response head of the HTTP transport, `fpm_http_http_head_done` of
`fpm_http_client.c`: the status code, the framing of the body and the CGI block
that `fpm_http_start_reply` is given. A head is judged as a whole, once its blank
line is there, so everything here is a function of its bytes.
-/
import FpmNg.HttpRequest
import FpmNg.Reply

open ByteScan HttpGrammar
open FpmNg.Reply
open FpmNg.HttpRequest (fpm_http_http_header_dropped)

namespace FpmNg.HttpReply

/-! ## Numbers and tokens -/

/-- `SIZE_MAX`. -/
abbrev SIZE_MAX : ℕ := 0xFFFFFFFFFFFFFFFF

/-- The leading digits of a value; `size_t` wraps. -/
def fpm_http_http_value_ulong (v : Bytes) : ℕ :=
  (v.takeWhile isdigit).foldl (fun value b => (value * 10 + digit b) % (SIZE_MAX + 1)) 0

/-- The conversion of a `size_t` to an `int`. -/
def to_int (v : ℕ) : Int :=
  let low := v % 0x100000000
  if low < 0x80000000 then (low : Int) else (low : Int) - 0x100000000

/-- The digit loop of `fpm_http_http_content_length`. -/
def content_length_digits : ℕ → Bytes → Option ℕ
  | value, [] => some value
  | value, b :: v =>
    if !isdigit b then none
    else if value > (SIZE_MAX - digit b) / 10 then none
    else content_length_digits (value * 10 + digit b) v

def fpm_http_http_content_length (v : Bytes) : Option ℕ :=
  if v = [] then none else content_length_digits 0 v

def is_list_separator (b : UInt8) : Bool := b == 44 || b == SP || b == HT

/-- The loop of `fpm_http_http_token_in`; `cur` is `value[start..i]`. -/
def token_in_from (token cur : Bytes) : Bytes → Bool
  | [] => strcaseeq cur token
  | b :: value =>
    if is_list_separator b then strcaseeq cur token || token_in_from token [] value
    else token_in_from token (cur ++ [b]) value

def fpm_http_http_token_in (value token : Bytes) : Bool := token_in_from token [] value

def fpm_http_http_split_header (line : Bytes) : Option (Bytes × Bytes) :=
  (cut (· == COLON) line).map fun kv => (kv.1, trim kv.2)

/-! ## Pass 1: the status code and the framing headers -/

def status_code (line : Bytes) : Int :=
  match cut (· == SP) line with
  | none => 200
  | some (_, rest) =>
    match cut (· == SP) rest with
    | none => to_int (fpm_http_http_value_ulong rest)
    | some (code, _) => to_int (fpm_http_http_value_ulong code)

structure Fields where
  has_length : Bool
  content_length : ℕ
  chunked : Bool
  close_seen : Bool
  deriving DecidableEq

/-- One header line; `none` is the `return -1` on an invalid or a second, different
Content-Length. A later Transfer-Encoding or Connection replaces an earlier one. -/
def framing_line (f : Fields) (line : Bytes) : Option Fields :=
  match fpm_http_http_split_header line with
  | none => some f
  | some (key, value) =>
    if strcaseeq key (str "Content-Length") then
      match fpm_http_http_content_length value with
      | none => none
      | some n =>
        if f.has_length ∧ n ≠ f.content_length then none
        else some { f with has_length := true, content_length := n }
    else if strcaseeq key (str "Transfer-Encoding") then
      some { f with chunked := fpm_http_http_token_in value (str "chunked") }
    else if strcaseeq key (str "Connection") then
      some { f with close_seen := fpm_http_http_token_in value (str "close") }
    else some f

def head_lines (head : Bytes) : List Bytes := (block_lines head).map strip_cr

def framing_fields (head : Bytes) : Option Fields :=
  (head_lines head).tail.foldlM framing_line
    { has_length := false, content_length := 0, chunked := false, close_seen := false }

/-! ## Pass 2: the CGI block -/

abbrev FPM_HTTP_HEADER_NAME_MAX : ℕ := 1024

/-- The block so far, and `length_forwarded`. -/
def forward_line (chunked : Bool) (s : Bytes × Bool) (line : Bytes) : Bytes × Bool :=
  match fpm_http_http_split_header line with
  | none => s
  | some (key, value) =>
    if key.length > FPM_HTTP_HEADER_NAME_MAX then s
    else
      let keybuf := cstr key
      let is_length := strcaseeq keybuf (str "Content-Length")
      if is_length && (chunked || s.2) then s
      else
        (if fpm_http_http_header_dropped keybuf then s.1
          else s.1 ++ keybuf ++ str ": " ++ value ++ [CR, LF], s.2 || is_length)

/-- `%d`. -/
def decimal_int : Int → Bytes
  | .ofNat n => decimal n
  | .negSucc n => 45 :: decimal (n + 1)

def cgi_block (code : Int) (chunked : Bool) (head : Bytes) : Bytes :=
  ((head_lines head).tail.foldl (forward_line chunked)
    (str "Status: " ++ decimal_int code ++ [CR, LF], false)).1

/-! ## The verdict -/

/-- How the body of a reply ends. A reply without a body has length 0. -/
inductive Framing where
  | length (n : ℕ)
  | chunked
  | until_close
  deriving DecidableEq

/-- What `fpm_http_http_head_done` returns: -1, 2, 1, and 0 with what it started and
set. -/
inductive HeadVerdict where
  | invalid
  | switch
  | interim
  | final (block : Bytes) (framing : Framing) (expect_eof : Bool)
  deriving DecidableEq

def fpm_http_http_head_done (is_head upgrading : Bool) (head : Bytes) : HeadVerdict :=
  match framing_fields head with
  | none => .invalid
  | some f =>
    let code := status_code ((head_lines head).headD [])
    if code = 101 ∧ upgrading then .switch
    else if 100 ≤ code ∧ code < 200 then .interim
    else
      let framing :=
        if code < 200 ∨ code = 204 ∨ code = 304 ∨ is_head then .length 0
        else if f.chunked then .chunked
        else if f.has_length then .length f.content_length
        else .until_close
      .final (cgi_block code f.chunked head) framing (f.close_seen || framing == .until_close)

-- the framing headers are read, hop-by-hop headers go, and the length goes out once
example :
    fpm_http_http_head_done false false
        (str "HTTP/1.1 404 Not Found\r\nContent-Length: 2\r\nconnection: close\r\nContent-Length: 2\r\n")
      = .final (str "Status: 404\r\nContent-Length: 2\r\n") (.length 2) true := by
  decide +kernel

end FpmNg.HttpReply
