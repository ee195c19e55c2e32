/-
What the two executors of an http-direct pool share when they build a response
(`fpm_http_direct_request.c`): which headers of the application are dropped, what a
header name may be, the budget of the header block and which responses carry no body.

A header value of PHP is a value the transport turns into a string. A string is its
own text; an object is turned into text by its `__toString`, which is code of the
application, so the text is not known when the call is made (`Value.object`). An
array stands for its elements in order, as the recursion over it visits them.
-/
import FpmNg.Bytes

namespace FpmNg.DirectResponse

inductive Command where
  | get
  | head
  | other
  deriving DecidableEq

/-- `fpm_http_direct_status_bodyless()`. -/
def fpm_http_direct_status_bodyless (command : Command) (status : ℕ) : Bool :=
  command == .head || status == 204 || status == 205 || status == 304

/-- `fpm_http_direct_header_dropped()`. -/
def fpm_http_direct_header_dropped (name : Bytes) : Bool :=
  strcaseeq name (str "Content-Length") || strcaseeq name (str "Transfer-Encoding") ||
    strcaseeq name (str "Connection") || strcaseeq name (str "Keep-Alive") ||
    strcaseeq name (str "Upgrade") || strcaseeq name (str "Trailer")

def token_byte (c : UInt8) : Bool :=
  (97 ≤ c && c ≤ 122) || (65 ≤ c && c ≤ 90) || (48 ≤ c && c ≤ 57) ||
    (str "!#$%&'*+-.^_\x60|~").contains c

/-- `fpm_http_direct_header_name_ok()`. -/
def fpm_http_direct_header_name_ok (name : Bytes) : Bool := !name.isEmpty && name.all token_byte

/-- `fpm_http_direct_header_charge()`: the new total, or `none` if the line does not
fit and nothing is charged. -/
def fpm_http_direct_header_charge (total : ℕ) (name : Bytes) (value_len : ℕ) : Option ℕ :=
  let line := name.length + 4
  if FPM_HTTP_HEADERS_MAX < line ∨ FPM_HTTP_HEADERS_MAX - line < value_len ∨
      FPM_HTTP_HEADERS_MAX - total < line + value_len then none
  else some (total + (line + value_len))

/-! ## The headers of a call -/

inductive Value where
  | text (s : Bytes)
  | object
  deriving DecidableEq

/-- One element of the array of headers: its key, `none` for a numeric one, and its
value, an array as the list of its elements. -/
structure Header where
  name : Option Bytes
  values : List Value
  deriving DecidableEq

/-- A step of the loop over the headers: a key that is not a string, the start of
the header of a key, and a value of it. -/
inductive Item where
  | unnamed
  | named (name : Bytes)
  | value (name : Bytes) (v : Value)
  deriving DecidableEq

def Header.items (h : Header) : List Item :=
  match h.name with
  | none => [.unnamed]
  | some name => .named name :: h.values.map (.value name)

def items (headers : List Header) : List Item := headers.flatMap Header.items

end FpmNg.DirectResponse
