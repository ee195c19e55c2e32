/-
The request writer of the HTTP transport, `fpm_http_http_write_request` of
`fpm_http_client.c`, with the target helpers of `fpm_http_fcgi.c` it calls.

What a target makes of the written bytes is read off the strict grammar of
`HttpGrammar`. The filter of the source compares header names as they came in;
the result below says exactly which requests come out as one well framed request
and which do not.
-/
import FpmNg.Bytes
import FpmNg.Lib.HttpGrammar
import FpmNg.Lib.WhileLoop

open ByteScan WhileLoop HttpGrammar List

namespace FpmNg.HttpRequest

/-! ## The request as the gateway has it -/

/-- `enum evhttp_cmd_type`, as far as the gateway allows it. -/
inductive Method where
  | GET
  | POST
  | HEAD
  | PUT
  | DELETE
  | OPTIONS
  | TRACE
  | CONNECT
  | PATCH
  deriving DecidableEq

def fpm_http_method_name : Method → Bytes
  | .GET => str "GET"
  | .POST => str "POST"
  | .HEAD => str "HEAD"
  | .PUT => str "PUT"
  | .DELETE => str "DELETE"
  | .OPTIONS => str "OPTIONS"
  | .TRACE => str "TRACE"
  | .CONNECT => str "CONNECT"
  | .PATCH => str "PATCH"

structure Uri where
  path : Option Bytes
  has_host : Bool
  query : Option Bytes
  deriving DecidableEq

abbrev Header := Bytes × Bytes

/-- The fields of `fpm_http_conn`, of its request and of its gateway that the
writer reads. `upgrade` is the route's opt-in, `request_id_on` is
`request_id_mode != FPM_HTTP_REQUEST_ID_OFF`; `request_id`, `scheme` and
`server_port` are empty where the source tests their first byte. -/
structure Request where
  command : Method
  uri : Bytes
  evhttp_uri : Option Uri
  headers : List Header
  body : Bytes
  upgrade : Bool
  upstream_uri : Option Bytes
  pool : Bytes
  request_id_on : Bool
  request_id : Bytes
  peer_addr : Bytes
  scheme : Bytes
  server_port : Bytes
  deriving DecidableEq

/-- libevent's `evhttp_find_header()`, with what the gateway relies on: of several headers of
a name the first is returned (`fpm_http_host.c`), and names are compared without case. -/
class HeaderLookup where
  evhttp_find_header : List Header → Bytes → Option Bytes
  first_named : ∀ headers key,
    evhttp_find_header headers key = (headers.find? fun h => strcaseeq h.1 key).map Prod.snd

open FpmNg.HttpRequest.HeaderLookup (evhttp_find_header)

/-! ## The target -/

def is_alpha (b : UInt8) : Bool := 97 ≤ (b ||| 0x20) && (b ||| 0x20) ≤ 122

def is_scheme (b : UInt8) : Bool := is_alpha b || isdigit b || b == 43 || b == 45 || b == 46

/-- The authority `fpm_http_origin_start` reports, without its userinfo. -/
def fpm_http_origin_start (uri : Bytes) : Option Bytes :=
  match uri with
  | [] => none
  | b :: p =>
    if is_alpha b then
      let p := p.dropWhile is_scheme
      if p.take 3 = str "://" then
        let auth := (p.drop 3).takeWhile fun b => b != 47 && b != 63 && b != 35
        some (auth.reverse.takeWhile (· != 64)).reverse
      else none
    else none

abbrev FPM_HTTP_AUTHORITY_MAX : ℕ := 262

/-- The three answers of `fpm_http_absolute_authority`: 0, -1, and 1 with the copy. -/
inductive Authority where
  | none
  | over_long
  | copied (authority : Bytes)
  deriving DecidableEq

def fpm_http_absolute_authority (uri : Bytes) : Authority :=
  match fpm_http_origin_start uri with
  | Option.none => .none
  | some authority =>
    if authority.length = 0 then .none
    else if authority.length ≥ FPM_HTTP_AUTHORITY_MAX then .over_long
    else .copied authority

def fpm_http_request_path (u : Option Uri) : Option Bytes :=
  match u with
  | none => none
  | some u => if u.path = some [] ∧ u.has_host then some (str "/") else u.path

def fpm_http_origin_form (req : Request) : Bytes :=
  match fpm_http_request_path req.evhttp_uri with
  | none => req.uri
  | some path =>
    match req.evhttp_uri.bind Uri.query with
    | some query => path ++ [63] ++ query
    | none => path

/-! ## The writer -/

def fpm_http_http_header_dropped (key : Bytes) : Bool :=
  strcaseeq key (str "Connection") || strcaseeq key (str "Keep-Alive")
    || strcaseeq key (str "Transfer-Encoding") || strcaseeq key (str "Upgrade")
    || strcaseeq key (str "Trailer")
    || (6 ≤ key.length && strcaseeq (key.take 6) (str "Proxy-"))

def fpm_http_http_upgrade_requested [HeaderLookup] (req : Request) : Bool :=
  match evhttp_find_header req.headers (str "Upgrade") with
  | some upgrade => upgrade != []
  | none => false

def fpm_http_http_websocket_upgrade [HeaderLookup] (req : Request) : Bool :=
  req.command == .GET &&
    match evhttp_find_header req.headers (str "Upgrade") with
    | some upgrade => strcaseeq upgrade (str "websocket")
    | none => false

/-- The header loop's `continue`. -/
def skipped (req : Request) (key : Bytes) : Bool :=
  fpm_http_http_header_dropped key || key.contains 95
    || strcaseeq key (str "Host") || strcaseeq key (str "Content-Length")
    || strcaseeq key (str "X-Forwarded-For") || strcaseeq key (str "X-Forwarded-Proto")
    || strcaseeq key (str "X-Forwarded-Port")
    || (req.request_id_on && strcaseeq key (str "X-Request-Id"))

def append_field (out name value : Bytes) : Bytes :=
  out ++ name ++ str ": " ++ value ++ str "\r\n"

def host_value [HeaderLookup] (req : Request) : Bytes :=
  match fpm_http_absolute_authority req.uri with
  | .copied authority => authority
  | _ => (evhttp_find_header req.headers (str "Host")).getD req.pool

/-- `fpm_http_http_xff`, without the line end. -/
def fpm_http_http_xff (existing : Option Bytes) (effective : Bytes) : Bytes :=
  match existing with
  | some value => if value ≠ [] then value ++ str ", " ++ effective else effective
  | none => effective

def scheme_value (req : Request) : Bytes := if req.scheme ≠ [] then req.scheme else str "http"

def count_pass (s : Bytes × ℕ) : Pass (Bytes × ℕ) :=
  if s.1 = [] ∨ s.1.take 2 = [CR, LF] then .leave s
  else
    match cut (· == LF) s.1 with
    | none => .leave s
    | some (line, rest) =>
      .again (rest, s.2 + (line.length - if line.getLast? = some CR then 1 else 0))

def counted_head (out : Bytes) : ℕ := (loop (fun s => s.1.length) count_pass (out, 0)).2

def request_target (req : Request) : Bytes := req.upstream_uri.getD (fpm_http_origin_form req)

def request_head [HeaderLookup] (req : Request) (upgrading : Bool) : Bytes :=
  let out := fpm_http_method_name req.command ++ str " " ++ request_target req
    ++ str " HTTP/1.1\r\n"
  let out := append_field out (str "Host") (host_value req)
  let out := req.headers.foldl
    (fun out h => if skipped req h.1 then out else append_field out h.1 h.2) out
  let out := if req.request_id ≠ [] then append_field out (str "X-Request-Id") req.request_id
    else out
  let out := append_field out (str "X-Forwarded-For")
    (fpm_http_http_xff (evhttp_find_header req.headers (str "X-Forwarded-For")) req.peer_addr)
  let out := append_field out (str "X-Forwarded-Proto") (scheme_value req)
  let out := if req.server_port ≠ [] then
      append_field out (str "X-Forwarded-Port") req.server_port
    else out
  let out := append_field out (str "Content-Length") (decimal req.body.length)
  if upgrading then out ++ str "Connection: Upgrade\r\nUpgrade: websocket\r\n\r\n"
  else out ++ str "Connection: keep-alive\r\n\r\n"

def fpm_http_http_write_request [HeaderLookup] (req : Request) : Except ℕ Bytes :=
  let requested := fpm_http_http_upgrade_requested req
  if requested ∧ ¬ (req.upgrade ∧ fpm_http_http_websocket_upgrade req) then .error 501
  else
    let out := request_head req requested
    if counted_head out > FPM_HTTP_HEADERS_MAX then .error 400
    else .ok (out ++ req.body)

/-! ## The head as a list of fields -/

def forwarded (req : Request) : List Header := req.headers.filter fun h => !skipped req h.1

def request_fields [HeaderLookup] (req : Request) (upgrading : Bool) : List Header :=
  [(str "Host", host_value req)] ++ forwarded req
    ++ (if req.request_id ≠ [] then [(str "X-Request-Id", req.request_id)] else [])
    ++ [(str "X-Forwarded-For",
          fpm_http_http_xff (evhttp_find_header req.headers (str "X-Forwarded-For")) req.peer_addr),
        (str "X-Forwarded-Proto", scheme_value req)]
    ++ (if req.server_port ≠ [] then [(str "X-Forwarded-Port", req.server_port)] else [])
    ++ [(str "Content-Length", decimal req.body.length)]
    ++ (if upgrading then [(str "Connection", str "Upgrade"), (str "Upgrade", str "websocket")]
        else [(str "Connection", str "keep-alive")])

lemma append_field_eq (out name value : Bytes) :
    append_field out name value = out ++ render_fields [(name, value)] := by
  simp [append_field, render_fields, field_line, str, crlf]

lemma render_fields_append (a b : List Header) :
    render_fields (a ++ b) = render_fields a ++ render_fields b := by
  simp [render_fields]

lemma foldl_append_field (req : Request) (headers : List Header) (out : Bytes) :
    headers.foldl (fun out h => if skipped req h.1 then out else append_field out h.1 h.2) out
      = out ++ render_fields (headers.filter fun h => !skipped req h.1) := by
  induction headers generalizing out with
  | nil => simp [render_fields]
  | cons h headers ih =>
    rw [foldl_cons, ih]
    by_cases hskip : skipped req h.1
    · rw [if_pos hskip, filter_cons_of_neg (by simp [hskip])]
    · rw [if_neg hskip, filter_cons_of_pos (by simp [hskip]), append_field_eq,
        append_assoc, ← render_fields_append, singleton_append]

lemma request_head_eq [HeaderLookup] (req : Request) (upgrading : Bool) :
    request_head req upgrading
      = fpm_http_method_name req.command ++ [32] ++ request_target req ++ [32] ++ str "HTTP/1.1"
        ++ crlf ++ render_fields (request_fields req upgrading) ++ crlf := by
  have hline : str " HTTP/1.1\r\n" = [32] ++ str "HTTP/1.1" ++ crlf := rfl
  have hspace : str " " = [32] := rfl
  have hif : ∀ (c : Prop) [Decidable c] (out name value : Bytes),
      (if c then append_field out name value else out)
        = out ++ render_fields (if c then [(name, value)] else []) := by
    intro c _ out name value
    by_cases hc : c
    · rw [if_pos hc, if_pos hc, append_field_eq]
    · rw [if_neg hc, if_neg hc]
      simp [render_fields]
  have hend : ∀ out : Bytes,
      (if upgrading then out ++ str "Connection: Upgrade\r\nUpgrade: websocket\r\n\r\n"
        else out ++ str "Connection: keep-alive\r\n\r\n")
        = out ++ render_fields (if upgrading then
            [(str "Connection", str "Upgrade"), (str "Upgrade", str "websocket")]
          else [(str "Connection", str "keep-alive")]) ++ crlf := by
    intro out
    cases upgrading
    · rw [if_neg Bool.false_ne_true, if_neg Bool.false_ne_true, append_assoc]
      rfl
    · rw [if_pos rfl, if_pos rfl, append_assoc]
      rfl
  unfold request_head request_fields
  rw [hend, foldl_append_field, hif, hif, append_field_eq, append_field_eq, append_field_eq,
    append_field_eq, hline, hspace]
  simp only [render_fields_append, forwarded, append_assoc]
  rw [show [(str "X-Forwarded-For", fpm_http_http_xff
      (evhttp_find_header req.headers (str "X-Forwarded-For")) req.peer_addr),
      (str "X-Forwarded-Proto", scheme_value req)]
    = [(str "X-Forwarded-For", fpm_http_http_xff
      (evhttp_find_header req.headers (str "X-Forwarded-For")) req.peer_addr)]
      ++ [(str "X-Forwarded-Proto", scheme_value req)] from rfl, render_fields_append]
  simp

/-! ## The Content-Length value -/

lemma read_decimal_decimal (v : ℕ) : read_decimal (decimal v) = some v := by
  obtain ⟨hne, hall, hval⟩ := decimal_digits_spec (v + 1) v (by omega)
  unfold read_decimal decimal
  rw [if_pos, hval]
  rw [Bool.and_eq_true, all_eq_true]
  refine ⟨by simp [hne], ?_⟩
  intro b hb
  simp [hall b hb]

lemma digit_plain {b : UInt8} (h : 48 ≤ b ∧ b ≤ 57) :
    field_byte b = true ∧ ows b = false ∧ b ≠ 13 ∧ b ≠ 10 := by
  obtain ⟨h1, h2⟩ := h
  have hv : vchar b = true := by
    simp only [vchar, Bool.and_eq_true, decide_eq_true_eq, UInt8.le_iff_toNat_le]
    exact ⟨Nat.le_trans (by decide) h1, Nat.le_trans h2 (by decide)⟩
  refine ⟨by simp [field_byte, hv], ?_, ?_, ?_⟩
  · simp only [ows, Bool.or_eq_false_iff, beq_eq_false_iff_ne]
    constructor <;> rintro rfl <;> simp at h1
  · rintro rfl
    simp at h1
  · rintro rfl
    exact absurd h1 (by decide)

/-! ## What the parts may contain -/

/-- What libevent and the gateway itself guarantee about the parts of a head:
header names have no colon, and nothing has a line end in it. -/
structure Delivered (req : Request) : Prop where
  header_names : ∀ h ∈ req.headers, line_safe h.1 ∧ COLON ∉ h.1
  header_values : ∀ h ∈ req.headers, line_safe h.2
  uri : line_safe req.uri
  path : ∀ u p, req.evhttp_uri = some u → u.path = some p → line_safe p
  query : ∀ u q, req.evhttp_uri = some u → u.query = some q → line_safe q
  upstream_uri : ∀ t, req.upstream_uri = some t → line_safe t
  pool : line_safe req.pool
  request_id : line_safe req.request_id
  peer_addr : line_safe req.peer_addr
  scheme : line_safe req.scheme
  server_port : line_safe req.server_port

lemma line_safe_append {a b : Bytes} (ha : line_safe a) (hb : line_safe b) :
    line_safe (a ++ b) := by
  intro x hx
  rcases mem_append.mp hx with hx | hx
  · exact ha x hx
  · exact hb x hx

lemma line_safe_of_subset {a b : Bytes} (h : a ⊆ b) (hb : line_safe b) : line_safe a :=
  fun x hx => hb x (h hx)

lemma origin_start_subset {uri authority : Bytes}
    (h : fpm_http_origin_start uri = some authority) : authority ⊆ uri := by
  intro x hx
  unfold fpm_http_origin_start at h
  split at h
  · simp at h
  split at h
  · dsimp only at h
    split at h
    · cases h
      rw [mem_reverse] at hx
      have h1 := (takeWhile_sublist _).subset hx
      rw [mem_reverse] at h1
      have h2 := mem_of_mem_drop ((takeWhile_sublist _).subset h1)
      exact .tail _ ((dropWhile_sublist _).subset h2)
    · simp at h
  · simp at h

lemma find_header_mem [HeaderLookup] {headers : List Header} {key value : Bytes}
    (h : evhttp_find_header headers key = some value) : ∃ name, (name, value) ∈ headers := by
  rw [HeaderLookup.first_named, Option.map_eq_some_iff] at h
  obtain ⟨⟨name, v⟩, hfind, rfl⟩ := h
  exact ⟨name, mem_of_find?_eq_some hfind⟩

variable {req : Request}

lemma find_header_safe [HeaderLookup] (hd : Delivered req) {key value : Bytes}
    (h : evhttp_find_header req.headers key = some value) : line_safe value := by
  obtain ⟨name, hmem⟩ := find_header_mem h
  exact hd.header_values _ hmem

lemma host_value_safe [HeaderLookup] (hd : Delivered req) : line_safe (host_value req) := by
  unfold host_value
  split
  · rename_i authority hauth
    unfold fpm_http_absolute_authority at hauth
    split at hauth
    · simp at hauth
    rename_i a hstart
    split at hauth
    · simp at hauth
    split at hauth
    · simp at hauth
    cases hauth
    exact line_safe_of_subset (origin_start_subset hstart) hd.uri
  · cases hfind : evhttp_find_header req.headers (str "Host") with
    | none => exact hd.pool
    | some value => exact find_header_safe hd hfind

lemma xff_safe [HeaderLookup] (hd : Delivered req) :
    line_safe (fpm_http_http_xff (evhttp_find_header req.headers (str "X-Forwarded-For"))
      req.peer_addr) := by
  unfold fpm_http_http_xff
  split
  · rename_i value hfind
    split
    · exact line_safe_append (line_safe_append (find_header_safe hd hfind) (by decide)) hd.peer_addr
    · exact hd.peer_addr
  · exact hd.peer_addr

lemma request_target_safe (hd : Delivered req) : line_safe (request_target req) := by
  unfold request_target
  cases hup : req.upstream_uri with
  | some t => exact hd.upstream_uri t hup
  | none =>
    unfold fpm_http_origin_form
    cases hu : req.evhttp_uri with
    | none => exact hd.uri
    | some u =>
      have hpath : ∀ p, fpm_http_request_path (some u) = some p → line_safe p := by
        intro p hp
        unfold fpm_http_request_path at hp
        dsimp only at hp
        split at hp
        · cases hp
          decide
        · exact hd.path u p hu hp
      cases hp : fpm_http_request_path (some u) with
      | none => exact hd.uri
      | some p =>
        dsimp
        cases hq : u.query with
        | none => exact hpath p hp
        | some q =>
          exact line_safe_append (line_safe_append (hpath p hp) (by decide)) (hd.query u q hu hq)

lemma request_fields_safe [HeaderLookup] (hd : Delivered req) (upgrading : Bool) :
    ∀ f ∈ request_fields req upgrading, field_safe f := by
  intro f hf
  have hmade : ∀ (name value : Bytes), line_safe name ∧ COLON ∉ name → line_safe value →
      field_safe (name, value) := fun name value hname hvalue => ⟨hname.1, hname.2, hvalue⟩
  simp only [request_fields, mem_append] at hf
  -- Host, the headers passed on, the id, the two forwarded ones, port, length and connection
  rcases hf with (((((hf | hf) | hf) | hf) | hf) | hf) | hf
  · rw [mem_singleton.mp hf]
    exact hmade _ _ (by decide) (host_value_safe hd)
  · have hmem := (mem_filter.mp hf).1
    exact hmade f.1 f.2 (hd.header_names f hmem) (hd.header_values f hmem)
  · split at hf
    · rw [mem_singleton.mp hf]
      exact hmade _ _ (by decide) hd.request_id
    · simp at hf
  · rcases mem_cons.mp hf with rfl | hf
    · exact hmade _ _ (by decide) (xff_safe hd)
    · rw [mem_singleton.mp hf]
      refine hmade _ _ (by decide) ?_
      unfold scheme_value
      split
      · exact hd.scheme
      · decide
  · split at hf
    · rw [mem_singleton.mp hf]
      exact hmade _ _ (by decide) hd.server_port
    · simp at hf
  · rw [mem_singleton.mp hf]
    refine hmade _ _ (by decide) ?_
    intro b hb
    exact (digit_plain (decimal_bytes _ b hb)).2.2
  · split at hf
    · rcases mem_cons.mp hf with rfl | hf
      · exact hmade _ _ (by decide) (by decide)
      · rw [mem_singleton.mp hf]
        exact hmade _ _ (by decide) (by decide)
    · rw [mem_singleton.mp hf]
      exact hmade _ _ (by decide) (by decide)

/-! ## Framing -/

def named (key : Bytes) (f : Field) : Bool := strcaseeq (trim f.name) key

/-- The bytes are one request for this target with this body: the strict reader
takes the head and leaves exactly the body, whose length the only Content-Length
field states, and no field changes the framing. -/
def Conforms (req : Request) (out : Bytes) : Prop :=
  ∃ head, parse_head out = some (head, req.body) ∧
    head.method = fpm_http_method_name req.command ∧ head.target = request_target req ∧
    (∃ f, head.fields.filter (named (str "Content-Length")) = [f] ∧
      read_decimal f.value = some req.body.length) ∧
    ∀ f ∈ head.fields, named (str "Transfer-Encoding") f = false

/-- The request's own parts are of the right shape: a target of visible bytes,
a token for the name of every header that is forwarded, and values without
control bytes. -/
def Clean [HeaderLookup] (req : Request) : Prop :=
  is_target (request_target req) = true ∧
    (∀ h ∈ forwarded req, is_token h.1 = true ∧ is_value h.2 = true) ∧
    is_value (host_value req) = true ∧
    is_value (fpm_http_http_xff (evhttp_find_header req.headers (str "X-Forwarded-For"))
      req.peer_addr) = true ∧
    is_value req.request_id = true ∧ is_value req.scheme = true ∧
    is_value req.server_port = true

instance [HeaderLookup] (req : Request) : Decidable (Clean req) :=
  inferInstanceAs (Decidable (_ ∧ (∀ h ∈ forwarded req, _ = true ∧ _ = true) ∧ _ ∧ _ ∧ _ ∧ _ ∧ _))

lemma well_formed_own {name value : Bytes} (hname : is_token name = true) :
    well_formed (name, value) = true ↔ is_value value = true := by
  simp [well_formed, hname]

lemma decimal_value (v : ℕ) : is_value (decimal v) = true := by
  rw [is_value, all_eq_true]
  intro b hb
  exact (digit_plain (decimal_bytes v b hb)).1

lemma optional_field {name value : Bytes} (hname : is_token name = true) :
    (if value ≠ [] then [(name, value)] else []).all well_formed = true
      ↔ is_value value = true := by
  by_cases hv : value ≠ []
  · rw [if_pos hv, all_cons, all_nil, Bool.and_true]
    exact well_formed_own hname
  · rw [if_neg hv, not_ne_iff.mp hv]
    exact Iff.rfl

lemma fields_well_formed [HeaderLookup] (req : Request) (upgrading : Bool) :
    (is_target (request_target req) && (request_fields req upgrading).all well_formed) = true
      ↔ Clean req := by
  have hscheme : is_value (scheme_value req) = true ↔ is_value req.scheme = true := by
    unfold scheme_value
    by_cases hs : req.scheme ≠ []
    · rw [if_pos hs]
    · rw [if_neg hs, not_ne_iff.mp hs]
      exact iff_of_true rfl rfl
  have hlast : (if upgrading then
      [(str "Connection", str "Upgrade"), (str "Upgrade", str "websocket")]
      else [(str "Connection", str "keep-alive")]).all well_formed = true := by
    cases upgrading <;> rfl
  have hforward : (forwarded req).all well_formed = true
      ↔ ∀ h ∈ forwarded req, is_token h.1 = true ∧ is_value h.2 = true := by
    simp [well_formed]
  unfold request_fields Clean
  simp only [all_append, Bool.and_eq_true, hlast, hforward, all_cons, all_nil,
    and_true, well_formed_own (show is_token (str "Host") = true from rfl),
    well_formed_own (show is_token (str "X-Forwarded-For") = true from rfl),
    well_formed_own (show is_token (str "X-Forwarded-Proto") = true from rfl),
    well_formed_own (show is_token (str "Content-Length") = true from rfl), decimal_value,
    optional_field (show is_token (str "X-Request-Id") = true from rfl),
    optional_field (show is_token (str "X-Forwarded-Port") = true from rfl), hscheme]
  constructor
  · rintro ⟨htarget, ⟨⟨⟨hhost, hfwd⟩, hid⟩, hxff, hsch⟩, hport⟩
    exact ⟨htarget, hfwd, hhost, hxff, hid, hsch, hport⟩
  · rintro ⟨htarget, hfwd, hhost, hxff, hid, hsch, hport⟩
    exact ⟨htarget, ⟨⟨⟨hhost, hfwd⟩, hid⟩, hxff, hsch⟩, hport⟩

lemma trim_token {name : Bytes} (h : is_token name = true) : trim name = name := by
  refine trim_eq_self ?_
  intro b hb
  simp only [is_token, Bool.and_eq_true, all_eq_true] at h
  have ht := h.2 b hb
  simp only [ows, Bool.or_eq_false_iff]
  refine ⟨tchar_ne_space ht, ?_⟩
  rw [beq_eq_false_iff_ne]
  rintro rfl
  cases ht

abbrev read_fields (fields : List Header) : List Field :=
  fields.map fun f => { name := f.1, value := trim f.2 }

lemma forwarded_not_framing {h : Header} (hmem : h ∈ forwarded req) (htoken : is_token h.1 = true)
    :
    named (str "Content-Length") { name := h.1, value := trim h.2 } = false ∧
      named (str "Transfer-Encoding") { name := h.1, value := trim h.2 } = false := by
  have hskip : skipped req h.1 = false := by simpa using (mem_filter.mp hmem).2
  unfold named
  rw [trim_token htoken]
  -- a header of either name would have been skipped
  constructor
  · by_contra hname
    rw [Bool.not_eq_false] at hname
    simp [skipped, hname] at hskip
  · by_contra hname
    rw [Bool.not_eq_false] at hname
    simp [skipped, fpm_http_http_header_dropped, hname] at hskip

/-- Among a clean request's fields there is one Content-Length and no
Transfer-Encoding. -/
lemma framing_fields [HeaderLookup] (hclean : Clean req) (upgrading : Bool) :
    (read_fields (request_fields req upgrading)).filter (named (str "Content-Length"))
        = [{ name := str "Content-Length", value := trim (decimal req.body.length) }] ∧
      ∀ f ∈ read_fields (request_fields req upgrading),
        named (str "Transfer-Encoding") f = false := by
  -- none of the others is read as a framing field, the client's own included
  have hfwd : ∀ f ∈ read_fields (forwarded req),
      named (str "Content-Length") f = false ∧ named (str "Transfer-Encoding") f = false := by
    intro f hf
    obtain ⟨h, hmem, rfl⟩ := mem_map.mp hf
    exact forwarded_not_framing hmem (hclean.2.1 h hmem).1
  have hid : ∀ f ∈ read_fields (if req.request_id ≠ [] then
      [(str "X-Request-Id", req.request_id)] else []),
      named (str "Content-Length") f = false ∧ named (str "Transfer-Encoding") f = false := by
    split
    · rintro f hf
      rw [mem_singleton.mp hf]
      exact ⟨rfl, rfl⟩
    · rintro f hf
      simp at hf
  have hport : ∀ f ∈ read_fields (if req.server_port ≠ [] then
      [(str "X-Forwarded-Port", req.server_port)] else []),
      named (str "Content-Length") f = false ∧ named (str "Transfer-Encoding") f = false := by
    split
    · rintro f hf
      rw [mem_singleton.mp hf]
      exact ⟨rfl, rfl⟩
    · rintro f hf
      simp at hf
  have hempty : ∀ l : List Field,
      (∀ f ∈ l, named (str "Content-Length") f = false ∧ named (str "Transfer-Encoding") f = false)
      → l.filter (named (str "Content-Length")) = [] := by
    intro l hl
    rw [filter_eq_nil_iff]
    intro f hf
    rw [(hl f hf).1]
    exact Bool.false_ne_true
  constructor
  · unfold request_fields
    simp only [read_fields, map_append, filter_append]
    rw [hempty _ hfwd, hempty _ hid, hempty _ hport]
    cases upgrading <;> rfl
  · intro f hf
    unfold request_fields at hf
    simp only [read_fields, map_append, mem_append] at hf
    rcases hf with (((((hf | hf) | hf) | hf) | hf) | hf) | hf
    · rw [mem_singleton.mp hf]
      rfl
    · exact (hfwd f hf).2
    · exact (hid f hf).2
    · rcases mem_cons.mp hf with rfl | hf
      · rfl
      · rw [mem_singleton.mp hf]
        rfl
    · exact (hport f hf).2
    · rw [mem_singleton.mp hf]
      rfl
    · cases upgrading
      · rw [mem_singleton.mp hf]
        rfl
      · rcases mem_cons.mp hf with rfl | hf
        · rfl
        · rw [mem_singleton.mp hf]
          rfl

lemma parse_written [HeaderLookup] (hd : Delivered req) {out : Bytes}
    (hok : fpm_http_http_write_request req = .ok out) :
    ∃ upgrading, parse_head out = if is_target (request_target req)
        && (request_fields req upgrading).all well_formed then
      some ({ method := fpm_http_method_name req.command, target := request_target req,
              fields := read_fields (request_fields req upgrading) }, req.body)
      else none := by
  have hmethod : is_token (fpm_http_method_name req.command) = true
      ∧ line_safe (fpm_http_method_name req.command) := by
    cases req.command <;> decide
  unfold fpm_http_http_write_request at hok
  dsimp only at hok
  split at hok
  · simp at hok
  split at hok
  · simp at hok
  cases hok
  refine ⟨fpm_http_http_upgrade_requested req, ?_⟩
  rw [request_head_eq]
  exact parse_head_render hmethod.1 rfl (by decide) hmethod.2 (request_target_safe hd) _
    (request_fields_safe hd _) req.body

/-- **Framing.** An accepted request is written as one request with the client's
body exactly when its parts are clean. -/
theorem write_request_conforms_iff [HeaderLookup] (req : Request) (hd : Delivered req) (out : Bytes)
    (hok : fpm_http_http_write_request req = .ok out) : Conforms req out ↔ Clean req := by
  obtain ⟨upgrading, hparse⟩ := parse_written hd hok
  rw [← fields_well_formed req upgrading]
  constructor
  · rintro ⟨head, hhead, -⟩
    by_contra hno
    rw [hparse, if_neg hno] at hhead
    simp at hhead
  · intro hyes
    have hclean := (fields_well_formed req upgrading).mp hyes
    rw [if_pos hyes] at hparse
    obtain ⟨hlength, hte⟩ := framing_fields hclean upgrading
    refine ⟨_, hparse, rfl, rfl, ⟨_, hlength, ?_⟩, hte⟩
    rw [trim_eq_self fun b hb => (digit_plain (decimal_bytes _ b hb)).2.1]
    exact read_decimal_decimal _

instance first_header : HeaderLookup where
  evhttp_find_header headers key := (headers.find? fun h => strcaseeq h.1 key).map Prod.snd
  first_named _ _ := rfl

def sample_request (headers : List Header) (body : Bytes) : Request where
  command := .POST
  uri := str "/a"
  evhttp_uri := some { path := some (str "/a"), has_host := false, query := none }
  headers := headers
  body := body
  upgrade := false
  upstream_uri := none
  pool := str "www"
  request_id_on := false
  request_id := []
  peer_addr := str "127.0.0.1"
  scheme := str "http"
  server_port := []

lemma sample_delivered {headers : List Header}
    (hnames : ∀ h ∈ headers, line_safe h.1 ∧ COLON ∉ h.1) (hvalues : ∀ h ∈ headers, line_safe h.2)
    (body : Bytes) : Delivered (sample_request headers body) where
  header_names := hnames
  header_values := hvalues
  uri := show line_safe (str "/a") by decide
  path := by
    rintro u p hu hp
    cases hu
    cases hp
    decide
  query := by
    rintro u q hu hq
    cases hu
    simp at hq
  upstream_uri := by
    rintro t ht
    simp [sample_request] at ht
  pool := show line_safe (str "www") by decide
  request_id := show line_safe [] by decide
  peer_addr := show line_safe (str "127.0.0.1") by decide
  scheme := show line_safe (str "http") by decide
  server_port := show line_safe [] by decide

lemma write_request_ok [HeaderLookup] (hup : fpm_http_http_upgrade_requested req = false)
    (hcount : counted_head (request_head req false) ≤ FPM_HTTP_HEADERS_MAX) :
    fpm_http_http_write_request req = .ok (request_head req false ++ req.body) := by
  unfold fpm_http_http_write_request
  rw [hup, if_neg (by simp), if_neg (Nat.not_lt.mpr hcount)]

def plain_request : Request :=
  sample_request [(str "Host", str "h"), (str "Accept", str "*/*")] (str "xyz")

theorem write_request_conforms_plain :
    Conforms plain_request (request_head plain_request false ++ plain_request.body) :=
  (write_request_conforms_iff plain_request (sample_delivered (by decide) (by decide) _) _
    (write_request_ok (by decide +kernel) (by decide +kernel))).mpr (by decide +kernel)

def spaced_request : Request :=
  sample_request [(str "Host", str "h"), (str "Transfer-Encoding ", str "chunked")]
    (str "0\r\n\r\n")

/-- The filter compares names as they came, so such a header is written out, and
the strict reader refuses the request it is in. -/
theorem write_request_spaced_name :
    Delivered spaced_request ∧ fpm_http_http_write_request spaced_request
        = .ok (request_head spaced_request false ++ spaced_request.body) ∧
      str "Transfer-Encoding : chunked\r\n" <:+: request_head spaced_request false ∧
      ¬ Conforms spaced_request (request_head spaced_request false ++ spaced_request.body) := by
  refine ⟨sample_delivered (by decide) (by decide) _,
    write_request_ok (by decide +kernel) (by decide +kernel), by decide +kernel, ?_⟩
  rintro ⟨head, hhead, -⟩
  have hnone : parse_head (request_head spaced_request false ++ spaced_request.body) = none := by
    decide +kernel
  rw [hnone] at hhead
  simp at hhead

end FpmNg.HttpRequest
