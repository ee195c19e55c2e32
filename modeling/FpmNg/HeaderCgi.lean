/-
The CGI variables of a request: `fpm_http_header_cgi_key` of `fpm_http_header_cgi.c`, and the
`fpm_http_param` calls of `fpm_http_build_request` in `fpm_http_fcgi.c`.

The map of the characters is not injective, `-` and `_` meet. It is on the names that get a
key, up to case, and no such name meets a variable the server sets.
-/
import FpmNg.HttpHead

open List Option

namespace FpmNg.HeaderCgi

open FpmNg.HttpReply (FPM_HTTP_HEADER_NAME_MAX)
open FpmNg.HttpRequest (Header)

abbrev UNDERSCORE : UInt8 := 95

/-! ## The source -/

inductive CgiKey where
  | refused
  | skipped
  | key (out : Bytes)
  deriving DecidableEq

def cgi_byte (ch : UInt8) : UInt8 :=
  if 97 ≤ ch ∧ ch ≤ 122 then ch - 32 else if ch = 45 then UNDERSCORE else ch

def fpm_http_header_cgi_key (name : Bytes) (content_type_skip : Bool) (out_size : ℕ) : CgiKey :=
  if name.length > FPM_HTTP_HEADER_NAME_MAX ∨ out_size < name.length + 6 then .refused
  else if strcaseeq name (str "Content-Length") || strcaseeq name (str "Proxy") then .skipped
  else if UNDERSCORE ∈ name then .skipped
  else if strcaseeq name (str "Content-Type") then
    if content_type_skip then .skipped else .key (str "CONTENT_TYPE")
  else .key (str "HTTP_" ++ name.map cgi_byte)

abbrev FPM_HTTP_HEADER_CGI_KEY_LEN : ℕ := FPM_HTTP_HEADER_NAME_MAX + 6

def server_variables : List Bytes :=
  [str "REQUEST_METHOD", str "SERVER_PROTOCOL", str "GATEWAY_INTERFACE", str "SERVER_SOFTWARE",
    str "REQUEST_URI", str "QUERY_STRING", str "DOCUMENT_ROOT", str "SCRIPT_NAME",
    str "SCRIPT_FILENAME", str "PATH_INFO", str "SERVER_NAME", str "REMOTE_ADDR",
    str "REMOTE_PORT", str "SERVER_ADDR", str "SERVER_PORT", str "REQUEST_SCHEME", str "HTTPS",
    str "AUTH_TYPE", str "REMOTE_USER", str "CONTENT_LENGTH"]

structure Request where
  /-- The value of a variable of the server, if it is sent. -/
  set : Bytes → Option Bytes
  /-- The authority of an absolute-form target. -/
  authority : Option Bytes
  /-- The request id, empty if none could be made; `none` if `http.request_id` is off. -/
  request_id : Option Bytes
  headers : List Header

def Request.server_params (r : Request) : List (Bytes × Bytes) :=
  (server_variables.filterMap fun v => (r.set v).map (v, ·))
  ++ (if r.headers.any fun h => strcaseeq h.1 (str "Host") then []
    else r.authority.toList.map (str "HTTP_HOST", ·))
  ++ (r.request_id.toList.filter (· ≠ [])).map (str "HTTP_X_REQUEST_ID", ·)

/-- The loop over the headers; `none` is `HTTP_BADREQUEST`. -/
def header_params (authority request_id : Option Bytes) :
    List Header → Option (List (Bytes × Bytes))
  | [] => some []
  | (k, value) :: headers =>
    let value := if strcaseeq k (str "Host") then authority.getD value else value
    if request_id.isSome && strcaseeq k (str "X-Request-Id") then
      header_params authority request_id headers
    else
      match fpm_http_header_cgi_key k false FPM_HTTP_HEADER_CGI_KEY_LEN with
      | .refused => none
      | .skipped => header_params authority request_id headers
      | .key key => (header_params authority request_id headers).map ((key, value) :: ·)

/-! ## The map -/

def name_byte (ch : UInt8) : UInt8 := if ch = UNDERSCORE then 45 else tolower ch

lemma cgi_byte_tolower (ch : UInt8) : cgi_byte (tolower ch) = cgi_byte ch := by
  unfold cgi_byte tolower
  grind

lemma name_byte_cgi_byte {ch : UInt8} (h : ch ≠ UNDERSCORE) :
    name_byte (cgi_byte ch) = tolower ch := by
  unfold name_byte cgi_byte tolower
  grind

variable {a b name k : Bytes} {skip : Bool} {size : ℕ}

theorem map_cgi_byte_iff (ha : UNDERSCORE ∉ a) (hb : UNDERSCORE ∉ b) :
    a.map cgi_byte = b.map cgi_byte ↔ strcaseeq a b = true := by
  have hback : ∀ l : Bytes, UNDERSCORE ∉ l → (l.map cgi_byte).map name_byte = l.map tolower := by
    intro l hl
    rw [List.map_map]
    exact map_congr_left fun ch hch => name_byte_cgi_byte fun h => hl (h ▸ hch)
  have hthere : ∀ l : Bytes, (l.map tolower).map cgi_byte = l.map cgi_byte := by
    intro l
    rw [List.map_map]
    exact map_congr_left fun ch _ => cgi_byte_tolower ch
  rw [strcaseeq, beq_iff_eq]
  constructor
  · intro h
    rw [← hback a ha, ← hback b hb, h]
  · intro h
    rw [← hthere a, ← hthere b, h]

def cgi_name (m : Bytes) : Bytes := if m = str "CONTENT_TYPE" then m else str "HTTP_" ++ m

lemma content_type_ne (n : Bytes) : str "CONTENT_TYPE" ≠ str "HTTP_" ++ n := fun h =>
  absurd ((congrArg (take 5) h).trans (take_left' rfl)) (by decide)

lemma cgi_name_eq_prefixed {m n : Bytes} (h : cgi_name m = str "HTTP_" ++ n) : m = n := by
  unfold cgi_name at h
  split at h
  · exact absurd (‹m = _›.symm.trans h) (content_type_ne n)
  · exact append_cancel_left h

lemma cgi_name_injective {m n : Bytes} (h : cgi_name m = cgi_name n) : m = n := by
  by_cases hn : n = str "CONTENT_TYPE"
  · by_cases hm : m = str "CONTENT_TYPE"
    · rw [hm, hn]
    · rw [hn, cgi_name, if_neg hm] at h
      exact absurd h.symm (content_type_ne m)
  · exact cgi_name_eq_prefixed (h.trans (if_neg hn))

structure Accepted (name k : Bytes) : Prop where
  no_underscore : UNDERSCORE ∉ name
  no_proxy : strcaseeq name (str "Proxy") = false
  key : k = cgi_name (name.map cgi_byte)

lemma accepted (h : fpm_http_header_cgi_key name skip size = .key k) : Accepted name k := by
  unfold fpm_http_header_cgi_key at h
  split at h
  · cases h
  split at h
  · cases h
  rename_i hskip
  rw [Bool.or_eq_true, not_or, Bool.not_eq_true, Bool.not_eq_true] at hskip
  split at h
  · cases h
  rename_i hunder
  have htype := map_cgi_byte_iff (b := str "Content-Type") hunder (by decide)
  refine ⟨hunder, hskip.2, ?_⟩
  rw [show (str "Content-Type").map cgi_byte = str "CONTENT_TYPE" by decide] at htype
  split at h
  · split at h <;> cases h
    rw [htype.mpr ‹_›]
    rfl
  · cases h
    rw [cgi_name, if_neg (htype.not.mpr ‹_›)]

lemma Accepted.named (h : Accepted name (str "HTTP_" ++ b.map cgi_byte)) (hb : UNDERSCORE ∉ b) :
    strcaseeq name b = true :=
  (map_cgi_byte_iff h.no_underscore hb).mp (cgi_name_eq_prefixed h.key.symm)

lemma Accepted.not_proxy (h : Accepted name k) : k ≠ str "HTTP_PROXY" := by
  rintro rfl
  have hnamed : strcaseeq name (str "Proxy") = true := Accepted.named h (by decide)
  rw [h.no_proxy] at hnamed
  cases hnamed

lemma Accepted.not_server (h : Accepted name k) : k ∉ server_variables := by
  intro hk
  rw [h.key, cgi_name] at hk
  split at hk
  · rw [‹name.map cgi_byte = _›] at hk
    exact absurd hk (by decide)
  · have hnone : server_variables.all (fun v => !(str "HTTP_").isPrefixOf v) = true := by decide
    have hpre := all_eq_true.mp hnone _ hk
    rw [Bool.not_eq_true', ← Bool.not_eq_true, isPrefixOf_iff_prefix] at hpre
    exact hpre (prefix_append ..)

lemma header_params_mem {authority request_id : Option Bytes} {headers : List Header}
    {ps : List (Bytes × Bytes)} (h : header_params authority request_id headers = some ps)
    {p : Bytes × Bytes} (hp : p ∈ ps) : ∃ f ∈ headers, Accepted f.1 p.1 ∧
      (request_id.isSome && strcaseeq f.1 (str "X-Request-Id")) = false := by
  induction headers generalizing ps with
  | nil =>
    cases h
    exact nomatch hp
  | cons f headers ih =>
    unfold header_params at h
    dsimp only at h
    split at h
    · obtain ⟨g, hg, hgp⟩ := ih h hp
      exact ⟨g, .tail _ hg, hgp⟩
    rename_i hid
    split at h
    · cases h
    · obtain ⟨g, hg, hgp⟩ := ih h hp
      exact ⟨g, .tail _ hg, hgp⟩
    · rename_i key hkey
      obtain ⟨qs, hqs, rfl⟩ := map_eq_some_iff.mp h
      rcases mem_cons.mp hp with rfl | hp
      · exact ⟨f, .head _, accepted hkey, Bool.eq_false_iff.mpr hid⟩
      · obtain ⟨g, hg, hgp⟩ := ih hqs hp
        exact ⟨g, .tail _ hg, hgp⟩

/-- **The CGI variables of the headers.** Two names that get a key get the same exactly if
they are equal up to case; no name gets the key of a variable of the server or `HTTP_PROXY`;
and in every request no header is sent under a name the server sends in it. -/
theorem header_variables_apart (a b : Bytes) (skip : Bool) (size : ℕ) (ka kb : Bytes)
    (ha : fpm_http_header_cgi_key a skip size = .key ka)
    (hb : fpm_http_header_cgi_key b skip size = .key kb) :
    (ka = kb ↔ strcaseeq a b = true) ∧ ka ∉ server_variables ∧ ka ≠ str "HTTP_PROXY" ∧
    ∀ (r : Request) ps, header_params r.authority r.request_id r.headers = some ps →
      ∀ p ∈ ps, p.1 ∉ r.server_params.map (·.1) := by
  have ha := accepted ha
  have hb := accepted hb
  refine ⟨?_, ha.not_server, ha.not_proxy, fun r ps h p hp hmem => ?_⟩
  · rw [← map_cgi_byte_iff ha.no_underscore hb.no_underscore, ha.key, hb.key]
    exact ⟨cgi_name_injective, congrArg cgi_name⟩
  obtain ⟨f, hf, hacc, hid⟩ := header_params_mem h hp
  obtain ⟨q, hq, hname⟩ := mem_map.mp hmem
  rw [Request.server_params, mem_append, mem_append] at hq
  rcases hq with (hq | hq) | hq
  · obtain ⟨v, hv, hset⟩ := mem_filterMap.mp hq
    obtain ⟨x, -, rfl⟩ := map_eq_some_iff.mp hset
    exact hacc.not_server (hname ▸ hv)
  · -- the header would be the Host header
    split at hq
    · exact nomatch hq
    rename_i hhost
    obtain ⟨x, -, rfl⟩ := mem_map.mp hq
    rw [← hname] at hacc
    refine hhost (any_eq_true.mpr ⟨f, hf, ?_⟩)
    exact Accepted.named hacc (by decide)
  · obtain ⟨x, hx, rfl⟩ := mem_map.mp hq
    have hsome : r.request_id.isSome = true :=
      isSome_iff_exists.mpr ⟨x, mem_toList.mp (mem_filter.mp hx).1⟩
    rw [← hname] at hacc
    rw [hsome, Accepted.named hacc (by decide)] at hid
    cases hid

theorem header_variables_apart_accept :
    fpm_http_header_cgi_key (str "Accept") false 1030 = .key (str "HTTP_ACCEPT") ∧
      str "HTTP_ACCEPT" ∉ server_variables :=
  ⟨by decide, (header_variables_apart (str "Accept") (str "ACCEPT") false 1030 (str "HTTP_ACCEPT")
    (str "HTTP_ACCEPT") (by decide) (by decide)).2.1⟩

end FpmNg.HeaderCgi
