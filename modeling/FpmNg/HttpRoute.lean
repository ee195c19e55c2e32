/-
The route table of the gateway: `http.route[]` of `fpm_http_route.c`, the lookup
`fpm_http_route` of `fpm_http.c`, and the host names of `fpm_http_host.c`.

The table is a `RankedTable`: validation leaves no two rows that are level and
answer the same request, so the first row that answers is the row the longest
prefix law names, in whatever order the entries were written. A row is compared
by what it holds; its place in the counters segment is not part of it. Only
`pool.type = gateway` builds such a table, and that type is `proxy_only`; the
branches for a pool of its own are kept as the source has them.
-/
import FpmNg.HttpRequest
import FpmNg.Lib.RankedTable
import FpmNg.Lib.Separated
import Mathlib.Data.List.Pairwise

open HttpGrammar RankedTable Separated ByteScan List Option Prod

namespace FpmNg.HttpRoute

open HttpRequest (Request Header fpm_http_absolute_authority fpm_http_request_path
  FPM_HTTP_AUTHORITY_MAX)

/-- `'.'`. -/
abbrev DOT : UInt8 := 46

/-! ## Host names: `fpm_http_host.c` -/

abbrev FPM_HTTP_HOST_NAME_MAX : ℕ := 253
abbrev FPM_HTTP_HOST_LABEL_MAX : ℕ := 63

/-- `host_fold`, the source's own `tolower`. -/
def host_fold (c : UInt8) : UInt8 := if 65 ≤ c ∧ c ≤ 90 then c + 32 else c

def host_is_letter_or_digit (c : UInt8) : Bool :=
  (97 ≤ c && c ≤ 122) || (65 ≤ c && c ≤ 90) || (48 ≤ c && c ≤ 57)

/-- The loop of `fpm_http_host_valid_name`, with the length of the current label
and the byte in front. -/
def valid_name_from (label : ℕ) (last : UInt8) : Bytes → Bool
  | [] => label != 0 && last != DASH
  | c :: rest =>
    if c = DOT then
      if label = 0 ∨ last = DASH then false else valid_name_from 0 c rest
    else if !host_is_letter_or_digit c && c != DASH then false
    else if c = DASH ∧ label = 0 then false
    else if FPM_HTTP_HOST_LABEL_MAX < label + 1 then false
    else valid_name_from (label + 1) c rest

def fpm_http_host_valid_name (name : Bytes) : Bool :=
  if name.length = 0 ∨ FPM_HTTP_HOST_NAME_MAX < name.length then false
  else valid_name_from 0 0 name

def fpm_http_host_dup_lower (name : Bytes) : Bytes := name.map host_fold

/-- `fpm_http_host_equal` of two names of one length. -/
def fpm_http_host_equal (a b : Bytes) : Bool := a.map host_fold == b.map host_fold

def valid_port (p : Bytes) : Bool :=
  !(p.length == 0 || decide (5 < p.length)) && p.all isdigit &&
    decide (p.foldl (fun port b => port * 10 + digit b) 0 ≤ 65535)

def fpm_http_host_parse (value : Bytes) (out_size : ℕ) : Option Bytes :=
  let value := trim value
  if value = [] ∨ value.head? = some 91 then none
  else
    let (name, port_ok) :=
      match cut (· == COLON) value with
      | some (name, port) => (name, valid_port port)
      | none => (value, true)
    if !port_ok then none
    else if !fpm_http_host_valid_name name || decide (out_size ≤ name.length) then none
    else some (fpm_http_host_dup_lower name)

def fpm_http_host_of_request (req : Request) : Option Bytes :=
  match fpm_http_absolute_authority req.uri with
  | .over_long => none
  | .copied authority => fpm_http_host_parse authority FPM_HTTP_AUTHORITY_MAX
  | .none =>
    match req.headers.filter fun h => strcaseeq h.1 (str "Host") with
    | [h] => fpm_http_host_parse h.2 FPM_HTTP_AUTHORITY_MAX
    | _ => none

/-! ## The pools a route can name -/

/-- The bits of `fpm_pool_type_s` a target is asked for. -/
structure PoolType where
  serves_fastcgi : Bool
  serves_http11 : Bool
  serves_websocket : Bool
  deriving DecidableEq

/-- A pool of the configuration; `type` is what `fpm_pool_type_resolve` finds. -/
structure Pool where
  name : Bytes
  type : Option PoolType
  http_tls_cert : Option Bytes
  listen_address : Bytes
  pm_max_children : Int
  deriving DecidableEq

/-- An address `getaddrinfo` returns. -/
inductive SockAddr where
  /-- The four bytes in network order. -/
  | inet (addr : Bytes)
  | inet6 (addr : Bytes)
  | other
  deriving DecidableEq

/-- `fpm_worker_all_pools`, and `getaddrinfo` of a numeric host and a service. -/
structure Env where
  pools : List Pool
  getaddrinfo : Bytes → Bytes → Option (List SockAddr)

inductive Refusal where
  | no_route
  | no_prefix_in_any_entry
  | pool_named_twice (pool : Bytes)
  | no_pool_named (pool : Bytes)
  | no_usable_type (pool : Bytes)
  | terminates_tls (pool : Bytes)
  | not_loopback (pool listen_address : Bytes)
  | not_a_target (pool : Bytes)
  | not_a_host_name (pool entry : Bytes)
  | already_routed (pool entry other : Bytes)
  | no_entry_of_upgrade (key : Bytes)
  | no_websocket (key pool : Bytes)
  deriving DecidableEq

/-- `fpm_sockets_domain_from_address(address) == FPM_AF_UNIX`. -/
def is_unix_address (address : Bytes) : Bool :=
  !address.contains COLON && !address.all isdigit

def is_loopback : SockAddr → Bool
  | .inet addr => addr.head? == some 127
  | .inet6 addr => addr == replicate 15 0 ++ [1]
  | .other => false

/-- The host and the service of `host:service` and `[host]:service`. -/
def split_address (address : Bytes) : Option (Bytes × Bytes) :=
  match address with
  | 91 :: copy =>
    match cut (· == 93) copy with
    | some (host, 58 :: service) => some (host, service)
    | _ => none
  | _ =>
    if address.contains COLON then
      some (address.take (last_start COLON address - 1), address.drop (last_start COLON address))
    else none

def fpm_http_target_listen_is_loopback (env : Env) (address : Bytes) : Bool :=
  if is_unix_address address then true
  else
    match split_address address with
    | none => false
    | some (host, service) =>
      if host = [] ∨ service = [] then false
      else
        match env.getaddrinfo host service with
        | none => false
        | some addrs => !addrs.isEmpty && addrs.all is_loopback

inductive Transport where
  | FASTCGI
  | HTTP
  deriving DecidableEq

def fpm_http_route_target_pool (env : Env) (pool_name : Bytes) :
    Except Refusal (Pool × Transport) :=
  match env.pools.find? fun w => w.name == pool_name with
  | none => .error (.no_pool_named pool_name)
  | some w =>
    match w.type with
    | none => .error (.no_usable_type pool_name)
    | some type =>
      if type.serves_fastcgi then .ok (w, .FASTCGI)
      else if type.serves_http11 then
        if w.http_tls_cert.getD [] ≠ [] then .error (.terminates_tls pool_name)
        else if !fpm_http_target_listen_is_loopback env w.listen_address then
          .error (.not_loopback pool_name w.listen_address)
        else .ok (w, .HTTP)
      else .error (.not_a_target pool_name)

/-! ## The entries of `http.route[]` -/

def is_skipped (b : UInt8) : Bool := b == COMMA || b == SP || b == HT

def fpm_http_route_next_prefix (cursor : Bytes) : Option (Bytes × Bytes) :=
  let p := cursor.dropWhile is_skipped
  if p = [] then none
  else
    let entry := p.takeWhile (· != COMMA)
    some ((entry.reverse.dropWhile ows).reverse, p.dropWhile (· != COMMA))

/-- The loop over `fpm_http_route_next_prefix`; `n` bounds its passes. -/
def prefixes_upto : ℕ → Bytes → List Bytes
  | 0, _ => []
  | n + 1, cursor =>
    match fpm_http_route_next_prefix cursor with
    | none => []
    | some (entry, cursor) => entry :: prefixes_upto n cursor

def route_prefixes (value : Bytes) : List Bytes := prefixes_upto (value.length + 1) value

structure RouteEntry where
  host : Option Bytes
  path : Bytes
  deriving DecidableEq

def fpm_http_route_entry_split (entry : Bytes) : RouteEntry :=
  if entry.head? = some SLASH then ⟨none, entry⟩
  else
    match cut (· == SLASH) entry with
    | some (host, path) => ⟨some host, SLASH :: path⟩
    | none => ⟨some entry, [SLASH]⟩

/-! ## Validation -/

/-- The directives of one gateway: the entries of `http.route[]`, pool and value,
and the keys of `http.route_upgrade[]`. -/
structure Config where
  http_routes : List (Bytes × Bytes)
  http_route_upgrade : List Bytes
  deriving DecidableEq

/-- `struct fpm_http_seen_prefix_s`. -/
structure Seen where
  entry : RouteEntry
  pool : Bytes
  deriving DecidableEq

/-- The comparison of the duplicate check. `host_len` is 0 without a host. -/
def same_entry (seen e : RouteEntry) : Bool :=
  seen.path == e.path && (seen.host.getD []).length == (e.host.getD []).length &&
    ((e.host.getD []).length == 0 || fpm_http_host_equal (seen.host.getD []) (e.host.getD []))

def host_ok (e : RouteEntry) : Bool :=
  match e.host with
  | some host => fpm_http_host_valid_name host
  | none => true

def validate_prefixes (pool : Bytes) : List Seen → List Bytes → Except Refusal (List Seen)
  | seen, [] => .ok seen
  | seen, entry :: rest =>
    let e := fpm_http_route_entry_split entry
    if !host_ok e then .error (.not_a_host_name pool entry)
    else
      match seen.find? fun s => same_entry s.entry e with
      | some s => .error (.already_routed pool entry s.pool)
      | none => validate_prefixes pool (seen ++ [⟨e, pool⟩]) rest

/-- The loop over `http.route[]`, with the keys and the entries in front. -/
def validate_entries (env : Env) :
    List Bytes → List Seen → List (Bytes × Bytes) → Except Refusal Unit
  | _, _, [] => .ok ()
  | keys, seen, (key, value) :: rest =>
    if key ∈ keys then .error (.pool_named_twice key)
    else
      match fpm_http_route_target_pool env key with
      | .error r => .error r
      | .ok _ =>
        match validate_prefixes key seen (route_prefixes value) with
        | .error r => .error r
        | .ok seen => validate_entries env (keys ++ [key]) seen rest

def fpm_http_validate_routes (env : Env) (config : Config) : Except Refusal Unit :=
  if config.http_routes = [] then .ok ()
  else if config.http_routes.all fun kv => (route_prefixes kv.2).isEmpty then
    .error .no_prefix_in_any_entry
  else validate_entries env [] [] config.http_routes

def config_entries (routes : List (Bytes × Bytes)) : List (Bytes × RouteEntry) :=
  routes.flatMap fun kv => (route_prefixes kv.2).map fun p => (kv.1, fpm_http_route_entry_split p)

def serves_websocket (env : Env) (pool : Bytes) : Except Refusal Bool :=
  match fpm_http_route_target_pool env pool with
  | .error r => .error r
  | .ok (w, _) => .ok ((w.type.map PoolType.serves_websocket).getD false)

/-- The inner loops of `fpm_http_validate_upgrade_routes`, over the entries that
have the key for their path. -/
def validate_upgrade_targets (env : Env) (key : Bytes) :
    List (Bytes × RouteEntry) → Except Refusal Unit
  | [] => .ok ()
  | (pool, _) :: rest =>
    match serves_websocket env pool with
    | .error r => .error r
    | .ok false => .error (.no_websocket key pool)
    | .ok true => validate_upgrade_targets env key rest

def validate_upgrades (env : Env) (entries : List (Bytes × RouteEntry)) :
    List Bytes → Except Refusal Unit
  | [] => .ok ()
  | key :: rest =>
    let covered := entries.filter fun e => e.2.path == key
    match validate_upgrade_targets env key covered with
    | .error r => .error r
    | .ok _ =>
      if covered.isEmpty then .error (.no_entry_of_upgrade key)
      else validate_upgrades env entries rest

def fpm_http_validate_upgrade_routes (env : Env) (config : Config) : Except Refusal Unit :=
  validate_upgrades env (config_entries config.http_routes) config.http_route_upgrade

/-- What `fpm_http_validate_pool` asks of the routes of a gateway. -/
def fpm_http_validate_pool (env : Env) (config : Config) : Except Refusal Unit :=
  if config.http_routes = [] then .error .no_route
  else
    match fpm_http_validate_routes env config with
    | .error r => .error r
    | .ok _ => fpm_http_validate_upgrade_routes env config

/-! ## The table -/

/-- `struct fpm_http_target_s`, as far as it is set from the configuration. -/
structure Target where
  pool : Bytes
  listen_address : Bytes
  transport : Transport
  max_upstreams : ℕ
  deriving DecidableEq

/-- `struct fpm_http_route_s`; `path` is its `prefix`. -/
structure Row where
  host : Option Bytes
  path : Bytes
  target : Target
  upgrade : Bool
  deriving DecidableEq

structure Gateway where
  proxy_only : Bool
  has_host_routes : Bool
  routes : List Row
  deriving DecidableEq

def fpm_http_target_init (w : Pool) (transport : Transport) : Target where
  pool := w.name
  listen_address := w.listen_address
  transport := transport
  max_upstreams := if 0 < w.pm_max_children then w.pm_max_children.toNat else 1

def fpm_http_route_upgrade_wanted (config : Config) (path : Bytes) : Bool :=
  config.http_route_upgrade.any fun key => key == path

def route_row (config : Config) (target : Target) (e : RouteEntry) : Row where
  host := e.host.map fpm_http_host_dup_lower
  path := e.path
  target := target
  upgrade := fpm_http_route_upgrade_wanted config e.path

def build_rows (env : Env) (config : Config) : List (Bytes × Bytes) → Except Refusal (List Row)
  | [] => .ok []
  | (key, value) :: rest =>
    match fpm_http_route_target_pool env key with
    | .error r => .error r
    | .ok (w, transport) =>
      match build_rows env config rest with
      | .error r => .error r
      | .ok rows =>
        .ok ((route_prefixes value).map (fun p =>
          route_row config (fpm_http_target_init w transport) (fpm_http_route_entry_split p)) ++ rows)

def fpm_http_route_ranks_before (a b : Row) : Bool :=
  if a.host.isSome != b.host.isSome then a.host.isSome else decide (b.path.length < a.path.length)

def fpm_http_routes_sort (routes : List Row) : List Row := sort fpm_http_route_ranks_before routes

def fpm_http_routes_build (env : Env) (proxy_only : Bool) (own_target : Target) (config : Config) :
    Except Refusal Gateway :=
  if proxy_only ∧ config.http_routes = [] then .error .no_route
  else
    let entries := (config_entries config.http_routes).map snd
    let root_claimed := entries.any fun e => e.host.isNone && e.path == [SLASH]
    let own : List Row := if proxy_only || root_claimed then [] else [⟨none, [SLASH], own_target, false⟩]
    match build_rows env config config.http_routes with
    | .error r => .error r
    | .ok rows =>
      .ok { proxy_only := proxy_only
            has_host_routes := entries.any fun e => e.host.isSome
            routes := fpm_http_routes_sort (own ++ rows) }

/-! ## The lookup -/

def fpm_http_prefix_covers (pre path : Bytes) : Bool :=
  if path.length < pre.length ∨ path.take pre.length ≠ pre then false
  else if path.length = pre.length ∨ pre.getLast? = some SLASH then true
  else path[pre.length]? == some SLASH

def row_answers (host : Option Bytes) (path : Bytes) (row : Row) : Bool :=
  (match row.host with
    | some name => host == some name
    | none => true) && fpm_http_prefix_covers row.path path

/-- `fpm_http_route`; `uridecode` is `evhttp_uridecode(path, 0, _)`. -/
def fpm_http_route (uridecode : Bytes → Option Bytes) (gw : Gateway) (req : Request) : Option Row :=
  if !gw.proxy_only && decide (gw.routes.length < 2) then gw.routes.head?
  else
    let fallback := if gw.proxy_only then none else gw.routes.getLast?
    match fpm_http_request_path req.evhttp_uri with
    | none => fallback
    | some path =>
      if path = [] then fallback
      else
        match uridecode path with
        | none => fallback
        | some decoded =>
          let host := if gw.has_host_routes then fpm_http_host_of_request req else none
          match gw.routes.find? (row_answers host decoded) with
          | some row => some row
          | none => fallback

/-! ## The entries of a value -/

/-- What a value lists: its pieces between commas, trimmed, without empty ones. -/
def listed (value : Bytes) : List Bytes :=
  ((value.splitOn COMMA).map trim).filter fun t => !t.isEmpty

variable {b : UInt8}

lemma trim_cons (h : ows b = true) (t : Bytes) : trim (b :: t) = trim t := by
  unfold trim
  rw [dropWhile_cons_of_pos h]

lemma listed_cons (h : is_skipped b = true) (value : Bytes) :
    listed (b :: value) = listed value := by
  unfold listed splitOn
  rw [splitOnP_cons_eq_if_modifyHead]
  by_cases hb : b = COMMA
  · rw [if_pos (by simp [hb]), map_cons, filter_cons_of_neg (by decide)]
  · have hows : ows b = true := by
      have hne : (b == COMMA) = false := beq_eq_false_iff_ne.mpr hb
      unfold is_skipped at h
      rw [hne, Bool.false_or] at h
      exact h
    -- the blank belongs to the first piece, which is trimmed
    have htrim : ∀ pieces : List Bytes,
        (pieces.modifyHead (cons b)).map trim = pieces.map trim := by
      intro pieces
      cases pieces with
      | nil => rfl
      | cons t rest =>
        rw [modifyHead_cons, map_cons, map_cons, trim_cons hows]
    rw [if_neg (by simpa using hb), htrim]

lemma listed_dropWhile (value : Bytes) : listed (value.dropWhile is_skipped) = listed value := by
  induction value with
  | nil => rfl
  | cons b value ih =>
    by_cases hb : is_skipped b = true
    · rw [dropWhile_cons_of_pos hb, ih, listed_cons hb]
    · rw [dropWhile_cons_of_neg hb]

lemma trim_entry (hb : is_skipped b = false) (t : Bytes) :
    trim (b :: t) = ((b :: t).reverse.dropWhile ows).reverse ∧ trim (b :: t) ≠ [] := by
  have hows : ows b = false := by
    unfold is_skipped at hb
    rw [Bool.or_assoc, Bool.or_eq_false_iff] at hb
    exact hb.2
  have heq : trim (b :: t) = ((b :: t).reverse.dropWhile ows).reverse := by
    unfold trim
    rw [dropWhile_cons_of_neg (by simp [hows])]
  refine ⟨heq, ?_⟩
  rw [heq, Ne, reverse_eq_nil_iff, reverse_cons, dropWhile_append]
  split <;> simp [hows]

lemma next_prefix_spec (cursor : Bytes) :
    ( fpm_http_route_next_prefix cursor = none ∧ listed cursor = []) ∨
      ∃ entry rest, fpm_http_route_next_prefix cursor = some (entry, rest) ∧
        listed cursor = entry :: listed rest ∧ rest.length < cursor.length := by
  have hlisted := listed_dropWhile cursor
  have hshort := (dropWhile_sublist is_skipped (l := cursor)).length_le
  unfold fpm_http_route_next_prefix
  cases hp : cursor.dropWhile is_skipped with
  | nil =>
    rw [hp] at hlisted
    exact .inl ⟨rfl, hlisted ▸ rfl⟩
  | cons b p =>
    right
    have hb : is_skipped b = false := by
      have hhead := head?_dropWhile_not is_skipped cursor
      rw [hp] at hhead
      simpa using hhead
    have hcomma : (b != COMMA) = true := by
      have hne : (b == COMMA) = false := by
        unfold is_skipped at hb
        rw [Bool.or_assoc, Bool.or_eq_false_iff] at hb
        exact hb.1
      simp [bne, hne]
    have htake : (b :: p).takeWhile (· != COMMA) = b :: p.takeWhile (· != COMMA) :=
      takeWhile_cons_of_pos hcomma
    have hdrop : (b :: p).dropWhile (· != COMMA) = p.dropWhile (· != COMMA) :=
      dropWhile_cons_of_pos hcomma
    rw [hp] at hlisted hshort
    obtain ⟨htrim, hne⟩ := trim_entry hb (p.takeWhile (· != COMMA))
    refine ⟨_, _, if_neg (by simp), ?_, ?_⟩
    · rw [← hlisted, htake, ← htrim, hdrop]
      have hnot : COMMA ∉ b :: p.takeWhile (· != COMMA) := by
        intro hmem
        rcases mem_cons.mp hmem with rfl | hmem
        · cases hcomma
        · exact nomatch all_eq_true.mp all_takeWhile _ hmem
      have hjoin : b :: p = b :: p.takeWhile (· != COMMA) ++ p.dropWhile (· != COMMA) := by
        rw [cons_append, takeWhile_append_dropWhile]
      -- what is left is empty or begins with the comma
      cases hrest : p.dropWhile (· != COMMA) with
      | nil =>
        rw [hjoin, hrest, append_nil]
        unfold listed
        rw [splitOn_of_not_mem hnot, map_cons, filter_cons_of_pos (by simpa using hne)]
        rfl
      | cons c rest =>
        have hc : c = COMMA := by
          have hhead := head?_dropWhile_not (· != COMMA) p
          rw [hrest] at hhead
          simpa using hhead
        rw [hjoin, hrest, hc, listed_cons (b := COMMA) rfl]
        unfold listed
        rw [splitOn_append_cons, splitOn_of_not_mem hnot, singleton_append, map_cons,
          filter_cons_of_pos (by simpa using hne)]
    · rw [hdrop]
      have := (dropWhile_sublist (· != COMMA) (l := p)).length_le
      rw [length_cons] at hshort
      omega

/-- **The loop reads the whole list.** -/
theorem route_prefixes_eq (value : Bytes) : route_prefixes value = listed value := by
  have hupto : ∀ n cursor, cursor.length < n → prefixes_upto n cursor = listed cursor := by
    intro n
    induction n with
    | zero => exact fun cursor h => absurd h (by omega)
    | succ n ih =>
      intro cursor h
      unfold prefixes_upto
      rcases next_prefix_spec cursor with ⟨hnext, hnil⟩ | ⟨entry, rest, hnext, hcons, hlt⟩
      · rw [hnext, hnil]
      · rw [hnext, hcons]
        dsimp only
        rw [ih rest (by omega)]
  exact hupto _ value (Nat.lt_succ_self _)

/-! ## What validation accepts -/

lemma validate_prefixes_ok (pool : Bytes) (seen seen' : List Seen) (ps : List Bytes) :
    validate_prefixes pool seen ps = .ok seen' ↔
      (∀ p ∈ ps, host_ok (fpm_http_route_entry_split p) = true) ∧
        (∀ s ∈ seen, ∀ p ∈ ps, same_entry s.entry (fpm_http_route_entry_split p) = false) ∧
        (ps.Pairwise fun p q => same_entry (fpm_http_route_entry_split p)
          (fpm_http_route_entry_split q) = false) ∧
        seen' = seen ++ ps.map fun p => ⟨fpm_http_route_entry_split p, pool⟩ := by
  induction ps generalizing seen with
  | nil =>
    simp only [validate_prefixes, Except.ok.injEq, not_mem_nil, map_nil, append_nil]
    exact ⟨fun h => ⟨by simp, by simp, Pairwise.nil, h.symm⟩, fun h => h.2.2.2.symm⟩
  | cons p ps ih =>
    unfold validate_prefixes
    by_cases hhost : host_ok (fpm_http_route_entry_split p) = true
    · rw [if_neg (by simp [hhost])]
      cases hfind : seen.find? fun s => same_entry s.entry (fpm_http_route_entry_split p) with
      | some s =>
        refine ⟨by simp, fun h => ?_⟩
        have hsame := find?_some hfind
        exact absurd (h.2.1 s (mem_of_find?_eq_some hfind) p mem_cons_self) (by simp [hsame])
      | none =>
        have hnew : ∀ s ∈ seen, same_entry s.entry (fpm_http_route_entry_split p) = false :=
          fun s hs => Bool.eq_false_iff.mpr (find?_eq_none.mp hfind s hs)
        rw [ih]
        simp only [forall_mem_cons, forall_mem_append, pairwise_cons, map_cons,
          append_assoc, singleton_append, not_mem_nil, false_implies, implies_true,
          and_true]
        constructor
        · rintro ⟨hosts, ⟨hseen, hp⟩, hpair, rfl⟩
          exact ⟨⟨hhost, hosts⟩, fun s hs => ⟨hnew s hs, hseen s hs⟩, ⟨hp, hpair⟩, rfl⟩
        · rintro ⟨⟨-, hosts⟩, hseen, ⟨hp, hpair⟩, rfl⟩
          exact ⟨hosts, ⟨fun s hs => (hseen s hs).2, hp⟩, hpair, rfl⟩
    · rw [if_pos (by simp [hhost])]
      exact ⟨by simp, fun h => absurd (h.1 p mem_cons_self) hhost⟩

lemma config_entries_cons (key value : Bytes) (routes : List (Bytes × Bytes)) :
    config_entries ((key, value) :: routes) =
      (route_prefixes value).map (fun p => (key, fpm_http_route_entry_split p)) ++
        config_entries routes := rfl

def Distinct (a b : Bytes × RouteEntry) : Prop := same_entry a.2 b.2 = false

lemma validate_entries_ok (env : Env) (keys : List Bytes) (seen : List Seen)
    (routes : List (Bytes × Bytes)) :
    validate_entries env keys seen routes = .ok () ↔
      ((routes.map fst).Nodup ∧ ∀ kv ∈ routes, kv.1 ∉ keys) ∧
        (∀ kv ∈ routes, ∃ t, fpm_http_route_target_pool env kv.1 = .ok t) ∧
        (∀ e ∈ config_entries routes, host_ok e.2 = true) ∧
        (∀ s ∈ seen, ∀ e ∈ config_entries routes, same_entry s.entry e.2 = false) ∧
        (config_entries routes).Pairwise Distinct := by
  induction routes generalizing keys seen with
  | nil =>
    simp [validate_entries, config_entries]
  | cons kv routes ih =>
    obtain ⟨key, value⟩ := kv
    unfold validate_entries
    by_cases hkey : key ∈ keys
    · rw [if_pos hkey]
      exact ⟨by simp, fun h => absurd hkey (h.1.2 _ mem_cons_self)⟩
    · rw [if_neg hkey]
      cases htarget : fpm_http_route_target_pool env key with
      | error r =>
        refine ⟨by simp, fun h => ?_⟩
        obtain ⟨t, ht⟩ := h.2.1 _ mem_cons_self
        exact nomatch htarget.symm.trans ht
      | ok t =>
        -- the prefixes of one target are checked against all that were seen before
        cases hps : validate_prefixes key seen (route_prefixes value) with
        | error r =>
          refine ⟨by simp, fun h => ?_⟩
          obtain ⟨-, -, hosts, hseen, hpair⟩ := h
          rw [config_entries_cons] at hosts hseen hpair
          have hok := (validate_prefixes_ok key seen _ (route_prefixes value)).mpr
            ⟨fun p hp => hosts _ (mem_append_left _ (mem_map_of_mem hp)),
              fun s hs p hp => hseen s hs _ (mem_append_left _ (mem_map_of_mem hp)),
              pairwise_map.mp (pairwise_append.mp hpair).1, rfl⟩
          exact nomatch hps.symm.trans hok
        | ok seen' =>
          obtain ⟨hosts, hseen, hpair, rfl⟩ :=
            (validate_prefixes_ok key seen seen' (route_prefixes value)).mp hps
          -- a later key must differ from the earlier ones and from this one
          have hbehind : (∀ kv ∈ routes, kv.1 ∉ keys ++ [key]) ↔
              ∀ kv ∈ routes, kv.1 ∉ keys ∧ kv.1 ≠ key := by
            simp [Ne]
          rw [ih, hbehind, config_entries_cons, pairwise_append, pairwise_map]
          simp only [map_cons, nodup_cons, forall_mem_cons, forall_mem_append,
            List.forall_mem_map]
          constructor
          · rintro ⟨⟨hnodup, hkeys⟩, htargets, hhosts, ⟨hold, hnew⟩, hrest⟩
            refine ⟨⟨⟨?_, hnodup⟩, hkey, fun kv hkv => (hkeys kv hkv).1⟩, ⟨⟨t, htarget⟩, htargets⟩,
              ⟨hosts, hhosts⟩, fun s hs => ⟨hseen s hs, hold s hs⟩, hpair, hrest, hnew⟩
            intro hmem
            obtain ⟨kv, hkv, heq⟩ := mem_map.mp hmem
            exact (hkeys kv hkv).2 heq
          · rintro ⟨⟨⟨hnot, hnodup⟩, -, hkeys⟩, ⟨-, htargets⟩, ⟨-, hhosts⟩, hall, -, hrest, hnew⟩
            refine ⟨⟨hnodup, fun kv hkv => ⟨hkeys kv hkv, ?_⟩⟩, htargets, hhosts,
              ⟨fun s hs => (hall s hs).2, hnew⟩, hrest⟩
            rintro rfl
            exact hnot (mem_map_of_mem hkv)

lemma validate_upgrade_targets_ok (env : Env) (key : Bytes) (entries : List (Bytes × RouteEntry)) :
    validate_upgrade_targets env key entries = .ok () ↔
      ∀ e ∈ entries, serves_websocket env e.1 = .ok true := by
  induction entries with
  | nil => simp [validate_upgrade_targets]
  | cons e rest ih =>
    obtain ⟨pool, e⟩ := e
    rw [forall_mem_cons, ← ih, validate_upgrade_targets]
    rcases hs : serves_websocket env pool with r | b
    · simp
    · cases b <;> simp

lemma validate_upgrades_ok (env : Env) (entries : List (Bytes × RouteEntry)) (ups : List Bytes) :
    validate_upgrades env entries ups = .ok () ↔ ∀ key ∈ ups, (∃ e ∈ entries, e.2.path = key) ∧
        ∀ e ∈ entries, e.2.path = key → serves_websocket env e.1 = .ok true := by
  induction ups with
  | nil => simp [validate_upgrades]
  | cons key ups ih =>
    unfold validate_upgrades
    dsimp only
    rw [forall_mem_cons, ← ih]
    have htargets := validate_upgrade_targets_ok env key (entries.filter fun e => e.2.path == key)
    simp only [mem_filter, beq_iff_eq, and_imp] at htargets
    cases hv : validate_upgrade_targets env key (entries.filter fun e => e.2.path == key) with
    | error r =>
      rw [hv] at htargets
      refine ⟨by simp, fun h => absurd (htargets.mpr h.1.2) (by simp)⟩
    | ok u =>
      rw [hv] at htargets
      have hall := htargets.mp rfl
      dsimp only
      by_cases hempty : (entries.filter fun e => e.2.path == key).isEmpty = true
      · rw [if_pos hempty]
        refine ⟨by simp, fun h => ?_⟩
        obtain ⟨e, he, hpath⟩ := h.1.1
        have hmem : e ∈ entries.filter fun e => e.2.path == key :=
          mem_filter.mpr ⟨he, by simp [hpath]⟩
        rw [isEmpty_iff.mp hempty] at hmem
        simp at hmem
      · rw [if_neg hempty]
        have hex : ∃ e ∈ entries, e.2.path = key := by
          obtain ⟨e, he⟩ := exists_mem_of_ne_nil _ (mt isEmpty_iff.mpr hempty)
          rw [mem_filter, beq_iff_eq] at he
          exact ⟨e, he⟩
        exact ⟨fun h => ⟨⟨hex, hall⟩, h⟩, fun h => h.2⟩

structure Accepted (env : Env) (config : Config) : Prop where
  some_entry : config_entries config.http_routes ≠ []
  pools_once : (config.http_routes.map fst).Nodup
  targets : ∀ kv ∈ config.http_routes, ∃ t, fpm_http_route_target_pool env kv.1 = .ok t
  hosts : ∀ e ∈ config_entries config.http_routes, host_ok e.2 = true
  distinct : (config_entries config.http_routes).Pairwise Distinct
  upgrades : ∀ key ∈ config.http_route_upgrade,
    (∃ e ∈ config_entries config.http_routes, e.2.path = key) ∧
      ∀ e ∈ config_entries config.http_routes, e.2.path = key → serves_websocket env e.1 = .ok true

lemma config_entries_eq_nil (routes : List (Bytes × Bytes)) :
    config_entries routes = [] ↔ (routes.all fun kv => (route_prefixes kv.2).isEmpty) = true := by
  simp [config_entries]

theorem validate_pool_ok_iff (env : Env) (config : Config) :
    fpm_http_validate_pool env config = .ok () ↔ Accepted env config := by
  have hnil := config_entries_eq_nil config.http_routes
  have hentries := validate_entries_ok env [] [] config.http_routes
  have hups := validate_upgrades_ok env (config_entries config.http_routes) config.http_route_upgrade
  unfold fpm_http_validate_pool fpm_http_validate_routes fpm_http_validate_upgrade_routes
  by_cases hroutes : config.http_routes = []
  · rw [if_pos hroutes]
    refine ⟨by simp, fun h => absurd ?_ h.some_entry⟩
    rw [hroutes]
    rfl
  · rw [if_neg hroutes, if_neg hroutes]
    by_cases hall : (config.http_routes.all fun kv => (route_prefixes kv.2).isEmpty) = true
    · rw [if_pos hall]
      exact ⟨by simp, fun h => absurd (hnil.mpr hall) h.some_entry⟩
    · rw [if_neg hall]
      cases hv : validate_entries env [] [] config.http_routes with
      | error r =>
        rw [hv] at hentries
        refine ⟨by simp, fun h => absurd (hentries.mpr ?_) (by simp)⟩
        exact ⟨⟨h.pools_once, by simp⟩, h.targets, h.hosts, by simp, h.distinct⟩
      | ok u =>
        rw [hv] at hentries
        obtain ⟨⟨hnodup, -⟩, htargets, hhosts, -, hdistinct⟩ := hentries.mp rfl
        rw [hups]
        exact ⟨fun h => ⟨mt hnil.mp hall, hnodup, htargets, hhosts, hdistinct, h⟩,
          fun h => h.upgrades⟩

lemma same_entry_comm (a b : RouteEntry) : same_entry a b = same_entry b a := by
  unfold same_entry fpm_http_host_equal
  rw [Bool.eq_iff_iff]
  simp only [Bool.and_eq_true, Bool.or_eq_true, beq_iff_eq]
  constructor <;> rintro ⟨⟨hpath, hlen⟩, hhost⟩ <;>
    exact ⟨⟨hpath.symm, hlen.symm⟩, hhost.imp (hlen.trans ·) Eq.symm⟩

lemma config_entries_perm {routes routes' : List (Bytes × Bytes)} (h : routes.Perm routes') :
    (config_entries routes).Perm (config_entries routes') := h.flatMap_right _

instance : Std.Symm Distinct where
  symm a b h := (same_entry_comm b.2 a.2).trans h

variable {env : Env}

lemma accepted_perm {config config' : Config} (h : Accepted env config)
    (hroutes : config.http_routes.Perm config'.http_routes)
    (hups : config.http_route_upgrade.Perm config'.http_route_upgrade) : Accepted env config' := by
  have hentries := config_entries_perm hroutes
  refine ⟨?_, ?_, ?_, ?_, ?_, ?_⟩
  · intro hnil
    rw [hnil, perm_nil] at hentries
    exact h.some_entry hentries
  · exact (hroutes.map _).nodup_iff.mp h.pools_once
  · exact fun kv hkv => h.targets kv (hroutes.mem_iff.mpr hkv)
  · exact fun e he => h.hosts e (hentries.mem_iff.mpr he)
  · exact (hentries.pairwise_iff (Std.Symm.symm _ _)).mp h.distinct
  · intro key hkey
    obtain ⟨⟨e, he, hpath⟩, hall⟩ := h.upgrades key (hups.mem_iff.mpr hkey)
    exact ⟨⟨e, hentries.mem_iff.mp he, hpath⟩, fun e he => hall e (hentries.mem_iff.mpr he)⟩

/-! ## The rows of a configuration -/

def entry_row (env : Env) (config : Config) (e : Bytes × RouteEntry) : Option Row :=
  match fpm_http_route_target_pool env e.1 with
  | .ok (w, transport) => some (route_row config (fpm_http_target_init w transport) e.2)
  | .error _ => none

def route_rows (env : Env) (config : Config) : List Row :=
  (config_entries config.http_routes).filterMap (entry_row env config)

lemma build_rows_ok (env : Env) (config : Config) (routes : List (Bytes × Bytes))
    (h : ∀ kv ∈ routes, ∃ t, fpm_http_route_target_pool env kv.1 = .ok t) :
    build_rows env config routes =
      .ok ((config_entries routes).filterMap (entry_row env config)) := by
  induction routes with
  | nil => rfl
  | cons kv routes ih =>
    obtain ⟨key, value⟩ := kv
    obtain ⟨⟨w, transport⟩, htarget⟩ := h _ mem_cons_self
    have hrow : ∀ p, entry_row env config (key, fpm_http_route_entry_split p) =
        some (route_row config (fpm_http_target_init w transport) (fpm_http_route_entry_split p)) := by
      intro p
      unfold entry_row
      rw [htarget]
    rw [build_rows, htarget, ih fun kv hkv => h kv (.tail _ hkv), config_entries_cons,
      filterMap_append, filterMap_map]
    have hrows : (entry_row env config ∘ fun p => (key, fpm_http_route_entry_split p)) = fun p =>
        some (route_row config (fpm_http_target_init w transport) (fpm_http_route_entry_split p)) :=
      funext hrow
    rw [hrows, filterMap_eq_map']

variable {config : Config}

lemma entry_row_eq {e : Bytes × RouteEntry} {row : Row} (h : entry_row env config e = some row) :
    row.host = e.2.host.map fpm_http_host_dup_lower ∧ row.path = e.2.path := by
  unfold entry_row at h
  split at h
  · rw [some.injEq] at h
    rw [← h]
    exact ⟨rfl, rfl⟩
  · simp at h

lemma route_rows_perm (env : Env) {config config' : Config}
    (hroutes : config.http_routes.Perm config'.http_routes)
    (hups : config.http_route_upgrade.Perm config'.http_route_upgrade) :
    (route_rows env config).Perm (route_rows env config') := by
  have hrow : entry_row env config = entry_row env config' := by
    funext e
    unfold entry_row route_row fpm_http_route_upgrade_wanted
    rw [hups.any_eq]
  unfold route_rows
  rw [hrow]
  exact (config_entries_perm hroutes).filterMap _

lemma routes_build_ok (h : Accepted env config) (own : Target) :
    fpm_http_routes_build env true own config =
      .ok { proxy_only := true
            has_host_routes := (config_entries config.http_routes).any fun e => e.2.host.isSome
            routes := sort fpm_http_route_ranks_before (route_rows env config) } := by
  have hroutes : config.http_routes ≠ [] := by
    intro hnil
    apply h.some_entry
    rw [hnil]
    rfl
  unfold fpm_http_routes_build
  rw [if_neg (by simp [hroutes]), build_rows_ok env config _ h.targets]
  simp only [Bool.true_or, if_true, nil_append, List.any_map]
  rfl

/-! ## The law -/

def Covers (pre path : Bytes) : Prop :=
  ∃ rest, path = pre ++ rest ∧
    (rest = [] ∨ pre.getLast? = some SLASH ∨ rest.head? = some SLASH)

lemma prefix_covers_iff (pre path : Bytes) :
    fpm_http_prefix_covers pre path = true ↔ Covers pre path := by
  unfold fpm_http_prefix_covers Covers
  constructor
  · intro h
    split at h
    · simp at h
    · rename_i hpre
      rw [not_or, not_not] at hpre
      have hsplit : path = pre ++ path.drop pre.length := by
        conv_lhs => rw [← take_append_drop pre.length path, hpre.2]
      refine ⟨path.drop pre.length, hsplit, ?_⟩
      split at h
      · rename_i hend
        rcases hend with hend | hend
        · exact .inl (drop_eq_nil_of_le (le_of_eq hend))
        · exact .inr (.inl hend)
      · right; right
        rw [head?_drop]
        exact beq_iff_eq.mp h
  · rintro ⟨rest, rfl, hrest⟩
    rw [if_neg (by simp)]
    by_cases hend : (pre ++ rest).length = pre.length ∨ pre.getLast? = some SLASH
    · rw [if_pos hend]
    · rw [if_neg hend, beq_iff_eq, getElem?_append_right le_rfl, Nat.sub_self,
        ← head?_eq_getElem?]
      rw [not_or] at hend
      rcases hrest with hrest | hrest | hrest
      · exact absurd (by simp [hrest]) hend.1
      · exact absurd hrest hend.2
      · exact hrest

def Bound (host : Option Bytes) (path : Bytes) (row : Row) : Prop :=
  (∃ name, row.host = some name ∧ host = some name) ∧ Covers row.path path

def Unbound (path : Bytes) (row : Row) : Prop := row.host = none ∧ Covers row.path path

def Longest (rows : List Row) (p : Row → Prop) (row : Row) : Prop :=
  row ∈ rows ∧ p row ∧ ∀ s ∈ rows, p s → s.path.length ≤ row.path.length

def Selected (rows : List Row) (host : Option Bytes) (path : Bytes) : Option Row → Prop
  | some row => Longest rows (Bound host path) row ∨
      (∀ s ∈ rows, ¬ Bound host path s) ∧ Longest rows (Unbound path) row
  | none => ∀ s ∈ rows, ¬ Bound host path s ∧ ¬ Unbound path s

lemma row_answers_iff (host : Option Bytes) (path : Bytes) (row : Row) :
    row_answers host path row = true ↔ Bound host path row ∨ Unbound path row := by
  unfold row_answers Bound Unbound
  rw [Bool.and_eq_true, prefix_covers_iff]
  cases row.host with
  | none => simp
  | some name => simp

lemma ranks : Ranks fpm_http_route_ranks_before where
  asymm := by
    intro a b h
    unfold fpm_http_route_ranks_before at h ⊢
    cases ha : a.host.isSome <;> cases hb : b.host.isSome <;> simp_all
    · omega
    · omega
  trans := by
    intro a b c hab hbc
    unfold fpm_http_route_ranks_before at hab hbc ⊢
    cases ha : a.host.isSome <;> cases hb : b.host.isSome <;> cases hc : c.host.isSome <;> simp_all
    · omega
    · omega

lemma selected_of_best {rows : List Row} {host : Option Bytes} {path : Bytes} {r : Option Row}
    (h : Best fpm_http_route_ranks_before rows (row_answers host path) r) :
    Selected rows host path r := by
  cases r with
  | none =>
    intro s hs
    have hno := Bool.eq_false_iff.mp (h s hs)
    rw [Ne, row_answers_iff, not_or] at hno
    exact hno
  | some row =>
    obtain ⟨hmem, hans, hbest⟩ := h
    have hlevel : ∀ s ∈ rows, Bound host path s ∨ Unbound path s → s.host.isSome = row.host.isSome →
        s.path.length ≤ row.path.length := by
      intro s hs hp hsome
      have hnot := hbest s hs ((row_answers_iff host path s).mpr hp)
      unfold fpm_http_route_ranks_before at hnot
      rw [if_neg (by simp [hsome]), decide_eq_false_iff_not] at hnot
      omega
    rcases (row_answers_iff host path row).mp hans with hb | hu
    · left
      refine ⟨hmem, hb, fun s hs hp => hlevel s hs (.inl hp) ?_⟩
      obtain ⟨⟨name, hname, -⟩, -⟩ := hb
      obtain ⟨⟨other, hother, -⟩, -⟩ := hp
      rw [hname, hother]
      rfl
    · right
      refine ⟨fun s hs hp => ?_, hmem, hu, fun s hs hp => hlevel s hs (.inr hp) ?_⟩
      · -- a bound row that answers would rank before it
        have hnot := hbest s hs ((row_answers_iff host path s).mpr (.inl hp))
        obtain ⟨⟨name, hname, -⟩, -⟩ := hp
        unfold fpm_http_route_ranks_before at hnot
        rw [hname, hu.1] at hnot
        simp at hnot
      · rw [hu.1, hp.1]

lemma covers_same_length {a b path : Bytes} (ha : Covers a path) (hb : Covers b path)
    (h : a.length = b.length) : a = b := by
  obtain ⟨ra, ha, -⟩ := ha
  obtain ⟨rb, hb, -⟩ := hb
  exact append_inj_left (ha.symm.trans hb) h

lemma level_rows_eq (h : Accepted env config) (host : Option Bytes) (path : Bytes) :
    ∀ a ∈ route_rows env config, ∀ b ∈ route_rows env config, row_answers host path a = true →
      row_answers host path b = true → fpm_http_route_ranks_before a b = false →
      fpm_http_route_ranks_before b a = false → a = b := by
  intro a ha b hb hpa hpb hab hba
  obtain ⟨x, hx, hxa⟩ := mem_filterMap.mp ha
  obtain ⟨y, hy, hyb⟩ := mem_filterMap.mp hb
  by_cases hxy : x = y
  · rw [hxy, hyb, some.injEq] at hxa
    exact hxa.symm
  · exfalso
    have hdistinct : same_entry x.2 y.2 = false := h.distinct.forall hx hy hxy
    obtain ⟨hhosta, hpatha⟩ := entry_row_eq hxa
    obtain ⟨hhostb, hpathb⟩ := entry_row_eq hyb
    rw [row_answers_iff] at hpa hpb
    have hcovers : Covers a.path path ∧ Covers b.path path :=
      ⟨hpa.elim And.right And.right, hpb.elim And.right And.right⟩
    -- level rows are of one class and have prefixes of one length
    have hsome : a.host.isSome = b.host.isSome ∧ a.path.length = b.path.length := by
      unfold fpm_http_route_ranks_before at hab hba
      cases hsa : a.host.isSome <;> cases hsb : b.host.isSome <;> simp_all <;> omega
    have hpaths : x.2.path = y.2.path := by
      rw [← hpatha, ← hpathb]
      exact covers_same_length hcovers.1 hcovers.2 hsome.2
    have hhosts : x.2.host.map fpm_http_host_dup_lower = y.2.host.map fpm_http_host_dup_lower := by
      rw [← hhosta, ← hhostb]
      rcases hpa with ⟨⟨name, hname, hreq⟩, -⟩ | ⟨hnone, -⟩
      · rcases hpb with ⟨⟨other, hother, hreq'⟩, -⟩ | ⟨hnone', -⟩
        · rw [hname, hother, ← hreq, hreq']
        · exact absurd hsome.1 (by simp [hname, hnone'])
      · rcases hpb with ⟨⟨other, hother, -⟩, -⟩ | ⟨hnone', -⟩
        · exact absurd hsome.1 (by simp [hnone, hother])
        · rw [hnone, hnone']
    have hfold : (x.2.host.getD []).map host_fold = (y.2.host.getD []).map host_fold := by
      unfold fpm_http_host_dup_lower at hhosts
      cases hxh : x.2.host <;> cases hyh : y.2.host <;> rw [hxh, hyh] at hhosts <;> simp_all
    have hlen := congrArg length hfold
    rw [length_map, length_map] at hlen
    have hsame : same_entry x.2 y.2 = true := by
      unfold same_entry fpm_http_host_equal
      simp [hpaths, hlen, hfold]
    exact nomatch hsame.symm.trans hdistinct

def decoded_path (uridecode : Bytes → Option Bytes) (req : Request) : Option Bytes :=
  match fpm_http_request_path req.evhttp_uri with
  | none => none
  | some path => if path = [] then none else uridecode path

/-- A request without a decoded path selects no row; any other takes the first
row of the table that answers. -/
lemma route_eq (h : Accepted env config) {own : Target} {gw : Gateway}
    (hgw : fpm_http_routes_build env true own config = .ok gw) (uridecode : Bytes → Option Bytes)
    (req : Request) :
    fpm_http_route uridecode gw req = (decoded_path uridecode req).bind fun path =>
      (sort fpm_http_route_ranks_before (route_rows env config)).find?
        (row_answers (fpm_http_host_of_request req) path) := by
  rw [routes_build_ok h own, Except.ok.injEq] at hgw
  unfold fpm_http_route decoded_path
  rw [← hgw]
  rw [if_neg (by simp)]
  cases fpm_http_request_path req.evhttp_uri with
  | none => rfl
  | some path =>
    dsimp only
    by_cases hempty : path = []
    · rw [if_pos hempty, if_pos hempty]
      rfl
    · rw [if_neg hempty, if_neg hempty]
      cases uridecode path with
      | none => rfl
      | some decoded =>
        dsimp
        -- without a host-bound row the Host is not read, and no row asks for it
        have hhost : (sort fpm_http_route_ranks_before (route_rows env config)).find?
            (row_answers (if ((config_entries config.http_routes).any fun e => e.2.host.isSome)
              then fpm_http_host_of_request req else none) decoded) =
            (sort fpm_http_route_ranks_before (route_rows env config)).find?
              (row_answers (fpm_http_host_of_request req) decoded) := by
          split
          · rfl
          · rename_i hnone
            have hrows : ∀ row ∈ sort fpm_http_route_ranks_before (route_rows env config),
                row.host = none := by
              intro row hrow
              obtain ⟨e, he, hrow⟩ := mem_filterMap.mp ((sort_perm _).mem_iff.mp hrow)
              rw [(entry_row_eq hrow).1, map_eq_none_iff]
              by_contra hne
              exact hnone (any_eq_true.mpr ⟨e, he, isSome_iff_ne_none.mpr hne⟩)
            rw [← head?_filter, ← head?_filter]
            apply congrArg head?
            apply filter_congr
            intro row hrow
            unfold row_answers
            rw [hrows row hrow]
        rw [hhost]
        cases find? (row_answers (fpm_http_host_of_request req) decoded)
          (sort fpm_http_route_ranks_before (route_rows env config)) <;> rfl

def two_pools : Env where
  pools := [⟨str "app", some ⟨true, false, false⟩, none, str "/run/app.sock", 4⟩,
    ⟨str "api", some ⟨true, false, false⟩, none, str "/run/api.sock", 2⟩]
  getaddrinfo := fun _ _ => none

def site_routes : Config where
  http_routes := [(str "app", str "/, a.example"), (str "api", str "/api,A.example/api")]
  http_route_upgrade := []

def get_request (path host : Bytes) : Request where
  command := .GET
  uri := path
  evhttp_uri := some ⟨some path, false, none⟩
  headers := [(str "Host", host)]
  body := []
  upgrade := false
  upstream_uri := none
  pool := str "www"
  request_id_on := false
  request_id := []
  peer_addr := []
  scheme := []
  server_port := []

end FpmNg.HttpRoute
