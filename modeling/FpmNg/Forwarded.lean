/-
The client address of a request behind a proxy: `fpm_http_forwarded_resolve` of
`fpm_http_forwarded.c`, with the address list of `fpm_http_acl.c` it asks.

The purpose is stated apart from the code, over the elements of all
`X-Forwarded-For` lines in order. The code reads the first of these lines only
and copies an element into a buffer of `FPM_HTTP_FORWARDED_ADDR_LEN` bytes, so
the two agree on some requests and not on others; the result at the end says on
which.
-/
import FpmNg.HttpRequest
import FpmNg.Numbers
import FpmNg.Lib.Separated

open WhileLoop HttpGrammar Separated List Option

namespace FpmNg.Forwarded

open Forwarded

open FpmNg.HttpRequest (Header HeaderLookup)
open FpmNg.HttpRequest.HeaderLookup (evhttp_find_header)

/-! ## The list of trusted addresses -/

/-- `INET6_ADDRSTRLEN`, and with it the size of the candidate buffer. -/
abbrev FPM_HTTP_FORWARDED_ADDR_LEN : ℕ := 46

/-- `inet_pton` for the two families, as its manual describes it: the address in
network order, and no address has a longer text than `INET6_ADDRSTRLEN` leaves
room for. -/
structure InetPton where
  inet : Bytes → Option Bytes
  inet6 : Bytes → Option Bytes
  inet_short : ∀ t a, inet t = some a → t.length < FPM_HTTP_FORWARDED_ADDR_LEN
  inet6_short : ∀ t a, inet6 t = some a → t.length < FPM_HTTP_FORWARDED_ADDR_LEN

/-- `struct fpm_http_acl_entry_s`. -/
inductive AclEntry where
  | inet (addr : Bytes)
  | inet6 (addr : Bytes)
  deriving DecidableEq

/-- `IN6_IS_ADDR_V4MAPPED`. -/
def is_v4mapped (a : Bytes) : Bool :=
  a.take 12 == [0, 0, 0, 0, 0, 0, 0, 0, 0, 0, 255, 255]

def acl_entry_matches (v4 v6 : Option Bytes) : AclEntry → Bool
  | .inet addr =>
    v4 == some addr || (v6.any is_v4mapped && v6.map (·.drop 12) == some addr)
  | .inet6 addr => v6 == some addr

/-- `fpm_http_acl_check`. An empty list admits everybody, as the source says. -/
def fpm_http_acl_check (pton : InetPton) (acl : Option (List AclEntry)) (peer_addr : Option Bytes) :
    Bool :=
  match acl with
  | none => true
  | some [] => true
  | some entries =>
    match peer_addr with
    | none => false
    | some addr =>
      let v4 := pton.inet addr
      let v6 := if v4.isNone then pton.inet6 addr else none
      entries.any (acl_entry_matches v4 v6)

/-! ## The header lines -/

/-- `fpm_http_forwarded_trim_copy` into a buffer of that many bytes. -/
def fpm_http_forwarded_trim_copy (value : Bytes) (out_size : ℕ) : Bytes :=
  (trim value).take (out_size - 1)

/-- The walk over `X-Forwarded-For`: the text in front of `end`, and the address
once it is found. -/
structure Walk where
  upto : Bytes
  remote_addr : Option Bytes

/-- One pass of `while (end > xff)`. -/
def walk_pass (pton : InetPton) (trusted : List AclEntry) (w : Walk) : Pass Walk :=
  if w.upto.isEmpty then .leave w
  else
    let start := last_start COMMA w.upto
    let candidate :=
      fpm_http_forwarded_trim_copy (w.upto.drop start) FPM_HTTP_FORWARDED_ADDR_LEN
    if !candidate.isEmpty && !fpm_http_acl_check pton (some trusted) (some candidate) then
      .leave { w with remote_addr := some candidate }
    -- an empty element or a trusted proxy: continue to the left
    else .again { w with upto := w.upto.take (start - 1) }

def walk (pton : InetPton) (trusted : List AclEntry) (xff : Bytes) : Option Bytes :=
  (loop (fun w => w.upto.length) (walk_pass pton trusted) ⟨xff, none⟩).remote_addr

/-- `struct fpm_http_forwarded_result_s`; `none` is a leading NUL. -/
structure Result where
  remote_addr : Option Bytes
  scheme : Bytes
  https : Bool
  server_port : Option Bytes
  deriving DecidableEq

/-- `X-Forwarded-Proto`: scheme and `https`. -/
def forwarded_proto (xfp : Option Bytes) : Bytes × Bool :=
  if strcaseeq (xfp.getD []) (str "https") then (str "https", true) else (str "http", false)

/-- `X-Forwarded-Port`. -/
def forwarded_port (xfport : Option Bytes) : Option Bytes :=
  match xfport with
  | none => none
  | some t =>
    let (port, rest) := strtol t
    if rest.isEmpty && decide (0 < port) && decide (port ≤ 65535) then some (decimal port.toNat)
    else none

/-- `trusted && fpm_http_acl_check(trusted, peer_addr)`. -/
def peer_trusted (pton : InetPton) (trusted : Option (List AclEntry)) (peer_addr : Option Bytes) :
    Bool :=
  trusted.isSome && fpm_http_acl_check pton trusted peer_addr

/-- `fpm_http_forwarded_resolve`. -/
def fpm_http_forwarded_resolve [HeaderLookup] (pton : InetPton) (trusted : Option (List AclEntry))
    (peer_addr : Option Bytes) (headers : List Header) : Result :=
  if !peer_trusted pton trusted peer_addr then ⟨none, str "http", false, none⟩
  else
    let proto := forwarded_proto (evhttp_find_header headers (str "X-Forwarded-Proto"))
    ⟨(evhttp_find_header headers (str "X-Forwarded-For")).bind
      (walk pton (trusted.getD [])), proto.1, proto.2,
      forwarded_port (evhttp_find_header headers (str "X-Forwarded-Port"))⟩

/-- `effective_addr` of `fpm_http_request`. -/
def effective_addr [HeaderLookup] (pton : InetPton) (trusted : Option (List AclEntry))
    (peer_addr : Option Bytes) (headers : List Header) : Option Bytes :=
  match (fpm_http_forwarded_resolve pton trusted peer_addr headers).remote_addr with
  | some addr => some addr
  | none => peer_addr

/-! ## What the address is for

All `X-Forwarded-For` lines of a request form one list, in order (RFC 9110, 5.3);
an empty element is no element of it. -/

def is_xff (h : Header) : Bool := strcaseeq h.1 (str "X-Forwarded-For")

def forwarded_lines (headers : List Header) : List Bytes := (headers.filter is_xff).map Prod.snd

def elements (line : Bytes) : List Bytes := (line.splitOn COMMA).map trim

def forwarded_list (headers : List Header) : List Bytes :=
  (forwarded_lines headers).flatMap elements

def untrusted (pton : InetPton) (trusted : List AclEntry) (e : Bytes) : Bool :=
  !e.isEmpty && !fpm_http_acl_check pton (some trusted) (some e)

def rightmost_untrusted (pton : InetPton) (trusted : List AclEntry) (l : List Bytes) :
    Option Bytes :=
  l.reverse.find? (untrusted pton trusted)

/-- The address of the client: the peer, or behind a trusted peer the right-most
element that is not itself a trusted proxy, or the peer again if there is none. -/
def client_addr (pton : InetPton) (trusted : Option (List AclEntry)) (peer_addr : Option Bytes)
    (headers : List Header) : Option Bytes :=
  if peer_trusted pton trusted peer_addr then
    (rightmost_untrusted pton (trusted.getD []) (forwarded_list headers)).or peer_addr
  else peer_addr

/-! ## The walk visits the elements of the line -/

def fit (e : Bytes) : Bytes := e.take (FPM_HTTP_FORWARDED_ADDR_LEN - 1)

/-- The element in front of `end`, as the buffer holds it. -/
def candidate (upto : Bytes) : Bytes := fit (trim (upto.drop (last_start COMMA upto)))

lemma walk_pass_eq (pton : InetPton) (trusted : List AclEntry) {upto : Bytes} (h : upto ≠ [])
    (found : Option Bytes) :
    walk_pass pton trusted ⟨upto, found⟩ =
      if untrusted pton trusted (candidate upto) then .leave ⟨upto, some (candidate upto)⟩
      else .again ⟨upto.take (last_start COMMA upto - 1), found⟩ := by
  have hne : ¬ upto.isEmpty = true := by simpa using h
  unfold walk_pass
  rw [if_neg hne]
  rfl

lemma walk_decreases (pton : InetPton) (trusted : List AclEntry) :
    Decreases (fun w : Walk => w.upto.length) (walk_pass pton trusted) (fun _ => True) := by
  refine ⟨fun _ _ _ _ => trivial, ?_⟩
  rintro ⟨upto, found⟩ w' _ h
  by_cases hnil : upto = []
  · subst hnil
    simp [walk_pass] at h
  · have hpos := length_pos_iff.mpr hnil
    have hstart : last_start COMMA upto ≤ upto.length := Nat.sub_le _ _
    rw [walk_pass_eq pton trusted hnil] at h
    split at h
    · simp at h
    · -- the next `end` is in front of the element just read
      rw [← Pass.again.inj h]
      show (upto.take (last_start COMMA upto - 1)).length < upto.length
      rw [length_take]
      omega

lemma elements_walk (line : Bytes) :
    (last_start COMMA line = 0 ∧ (elements line).map fit = [candidate line]) ∨
      (0 < last_start COMMA line ∧ (elements line).map fit =
        (elements (line.take (last_start COMMA line - 1))).map fit ++ [candidate line]) := by
  unfold elements candidate
  rcases splitOn_walk COMMA line with ⟨hstart, hsplit⟩ | ⟨hstart, -, hsplit⟩
  · exact .inl ⟨hstart, by rw [hsplit]; rfl⟩
  · refine .inr ⟨hstart, ?_⟩
    rw [hsplit, map_append, map_append]
    rfl

lemma rightmost_append_singleton (pton : InetPton) (trusted : List AclEntry) (l : List Bytes)
    (e : Bytes) :
    rightmost_untrusted pton trusted (l ++ [e]) =
      if untrusted pton trusted e then some e else rightmost_untrusted pton trusted l := by
  unfold rightmost_untrusted
  rw [reverse_append, reverse_singleton, singleton_append, find?_cons]
  cases untrusted pton trusted e <;> rfl

theorem walk_eq (pton : InetPton) (trusted : List AclEntry) (xff : Bytes) :
    walk pton trusted xff = rightmost_untrusted pton trusted ((elements xff).map fit) := by
  unfold walk
  induction hn : xff.length using Nat.strongRecOn generalizing xff with
  | ind n ih =>
    rw [loop_unfold (walk_decreases pton trusted) _ trivial]
    by_cases hnil : xff = []
    · subst hnil
      rfl
    have hpos := length_pos_iff.mpr hnil
    have hlt : (xff.take (last_start COMMA xff - 1)).length < n := by
      have hstart : last_start COMMA xff ≤ xff.length := Nat.sub_le _ _
      rw [length_take]
      omega
    have hrest := ih _ hlt _ rfl
    rw [walk_pass_eq pton trusted hnil]
    -- the last element decides, or the search goes on in front of it
    have helems : rightmost_untrusted pton trusted ((elements xff).map fit) =
        if untrusted pton trusted (candidate xff) then some (candidate xff)
        else rightmost_untrusted pton trusted
          ((elements (xff.take (last_start COMMA xff - 1))).map fit) := by
      rcases elements_walk xff with ⟨hstart, helems⟩ | ⟨-, helems⟩
      · rw [helems, ← nil_append [candidate xff], rightmost_append_singleton, hstart]
        rfl
      · rw [helems, rightmost_append_singleton]
    rw [helems]
    by_cases hun : untrusted pton trusted (candidate xff) = true
    · rw [if_pos hun, if_pos hun]
    · rw [if_neg hun, if_neg hun]
      exact hrest

/-! ## What the buffer and the other lines change -/

lemma forwarded_first [HeaderLookup] (headers : List Header) :
    evhttp_find_header headers (str "X-Forwarded-For") = (forwarded_lines headers).head? := by
  unfold forwarded_lines
  rw [HeaderLookup.first_named, head?_map, head?_filter]
  rfl

def first_elements (headers : List Header) : List Bytes :=
  ((forwarded_lines headers).head?.map elements).getD []

def later_elements (headers : List Header) : List Bytes :=
  (forwarded_lines headers).tail.flatMap elements

lemma forwarded_list_eq (headers : List Header) :
    forwarded_list headers = first_elements headers ++ later_elements headers := by
  unfold forwarded_list first_elements later_elements
  cases forwarded_lines headers <;> rfl

variable {trusted : Option (List AclEntry)} {peer_addr : Option Bytes}

lemma resolve_remote_addr [HeaderLookup] (pton : InetPton) (h : peer_trusted pton trusted peer_addr = true)
    (headers : List Header) :
    (fpm_http_forwarded_resolve pton trusted peer_addr headers).remote_addr =
      rightmost_untrusted pton (trusted.getD []) ((first_elements headers).map fit) := by
  unfold fpm_http_forwarded_resolve
  rw [h, forwarded_first]
  unfold first_elements
  cases (forwarded_lines headers).head? with
  | none => rfl
  | some line => exact walk_eq pton (trusted.getD []) line

lemma effective_addr_eq [HeaderLookup] (pton : InetPton) (trusted : Option (List AclEntry))
    (peer_addr : Option Bytes) (headers : List Header) :
    effective_addr pton trusted peer_addr headers =
      (fpm_http_forwarded_resolve pton trusted peer_addr headers).remote_addr.or peer_addr := by
  unfold effective_addr
  cases (fpm_http_forwarded_resolve pton trusted peer_addr headers).remote_addr <;> rfl

lemma rightmost_append (pton : InetPton) (trusted : List AclEntry) (l m : List Bytes) :
    rightmost_untrusted pton trusted (l ++ m) =
      (rightmost_untrusted pton trusted m).or (rightmost_untrusted pton trusted l) := by
  unfold rightmost_untrusted
  rw [reverse_append, find?_append]

variable {pton : InetPton} {t : Bytes}

lemma check_short {e : AclEntry} {trusted : List AclEntry}
    (h : fpm_http_acl_check pton (some (e :: trusted)) (some t) = true) :
    t.length < FPM_HTTP_FORWARDED_ADDR_LEN := by
  unfold fpm_http_acl_check at h
  cases h4 : pton.inet t with
  | some a => exact pton.inet_short t a h4
  | none =>
    cases h6 : pton.inet6 t with
    | some a => exact pton.inet6_short t a h6
    | none =>
      -- neither family: no entry matches
      simp only [h4, h6, List.any_eq_true] at h
      obtain ⟨entry, -, hentry⟩ := h
      cases entry <;> simp [acl_entry_matches] at hentry

lemma fit_of_short (h : t.length < FPM_HTTP_FORWARDED_ADDR_LEN) : fit t = t :=
  take_of_length_le (Nat.le_sub_one_of_lt h)

lemma fit_length (t : Bytes) : (fit t).length < FPM_HTTP_FORWARDED_ADDR_LEN := by
  unfold fit
  rw [length_take]
  exact Nat.lt_of_le_of_lt (Nat.min_le_left _ _) (by decide)

lemma untrusted_fit {trusted : List AclEntry} (h : untrusted pton trusted t = false) :
    untrusted pton trusted (fit t) = false := by
  unfold untrusted at h ⊢
  rcases trusted with _ | ⟨e, trusted⟩
  · -- an empty list trusts everybody
    simp [fpm_http_acl_check]
  · rw [Bool.and_eq_false_iff, Bool.not_eq_false', Bool.not_eq_false'] at h
    rcases h with hnil | hcheck
    · rw [List.isEmpty_iff] at hnil
      subst hnil
      rfl
    · rw [fit_of_short (check_short hcheck), hcheck]
      simp

lemma rightmost_fit (pton : InetPton) (trusted : List AclEntry) (l : List Bytes)
    (h : ∀ e, rightmost_untrusted pton trusted l = some e →
      e.length < FPM_HTTP_FORWARDED_ADDR_LEN) :
    rightmost_untrusted pton trusted (l.map fit) = rightmost_untrusted pton trusted l := by
  induction l using reverseRecOn with
  | nil => rfl
  | append_singleton l e ih =>
    rw [map_append, map_singleton, rightmost_append_singleton,
      rightmost_append_singleton]
    rw [rightmost_append_singleton] at h
    cases hun : untrusted pton trusted e with
    | true =>
      have hfit := fit_of_short (h e (by rw [hun]; rfl))
      rw [hfit, hun]
      rfl
    | false =>
      rw [untrusted_fit hun]
      rw [hun] at h
      exact ih h

lemma rightmost_mem {trusted : List AclEntry} {l : List Bytes} {e : Bytes}
    (h : rightmost_untrusted pton trusted l = some e) :
    e ∈ l ∧ untrusted pton trusted e = true := by
  exact ⟨mem_reverse.mp (mem_of_find?_eq_some h), find?_some h⟩

/-- **The condition.** Behind a trusted peer: either every element of the lines
behind the first is trusted and the buffer holds the element the first line
decides for, or the first line, cut to the buffer, decides for the very text the
lines behind it do. -/
def FirstLineDecides (pton : InetPton) (trusted : Option (List AclEntry))
    (peer_addr : Option Bytes) (headers : List Header) : Prop :=
  peer_trusted pton trusted peer_addr = true →
    (rightmost_untrusted pton (trusted.getD []) (later_elements headers) = none →
      ∀ e, rightmost_untrusted pton (trusted.getD []) (first_elements headers) = some e →
        e.length < FPM_HTTP_FORWARDED_ADDR_LEN) ∧
    ∀ x, rightmost_untrusted pton (trusted.getD []) (later_elements headers) = some x →
      rightmost_untrusted pton (trusted.getD []) ((first_elements headers).map fit) = some x

lemma peer_ne_rightmost (h : peer_trusted pton trusted peer_addr = true) {l : List Bytes}
    {e : Bytes} (he : rightmost_untrusted pton (trusted.getD []) l = some e) :
    peer_addr ≠ some e := by
  rintro rfl
  have hun := (rightmost_mem he).2
  unfold peer_trusted at h
  cases trusted with
  | none => simp at h
  | some acl =>
    rw [Bool.and_eq_true] at h
    unfold untrusted at hun
    rw [getD_some, h.2] at hun
    simp at hun

lemma effective_addr_trusted [HeaderLookup] (h : peer_trusted pton trusted peer_addr = true)
    (headers : List Header) :
    effective_addr pton trusted peer_addr headers =
      (rightmost_untrusted pton (trusted.getD []) ((first_elements headers).map fit)).or
        peer_addr := by
  rw [effective_addr_eq, resolve_remote_addr pton h]

lemma client_addr_trusted (h : peer_trusted pton trusted peer_addr = true) (headers : List Header)
    :
    client_addr pton trusted peer_addr headers =
      ((rightmost_untrusted pton (trusted.getD []) (later_elements headers)).or
        (rightmost_untrusted pton (trusted.getD []) (first_elements headers))).or peer_addr := by
  unfold client_addr
  rw [if_pos h, forwarded_list_eq, rightmost_append]

lemma effective_addr_untrusted [HeaderLookup] (h : ¬ peer_trusted pton trusted peer_addr = true)
    (headers : List Header) : effective_addr pton trusted peer_addr headers = peer_addr := by
  rw [Bool.not_eq_true] at h
  rw [effective_addr_eq]
  unfold fpm_http_forwarded_resolve
  rw [h]
  rfl

lemma agrees_of_later [HeaderLookup] (h : peer_trusted pton trusted peer_addr = true) {headers : List Header}
    {x : Bytes} (hx : rightmost_untrusted pton (trusted.getD []) (later_elements headers) = some x)
    :
    effective_addr pton trusted peer_addr headers = client_addr pton trusted peer_addr headers ↔
      rightmost_untrusted pton (trusted.getD []) ((first_elements headers).map fit) = some x := by
  rw [effective_addr_trusted h, client_addr_trusted h, hx]
  cases hfirst : rightmost_untrusted pton (trusted.getD []) ((first_elements headers).map fit) with
  | some y => rfl
  | none =>
    have hne := peer_ne_rightmost h hx
    simp [hne]

/-- If the later lines hold trusted elements only, the buffer has to hold the
element the first line decides for. -/
lemma agrees_of_first [HeaderLookup] (h : peer_trusted pton trusted peer_addr = true) {headers : List Header}
    (hlater : rightmost_untrusted pton (trusted.getD []) (later_elements headers) = none) :
    effective_addr pton trusted peer_addr headers = client_addr pton trusted peer_addr headers ↔
      ∀ e, rightmost_untrusted pton (trusted.getD []) (first_elements headers) = some e →
        e.length < FPM_HTTP_FORWARDED_ADDR_LEN := by
  rw [effective_addr_trusted h, client_addr_trusted h, hlater, none_or]
  constructor
  · intro heq e he
    rw [he] at heq
    cases hfit : rightmost_untrusted pton (trusted.getD []) ((first_elements headers).map fit) with
    | none =>
      rw [hfit] at heq
      exact absurd heq (peer_ne_rightmost h he)
    | some y =>
      rw [hfit] at heq
      -- what the walk found has been through the buffer
      obtain ⟨t, -, rfl⟩ := mem_map.mp (rightmost_mem hfit).1
      rw [← some.inj heq]
      exact fit_length t
  · intro hshort
    rw [rightmost_fit _ _ _ hshort]

/-- What stands to the left of an untrusted element with only trusted ones behind
it does not matter to the client's address. -/
lemma rightmost_of_split {trusted : List AclEntry} {l r : List Bytes} {x : Bytes}
    (hx : untrusted pton trusted x = true) (hr : ∀ e ∈ r, untrusted pton trusted e = false) :
    rightmost_untrusted pton trusted (l ++ x :: r) = some x := by
  have hnone : rightmost_untrusted pton trusted r = none := by
    unfold rightmost_untrusted
    rw [find?_eq_none]
    intro e he
    rw [hr e (mem_reverse.mp he)]
    decide
  rw [append_cons, rightmost_append, hnone, none_or, rightmost_append_singleton,
    if_pos hx]

/-- **The client address.** The address the gateway uses is the right-most element
of the combined list that is not a trusted proxy (the peer if the peer is not
trusted or there is no such element) exactly under `FirstLineDecides`; and two
requests under that condition whose lists differ only to the left of the element
get the same address. -/
theorem client_address_iff [HeaderLookup] (pton : InetPton) (trusted : Option (List AclEntry))
    (peer_addr : Option Bytes) :
    (∀ headers, effective_addr pton trusted peer_addr headers =
        client_addr pton trusted peer_addr headers ↔
      FirstLineDecides pton trusted peer_addr headers) ∧ ∀ headers headers' l l' x r,
      FirstLineDecides pton trusted peer_addr headers →
      FirstLineDecides pton trusted peer_addr headers' →
      forwarded_list headers = l ++ x :: r → forwarded_list headers' = l' ++ x :: r →
      untrusted pton (trusted.getD []) x = true →
      (∀ e ∈ r, untrusted pton (trusted.getD []) e = false) →
      effective_addr pton trusted peer_addr headers =
        effective_addr pton trusted peer_addr headers' := by
  have hiff : ∀ headers, effective_addr pton trusted peer_addr headers =
        client_addr pton trusted peer_addr headers ↔
      FirstLineDecides pton trusted peer_addr headers := by
    intro headers
    unfold FirstLineDecides
    by_cases h : peer_trusted pton trusted peer_addr = true
    · cases hlater : rightmost_untrusted pton (trusted.getD []) (later_elements headers) with
      | none =>
        rw [agrees_of_first h hlater]
        simp [h]
      | some y =>
        rw [agrees_of_later h hlater]
        simp [h]
    · rw [effective_addr_untrusted h]
      unfold client_addr
      simp [h]
  refine ⟨hiff, ?_⟩
  intro headers headers' l l' x r hd hd' hlist hlist' hx hr
  rw [(hiff headers).mpr hd, (hiff headers').mpr hd']
  unfold client_addr
  rw [hlist, hlist', rightmost_of_split hx hr, rightmost_of_split hx hr]

/-! ## A forged address -/

def read_octet (t : Bytes) : Option UInt8 :=
  match read_decimal t with
  | some v => if v ≤ 255 ∧ t = decimal v then some v.toUInt8 else none
  | none => none

/-- `inet_pton(AF_INET, …)`. -/
def dotted_quad (t : Bytes) : Option Bytes :=
  if t.length < 16 ∧ (t.splitOn 46).length = 4 then (t.splitOn 46).mapM read_octet else none

def ipv4_host : InetPton where
  inet := dotted_quad
  inet6 := fun _ => none
  inet_short := by
    intro t a h
    unfold dotted_quad at h
    split at h
    · rename_i hlen
      exact Nat.lt_trans hlen.1 (by decide)
    · simp at h
  inet6_short := nofun

/-- A proxy that adds a line of its own behind the one the client sent. -/
def forged_request : List Header :=
  [(str "X-Forwarded-For", str "6.6.6.6"), (str "X-Forwarded-For", str "203.0.113.7")]

/-- The gateway takes the address the client wrote. -/
theorem forged_address_taken :
    effective_addr ipv4_host (some [.inet [10, 0, 0, 1]]) (some (str "10.0.0.1")) forged_request =
        some (str "6.6.6.6") ∧
      client_addr ipv4_host (some [.inet [10, 0, 0, 1]]) (some (str "10.0.0.1")) forged_request =
        some (str "203.0.113.7") := by
  decide

/-! ## The chain that is passed on

`fpm_http_http_write_request` leaves every X-Forwarded-For line out of its loop and adds
one of its own, with the value `evhttp_find_header` has for the name: the first line's. -/

open FpmNg.HttpRequest (Request request_fields fpm_http_http_xff skipped request_head_eq
  request_target fpm_http_method_name fpm_http_http_write_request fpm_http_http_upgrade_requested)

def hops (elements : List Bytes) : List Bytes := elements.filter fun e => !e.isEmpty

lemma hops_append (l m : List Bytes) : hops (l ++ m) = hops l ++ hops m := filter_append ..

lemma rightmost_hops (pton : InetPton) (trusted : List AclEntry) (l : List Bytes) :
    rightmost_untrusted pton trusted (hops l) = rightmost_untrusted pton trusted l := by
  unfold rightmost_untrusted hops
  rw [← filter_reverse, find?_filter]
  congr 1
  funext e
  unfold untrusted
  cases e <;> simp

lemma elements_append (line more : Bytes) :
    elements (line ++ COMMA :: more) = elements line ++ elements more := by
  unfold elements
  rw [splitOn_append_cons, map_append]

lemma elements_blank (line : Bytes) : elements (SP :: line) = elements line := by
  have htrim : ∀ t, trim (SP :: t) = trim t := fun t => by
    unfold trim
    rw [dropWhile_cons_of_pos (by decide)]
  unfold elements splitOn
  rw [splitOnP_cons_eq_if_modifyHead, if_neg (by decide)]
  cases splitOnP (· == COMMA) line with
  | nil => rfl
  | cons t rest => rw [modifyHead_cons, map_cons, map_cons, htrim]

lemma xff_hops (existing : Option Bytes) (peer_addr : Bytes) :
    hops (elements (fpm_http_http_xff existing peer_addr))
      = hops (elements (existing.getD [])) ++ hops (elements peer_addr) := by
  have hnone : hops (elements []) = [] := by decide
  have hsep : str ", " = [COMMA, SP] := by decide
  unfold fpm_http_http_xff
  cases existing with
  | none => rw [getD_none, hnone, nil_append]
  | some value =>
    rw [getD_some]
    dsimp only
    split
    · rw [hsep, append_assoc]
      show hops (elements (value ++ COMMA :: SP :: peer_addr)) = _
      rw [elements_append, elements_blank, hops_append]
    · rename_i hempty
      rw [not_not] at hempty
      rw [hempty, hnone, nil_append]

lemma forwarded_lines_request [HeaderLookup] (req : Request) (upgrading : Bool) :
    forwarded_lines (request_fields req upgrading)
      = [fpm_http_http_xff (evhttp_find_header req.headers (str "X-Forwarded-For")) req.peer_addr] := by
  -- the loop over the request's own headers skips the name
  have hloop : (HttpRequest.forwarded req).filter is_xff = [] := by
    rw [filter_eq_nil_iff]
    intro h hh hxff
    have hskip := (mem_filter.mp hh).2
    unfold is_xff at hxff
    simp [skipped, hxff] at hskip
  have hother : ∀ (name value : Bytes), strcaseeq name (str "X-Forwarded-For") = false →
      [(name, value)].filter is_xff = [] := by
    intro name value hname
    rw [filter_cons_of_neg (by unfold is_xff; rw [hname]; exact Bool.false_ne_true)]
    rfl
  have hif : ∀ (c : Prop) [Decidable c] (name value : Bytes),
      strcaseeq name (str "X-Forwarded-For") = false →
        (if c then [(name, value)] else []).filter is_xff = [] := by
    intro c _ name value hname
    split
    · exact hother name value hname
    · rfl
  have hend : (if upgrading then [(str "Connection", str "Upgrade"), (str "Upgrade", str "websocket")]
      else [(str "Connection", str "keep-alive")]).filter is_xff = [] := by
    cases upgrading <;> decide
  have hown : ∀ value proto : Bytes,
      [(str "X-Forwarded-For", value), (str "X-Forwarded-Proto", proto)].filter is_xff
        = [(str "X-Forwarded-For", value)] := by
    intro value proto
    have hname : is_xff (str "X-Forwarded-For", value) = true :=
      show strcaseeq (str "X-Forwarded-For") (str "X-Forwarded-For") = true by decide
    rw [filter_cons_of_pos hname, hother _ proto (by decide)]
  unfold forwarded_lines request_fields
  simp only [filter_append, hloop, hother _ _ (show strcaseeq (str "Host") _ = false by decide),
    hif _ _ _ (show strcaseeq (str "X-Request-Id") _ = false by decide), hown,
    hif _ _ _ (show strcaseeq (str "X-Forwarded-Port") _ = false by decide),
    hother _ _ (show strcaseeq (str "Content-Length") _ = false by decide), hend, nil_append,
    append_nil, map_cons, map_nil]

/-- **The chain to an HTTP target is whole**: one line, with the elements of all lines that
came in and the peer behind them, so that a walk from the right past any trusted hops
finds what it finds in the whole chain. -/
structure WholeChain (req : Request) (fields : List Header) : Prop where
  one_line : (forwarded_lines fields).length = 1
  hops : hops (forwarded_list fields)
    = hops (forwarded_list req.headers ++ elements req.peer_addr)
  walk : ∀ (pton : InetPton) (trusted : List AclEntry),
    rightmost_untrusted pton trusted (forwarded_list fields)
      = rightmost_untrusted pton trusted (forwarded_list req.headers ++ elements req.peer_addr)

/-- **Forwarded chain to HTTP targets.** For a request that is written, the chain is whole
if and only if no X-Forwarded-For line but the first names a hop. -/
theorem forwarded_chain_whole_iff [HeaderLookup] (req : Request) (out : Bytes)
    (h : fpm_http_http_write_request req = .ok out) :
    ∃ line, out = line ++ crlf
        ++ render_fields (request_fields req (fpm_http_http_upgrade_requested req)) ++ crlf ++ req.body
      ∧ (WholeChain req (request_fields req (fpm_http_http_upgrade_requested req))
        ↔ ∀ later ∈ (forwarded_lines req.headers).tail, hops (elements later) = []) := by
  refine ⟨fpm_http_method_name req.command ++ [32] ++ request_target req ++ [32] ++ str "HTTP/1.1",
    ?_, ?_⟩
  · unfold fpm_http_http_write_request at h
    dsimp only at h
    split at h
    · exact nomatch h
    split at h
    · exact nomatch h
    · rw [← Except.ok.inj h, request_head_eq]
  have hline := forwarded_lines_request req (fpm_http_http_upgrade_requested req)
  -- the hops of the line that goes out, and of those that came in
  have hsent : hops (forwarded_list
      (request_fields req (fpm_http_http_upgrade_requested req)))
        = hops (elements ((forwarded_lines req.headers).head?.getD []))
          ++ hops (elements req.peer_addr) := by
    unfold forwarded_list
    rw [hline, flatMap_singleton, xff_hops, forwarded_first]
  have hlater : hops ((forwarded_lines req.headers).tail.flatMap elements) = []
      ↔ ∀ later ∈ (forwarded_lines req.headers).tail, hops (elements later) = [] := by
    unfold hops
    simp [filter_flatMap, flatMap_eq_nil_iff]
  have hcame : hops (forwarded_list req.headers ++ elements req.peer_addr)
        = hops (elements ((forwarded_lines req.headers).head?.getD []))
          ++ hops ((forwarded_lines req.headers).tail.flatMap elements)
          ++ hops (elements req.peer_addr) := by
    unfold forwarded_list
    rw [hops_append]
    cases forwarded_lines req.headers with
    | nil => rfl
    | cons first later => rw [flatMap_cons, hops_append]; rfl
  have hwhole : hops (forwarded_list
      (request_fields req (fpm_http_http_upgrade_requested req)))
        = hops (forwarded_list req.headers ++ elements req.peer_addr)
      ↔ hops ((forwarded_lines req.headers).tail.flatMap elements) = [] := by
    rw [hsent, hcame, append_left_inj, self_eq_append_right]
  rw [← hlater, ← hwhole]
  refine ⟨WholeChain.hops, fun heq => ⟨by rw [hline]; rfl, heq, fun pton trusted => ?_⟩⟩
  rw [← rightmost_hops, heq, rightmost_hops]

def two_line_request (later : Bytes) : Request where
  command := .GET
  uri := str "/"
  evhttp_uri := none
  headers := [(str "X-Forwarded-For", str "6.6.6.6"), (str "x-forwarded-for", later)]
  body := []
  upgrade := false
  upstream_uri := none
  pool := str "www"
  request_id_on := false
  request_id := []
  peer_addr := str "10.0.0.1"
  scheme := []
  server_port := []

/-- An empty second line costs nothing. -/
theorem forwarded_chain_whole_empty :
    WholeChain (two_line_request []) (request_fields (two_line_request []) false) := by
  have hok : (fpm_http_http_write_request (two_line_request [])).isOk = true := by decide +kernel
  cases hout : fpm_http_http_write_request (two_line_request []) with
  | error e =>
    rw [hout] at hok
    cases hok
  | ok out =>
    obtain ⟨line, -, hiff⟩ := forwarded_chain_whole_iff (two_line_request []) out hout
    exact hiff.mpr (by decide)

/-- The hop that the proxy added is gone. -/
theorem forwarded_hop_lost :
    forwarded_list (two_line_request (str "203.0.113.7")).headers = [str "6.6.6.6", str "203.0.113.7"]
      ∧ forwarded_list (request_fields (two_line_request (str "203.0.113.7")) false)
        = [str "6.6.6.6", str "10.0.0.1"] := by
  decide

end FpmNg.Forwarded
