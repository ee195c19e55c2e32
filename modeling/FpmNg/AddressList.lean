/-
The address lists of `fpm_http_acl.c`: what a text means once it is parsed, and what the
directives that hold such a text make of it.

The purpose is stated on the text: its items are addresses, and an IPv4 address is the same
address as its IPv4-mapped IPv6 form. The code keeps two families apart and maps the peer
only, and it keeps no list at all for a text without items, which some of its callers read
as permission. The result says for which texts and peers this matters.
-/
import FpmNg.Forwarded
import Mathlib.Data.List.TakeWhile

open Separated List Option

namespace FpmNg.AddressList

open FpmNg.Forwarded

/-! ## Parsing -/

def acl_entry (pton : InetPton) (tok : Bytes) : Except Bytes AclEntry :=
  match pton.inet tok with
  | some a => .ok (.inet a)
  | none =>
    match pton.inet6 tok with
    | some a => .ok (.inet6 a)
    | none => .error tok

/-- The tokens the loop looks at: blanks in front are skipped, and nothing else. -/
def items (csv : Bytes) : List Bytes :=
  ((tokens COMMA csv).map (dropWhile fun b => b == 32 || b == 9)).filter fun t => !t.isEmpty

/-- `fpm_http_acl_parse`. A text with no item leaves the list `NULL`. -/
def fpm_http_acl_parse (pton : InetPton) (csv : Option Bytes) :
    Except Bytes (Option (List AclEntry)) :=
  match csv with
  | none => .ok none
  | some csv =>
    if csv = [] then .ok none
    else do
      let entries ← (items csv).mapM (acl_entry pton)
      return if entries = [] then none else some entries

structure Lists where
  proxy_only : Bool
  http_operator : Bool
  http_operator_allowed_clients : Option Bytes
  http_allowed_clients : Option Bytes
  http_trusted_proxies : Option Bytes
  http_proxy_protocol : Bool
  http_proxy_protocol_trusted : Option Bytes
  http_read_timeout : Int

def validate_operator (pton : InetPton) (raw : Option Bytes) : Except Bytes Unit := do
  let acl ← fpm_http_acl_parse pton raw
  if acl.isNone then
    if raw.getD [] = [] then
      throw (str "http.operator = yes requires http.operator_allowed_clients: the forwarded pages "
        ++ str "describe the inside of the process tree, so who may reach them on the public port "
        ++ str "has to be stated (issue #389)")
    else
      throw (str "http.operator_allowed_clients = '" ++ raw.getD [] ++ str "' names no address, so "
        ++ str "it is not an ACL and would leave the forwarded pages world-readable; "
        ++ str "http.operator = yes requires at least one (issue #389)")

/-- The part of `fpm_http_validate_pool` that looks at them. -/
def fpm_http_validate_pool (pton : InetPton) (c : Lists) : Except Bytes Unit := do
  if c.proxy_only && c.http_operator then
    validate_operator pton c.http_operator_allowed_clients
  let _ ← fpm_http_acl_parse pton c.http_allowed_clients
  let _ ← fpm_http_acl_parse pton c.http_trusted_proxies
  if c.http_proxy_protocol then
    if c.http_proxy_protocol_trusted.getD [] = [] then
      throw (str "http.proxy_protocol requires a non-empty http.proxy_protocol_trusted")
    let _ ← fpm_http_acl_parse pton c.http_proxy_protocol_trusted
    if c.http_read_timeout ≤ 0 then
      throw (str "http.proxy_protocol requires http.read_timeout > 0")

/-- The directives, and `listen.allowed_clients` of a direct pool and the operator list. -/
inductive Directive where
  | http_allowed_clients
  | operator_allowed_clients
  | listen_allowed_clients
  | http_trusted_proxies
  | http_proxy_protocol_trusted
  deriving DecidableEq

def Directive.validate (d : Directive) (pton : InetPton) (csv : Bytes) : Except Bytes Unit :=
  match d with
  | .operator_allowed_clients => validate_operator pton (some csv)
  | _ => (fpm_http_acl_parse pton (some csv)).map fun _ => ()

/-- How the guard of a directive's callers reads a list that is `NULL`. -/
def Directive.null_admits : Directive → Bool
  | .http_allowed_clients | .operator_allowed_clients | .listen_allowed_clients => true
  | .http_trusted_proxies | .http_proxy_protocol_trusted => false

def Directive.admits (d : Directive) (pton : InetPton) (acl : Option (List AclEntry))
    (peer : Option Bytes) : Bool :=
  if acl.isNone then d.null_admits else fpm_http_acl_check pton acl peer

/-! ## What a list is for -/

def mapped (a : Bytes) : Bytes := [0, 0, 0, 0, 0, 0, 0, 0, 0, 0, 255, 255] ++ a

def address (pton : InetPton) (t : Bytes) : Option Bytes :=
  ((pton.inet t).map mapped).or (pton.inet6 t)

/-- The text names `t`: it stands between two commas, with nothing but blanks before it. -/
def Names (csv t : Bytes) : Prop :=
  t ≠ [] ∧ (∀ b ∈ t.head?, b ≠ SP ∧ b ≠ HT) ∧
    ∃ blanks, (∀ b ∈ blanks, b = SP ∨ b = HT) ∧ blanks ++ t ∈ csv.splitOn COMMA

def Listed (pton : InetPton) (csv : Bytes) (peer : Option Bytes) : Prop :=
  ∃ a, peer.bind (address pton) = some a ∧ ∃ t, Names csv t ∧ address pton t = some a

/-- A non-empty text that validation accepts for a directive, with its list. -/
structure Accepted (pton : InetPton) (d : Directive) where
  csv : Bytes
  acl : Option (List AclEntry)
  nonempty : csv ≠ []
  valid : (d.validate pton csv).isOk = true
  parsed : fpm_http_acl_parse pton (some csv) = .ok acl

def MappedOnly (pton : InetPton) (csv : Bytes) (peer : Option Bytes) : Prop :=
  ∃ a, peer.bind pton.inet = some a ∧
    (∃ t, Names csv t ∧ pton.inet t = none ∧ pton.inet6 t = some (mapped a)) ∧
    ∀ t, Names csv t → pton.inet t ≠ some a

/-! ## The parsed list -/

variable {pton : InetPton}

def entry_address : AclEntry → Bytes
  | .inet a => mapped a
  | .inet6 a => a

lemma names_iff {csv t : Bytes} : Names csv t ↔ t ∈ items csv := by
  have hblank : ∀ b : UInt8, (b == 32 || b == 9) = true ↔ b = SP ∨ b = HT := by simp
  unfold Names items tokens
  simp only [mem_filter, List.mem_map, Bool.not_eq_true', isEmpty_eq_false_iff]
  constructor
  · rintro ⟨hne, hhead, blanks, hblanks, hmem⟩
    have hdrop := (ByteScan.takeWhile_append_head (x := blanks) (y := t)
      (fun b hb => (hblank b).mpr (hblanks b hb))
      fun b hb => by simpa using hhead b hb).2
    exact ⟨⟨_, ⟨hmem, by simp [hne]⟩, hdrop⟩, hne⟩
  · rintro ⟨⟨piece, ⟨hmem, -⟩, rfl⟩, hne⟩
    refine ⟨hne, fun b hb => ?_, piece.takeWhile fun b => b == 32 || b == 9, fun b hb => ?_, ?_⟩
    · have hhead := head?_dropWhile_not (fun b => b == 32 || b == 9) piece
      rw [Option.mem_def.mp hb] at hhead
      simpa using hhead
    · exact (hblank b).mp (mem_takeWhile_imp (p := fun b => b == 32 || b == 9) hb)
    · rwa [takeWhile_append_dropWhile]

def Entry (pton : InetPton) (t : Bytes) : AclEntry → Prop
  | .inet a => pton.inet t = some a
  | .inet6 a => pton.inet t = none ∧ pton.inet6 t = some a

lemma acl_entry_ok {t : Bytes} {e : AclEntry} (h : acl_entry pton t = .ok e) : Entry pton t e := by
  unfold acl_entry at h
  split at h
  · cases h
    assumption
  · split at h
    · cases h
      exact ⟨by assumption, by assumption⟩
    · exact nomatch h

lemma Entry.unique {t : Bytes} {e e' : AclEntry} (h : Entry pton t e) (h' : Entry pton t e') :
    e = e' := by
  cases e <;> cases e' <;> simp_all [Entry]

lemma Entry.address {t : Bytes} {e : AclEntry} (h : Entry pton t e) :
    address pton t = some (entry_address e) := by
  cases e with
  | inet a =>
    rw [AddressList.address, show pton.inet t = some a from h]
    rfl
  | inet6 a =>
    rw [AddressList.address, h.1, h.2]
    rfl

lemma entries_spec {l : List Bytes} {es : List AclEntry} (h : l.mapM (acl_entry pton) = .ok es) :
    (∀ e ∈ es, ∃ t ∈ l, Entry pton t e) ∧ ∀ t ∈ l, ∃ e ∈ es, Entry pton t e := by
  induction l generalizing es with
  | nil =>
    cases h
    exact ⟨nofun, nofun⟩
  | cons t l ih =>
    rw [mapM_cons] at h
    cases ht : acl_entry pton t with
    | error e =>
      rw [ht] at h
      exact nomatch h
    | ok e =>
      cases hl : l.mapM (acl_entry pton) with
      | error e =>
        rw [ht, hl] at h
        exact nomatch h
      | ok es =>
        rw [ht, hl] at h
        cases h
        have hte := acl_entry_ok ht
        obtain ⟨hsound, hcomplete⟩ := ih hl
        simp only [forall_mem_cons, exists_mem_cons_iff]
        exact ⟨⟨.inl hte, fun e he => .inr (hsound e he)⟩, .inl hte,
          fun t ht => .inr (hcomplete t ht)⟩

structure Parsed (pton : InetPton) (csv : Bytes) (es : List AclEntry) : Prop where
  sound : ∀ e ∈ es, ∃ t, Names csv t ∧ Entry pton t e
  complete : ∀ t, Names csv t → ∃ e ∈ es, Entry pton t e

variable {d : Directive}

lemma Accepted.entries (x : Accepted pton d) :
    Parsed pton x.csv (x.acl.getD []) ∧ x.acl ≠ some [] := by
  have h := x.parsed
  unfold fpm_http_acl_parse at h
  dsimp only at h
  rw [if_neg x.nonempty] at h
  cases hm : (items x.csv).mapM (acl_entry pton) with
  | error e =>
    rw [hm] at h
    exact nomatch h
  | ok es =>
    rw [hm] at h
    have h : (if es = [] then none else some es) = x.acl := Except.ok.inj h
    have hes := entries_spec hm
    have hparsed : Parsed pton x.csv es := by
      refine ⟨fun e he => ?_, fun t ht => ?_⟩
      · obtain ⟨t, ht, hte⟩ := hes.1 e he
        exact ⟨t, names_iff.mpr ht, hte⟩
      · exact hes.2 t (names_iff.mp ht)
    rw [← h]
    by_cases hnil : es = []
    · rw [if_pos hnil]
      exact ⟨hnil ▸ hparsed, by simp⟩
    · rw [if_neg hnil]
      exact ⟨hparsed, fun he => hnil (some.inj he)⟩

lemma listed_iff (x : Accepted pton d) (peer : Option Bytes) :
    Listed pton x.csv peer ↔
      ∃ a, peer.bind (address pton) = some a ∧ ∃ e ∈ x.acl.getD [], entry_address e = a := by
  obtain ⟨hparsed, -⟩ := x.entries
  refine exists_congr fun a => and_congr_right fun _ => ⟨?_, ?_⟩
  · rintro ⟨t, ht, ha⟩
    obtain ⟨e, he, hte⟩ := hparsed.complete t ht
    exact ⟨e, he, some.inj (hte.address.symm.trans ha)⟩
  · rintro ⟨e, he, rfl⟩
    obtain ⟨t, ht, hte⟩ := hparsed.sound e he
    exact ⟨t, ht, hte.address⟩

lemma Parsed.mem_iff {csv : Bytes} {es : List AclEntry} (h : Parsed pton csv es) (e : AclEntry) :
    e ∈ es ↔ ∃ t, Names csv t ∧ Entry pton t e := by
  refine ⟨h.sound e, ?_⟩
  rintro ⟨t, ht, hte⟩
  obtain ⟨e', he', hte'⟩ := h.complete t ht
  exact hte.unique hte' ▸ he'

/-! ## The check -/

lemma mapped_inj {a b : Bytes} : mapped a = mapped b ↔ a = b := append_right_inj _

lemma eq_mapped_iff {a b : Bytes} : a = mapped b ↔ is_v4mapped a = true ∧ a.drop 12 = b := by
  unfold is_v4mapped mapped
  rw [beq_iff_eq]
  constructor
  · rintro rfl
    exact ⟨rfl, rfl⟩
  · rintro ⟨htake, rfl⟩
    rw [← htake, take_append_drop]

lemma acl_entry_matches_iff (t : Bytes) (e : AclEntry) :
    acl_entry_matches (pton.inet t) (if (pton.inet t).isNone then pton.inet6 t else none) e = true ↔
      address pton t = some (entry_address e) ∧
        ∀ a, pton.inet t = some a → e ≠ .inet6 (mapped a) := by
  unfold address
  cases h4 : pton.inet t with
  | some a =>
    cases e with
    | inet b => simp [acl_entry_matches, entry_address, mapped_inj]
    | inet6 b =>
      simp only [acl_entry_matches, entry_address]
      simp [eq_comm]
  | none =>
    cases h6 : pton.inet6 t with
    | none => cases e <;> simp [acl_entry_matches]
    | some a =>
      cases e with
      | inet b => simp [acl_entry_matches, entry_address, eq_mapped_iff]
      | inet6 b => simp [acl_entry_matches, entry_address]

lemma acl_check_iff {acl : List AclEntry} (h : acl ≠ []) (peer : Option Bytes) :
    fpm_http_acl_check pton (some acl) peer = true ↔
      ∃ e ∈ acl, peer.bind (address pton) = some (entry_address e) ∧
        ∀ a, peer.bind pton.inet = some a → e ≠ .inet6 (mapped a) := by
  rcases acl with _ | ⟨e, acl⟩
  · exact absurd rfl h
  cases peer with
  | none => simp [fpm_http_acl_check]
  | some t =>
    unfold fpm_http_acl_check
    rw [List.any_eq_true]
    exact exists_congr fun e => and_congr_right fun _ => acl_entry_matches_iff t e

lemma address_of_inet {peer : Option Bytes} {a : Bytes} (h : peer.bind pton.inet = some a) :
    peer.bind (address pton) = some (mapped a) := by
  obtain ⟨t, rfl, ht⟩ := bind_eq_some_iff.mp h
  rw [bind_some, address, ht]
  rfl

lemma Accepted.operator (x : Accepted pton .operator_allowed_clients) : x.acl ≠ none := by
  intro hnone
  have hvalid := x.valid
  rw [Directive.validate, validate_operator, x.parsed, hnone] at hvalid
  simp [Except.isOk, Except.toBool, x.nonempty, bind, Except.bind, throw, throwThe,
    MonadExceptOf.throw] at hvalid

/-- **A list is exact but for two cases.** A directive admits a peer exactly if the text names
its address, unless the text names nothing and the directive is a list of clients that may be
`NULL`, or the peer is an IPv4 address named in its mapped form only. -/
theorem admits_listed_iff (d : Directive) (x : Accepted pton d) (peer : Option Bytes) :
    (d.admits pton x.acl peer = true ↔ Listed pton x.csv peer) ↔
      ¬((∀ t, ¬Names x.csv t) ∧ (d = .http_allowed_clients ∨ d = .listen_allowed_clients)) ∧
        ¬MappedOnly pton x.csv peer := by
  obtain ⟨hparsed, hsome⟩ := x.entries
  have hmapped : MappedOnly pton x.csv peer ↔ ∃ a, peer.bind pton.inet = some a ∧
      .inet6 (mapped a) ∈ x.acl.getD [] ∧ .inet a ∉ x.acl.getD [] := by
    refine exists_congr fun a => and_congr_right fun _ => ?_
    rw [hparsed.mem_iff, hparsed.mem_iff]
    simp [Entry]
  rw [listed_iff, hmapped]
  unfold Directive.admits
  cases hacl : x.acl with
  | none =>
    have hnothing : ∀ t, ¬Names x.csv t := by
      intro t ht
      obtain ⟨e, he, -⟩ := hparsed.complete t ht
      rw [hacl] at he
      exact nomatch he
    cases d with
    | operator_allowed_clients => exact absurd hacl x.operator
    | http_allowed_clients | listen_allowed_clients | http_trusted_proxies
    | http_proxy_protocol_trusted => simp [Directive.null_admits, hnothing]
  | some acl =>
    have hne : acl ≠ [] := fun h => hsome (hacl ▸ h ▸ rfl)
    have hnames : ¬∀ t, ¬Names x.csv t := by
      obtain ⟨e, he⟩ := exists_mem_of_ne_nil acl hne
      obtain ⟨t, ht, -⟩ := hparsed.sound e (by rw [hacl]; exact he)
      exact fun h => h t ht
    rw [isNone_some, if_neg Bool.false_ne_true, acl_check_iff hne, getD_some]
    refine ⟨fun h => ⟨fun hnil => hnames hnil.1, ?_⟩, fun h => ⟨?_, ?_⟩⟩
    · rintro ⟨a, ha, hin, hout⟩
      obtain ⟨e, he, hea, hnot⟩ := h.mpr ⟨mapped a, address_of_inet ha, _, hin, rfl⟩
      rw [address_of_inet ha, some_inj] at hea
      -- the entry that matched is the address itself
      cases e with
      | inet b => exact hout (mapped_inj.mp hea ▸ he)
      | inet6 b => exact hnot a ha (hea ▸ rfl)
    · rintro ⟨e, he, hea, _⟩
      exact ⟨_, hea, e, he, rfl⟩
    · rintro ⟨_, hpeer, e, he, rfl⟩
      by_cases hmapped : ∃ a, peer.bind pton.inet = some a ∧ e = .inet6 (mapped a)
      · obtain ⟨a, ha, rfl⟩ := hmapped
        exact ⟨.inet a, by_contra fun hout => h.2 ⟨a, ha, he, hout⟩, address_of_inet ha, by simp⟩
      · exact ⟨e, he, hpeer, fun a ha heq => hmapped ⟨a, ha, heq⟩⟩

def separators_only : Lists where
  proxy_only := true
  http_operator := false
  http_operator_allowed_clients := none
  http_allowed_clients := some (str " , ")
  http_trusted_proxies := none
  http_proxy_protocol := false
  http_proxy_protocol_trusted := none
  http_read_timeout := 0

/-- The text is accepted, names nobody, and lets everybody in. -/
theorem separators_admit_everybody :
    (fpm_http_validate_pool ipv4_host separators_only).isOk = true ∧
      fpm_http_acl_parse ipv4_host separators_only.http_allowed_clients = .ok none ∧
      Directive.http_allowed_clients.admits ipv4_host none (some (str "203.0.113.7")) = true ∧
      ¬Listed ipv4_host (str " , ") (some (str "203.0.113.7")) := by
  have hnone : items (str " , ") = [] := by decide
  refine ⟨by decide, by decide, by decide, ?_⟩
  rintro ⟨_, _, _, ht, _⟩
  rw [names_iff, hnone] at ht
  exact nomatch ht

end FpmNg.AddressList
