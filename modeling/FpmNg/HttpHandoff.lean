/-
Gateway listeners across the exec of a reload: `fpm_http_handoff.c`.

The old master writes a record `fd:tls:bind` for every listening socket it keeps
open, and the new master reads the records back, closes what its configuration
does not bind, lets each gateway listener take the socket of its own bind text
and closes the rest.

What the kernel and the resolver say about a descriptor is a parameter
(`Sockets`); the answers of `listen(2)` come with each call. Memory suffices, and
`setenv` succeeds.

The log holds what is done to inherited descriptors. A descriptor that does not
appear in it was neither adopted nor closed.
-/
import FpmNg.Numbers
import FpmNg.Lib.Separated
import Mathlib.Data.List.Perm.Subperm

open Separated List Option

namespace FpmNg.HttpHandoff

abbrev INT_MAX : ℕ := 2147483647

/-- `is_listening_tcp(fd)` and `is_bound_to(fd, key)`. A socket keeps listening
across the exec, so both masters get the same answer to the first. -/
structure Sockets where
  is_listening_tcp : ℕ → Bool
  is_bound_to : ℕ → Bytes → Bool

/-! ## The fingerprint of a TLS setup -/

/-- The settings `fpm_http_handoff_tls_fp` reads, in its order: certificate, key,
minimum version, SNI certificates, client verification, client CA. -/
structure TlsSettings where
  fields : List (Option Bytes)
  wait_for_cert : Bool
  deriving DecidableEq

def fnv_step (h : UInt64) (b : UInt8) : UInt64 := (h ^^^ b.toUInt64) * 0x100000001b3

def hex_digit (d : ℕ) : UInt8 := if d < 10 then (48 + d).toUInt8 else (87 + d).toUInt8

/-- The last `n` hexadecimal digits of a number. -/
def hex_digits : ℕ → ℕ → Bytes
  | 0, _ => []
  | n + 1, v => hex_digits n (v / 16) ++ [hex_digit (v % 16)]

/-- `fpm_http_handoff_tls_fp`. A separator goes in behind each value. -/
def fpm_http_handoff_tls_fp (tls : TlsSettings) : Bytes :=
  let h := tls.fields.foldl (fun h f => fnv_step ((f.getD []).foldl fnv_step h) 0x1f)
    0xcbf29ce484222325
  hex_digits 16 (fnv_step h (if tls.wait_for_cert then 49 else 48)).toNat

/-! ## The old master -/

/-- The fields of `fpm_http_gateway_s` the export reads; a descriptor of -1 and a
`NULL` address are `none`. -/
structure Gateway where
  proxy_only : Bool
  reuseport : Bool
  listen_fd : Option ℕ
  listen_address : Option Bytes
  plain_listen_fd : Option ℕ
  plain_listen_address : Option Bytes
  tls : TlsSettings
  deriving DecidableEq

structure Record where
  fd : ℕ
  tls : Bytes
  key : Bytes
  deriving DecidableEq

def Gateway.fd (gw : Gateway) (plain : Bool) : Option ℕ :=
  if plain then gw.plain_listen_fd else gw.listen_fd

/-- `export_key`. -/
def export_key (w : Sockets) (gw : Gateway) (plain : Bool) : Option Bytes :=
  let bind := if plain then gw.plain_listen_address else gw.listen_address
  match gw.fd plain, bind with
  | some fd, some key =>
    if !gw.proxy_only || gw.reuseport || !w.is_listening_tcp fd then none
    else if key.isEmpty || key.contains COMMA then none
    else some key
  | _, _ => none

def export_record (w : Sockets) (gw : Gateway) (plain : Bool) : Option Record :=
  match export_key w gw plain, gw.fd plain with
  | some key, some fd => some ⟨fd, fpm_http_handoff_tls_fp gw.tls, key⟩
  | _, _ => none

/-- Pass one of `fpm_http_handoff_export`: the records, in order. -/
def exported (w : Sockets) (gateways : List Gateway) : List Record :=
  gateways.flatMap fun gw => [false, true].filterMap (export_record w gw)

/-- `"%d:%s:%s"`. -/
def record_text (r : Record) : Bytes := decimal r.fd ++ COLON :: (r.tls ++ COLON :: r.key)

/-- The variable `fpm_http_handoff_export` sets; without a record it stays unset. -/
def fpm_http_handoff_export (w : Sockets) (gateways : List Gateway) : Option Bytes :=
  if (exported w gateways).isEmpty then none
  else some (join COMMA ((exported w gateways).map record_text))

/-! ## The new master -/

/-- `struct fpm_http_handed_s`; `fd` is `none` once the socket is adopted or
closed. -/
structure Handed where
  fd : Option ℕ
  key : Bytes
  tls : Bytes
  deriving DecidableEq

/-- What happens to an inherited descriptor. `adopt k` is the `k`-th listener
taking it over for its address. -/
inductive Event where
  | adopt (k : ℕ) (address : Bytes) (fd : ℕ)
  | close (fd : ℕ)
  deriving DecidableEq

structure Master where
  handed : List Handed
  log : List Event

structure PoolConfig where
  proxy_only : Bool
  listen_address : Bytes
  http_plain_listen : Option Bytes
  deriving DecidableEq

/-- `handed_is_configured`. -/
def handed_is_configured (pools : List PoolConfig) (key : Bytes) : Bool :=
  pools.any fun wp => wp.proxy_only &&
    (key == wp.listen_address || wp.http_plain_listen.any fun p => !p.isEmpty && key == p)

/-- The text checks of the loop of `fpm_http_handoff_begin`. -/
def read_record (tok : Bytes) : Option Record :=
  let fd := strtol tok
  let colon := fd.2
  if colon == tok || colon.head? != some COLON || decide (fd.1 < 0) ||
      decide ((INT_MAX : Int) < fd.1) || decide (colon.length < 19) ||
      colon[17]? != some COLON then none
  else some ⟨fd.1.toNat, (colon.drop 1).take 16, colon.drop 18⟩

/-- One record of it: the entry of the table, if the descriptor is a listening
socket of that address. Any other descriptor may be some other pool's. -/
def take_record (w : Sockets) (r : Record) : Option Handed :=
  if w.is_listening_tcp r.fd && w.is_bound_to r.fd r.key then some ⟨some r.fd, r.key, r.tls⟩
  else none

def sweep_entry (pools : List PoolConfig) (h : Handed) : Handed × List Event :=
  match h.fd with
  | none => (h, [])
  | some fd =>
    if handed_is_configured pools h.key then (h, []) else ({ h with fd := none }, [.close fd])

/-- `fpm_http_handoff_begin`. -/
def fpm_http_handoff_begin (w : Sockets) (pools : List PoolConfig) (env : Option Bytes) :
    Master :=
  let records := (tokens COMMA (env.getD [])).filterMap read_record
  let table := records.filterMap (take_record w)
  ⟨table.map fun h => (sweep_entry pools h).1, table.flatMap fun h => (sweep_entry pools h).2⟩

/-- A listener of the new configuration: the arguments of its
`fpm_http_handoff_listen`, and what `listen(2)` answers on a descriptor. -/
structure Listener where
  http_address : Option Bytes
  reuseport : Bool
  do_listen : Bool
  tls : TlsSettings
  listen_ok : ℕ → Bool

/-- The loop of `fpm_http_handoff_listen` from an entry on; `free` is
`adopted < 0`. -/
def listen_entries (k : ℕ) (l : Listener) (address : Bytes) (free : Bool) :
    List Handed → List Handed × List Event
  | [] => ([], [])
  | h :: hs =>
    match h.fd with
    | none =>
      let rest := listen_entries k l address free hs
      (h :: rest.1, rest.2)
    | some fd =>
      if h.key != address then
        let rest := listen_entries k l address free hs
        (h :: rest.1, rest.2)
      else if free && !l.reuseport && l.do_listen && h.tls == fpm_http_handoff_tls_fp l.tls &&
          l.listen_ok fd then
        let rest := listen_entries k l address false hs
        ({ h with fd := none } :: rest.1, .adopt k address fd :: rest.2)
      else
        let rest := listen_entries k l address free hs
        ({ h with fd := none } :: rest.1, .close fd :: rest.2)

/-- `fpm_http_handoff_listen`, as far as inherited descriptors are concerned: a
listener that adopts none binds a socket of its own. -/
def fpm_http_handoff_listen (k : ℕ) (l : Listener) (m : Master) : Master :=
  match l.http_address with
  | none => m
  | some address =>
    let r := listen_entries k l address true m.handed
    ⟨r.1, m.log ++ r.2⟩

/-- `fpm_http_handoff_finish`. -/
def fpm_http_handoff_finish (m : Master) : Master :=
  ⟨[], m.log ++ (m.handed.filterMap Handed.fd).map .close⟩

def take_over (w : Sockets) (pools : List PoolConfig) (env : Option Bytes)
    (listeners : List Listener) : Master :=
  fpm_http_handoff_finish
    (listeners.zipIdx.foldl (fun m l => fpm_http_handoff_listen l.2 l.1 m)
      (fpm_http_handoff_begin w pools env))

/-! ## The records come through the text unchanged -/

lemma hex_digits_length (n v : ℕ) : (hex_digits n v).length = n := by
  induction n generalizing v with
  | zero => rfl
  | succ n ih => rw [hex_digits, length_append, ih, length_singleton]

lemma hex_digit_ge {d : ℕ} (h : d < 16) : 48 ≤ (hex_digit d).toNat := by
  unfold hex_digit
  split
  · rename_i hd
    rw [digit_byte hd]
    omega
  · simp only [Nat.toUInt8, UInt8.toNat_ofNat']
    omega

lemma comma_not_mem_hex (n v : ℕ) : COMMA ∉ hex_digits n v := by
  induction n generalizing v with
  | zero => simp [hex_digits]
  | succ n ih =>
    rw [hex_digits, mem_append, mem_singleton, not_or]
    refine ⟨ih _, ?_⟩
    intro h
    have hge := hex_digit_ge (Nat.mod_lt v (by decide : 0 < 16))
    rw [← h] at hge
    exact absurd hge (by decide)

structure Record.Wf (r : Record) : Prop where
  fd_le : r.fd ≤ INT_MAX
  tls_length : r.tls.length = 16
  tls_comma : COMMA ∉ r.tls
  key_comma : COMMA ∉ r.key
  key_ne_nil : r.key ≠ []

variable {w : Sockets}

lemma export_key_spec {gw : Gateway} {plain : Bool} {key : Bytes}
    (h : export_key w gw plain = some key) :
    ∃ fd, gw.fd plain = some fd ∧ w.is_listening_tcp fd = true ∧ COMMA ∉ key ∧ key ≠ [] := by
  unfold export_key at h
  dsimp only at h
  split at h
  · rename_i fd key' hfd _
    split at h
    · simp at h
    · rename_i hsocket
      split at h
      · simp at h
      · rename_i htext
        cases h
        simp only [Bool.or_eq_true, Bool.not_eq_true', not_or, Bool.not_eq_false] at hsocket
        simp only [Bool.or_eq_true, List.isEmpty_iff, contains_iff_mem, not_or] at htext
        exact ⟨fd, hfd, hsocket.2, htext.2, htext.1⟩
  · simp at h

variable {r : Record}

lemma mem_exported {gateways : List Gateway} (h : r ∈ exported w gateways) :
    w.is_listening_tcp r.fd = true ∧ r.tls.length = 16 ∧ COMMA ∉ r.tls ∧ COMMA ∉ r.key ∧
      r.key ≠ [] := by
  obtain ⟨gw, -, hgw⟩ := mem_flatMap.mp h
  obtain ⟨plain, -, hrec⟩ := mem_filterMap.mp hgw
  unfold export_record at hrec
  split at hrec
  · rename_i key fd hkey hfd
    obtain ⟨fd', hfd', hlisten, hcomma, hne⟩ := export_key_spec hkey
    rw [hfd] at hfd'
    obtain rfl := some.inj hfd'
    rw [← some.inj hrec]
    exact ⟨hlisten, hex_digits_length _ _, comma_not_mem_hex _ _, hcomma, hne⟩
  · simp at hrec

lemma comma_not_mem_record (h : r.Wf) : COMMA ∉ record_text r := by
  unfold record_text
  rw [mem_append, mem_cons, mem_append, mem_cons, not_or, not_or, not_or,
    not_or]
  refine ⟨?_, by decide, h.tls_comma, by decide, h.key_comma⟩
  intro hmem
  exact absurd (decimal_bytes _ _ hmem).1 (by decide)

theorem read_record_text (h : r.Wf) : read_record (record_text r) = some r := by
  have hfd : r.fd ≤ LONG_MAX := Nat.le_trans h.fd_le (by decide)
  have hdec : strtol (record_text r) = ((r.fd : Int), COLON :: (r.tls ++ COLON :: r.key)) := by
    apply strtol_decimal hfd
    intro b hb
    rw [← some.inj hb]
    decide
  have hpos := length_pos_iff.mpr (decimal_ne_nil r.fd)
  have hkey := length_pos_iff.mpr h.key_ne_nil
  have hlen : (COLON :: (r.tls ++ COLON :: r.key)).length = 18 + r.key.length := by
    rw [length_cons, length_append, length_cons, h.tls_length]
    omega
  -- `strtol` took the digits of the descriptor
  have hmoved : (COLON :: (r.tls ++ COLON :: r.key) == record_text r) = false := by
    rw [beq_eq_false_iff_ne]
    intro heq
    have hlen' := congrArg length heq
    unfold record_text at hlen'
    rw [length_append] at hlen'
    omega
  have hcolon : (COLON :: (r.tls ++ COLON :: r.key))[17]? = some COLON := by
    rw [getElem?_cons_succ, getElem?_append_right (Nat.le_of_eq h.tls_length),
      h.tls_length]
    rfl
  have htls : ((COLON :: (r.tls ++ COLON :: r.key)).drop 1).take 16 = r.tls := by
    rw [drop_succ_cons, drop_zero, ← h.tls_length, take_left]
  have hrest : (COLON :: (r.tls ++ COLON :: r.key)).drop 18 = r.key := by
    rw [drop_succ_cons, drop_append, h.tls_length,
      drop_eq_nil_of_le (by rw [h.tls_length]; decide), nil_append]
    rfl
  have hneg : ¬ (r.fd : Int) < 0 := by omega
  have hbig : ¬ (INT_MAX : Int) < r.fd := by
    have hle := h.fd_le
    omega
  have hshort : ¬ 18 + r.key.length < 19 := by omega
  unfold read_record
  simp only [hdec, hmoved, hcolon, hneg, hbig, hlen, hshort, htls, hrest, head?_cons,
    bne_self_eq_false, decide_false, Bool.or_self, Bool.false_eq_true, if_false, Int.toNat_natCast]

lemma record_text_ne_nil (r : Record) : record_text r ≠ [] := by simp [record_text]

lemma export_getD (w : Sockets) (gateways : List Gateway) :
    (fpm_http_handoff_export w gateways).getD [] =
      join COMMA ((exported w gateways).map record_text) := by
  unfold fpm_http_handoff_export
  split
  · rename_i h
    rw [List.isEmpty_iff] at h
    rw [h]
    rfl
  · rfl

theorem decode_export {gateways : List Gateway} (hfd : ∀ r ∈ exported w gateways, r.fd ≤ INT_MAX) :
    (tokens COMMA ((fpm_http_handoff_export w gateways).getD [])).filterMap read_record =
      exported w gateways := by
  have hwf : ∀ r ∈ exported w gateways, r.Wf := by
    intro r hr
    obtain ⟨-, htls, htcomma, hkcomma, hne⟩ := mem_exported hr
    exact ⟨hfd r hr, htls, htcomma, hkcomma, hne⟩
  rw [export_getD, tokens_join, filterMap_map]
  · have hread : ∀ rs : List Record, (∀ r ∈ rs, r.Wf) →
        rs.filterMap (read_record ∘ record_text) = rs := by
      intro rs
      induction rs with
      | nil => exact fun _ => rfl
      | cons r rs ih =>
        intro hrs
        rw [filterMap_cons, Function.comp_apply, read_record_text (hrs r mem_cons_self)]
        rw [ih fun q hq => hrs q (.tail _ hq)]
    exact hread _ hwf
  · intro t ht
    obtain ⟨r, hr, rfl⟩ := mem_map.mp ht
    exact comma_not_mem_record (hwf r hr)
  · intro t ht
    obtain ⟨r, -, rfl⟩ := mem_map.mp ht
    exact record_text_ne_nil r

/-! ## Ownership -/

def Event.fd : Event → ℕ
  | .adopt _ _ fd => fd
  | .close fd => fd

def Event.adopter : Event → Option ℕ
  | .adopt k _ _ => some k
  | .close _ => none

def owned (hs : List Handed) : List ℕ := hs.filterMap Handed.fd

variable {h : Handed}

lemma owned_cons_none (hs : List Handed) (hfd : h.fd = none) : owned (h :: hs) = owned hs := by
  unfold owned
  rw [filterMap_cons, hfd]

lemma owned_cons_some (hs : List Handed) {fd : ℕ} (hfd : h.fd = some fd) :
    owned (h :: hs) = fd :: owned hs := by
  unfold owned
  rw [filterMap_cons, hfd]

def Holds (hs : List Handed) (fd : ℕ) (key : Bytes) : Prop := ∃ h ∈ hs, h.fd = some fd ∧ h.key = key

/-- **One listener.** Every descriptor the table gives up is adopted or closed
once; at most one is adopted, by this listener, and only for its own address. -/
structure Served (k : ℕ) (address : Bytes) (free : Bool) (hs : List Handed)
    (r : List Handed × List Event) : Prop where
  once : (owned r.1 ++ r.2.map Event.fd).Perm (owned hs)
  kept : ∀ fd key, Holds r.1 fd key → Holds hs fd key
  adopted : ∀ j key fd, Event.adopt j key fd ∈ r.2 → key = address ∧ Holds hs fd key
  adopters : r.2.filterMap Event.adopter = [] ∨ free = true ∧ r.2.filterMap Event.adopter = [k]

variable {hs : List Handed}

lemma holds_cons {fd : ℕ} {key : Bytes} (hh : Holds hs fd key) : Holds (h :: hs) fd key := by
  obtain ⟨e, he, hfd⟩ := hh
  exact ⟨e, mem_cons_of_mem _ he, hfd⟩

lemma served_skip {k : ℕ} {address : Bytes} {free : Bool} {r : List Handed × List Event}
    (hr : Served k address free hs r) (h : Handed) :
    Served k address free (h :: hs) (h :: r.1, r.2) := by
  refine ⟨?_, ?_, ?_, hr.adopters⟩
  · cases hfd : h.fd with
    | none =>
      rw [owned_cons_none _ hfd, owned_cons_none _ hfd]
      exact hr.once
    | some fd =>
      rw [owned_cons_some _ hfd, owned_cons_some _ hfd]
      exact hr.once.cons fd
  · rintro fd key ⟨e, he, hfd⟩
    rcases mem_cons.mp he with rfl | he
    · exact ⟨e, .head _, hfd⟩
    · exact holds_cons (hr.kept fd key ⟨e, he, hfd⟩)
  · intro j key fd hev
    obtain ⟨hkey, hh⟩ := hr.adopted j key fd hev
    exact ⟨hkey, holds_cons hh⟩

lemma served_give_up {k : ℕ} {address : Bytes} {free free' : Bool} {r : List Handed × List Event}
    {ev : Event} (hr : Served k address free' hs r) (hfd : h.fd = some ev.fd)
    (hkey : h.key = address)
    (hev : ev = .close ev.fd ∧ free' = free ∨ ev = .adopt k address ev.fd ∧ free = true ∧ free' = false)
    :
    Served k address free (h :: hs) ({ h with fd := none } :: r.1, ev :: r.2) := by
  refine ⟨?_, ?_, ?_, ?_⟩
  · rw [owned_cons_none _ rfl, owned_cons_some _ hfd, map_cons]
    exact perm_middle.trans (hr.once.cons ev.fd)
  · rintro fd key ⟨e, he, hefd⟩
    rcases mem_cons.mp he with rfl | he
    · exact absurd hefd.1 (by simp)
    · exact holds_cons (hr.kept fd key ⟨e, he, hefd⟩)
  · intro j key fd hmem
    rcases mem_cons.mp hmem with heq | hmem
    · rcases hev with ⟨hclose, -⟩ | ⟨hadopt, -⟩
      · rw [hclose] at heq
        simp at heq
      · rw [hadopt, Event.adopt.injEq] at heq
        refine ⟨heq.2.1, h, .head _, ?_, hkey.trans heq.2.1.symm⟩
        rw [hfd, heq.2.2]
    · obtain ⟨hk, hh⟩ := hr.adopted j key fd hmem
      exact ⟨hk, holds_cons hh⟩
  · rcases hev with ⟨hclose, rfl⟩ | ⟨hadopt, hfree, hbusy⟩
    · rw [hclose]
      exact hr.adopters
    · -- nothing behind it is adopted
      have hnone : r.2.filterMap Event.adopter = [] := by
        rcases hr.adopters with hnil | ⟨htrue, -⟩
        · exact hnil
        · exact nomatch hbusy.symm.trans htrue
      refine .inr ⟨hfree, ?_⟩
      rw [hadopt, filterMap_cons, hnone]
      rfl

lemma listen_entries_served (k : ℕ) (l : Listener) (address : Bytes) (free : Bool)
    (hs : List Handed) : Served k address free hs (listen_entries k l address free hs) := by
  induction hs generalizing free with
  | nil => exact ⟨Perm.refl _, fun _ _ h => h, by simp [listen_entries], .inl rfl⟩
  | cons h hs ih =>
    rw [listen_entries]
    cases hfd : h.fd with
    | none => exact served_skip (ih free) h
    | some fd =>
      dsimp only
      by_cases hkey : h.key = address
      · have hkey' : ¬ (h.key != address) = true := by simp [hkey]
        rw [if_neg hkey']
        split
        · rename_i hadopt
          rw [Bool.and_eq_true, Bool.and_eq_true, Bool.and_eq_true, Bool.and_eq_true] at hadopt
          exact served_give_up (ih false) hfd hkey
            (.inr ⟨rfl, hadopt.1.1.1.1, rfl⟩)
        · exact served_give_up (ih free) hfd hkey (.inl ⟨rfl, rfl⟩)
      · have hkey' : (h.key != address) = true := by simp [hkey]
        rw [if_pos hkey']
        exact served_skip (ih free) h

/-! ## The run of the new master -/

def accepted (w : Sockets) (records : List Record) : List Record :=
  records.filter fun r => w.is_listening_tcp r.fd && w.is_bound_to r.fd r.key

/-- What holds once the listeners `ls` are open: the table and the log together
have every accepted descriptor once, and an adopted one went to the listener of
its own key. -/
structure Owns (w : Sockets) (records : List Record) (ls : List Listener) (m : Master) : Prop where
  once : (owned m.handed ++ m.log.map Event.fd).Perm ((accepted w records).map Record.fd)
  holds : ∀ fd key, Holds m.handed fd key → ∃ tls, ⟨fd, tls, key⟩ ∈ records
  adopted : ∀ j key fd, Event.adopt j key fd ∈ m.log →
    (∃ tls, ⟨fd, tls, key⟩ ∈ records) ∧ ∃ l, ls[j]? = some l ∧ l.http_address = some key
  adopters : (m.log.filterMap Event.adopter).Nodup

lemma owned_table (w : Sockets) (records : List Record) :
    owned (records.filterMap (take_record w)) = (accepted w records).map Record.fd := by
  unfold owned accepted
  induction records with
  | nil => rfl
  | cons r rs ih =>
    rw [filterMap_cons, filter_cons]
    unfold take_record at ih ⊢
    split
    · rename_i hnone
      split at hnone
      · simp at hnone
      · rename_i hcond
        rw [if_neg hcond]
        exact ih
    · rename_i h hsome
      split at hsome
      · rename_i hcond
        rw [if_pos hcond, ← some.inj hsome, filterMap_cons, ih]
        rfl
      · simp at hsome

lemma sweep_once (pools : List PoolConfig) (table : List Handed) :
    (owned (table.map fun h => (sweep_entry pools h).1) ++
      (table.flatMap fun h => (sweep_entry pools h).2).map Event.fd).Perm (owned table) := by
  induction table with
  | nil => exact Perm.refl _
  | cons h hs ih =>
    rw [map_cons, flatMap_cons, map_append]
    cases hfd : h.fd with
    | none =>
      have hsweep : sweep_entry pools h = (h, []) := by
        unfold sweep_entry
        rw [hfd]
      rw [hsweep, owned_cons_none _ hfd, owned_cons_none _ hfd]
      exact ih
    | some fd =>
      by_cases hconf : handed_is_configured pools h.key = true
      · have hsweep : sweep_entry pools h = (h, []) := by
          unfold sweep_entry
          rw [hfd]
          exact if_pos hconf
        rw [hsweep, owned_cons_some _ hfd, owned_cons_some _ hfd]
        exact ih.cons fd
      · have hsweep : sweep_entry pools h = ({ h with fd := none }, [.close fd]) := by
          unfold sweep_entry
          rw [hfd]
          exact if_neg hconf
        rw [hsweep, owned_cons_none _ rfl, owned_cons_some _ hfd]
        exact perm_middle.trans (ih.cons fd)

lemma sweep_entry_spec (pools : List PoolConfig) (h : Handed) :
    (∀ fd, (sweep_entry pools h).1.fd = some fd → h.fd = some fd) ∧
      (sweep_entry pools h).1.key = h.key ∧
      ∀ ev ∈ (sweep_entry pools h).2, ∃ fd, ev = .close fd := by
  unfold sweep_entry
  split
  · exact ⟨fun _ hfd => hfd, rfl, by simp⟩
  · rename_i fd hfd
    split
    · exact ⟨fun _ hfd => hfd, rfl, by simp⟩
    · exact ⟨by simp, rfl, by simp⟩

variable {records : List Record}

theorem begin_owns {env : Option Bytes}
    (hdecode : (tokens COMMA (env.getD [])).filterMap read_record = records)
    (pools : List PoolConfig) : Owns w records [] (fpm_http_handoff_begin w pools env) := by
  have hclose : ∀ ev ∈ (fpm_http_handoff_begin w pools env).log, ∃ fd, ev = .close fd := by
    intro ev hev
    obtain ⟨h, -, hmem⟩ := mem_flatMap.mp hev
    exact (sweep_entry_spec pools h).2.2 ev hmem
  refine ⟨?_, ?_, ?_, ?_⟩
  · unfold fpm_http_handoff_begin
    rw [hdecode, ← owned_table]
    exact sweep_once pools _
  · rintro fd key ⟨e, he, hfd, hkey⟩
    obtain ⟨h, hh, rfl⟩ := mem_map.mp he
    obtain ⟨hkeep, hkeep', -⟩ := sweep_entry_spec pools h
    rw [hdecode] at hh
    obtain ⟨r, hr, htake⟩ := mem_filterMap.mp hh
    unfold take_record at htake
    split at htake
    · have hhandle := some.inj htake
      have hfd' := hkeep fd hfd
      have hkey' := hkeep'.symm.trans hkey
      rw [← hhandle] at hfd' hkey'
      refine ⟨r.tls, ?_⟩
      rw [← hkey', ← some.inj hfd']
      exact hr
    · simp at htake
  · intro j key fd hev
    obtain ⟨fd', heq⟩ := hclose _ hev
    simp at heq
  · have hnone : (fpm_http_handoff_begin w pools env).log.filterMap Event.adopter = [] := by
      rw [filterMap_eq_nil_iff]
      intro ev hev
      obtain ⟨fd, rfl⟩ := hclose ev hev
      rfl
    rw [hnone]
    exact nodup_nil

variable {m : Master}

lemma owns_weaken {ls : List Listener} (h : Owns w records ls m) (l : Listener) :
    Owns w records (ls ++ [l]) m := by
  refine ⟨h.once, h.holds, ?_, h.adopters⟩
  intro j key fd hev
  obtain ⟨hrec, l', hl', haddr⟩ := h.adopted j key fd hev
  refine ⟨hrec, l', ?_, haddr⟩
  rw [getElem?_append_left (List.getElem?_eq_some_iff.mp hl').1]
  exact hl'

theorem listen_owns {ls : List Listener} (h : Owns w records ls m) (l : Listener) :
    Owns w records (ls ++ [l]) (fpm_http_handoff_listen ls.length l m) := by
  unfold fpm_http_handoff_listen
  cases haddr : l.http_address with
  | none => exact owns_weaken h l
  | some address =>
    have hserved := listen_entries_served ls.length l address true m.handed
    have hweak := owns_weaken h l
    refine ⟨?_, ?_, ?_, ?_⟩
    · rw [map_append]
      refine Perm.trans ?_ h.once
      refine (perm_append_comm_assoc _ _ _).trans ?_
      refine (hserved.once.append_left _).trans perm_append_comm
    · intro fd key hh
      exact h.holds fd key (hserved.kept fd key hh)
    · intro j key fd hev
      rcases mem_append.mp hev with hev | hev
      · exact hweak.adopted j key fd hev
      · obtain ⟨hkey, hh⟩ := hserved.adopted j key fd hev
        -- what this call adopts, it adopts for this listener
        have hj : j = ls.length := by
          have hmem : j ∈ (listen_entries ls.length l address true m.handed).2.filterMap
              Event.adopter := mem_filterMap.mpr ⟨_, hev, rfl⟩
          rcases hserved.adopters with hnil | ⟨-, hone⟩
          · rw [hnil] at hmem
            simp at hmem
          · rw [hone] at hmem
            exact mem_singleton.mp hmem
        refine ⟨h.holds fd key hh, l, ?_, ?_⟩
        · rw [hj]
          simp
        · rw [hkey]
          exact haddr
    · rw [filterMap_append]
      rcases hserved.adopters with hnil | ⟨-, hone⟩
      · rw [hnil, append_nil]
        exact h.adopters
      · -- the listeners in front of it have smaller numbers
        rw [hone, nodup_append]
        refine ⟨h.adopters, by simp, ?_⟩
        rintro j hj k hk rfl
        rw [mem_singleton.mp hk] at hj
        obtain ⟨ev, hev, hadopter⟩ := mem_filterMap.mp hj
        cases ev with
        | close fd => simp [Event.adopter] at hadopter
        | adopt i key fd =>
          obtain ⟨-, l', hl', -⟩ := h.adopted i key fd hev
          rw [some.inj hadopter] at hl'
          exact absurd (List.getElem?_eq_some_iff.mp hl').1 (Nat.lt_irrefl _)

lemma listeners_own (h : Owns w records [] m) (ls : List Listener) :
    Owns w records ls (ls.zipIdx.foldl (fun m l => fpm_http_handoff_listen l.2 l.1 m) m) := by
  induction ls using reverseRecOn with
  | nil => exact h
  | append_singleton ls l ih =>
    rw [zipIdx_append, foldl_append]
    have hstep := listen_owns ih l
    simpa using hstep

/-- The old master at the reload: its descriptors are `int`s, and no two of its
listeners have the same one. -/
structure OldMaster (w : Sockets) where
  gateways : List Gateway
  fd_le : ∀ r ∈ exported w gateways, r.fd ≤ INT_MAX
  distinct : ((exported w gateways).map Record.fd).Nodup

def handoff_log {w : Sockets} (old : OldMaster w) (pools : List PoolConfig)
    (listeners : List Listener) : List Event :=
  (take_over w pools (fpm_http_handoff_export w old.gateways) listeners).log

/-- **Listeners across a reload.** The text decodes to the exported records. Of
those bound to the address their key names, each is adopted or closed exactly
once, and nothing happens to the others; an adopted one goes to a listener of the
new configuration with the record's key, which adopts no other. -/
theorem listeners_handed_over (w : Sockets) (old : OldMaster w) (pools : List PoolConfig)
    (listeners : List Listener) :
    (tokens COMMA ((fpm_http_handoff_export w old.gateways).getD [])).filterMap read_record =
        exported w old.gateways ∧
      ((handoff_log old pools listeners).map Event.fd).Perm
        (((exported w old.gateways).filter fun r => w.is_bound_to r.fd r.key).map Record.fd) ∧
      ((handoff_log old pools listeners).map Event.fd).Nodup ∧
      (∀ k key fd, Event.adopt k key fd ∈ handoff_log old pools listeners →
        (∃ tls, ⟨fd, tls, key⟩ ∈ exported w old.gateways) ∧
          ∃ l, listeners[k]? = some l ∧ l.http_address = some key) ∧
      ((handoff_log old pools listeners).filterMap Event.adopter).Nodup := by
  have hdecode := decode_export old.fd_le
  have hown := listeners_own (begin_owns (w := w) hdecode pools) listeners
  have haccepted : accepted w (exported w old.gateways) =
      (exported w old.gateways).filter fun r => w.is_bound_to r.fd r.key := by
    apply filter_congr
    intro r hr
    rw [(mem_exported hr).1, Bool.true_and]
  have hfinish : ∀ (l : List ℕ), (l.map Event.close).map Event.fd = l := by
    intro l
    rw [List.map_map]
    exact map_id l
  have hsilent : ∀ (l : List ℕ), (l.map Event.close).filterMap Event.adopter = [] := by
    intro l
    rw [filterMap_map]
    exact filterMap_eq_nil_iff.mpr fun _ _ => rfl
  -- what the table still owns at the end is closed by `fpm_http_handoff_finish`
  have hperm : ((handoff_log old pools listeners).map Event.fd).Perm
      (((exported w old.gateways).filter fun r => w.is_bound_to r.fd r.key).map Record.fd) := by
    unfold handoff_log take_over fpm_http_handoff_finish
    rw [map_append, hfinish, ← haccepted]
    exact perm_append_comm.trans hown.once
  refine ⟨hdecode, hperm, ?_, ?_, ?_⟩
  · refine hperm.nodup_iff.mpr (old.distinct.sublist ?_)
    exact filter_sublist.map _
  · intro k key fd hev
    rcases mem_append.mp hev with hev | hev
    · exact hown.adopted k key fd hev
    · obtain ⟨fd', -, heq⟩ := mem_map.mp hev
      simp at heq
  · unfold handoff_log take_over fpm_http_handoff_finish
    rw [filterMap_append, hsilent, append_nil]
    exact hown.adopters

def plain_gateway (fd : ℕ) (address : Bytes) : Gateway :=
  { proxy_only := true, reuseport := false, listen_fd := some fd, listen_address := some address,
    plain_listen_fd := none, plain_listen_address := none,
    tls := ⟨[none, none, none, none, none, none], false⟩ }

def plain_listener (address : Bytes) : Listener :=
  ⟨some address, false, true, ⟨[none, none, none, none, none, none], false⟩, fun _ => true⟩

def two_bound : OldMaster ⟨fun _ => true, fun _ _ => true⟩ where
  gateways := [plain_gateway 7 (str "app.local:8080"), plain_gateway 8 (str "old.local:81")]
  fd_le := by decide +kernel
  distinct := by decide +kernel

/-- One of them is still configured. -/
example : handoff_log two_bound [⟨true, str "app.local:8080", none⟩]
    [plain_listener (str "app.local:8080")] = [.close 8, .adopt 0 (str "app.local:8080") 7] := by
  decide +kernel

/-! ## A name that resolves to another address -/

def moved_name : Sockets where
  is_listening_tcp := fun _ => true
  is_bound_to := fun _ _ => false

def one_gateway : List Gateway := [plain_gateway 7 (str "app.local:8080")]

def one_old_master : OldMaster moved_name where
  gateways := one_gateway
  fd_le := by decide +kernel
  distinct := by decide +kernel

/-- The gateway is still configured and opens its listener, yet the inherited
descriptor is neither adopted nor closed. -/
theorem moved_name_left_open :
    ((exported moved_name one_gateway).map fun r => (r.fd, r.key)) =
        [(7, str "app.local:8080")] ∧
      handoff_log one_old_master [⟨true, str "app.local:8080", none⟩]
        [plain_listener (str "app.local:8080")] = [] := by
  decide

end FpmNg.HttpHandoff
