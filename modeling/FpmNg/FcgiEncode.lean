/-
The FastCGI request encoder of `fpm_http_fcgi.c`: `fpm_http_fcgi_record`,
`fpm_http_fcgi_len`, `fpm_http_param`, and the part of `fpm_http_build_request`
that writes records. The parameters that function computes from the request are
an argument here, in the order of its `fpm_http_param` calls.

The main result is the round trip: the receiver's reading of the stream, written
out in `decode_request`, is the parameters and the body the gateway started from.
-/
import FpmNg.FcgiRecord
import FpmNg.Lib.WhileLoop

open Delimited WhileLoop List Function Option

namespace FpmNg.Fcgi

open Record

/-! ## The encoder -/

abbrev FCGI_MAX_RECORD_LEN : ℕ := 65528
abbrev FCGI_RESPONDER : UInt8 := 1
abbrev FCGI_KEEP_CONN : UInt8 := 1

def fpm_http_fcgi_record (out : Bytes) (type : UInt8) (data : Bytes) : Bytes :=
  let len := data.length
  let pad := ((8 - len % 8) % 8).toUInt8
  out ++ [FCGI_VERSION_1, type, 0, 1, (len >>> 8).toUInt8, len.toUInt8, pad, 0]
    ++ data ++ replicate pad.toNat 0

def fpm_http_fcgi_len (out : Bytes) (len : ℕ) : Bytes :=
  if len < 0x80 then out ++ [len.toUInt8]
  else
    out ++ [((len >>> 24) ||| 0x80).toUInt8, (len >>> 16).toUInt8, (len >>> 8).toUInt8, len.toUInt8]

/-- The fields of `fpm_http_conn` the encoder writes. `params` is `none` while
`c->params.s` is NULL. -/
structure Conn where
  params : Option Bytes
  out : Bytes
  params_oversize : Bool
  deriving DecidableEq

abbrev Pair := Bytes × Bytes

def pair_len (p : Pair) : ℕ :=
  (if p.1.length < 0x80 then 1 else 4) + (if p.2.length < 0x80 then 1 else 4)
    + p.1.length + p.2.length

/-- What `fpm_http_param` appends to `c->params`. -/
def append_pair (params : Bytes) (p : Pair) : Bytes :=
  fpm_http_fcgi_len (fpm_http_fcgi_len params p.1.length) p.2.length ++ p.1 ++ p.2

def fpm_http_param (c : Conn) (p : Pair) : Conn :=
  if pair_len p > FCGI_MAX_RECORD_LEN then { c with params_oversize := true }
  else
    match c.params with
    | none => { c with params := some (append_pair [] p) }
    | some params =>
      if params.length + pair_len p > FCGI_MAX_RECORD_LEN then
        { c with
          out := fpm_http_fcgi_record c.out FCGI_PARAMS params
          params := some (append_pair [] p) }
      else { c with params := some (append_pair params p) }

/-- One pass of the STDIN loop, over `(off, c->out)`. -/
def stdin_pass (body : Bytes) (s : ℕ × Bytes) : Pass (ℕ × Bytes) :=
  if s.1 < body.length then
    .again
      (s.1 + FCGI_MAX_RECORD_LEN,
        fpm_http_fcgi_record s.2 FCGI_STDIN
          ((body.drop s.1).take (min (body.length - s.1) FCGI_MAX_RECORD_LEN)))
  else .leave s

def stdin_records (out body : Bytes) : Bytes :=
  (loop (fun s => body.length - s.1) (stdin_pass body) (0, out)).2

def begin_request : Bytes := [0, FCGI_RESPONDER, FCGI_KEEP_CONN, 0, 0, 0, 0, 0]

/-- `fpm_http_build_request` from BEGIN_REQUEST on. An error is the status the
caller answers with; the connection is then freed with its output unsent. -/
def build_request_records (pairs : List Pair) (body : Bytes) : Except ℕ Bytes :=
  let c : Conn :=
    { params := none
      out := fpm_http_fcgi_record [] FCGI_BEGIN_REQUEST begin_request
      params_oversize := false }
  let c := pairs.foldl fpm_http_param c
  if c.params_oversize then .error HTTP_BADREQUEST
  else
    let out :=
      match c.params with
      | some params => fpm_http_fcgi_record c.out FCGI_PARAMS params
      | none => c.out
    let out := fpm_http_fcgi_record out FCGI_PARAMS []
    let out := if body.length ≠ 0 then stdin_records out body else out
    .ok (fpm_http_fcgi_record out FCGI_STDIN [])

/-! ## The receiver's reading

One PARAMS record is decoded on its own, so a pair cut by a record end is lost
on the receiver; the two streams end with an empty record each. -/

def decode_len : Bytes → Option (ℕ × Bytes)
  | [] => none
  | b :: l =>
    if b.toNat < 0x80 then some (b.toNat, l)
    else
      match l with
      | b2 :: b1 :: b0 :: l =>
        some ((b.toNat % 0x80) * 0x1000000 + b2.toNat * 0x10000 + b1.toNat * 0x100 + b0.toNat, l)
      | _ => none

def decode_pair (l : Bytes) : Option (Pair × Bytes) := do
  let (nlen, l) ← decode_len l
  let (vlen, l) ← decode_len l
  if nlen + vlen ≤ l.length then
    some ((l.take nlen, (l.drop nlen).take vlen), l.drop (nlen + vlen))
  else none

def decode_params : List Record → Option (List Pair × List Record)
  | [] => none
  | r :: records =>
    if r.type ≠ FCGI_PARAMS then none
    else if r.content = [] then some ([], records)
    else do
      let pairs ← all decode_pair r.content
      let (more, records) ← decode_params records
      some (pairs ++ more, records)

def decode_stdin : List Record → Option (Bytes × List Record)
  | [] => none
  | r :: records =>
    if r.type ≠ FCGI_STDIN then none
    else if r.content = [] then some ([], records)
    else do
      let (more, records) ← decode_stdin records
      some (r.content ++ more, records)

def well_headed (r : Record) : Bool :=
  r.version == FCGI_VERSION_1 && r.requestIdB1 == 0 && r.requestIdB0 == 1

def decode_request (stream : Bytes) : Option (List Pair × Bytes) := do
  let records ← all decode_record stream
  if !records.all well_headed then none
  match records with
  | [] => none
  | begin_ :: records =>
    if begin_.type ≠ FCGI_BEGIN_REQUEST ∨ begin_.content ≠ begin_request then none
    let (pairs, records) ← decode_params records
    let (body, records) ← decode_stdin records
    if records ≠ [] then none
    some (pairs, body)

/-! ## Lengths and pairs -/

lemma top_bit {n : ℕ} (h : n < 0x80) : n ||| 0x80 = n + 0x80 := by
  have hor : 2 ^ 7 * 1 + n = 2 ^ 7 * 1 ||| n := Nat.two_pow_add_eq_or_of_lt h 1
  rw [Nat.or_comm, show 0x80 = 2 ^ 7 * 1 from rfl, ← hor]
  omega

lemma fcgi_len_append (out : Bytes) (n : ℕ) :
    fpm_http_fcgi_len out n = out ++ fpm_http_fcgi_len [] n := by
  unfold fpm_http_fcgi_len
  split <;> simp

lemma fcgi_len_length (n : ℕ) : (fpm_http_fcgi_len [] n).length = if n < 0x80 then 1 else 4 := by
  unfold fpm_http_fcgi_len
  split <;> rfl

lemma decode_len_spec (n : ℕ) (h : n < 0x80000000) (rest : Bytes) :
    decode_len (fpm_http_fcgi_len [] n ++ rest) = some (n, rest) := by
  unfold fpm_http_fcgi_len
  split
  · rename_i hn
    simp only [nil_append, cons_append, decode_len, Nat.toUInt8, UInt8.toNat_ofNat']
    rw [if_pos (by omega), Nat.mod_eq_of_lt (by omega)]
  · rename_i hn
    have htop : n >>> 24 < 0x80 := by rw [Nat.shiftRight_eq_div_pow]; omega
    simp only [nil_append, cons_append, decode_len, Nat.toUInt8, UInt8.toNat_ofNat']
    rw [top_bit htop]
    rw [if_neg (by omega)]
    congr 2
    omega

lemma append_pair_append (params : Bytes) (p : Pair) :
    append_pair params p = params ++ append_pair [] p := by
  unfold append_pair
  rw [fcgi_len_append (fpm_http_fcgi_len params _), fcgi_len_append params,
    fcgi_len_append (fpm_http_fcgi_len [] _)]
  simp

lemma append_pair_length (p : Pair) : (append_pair [] p).length = pair_len p := by
  unfold append_pair pair_len
  rw [fcgi_len_append (fpm_http_fcgi_len [] _)]
  simp only [length_append, fcgi_len_length]

lemma pair_codec :
    Codec (append_pair []) decode_pair (fun p => pair_len p ≤ FCGI_MAX_RECORD_LEN) where
  roundtrip := by
    intro p rest hp
    have hmax : FCGI_MAX_RECORD_LEN = 65528 := rfl
    have h1 : p.1.length < 0x80000000 := by unfold pair_len at hp; omega
    have h2 : p.2.length < 0x80000000 := by unfold pair_len at hp; omega
    unfold append_pair decode_pair
    rw [fcgi_len_append (fpm_http_fcgi_len [] _)]
    simp only [append_assoc, decode_len_spec _ h1, decode_len_spec _ h2,
      bind_eq_bind, bind_some]
    simp [drop_append]
  nonempty := by
    intro p _ h
    have hlen := append_pair_length p
    rw [h] at hlen
    unfold pair_len at hlen
    rw [length_nil] at hlen
    split at hlen <;> omega

/-! ## Records -/

/-- The record `fpm_http_fcgi_record` writes, for content that fits one. -/
def sent (type : UInt8) (data : Bytes) (h : data.length ≤ FCGI_MAX_RECORD_LEN) : Record where
  version := FCGI_VERSION_1
  type := type
  requestIdB1 := 0
  requestIdB0 := 1
  reserved := 0
  content := data
  padding := replicate ((8 - data.length % 8) % 8) 0
  content_lt := by have : FCGI_MAX_RECORD_LEN = 65528 := rfl; omega
  padding_lt := by rw [length_replicate]; omega

variable (type : UInt8)

@[simp] lemma sent_type (data : Bytes) (h : data.length ≤ FCGI_MAX_RECORD_LEN) :
    (sent type data h).type = type := rfl

@[simp] lemma sent_content (data : Bytes)
    (h : data.length ≤ FCGI_MAX_RECORD_LEN) : (sent type data h).content = data := rfl

theorem fcgi_record_eq (out : Bytes) (type : UInt8) (data : Bytes)
    (h : data.length ≤ FCGI_MAX_RECORD_LEN) :
    fpm_http_fcgi_record out type data = out ++ (sent type data h).wire := by
  have hpad : ((8 - data.length % 8) % 8).toUInt8.toNat = (8 - data.length % 8) % 8 := by
    simp only [Nat.toUInt8, UInt8.toNat_ofNat']
    omega
  unfold fpm_http_fcgi_record wire header
  dsimp [sent]
  rw [hpad, length_replicate, hi, lo, Nat.shiftRight_eq_div_pow]
  simp

/-- Content and padding together fill at most the 16-bit content field's range,
and the padding is less than one alignment unit. -/
def Fits (r : Record) : Prop :=
  r.content.length + r.padding.length ≤ 0xffff ∧ r.padding.length ≤ 7

lemma sent_fits (data : Bytes) (h : data.length ≤ FCGI_MAX_RECORD_LEN) :
    Fits (sent type data h) := by
  have hmax : FCGI_MAX_RECORD_LEN = 65528 := rfl
  unfold Fits
  dsimp [sent]
  rw [length_replicate]
  omega

structure Sent (records : List Record) : Prop where
  fits : ∀ r ∈ records, Fits r
  headed : records.all well_headed = true

lemma sent_nil : Sent [] := ⟨by simp, rfl⟩

variable {a b : List Record}

lemma sent_append (ha : Sent a) (hb : Sent b) : Sent (a ++ b) where
  fits := by
    intro r hr
    rcases mem_append.mp hr with h | h
    · exact ha.fits r h
    · exact hb.fits r h
  headed := by rw [all_append, ha.headed, hb.headed]; rfl

lemma sent_one (data : Bytes) (h : data.length ≤ FCGI_MAX_RECORD_LEN) :
    Sent [sent type data h] where
  fits := by
    intro r hr
    rw [mem_singleton.mp hr]
    exact sent_fits type data h
  headed := rfl

/-! ## The parameter loop -/

abbrev pairs_bytes (pairs : List Pair) : Bytes := pairs.flatMap (append_pair [])

/-- PARAMS records that stand for `pairs`, whatever follows them. -/
def ReadsParams (records : List Record) (pairs : List Pair) : Prop :=
  ∀ tail, decode_params (records ++ tail)
    = (decode_params tail).map fun q => (pairs ++ q.1, q.2)

lemma readsParams_nil : ReadsParams [] [] := by
  intro tail
  simp

lemma readsParams_append {p q : List Pair} (ha : ReadsParams a p) (hb : ReadsParams b q) :
    ReadsParams (a ++ b) (p ++ q) := by
  intro tail
  rw [append_assoc, ha, hb, Option.map_map]
  simp [comp_def]

lemma readsParams_one (pairs : List Pair) (hne : pairs ≠ [])
    (hfit : ∀ p ∈ pairs, pair_len p ≤ FCGI_MAX_RECORD_LEN)
    (h : (pairs_bytes pairs).length ≤ FCGI_MAX_RECORD_LEN) :
    ReadsParams [sent FCGI_PARAMS (pairs_bytes pairs) h] pairs := by
  intro tail
  have hdata : pairs_bytes pairs ≠ [] := by
    intro heq
    obtain ⟨p, rest, rfl⟩ := exists_cons_of_ne_nil hne
    exact pair_codec.nonempty p (hfit p (by simp)) (append_eq_nil_iff.mp heq).1
  rw [singleton_append, decode_params, if_neg (not_ne_iff.mpr (sent_type _ _ h)),
    sent_content, if_neg hdata, all_flatMap pair_codec pairs hfit]
  cases decode_params tail <;> rfl

/-- Where the loop is after `pairs`: some of them are in finished records, the
others in the record being filled. -/
structure Packed (start : Bytes) (pairs : List Pair) (c : Conn) : Prop where
  oversize : c.params_oversize = false
  split : ∃ records flushed last,
    c.out = start ++ records.flatMap wire ∧ Sent records ∧ ReadsParams records flushed ∧
      c.params = (if last = [] then none else some (pairs_bytes last)) ∧
      (pairs_bytes last).length ≤ FCGI_MAX_RECORD_LEN ∧ flushed ++ last = pairs

theorem packed_param {start : Bytes} {pairs : List Pair} {c : Conn} {p : Pair}
    (h : Packed start pairs c) (hp : pair_len p ≤ FCGI_MAX_RECORD_LEN)
    (hfit : ∀ q ∈ pairs, pair_len q ≤ FCGI_MAX_RECORD_LEN) :
    Packed start (pairs ++ [p]) (fpm_http_param c p) := by
  obtain ⟨records, flushed, last, hout, hsent, hreads, hparams, hlen, hpairs⟩ := h.split
  have hsingle : pairs_bytes [p] = append_pair [] p := by
    rw [pairs_bytes, flatMap_cons, flatMap_nil, append_nil]
  unfold fpm_http_param
  rw [if_neg (by omega)]
  by_cases hlast : last = []
  · -- the first pair of a request
    rw [if_pos hlast] at hparams
    rw [hparams]
    refine ⟨h.oversize, records, flushed, [p], hout, hsent, hreads, ?_, ?_, ?_⟩
    · rw [if_neg (by simp), hsingle]
    · rw [hsingle, append_pair_length]
      exact hp
    · rw [← hpairs, hlast, append_nil]
  rw [if_neg hlast] at hparams
  rw [hparams]
  dsimp only
  split
  · -- flush, then start a record with this pair
    have hone := readsParams_one last hlast
      (fun q hq => hfit q (by rw [← hpairs]; exact mem_append_right _ hq)) hlen
    refine ⟨h.oversize, records ++ [sent FCGI_PARAMS (pairs_bytes last) hlen], flushed ++ last,
      [p], ?_, sent_append hsent (sent_one _ _ hlen), readsParams_append hreads hone, ?_, ?_, ?_⟩
    · rw [fcgi_record_eq _ _ _ hlen, hout, flatMap_append, flatMap_cons,
        flatMap_nil, append_nil, append_assoc]
    · rw [if_neg (by simp), hsingle]
    · rw [hsingle, append_pair_length]
      exact hp
    · rw [hpairs]
  · rename_i hroom
    have hbytes : append_pair (pairs_bytes last) p = pairs_bytes (last ++ [p]) := by
      rw [append_pair_append, pairs_bytes, pairs_bytes, flatMap_append, ← hsingle]
    refine ⟨h.oversize, records, flushed, last ++ [p], hout, hsent, hreads, ?_, ?_, ?_⟩
    · rw [if_neg (by simp), hbytes]
    · rw [← hbytes, append_pair_append, length_append, append_pair_length]
      omega
    · rw [← append_assoc, hpairs]

theorem packed_foldl {start : Bytes} (pairs done_ : List Pair) (c : Conn) (h : Packed start done_ c)
    (hdone : ∀ q ∈ done_, pair_len q ≤ FCGI_MAX_RECORD_LEN)
    (hfit : ∀ q ∈ pairs, pair_len q ≤ FCGI_MAX_RECORD_LEN) :
    Packed start (done_ ++ pairs) (pairs.foldl fpm_http_param c) := by
  induction pairs generalizing done_ c with
  | nil => rw [append_nil]; exact h
  | cons p pairs ih =>
    have hp := hfit p (by simp)
    have hstep := packed_param h hp hdone
    rw [foldl_cons, ← singleton_append, ← append_assoc]
    apply ih _ _ hstep
    · intro q hq
      rcases mem_append.mp hq with hq | hq
      · exact hdone q hq
      · rw [mem_singleton.mp hq]
        exact hp
    · intro q hq
      exact hfit q (by simp [hq])

/-- A parameter that fits no record marks the request, and nothing unmarks it. -/
lemma oversize_foldl (pairs : List Pair) (c : Conn)
    (h : c.params_oversize = true ∨ ∃ p ∈ pairs, pair_len p > FCGI_MAX_RECORD_LEN) :
    (pairs.foldl fpm_http_param c).params_oversize = true := by
  have hkeep : ∀ (c : Conn) p, c.params_oversize = true →
      (fpm_http_param c p).params_oversize = true := by
    intro c p hc
    unfold fpm_http_param
    split
    · rfl
    split
    · exact hc
    split <;> exact hc
  induction pairs generalizing c with
  | nil =>
    rcases h with h | ⟨p, hp, -⟩
    · exact h
    · simp at hp
  | cons p pairs ih =>
    apply ih
    rcases h with h | ⟨q, hq, hlen⟩
    · exact .inl (hkeep c p h)
    rcases mem_cons.mp hq with rfl | hq
    · left
      unfold fpm_http_param
      rw [if_pos hlen]
    · exact .inr ⟨q, hq, hlen⟩

/-! ## The body loop -/

/-- STDIN records that stand for `body`, whatever follows them. -/
def ReadsStdin (records : List Record) (body : Bytes) : Prop :=
  ∀ tail, decode_stdin (records ++ tail)
    = (decode_stdin tail).map fun q => (body ++ q.1, q.2)

lemma readsStdin_nil : ReadsStdin [] [] := by
  intro tail
  simp

lemma readsStdin_append {p q : Bytes} (ha : ReadsStdin a p) (hb : ReadsStdin b q) :
    ReadsStdin (a ++ b) (p ++ q) := by
  intro tail
  rw [append_assoc, ha, hb, Option.map_map]
  simp [comp_def]

lemma readsStdin_one (data : Bytes) (hne : data ≠ []) (h : data.length ≤ FCGI_MAX_RECORD_LEN) :
    ReadsStdin [sent FCGI_STDIN data h] data := by
  intro tail
  rw [singleton_append, decode_stdin, if_neg (not_ne_iff.mpr (sent_type _ _ h)),
    sent_content, if_neg hne]
  cases decode_stdin tail <;> rfl

/-- Where the loop is at offset `s.1`. -/
structure Stdin (start body : Bytes) (s : ℕ × Bytes) : Prop where
  split : ∃ records, s.2 = start ++ records.flatMap wire ∧ Sent records ∧
    ReadsStdin records (body.take s.1)

lemma stdin_decreases (start body : Bytes) :
    Decreases (fun s : ℕ × Bytes => body.length - s.1) (stdin_pass body) (Stdin start body) where
  keep := by
    intro s s' h hpass
    unfold stdin_pass at hpass
    by_cases hs : s.1 < body.length
    · rw [if_pos hs] at hpass
      cases hpass
      obtain ⟨records, hout, hsent, hreads⟩ := h.split
      have hmax : FCGI_MAX_RECORD_LEN = 65528 := rfl
      have hlen : ((body.drop s.1).take (min (body.length - s.1) FCGI_MAX_RECORD_LEN)).length
          ≤ FCGI_MAX_RECORD_LEN := by
        rw [length_take]; omega
      have hne : (body.drop s.1).take (min (body.length - s.1) FCGI_MAX_RECORD_LEN) ≠ [] := by
        rw [← length_pos_iff, length_take, length_drop]; omega
      -- the chunk is what lies between the two offsets
      have hchunk : body.take s.1
          ++ (body.drop s.1).take (min (body.length - s.1) FCGI_MAX_RECORD_LEN)
          = body.take (s.1 + FCGI_MAX_RECORD_LEN) := by
        rw [take_add, ← length_drop, Nat.min_comm, ← take_take, take_length]
      refine ⟨records ++ [sent FCGI_STDIN _ hlen], ?_, sent_append hsent (sent_one _ _ hlen), ?_⟩
      · rw [fcgi_record_eq _ _ _ hlen, hout, flatMap_append, flatMap_cons,
          flatMap_nil, append_nil, append_assoc]
      · rw [← hchunk]
        exact readsStdin_append hreads (readsStdin_one _ hne hlen)
    · rw [if_neg hs] at hpass
      exact nomatch hpass
  drop := by
    intro s s' _ hpass
    unfold stdin_pass at hpass
    by_cases hs : s.1 < body.length
    · rw [if_pos hs] at hpass
      cases hpass
      have hmax : FCGI_MAX_RECORD_LEN = 65528 := rfl
      omega
    · rw [if_neg hs] at hpass
      exact nomatch hpass

lemma stdin_records_spec (start body : Bytes) :
    ∃ records, stdin_records start body = start ++ records.flatMap wire ∧ Sent records ∧
      ReadsStdin records body := by
  have hexit : ∀ s s', Stdin start body s → stdin_pass body s = .leave s' →
      Stdin start body s' ∧ body.length ≤ s'.1 := by
    intro s s' h hpass
    unfold stdin_pass at hpass
    by_cases hs : s.1 < body.length
    · rw [if_pos hs] at hpass
      exact nomatch hpass
    · rw [if_neg hs] at hpass
      cases hpass
      exact ⟨h, Nat.le_of_not_lt hs⟩
  have hinit : Stdin start body (0, start) :=
    ⟨[], by simp, sent_nil, by rw [take_zero]; exact readsStdin_nil⟩
  obtain ⟨⟨records, hout, hsent, hreads⟩, hend⟩ :=
    loop_rule (stdin_decreases start body) hexit (0, start) hinit
  rw [take_of_length_le hend] at hreads
  exact ⟨records, hout, hsent, hreads⟩

/-! ## The request -/

lemma empty_fits : ([] : Bytes).length ≤ FCGI_MAX_RECORD_LEN := by decide

lemma build_request_ok (pairs : List Pair) (body : Bytes)
    (hfit : ∀ p ∈ pairs, pair_len p ≤ FCGI_MAX_RECORD_LEN) :
    ∃ params stdin, build_request_records pairs body = .ok
        (([sent FCGI_BEGIN_REQUEST begin_request (by decide)] ++ params
          ++ [sent FCGI_PARAMS [] empty_fits] ++ stdin
          ++ [sent FCGI_STDIN [] empty_fits]).flatMap wire) ∧
      Sent params ∧ Sent stdin ∧ ReadsParams params pairs ∧ ReadsStdin stdin body := by
  have hbegin := fcgi_record_eq [] FCGI_BEGIN_REQUEST begin_request (by decide)
  have hinit : Packed (fpm_http_fcgi_record [] FCGI_BEGIN_REQUEST begin_request) []
      { params := none, out := fpm_http_fcgi_record [] FCGI_BEGIN_REQUEST begin_request,
        params_oversize := false } :=
    ⟨rfl, [], [], [], by simp, sent_nil, readsParams_nil, rfl, by decide, rfl⟩
  have hpack := packed_foldl pairs [] _ hinit (by simp) hfit
  rw [nil_append] at hpack
  obtain ⟨records, flushed, last, hout, hsent, hreads, hparams, hlen, hpairs⟩ := hpack.split
  unfold build_request_records
  dsimp only
  rw [hpack.oversize, if_neg (by simp), hparams, hout, hbegin, nil_append]
  simp only [flatMap_append, flatMap_singleton]
  generalize (sent FCGI_BEGIN_REQUEST begin_request (by decide)).wire = out
  -- the record still open when the parameters end
  obtain ⟨params, hflush, hsent', hreads'⟩ : ∃ params,
      (match if last = [] then none else some (pairs_bytes last) with
        | some params => fpm_http_fcgi_record (out ++ records.flatMap wire) FCGI_PARAMS params
        | none => out ++ records.flatMap wire) = out ++ params.flatMap wire ∧
      Sent params ∧ ReadsParams params pairs := by
    by_cases hlast : last = []
    · rw [if_pos hlast]
      refine ⟨records, by simp, hsent, ?_⟩
      rw [← hpairs, hlast, append_nil]
      exact hreads
    · rw [if_neg hlast]
      refine ⟨records ++ [sent FCGI_PARAMS (pairs_bytes last) hlen], ?_,
        sent_append hsent (sent_one _ _ hlen), ?_⟩
      · dsimp only
        rw [fcgi_record_eq _ _ _ hlen]
        simp
      · rw [← hpairs]
        exact readsParams_append hreads (readsParams_one last hlast
          (fun q hq => hfit q (by rw [← hpairs]; exact mem_append_right _ hq)) hlen)
  rw [hflush]
  obtain ⟨stdin, hstdin, hsent'', hreads''⟩ : ∃ stdin,
      (if body.length ≠ 0 then
        stdin_records (fpm_http_fcgi_record (out ++ params.flatMap wire) FCGI_PARAMS []) body
        else fpm_http_fcgi_record (out ++ params.flatMap wire) FCGI_PARAMS [])
        = fpm_http_fcgi_record (out ++ params.flatMap wire) FCGI_PARAMS [] ++ stdin.flatMap wire ∧
      Sent stdin ∧ ReadsStdin stdin body := by
    by_cases hbody : body.length ≠ 0
    · rw [if_pos hbody]
      exact stdin_records_spec _ body
    · rw [if_neg hbody]
      refine ⟨[], by simp, sent_nil, ?_⟩
      rw [length_eq_zero_iff.mp (not_ne_iff.mp hbody)]
      exact readsStdin_nil
  refine ⟨params, stdin, ?_, hsent', hsent'', hreads', hreads''⟩
  rw [hstdin, fcgi_record_eq _ _ [] empty_fits, fcgi_record_eq _ _ [] empty_fits]

lemma decode_request_records {params stdin : List Record} {pairs : List Pair} {body : Bytes}
    (hparams : Sent params) (hstdin : Sent stdin) (hp : ReadsParams params pairs)
    (hb : ReadsStdin stdin body) :
    decode_request (([sent FCGI_BEGIN_REQUEST begin_request (by decide)] ++ params
        ++ [sent FCGI_PARAMS [] empty_fits] ++ stdin
        ++ [sent FCGI_STDIN [] empty_fits]).flatMap wire) = some (pairs, body) := by
  have hheaded := (sent_append (sent_append (sent_append (sent_append
    (sent_one FCGI_BEGIN_REQUEST begin_request (by decide)) hparams)
    (sent_one FCGI_PARAMS [] empty_fits)) hstdin) (sent_one FCGI_STDIN [] empty_fits)).headed
  unfold decode_request
  rw [decode_wire, bind_eq_bind, bind_some, hheaded]
  -- the tail of each phase is the empty record that ends it
  have hstdin_end : decode_stdin [sent FCGI_STDIN [] empty_fits] = some ([], []) := rfl
  have hbody := hb [sent FCGI_STDIN [] empty_fits]
  rw [hstdin_end, map_some, append_nil] at hbody
  have hparams_end : decode_params
      ([sent FCGI_PARAMS [] empty_fits] ++ (stdin ++ [sent FCGI_STDIN [] empty_fits]))
      = some ([], stdin ++ [sent FCGI_STDIN [] empty_fits]) := rfl
  have hpairs := hp ([sent FCGI_PARAMS [] empty_fits]
    ++ (stdin ++ [sent FCGI_STDIN [] empty_fits]))
  rw [hparams_end, map_some, append_nil] at hpairs
  simp only [append_assoc, cons_append, nil_append] at hpairs ⊢
  simp [hpairs, hbody]

/-- **Request round trip.** Parameters that each fit a record and the body come out of the
receiver's reading as they went in, from records with true lengths. A parameter that does not fit
refuses the request. -/
theorem build_request_roundtrip (pairs : List Pair) (body : Bytes) :
    ((∀ p ∈ pairs, pair_len p ≤ FCGI_MAX_RECORD_LEN) →
      ∃ records : List Record, build_request_records pairs body = .ok (records.flatMap wire) ∧
        decode_request (records.flatMap wire) = some (pairs, body) ∧ ∀ r ∈ records, Fits r) ∧
    ((∃ p ∈ pairs, pair_len p > FCGI_MAX_RECORD_LEN) →
      build_request_records pairs body = .error HTTP_BADREQUEST) := by
  constructor
  · intro hfit
    obtain ⟨params, stdin, hbuild, hparams, hstdin, hp, hb⟩ := build_request_ok pairs body hfit
    refine ⟨_, hbuild, decode_request_records hparams hstdin hp hb, ?_⟩
    exact (sent_append (sent_append (sent_append (sent_append
      (sent_one FCGI_BEGIN_REQUEST begin_request (by decide)) hparams)
      (sent_one FCGI_PARAMS [] empty_fits)) hstdin) (sent_one FCGI_STDIN [] empty_fits)).fits
  · intro hover
    unfold build_request_records
    dsimp only
    rw [oversize_foldl pairs _ (.inr hover), if_pos rfl]

end FpmNg.Fcgi
