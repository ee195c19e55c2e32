/-
FastCGI records: what one is on the wire, and the reading of it that the FastCGI
specification gives a receiver. Nothing here is code of the gateway; the encoder
and the reply reader are both compared with it.

A record carries its own bounds. Content longer than 16 bits or padding longer
than 8 cannot be written down as a `Record`, so a stream that is a concatenation
of records has no length field that wrapped.
-/
import FpmNg.Bytes
import FpmNg.Lib.Delimited

open Delimited List

namespace FpmNg.Fcgi

/-! ## Record types -/

abbrev FCGI_VERSION_1 : UInt8 := 1
abbrev FCGI_BEGIN_REQUEST : UInt8 := 1
abbrev FCGI_END_REQUEST : UInt8 := 3
abbrev FCGI_PARAMS : UInt8 := 4
abbrev FCGI_STDIN : UInt8 := 5
abbrev FCGI_STDOUT : UInt8 := 6
abbrev FCGI_STDERR : UInt8 := 7

structure Record where
  version : UInt8
  type : UInt8
  requestIdB1 : UInt8
  requestIdB0 : UInt8
  reserved : UInt8
  content : Bytes
  padding : Bytes
  content_lt : content.length < 65536
  padding_lt : padding.length < 256
  deriving DecidableEq

def hi (n : ℕ) : UInt8 := (n / 256).toUInt8
def lo (n : ℕ) : UInt8 := n.toUInt8

lemma hi_lo {n : ℕ} (h : n < 65536) : (hi n).toNat * 256 + (lo n).toNat = n := by
  simp only [hi, lo, Nat.toUInt8, UInt8.toNat_ofNat']
  omega

def Record.header (r : Record) : Bytes :=
  [r.version, r.type, r.requestIdB1, r.requestIdB0, hi r.content.length, lo r.content.length,
    r.padding.length.toUInt8, r.reserved]

def Record.wire (r : Record) : Bytes := r.header ++ r.content ++ r.padding

/-! ## Reading a record -/

def decode_body (version type id1 id0 reserved : UInt8) (clen plen : ℕ) (l : Bytes)
    (hc : clen < 65536) (hp : plen < 256) : Option (Record × Bytes) :=
  if h : clen + plen ≤ l.length then
    some
      ({ version := version, type := type, requestIdB1 := id1, requestIdB0 := id0,
         reserved := reserved, content := l.take clen, padding := (l.drop clen).take plen,
         content_lt := by rw [length_take]; omega
         padding_lt := by rw [length_take, length_drop]; omega },
        l.drop (clen + plen))
  else none

lemma header_content_lt (b1 b0 : UInt8) : b1.toNat * 256 + b0.toNat < 65536 := by
  have h1 := b1.toNat_lt
  have h0 := b0.toNat_lt
  omega

def decode_record : Bytes → Option (Record × Bytes)
  | version :: type :: id1 :: id0 :: clen1 :: clen0 :: plen :: reserved :: l =>
    decode_body version type id1 id0 reserved (clen1.toNat * 256 + clen0.toNat) plen.toNat l
      (header_content_lt clen1 clen0) plen.toNat_lt
  | _ => none

lemma padding_field (r : Record) : r.padding.length.toUInt8.toNat = r.padding.length := by
  have := r.padding_lt
  simp only [Nat.toUInt8, UInt8.toNat_ofNat']
  omega

lemma hi_of_bytes (b1 b0 : UInt8) : hi (b1.toNat * 256 + b0.toNat) = b1 := by
  have h0 := b0.toNat_lt
  have hdiv : (b1.toNat * 256 + b0.toNat) / 256 = b1.toNat := by omega
  rw [hi, hdiv]
  exact UInt8.ofNat_toNat

lemma lo_of_bytes (b1 b0 : UInt8) : lo (b1.toNat * 256 + b0.toNat) = b0 := by
  apply UInt8.toNat.inj
  have h0 := b0.toNat_lt
  simp only [lo, Nat.toUInt8, UInt8.toNat_ofNat']
  omega

lemma take_take_drop (l : Bytes) (m n : ℕ) :
    l.take m ++ ((l.drop m).take n ++ l.drop (m + n)) = l := by
  rw [← drop_drop, take_append_drop, take_append_drop]

lemma decode_record_eq_some {l rest : Bytes} {r : Record} (h : decode_record l = some (r, rest)) :
    l = r.wire ++ rest := by
  unfold decode_record at h
  split at h
  · rename_i version type id1 id0 clen1 clen0 plen reserved l
    unfold decode_body at h
    split at h
    · rename_i hlen
      obtain ⟨rfl, rfl⟩ := Prod.mk.inj (Option.some.inj h)
      have hc : (l.take (clen1.toNat * 256 + clen0.toNat)).length
          = clen1.toNat * 256 + clen0.toNat := by
        rw [length_take]
        omega
      have hp : ((l.drop (clen1.toNat * 256 + clen0.toNat)).take plen.toNat).length
          = plen.toNat := by
        rw [length_take, length_drop]
        omega
      have hpad : plen.toNat.toUInt8 = plen := UInt8.ofNat_toNat
      simp only [Record.wire, Record.header, hc, hp, hi_of_bytes, lo_of_bytes, hpad,
        cons_append, nil_append, append_assoc]
      rw [take_take_drop]
    · simp at h
  · simp at h

lemma record_codec : Codec Record.wire decode_record (fun _ => True) where
  roundtrip := by
    intro r rest _
    have hc := hi_lo r.content_lt
    have hp := padding_field r
    simp only [Record.wire, Record.header, cons_append, nil_append, append_assoc,
      decode_record, decode_body]
    simp only [hc, hp]
    simp [drop_append]
  nonempty := by
    intro r _ h
    simp [Record.wire, Record.header] at h

lemma decode_wire (records : List Record) :
    all decode_record (records.flatMap Record.wire) = some records :=
  all_flatMap record_codec records (fun _ _ => trivial)

end FpmNg.Fcgi
