/-
Byte strings, and the parts of the C string library the gateway's parsers use.

A buffer with its length is a `List UInt8`. A C string is the bytes in front of
its NUL, so a function of the source that takes a `char *` is given those bytes;
where the source copies a counted buffer into a C string (`strndup`, or a
`memcpy` and a terminator), the copy is `cstr` of the buffer.
-/
import Mathlib.Data.List.Basic

open List

namespace FpmNg

abbrev Bytes := List UInt8

def str (s : String) : Bytes := s.toList.map fun c => c.toNat.toUInt8

/-- `'\r'`, `'\n'`, `' '`, `'\t'`, `':'`, `';'`, `','`, `'/'` and `'-'`. -/
abbrev CR : UInt8 := 13
abbrev LF : UInt8 := 10
abbrev SP : UInt8 := 32
abbrev HT : UInt8 := 9
abbrev COLON : UInt8 := 58
abbrev SEMICOLON : UInt8 := 59
abbrev COMMA : UInt8 := 44
abbrev SLASH : UInt8 := 47
abbrev DASH : UInt8 := 45

abbrev PATH_MAX : ℕ := 4096
abbrev FPM_HTTP_HEADERS_MAX : ℕ := 64 * 1024
abbrev HTTP_BADREQUEST : ℕ := 400

/-- The C string a counted buffer becomes when it is copied and terminated. -/
def cstr (b : Bytes) : Bytes := b.takeWhile (· != 0)

/-- `tolower` of the "C" locale. -/
def tolower (b : UInt8) : UInt8 := if 65 ≤ b ∧ b ≤ 90 then b + 32 else b

/-- `strcasecmp(a, b) == 0`. -/
def strcaseeq (a b : Bytes) : Bool := a.map tolower == b.map tolower

/-- `isdigit` of the "C" locale. -/
def isdigit (b : UInt8) : Bool := 48 ≤ b && b ≤ 57

def digit (b : UInt8) : ℕ := b.toNat - 48

/-! ## Numbers as text -/

/-- The digits `%zu` and `%d` print; `n` bounds their number. -/
def decimal_digits : ℕ → ℕ → Bytes
  | 0, _ => []
  | n + 1, v =>
    if v < 10 then [(48 + v).toUInt8] else decimal_digits n (v / 10) ++ [(48 + v % 10).toUInt8]

def decimal (v : ℕ) : Bytes := decimal_digits (v + 1) v

lemma digit_byte {d : ℕ} (h : d < 10) : (48 + d).toUInt8.toNat = 48 + d := by
  simp only [Nat.toUInt8, UInt8.toNat_ofNat']
  omega

lemma decimal_digits_spec (n v : ℕ) (h : v < n) :
    decimal_digits n v ≠ [] ∧ (∀ b ∈ decimal_digits n v, 48 ≤ b ∧ b ≤ 57) ∧
      (decimal_digits n v).foldl (fun v b => v * 10 + (b.toNat - 48)) 0 = v := by
  have hrange : ∀ d, d < 10 → 48 ≤ (48 + d).toUInt8 ∧ (48 + d).toUInt8 ≤ 57 := by
    intro d hd
    rw [UInt8.le_iff_toNat_le, UInt8.le_iff_toNat_le, digit_byte hd]
    constructor
    · show 48 ≤ 48 + d
      omega
    · show 48 + d ≤ 57
      omega
  induction n generalizing v with
  | zero => omega
  | succ n ih =>
    unfold decimal_digits
    by_cases hv : v < 10
    · rw [if_pos hv]
      refine ⟨by simp, ?_, ?_⟩
      · intro b hb
        rw [mem_singleton.mp hb]
        exact hrange v hv
      · rw [foldl_cons, foldl_nil, digit_byte hv]
        omega
    · rw [if_neg hv]
      obtain ⟨-, hall, hval⟩ := ih (v / 10) (by omega)
      refine ⟨by simp, ?_, ?_⟩
      · intro b hb
        rcases mem_append.mp hb with hb | hb
        · exact hall b hb
        · rw [mem_singleton.mp hb]
          exact hrange (v % 10) (by omega)
      · rw [foldl_append, hval, foldl_cons, foldl_nil, digit_byte (by omega)]
        omega

lemma decimal_bytes (v : ℕ) : ∀ b ∈ decimal v, 48 ≤ b ∧ b ≤ 57 :=
  (decimal_digits_spec (v + 1) v (by omega)).2.1

end FpmNg
