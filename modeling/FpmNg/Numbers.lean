/-
`strtol` and `strtoull` of the C library in base 10, and that they read back
what `%d`, `%ld` and `%llu` printed.

Both are functions of the text that return the number and the text `endptr` is
left at. `long` has 64 bits; a number out of range is clamped, as the standard
says (`errno` is read by none of the callers).
-/
import FpmNg.Bytes
import FpmNg.Lib.ByteScan

open List

namespace FpmNg

abbrev LONG_MAX : ℕ := 9223372036854775807
abbrev ULLONG_MAX : ℕ := 18446744073709551615

/-- `isspace` of the "C" locale. -/
def isspace (b : UInt8) : Bool := b == 32 || (9 ≤ b && b ≤ 13)

def digits_value (ds : Bytes) : ℕ := ds.foldl (fun v b => v * 10 + (b.toNat - 48)) 0

def skip_sign (t : Bytes) : Bytes :=
  if t.head? == some 45 || t.head? == some 43 then t.tail else t

/-- The subject sequence of `strtol` in base 10: is there a minus sign, the
digits, and what stands behind them. `none` if there is no digit. -/
def subject (s : Bytes) : Option (Bool × Bytes × Bytes) :=
  let t := s.dropWhile isspace
  let ds := (skip_sign t).takeWhile isdigit
  if ds.isEmpty then none else some (t.head? == some 45, ds, (skip_sign t).dropWhile isdigit)

/-- `strtol(s, &end, 10)`. -/
def strtol (s : Bytes) : Int × Bytes :=
  match subject s with
  | none => (0, s)
  | some (true, ds, rest) => (-(min (digits_value ds) (LONG_MAX + 1) : ℕ), rest)
  | some (false, ds, rest) => ((min (digits_value ds) LONG_MAX : ℕ), rest)

/-- `strtoull(s, &end, 10)`; a minus sign negates in the unsigned type. -/
def strtoull (s : Bytes) : ℕ × Bytes :=
  match subject s with
  | none => (0, s)
  | some (minus, ds, rest) =>
    if ULLONG_MAX < digits_value ds then (ULLONG_MAX, rest)
    else if minus then ((ULLONG_MAX + 1 - digits_value ds) % (ULLONG_MAX + 1), rest)
    else (digits_value ds, rest)

lemma subject_rest {s : Bytes} {minus : Bool} {ds rest : Bytes}
    (h : subject s = some (minus, ds, rest)) : rest.length ≤ s.length := by
  have hspace := (dropWhile_sublist isspace (l := s)).length_le
  have hsign : (skip_sign (s.dropWhile isspace)).length ≤ s.length := by
    unfold skip_sign
    split
    · rw [length_tail]
      omega
    · exact hspace
  unfold subject at h
  dsimp only at h
  split at h
  · simp at h
  · rw [Option.some.injEq, Prod.mk.injEq, Prod.mk.injEq] at h
    rw [← h.2.2]
    exact Nat.le_trans (dropWhile_sublist isdigit).length_le hsign

/-! ## Reading back what was printed -/

variable {v : ℕ}

lemma isdigit_of_mem_decimal {b : UInt8} (hb : b ∈ decimal v) : isdigit b = true := by
  obtain ⟨h1, h2⟩ := decimal_bytes v b hb
  simp [isdigit, h1, h2]

lemma decimal_ne_nil (v : ℕ) : decimal v ≠ [] :=
  (decimal_digits_spec (v + 1) v (by omega)).1

lemma digits_value_decimal (v : ℕ) : digits_value (decimal v) = v :=
  (decimal_digits_spec (v + 1) v (by omega)).2.2

variable {rest : Bytes}

lemma takeWhile_decimal (v : ℕ) (h : ∀ b, rest.head? = some b → isdigit b = false) :
    (decimal v ++ rest).takeWhile isdigit = decimal v ∧
      (decimal v ++ rest).dropWhile isdigit = rest :=
  ByteScan.takeWhile_append_head (fun _ hb => isdigit_of_mem_decimal hb) h

lemma digit_starts {b : UInt8} (h : isdigit b = true) : isspace b = false ∧ b ≠ 45 ∧ b ≠ 43 := by
  unfold isdigit at h
  rw [Bool.and_eq_true, decide_eq_true_eq, decide_eq_true_eq, UInt8.le_iff_toNat_le,
    UInt8.le_iff_toNat_le] at h
  have h48 : (48 : UInt8).toNat = 48 := rfl
  refine ⟨?_, ?_, ?_⟩
  · unfold isspace
    have hne : b ≠ 32 := by
      rintro rfl
      exact absurd h.1 (by decide)
    have hgt : ¬ b ≤ 13 := by
      rw [UInt8.le_iff_toNat_le]
      have h13 : (13 : UInt8).toNat = 13 := rfl
      omega
    simp [hne, hgt]
  · rintro rfl
    exact absurd h.1 (by decide)
  · rintro rfl
    exact absurd h.1 (by decide)

lemma subject_decimal (v : ℕ) (h : ∀ b, rest.head? = some b → isdigit b = false) :
    subject (decimal v ++ rest) = some (false, decimal v, rest) := by
  obtain ⟨b, ds, hds⟩ := exists_cons_of_ne_nil (decimal_ne_nil v)
  have hb : isdigit b = true := isdigit_of_mem_decimal (by rw [hds]; exact mem_cons_self)
  obtain ⟨hspace, hminus, hplus⟩ := digit_starts hb
  obtain ⟨htake, hdrop⟩ := takeWhile_decimal v h
  -- nothing is skipped in front of the digits
  have hstart : (decimal v ++ rest).dropWhile isspace = decimal v ++ rest := by
    rw [hds, cons_append, dropWhile_cons_of_neg (by simp [hspace])]
  have hhead : (decimal v ++ rest).head? = some b := by
    rw [hds]
    rfl
  have hsign : skip_sign (decimal v ++ rest) = decimal v ++ rest := by
    unfold skip_sign
    rw [hhead]
    simp [hminus, hplus]
  unfold subject
  rw [hstart]
  dsimp only
  rw [hsign, htake, hdrop, hhead]
  simp [hminus, decimal_ne_nil]

theorem strtol_decimal (hv : v ≤ LONG_MAX) (h : ∀ b, rest.head? = some b → isdigit b = false) :
    strtol (decimal v ++ rest) = ((v : Int), rest) := by
  unfold strtol
  rw [subject_decimal v h]
  dsimp only
  rw [digits_value_decimal, Nat.min_eq_left hv]

theorem strtoull_decimal (hv : v ≤ ULLONG_MAX) (h : ∀ b, rest.head? = some b → isdigit b = false) :
    strtoull (decimal v ++ rest) = (v, rest) := by
  unfold strtoull
  rw [subject_decimal v h]
  dsimp only
  rw [digits_value_decimal]
  have hle : ¬ ULLONG_MAX < v := by omega
  simp [if_neg hle]

end FpmNg
