/-
Binary files: slices at an offset, and numbers written little end first.

The lemmas say where a slice of a concatenation lies and that a number that fits
its field is read back.
-/
import Mathlib.Data.List.Basic

open List

namespace Binary

/-! ## Slices -/

variable {pos n : ℕ}

section

variable {α : Type*}

/-- `n` elements from `pos` on, or as many as there are. -/
def slice (l : List α) (pos n : ℕ) : List α := (l.drop pos).take n

lemma slice_length {l : List α} (h : pos + n ≤ l.length) : (slice l pos n).length = n := by
  unfold slice
  rw [length_take, length_drop]
  omega

lemma slice_append_left {l : List α} (h : pos + n ≤ l.length) (r : List α) :
    slice (l ++ r) pos n = slice l pos n := by
  unfold slice
  rw [drop_append_of_le_length (by omega), take_append_of_le_length]
  rw [length_drop]
  omega

lemma slice_append_right (l r : List α) (pos n : ℕ) :
    slice (l ++ r) (l.length + pos) n = slice r pos n := by
  unfold slice
  rw [← drop_drop, drop_left]

lemma slice_middle {l m r : List α} (hpos : l.length = pos) (hn : m.length = n) :
    slice (l ++ (m ++ r)) pos n = m := by
  have hright := slice_append_right l (m ++ r) 0 n
  rw [Nat.add_zero] at hright
  rw [← hpos, hright, ← hn]
  unfold slice
  rw [drop_zero, take_left]

end

/-! ## Numbers -/

/-- The low `k` bytes of a number, little end first. -/
def put_le : ℕ → ℕ → List UInt8
  | 0, _ => []
  | k + 1, v => v.toUInt8 :: put_le k (v / 256)

def get_le : List UInt8 → ℕ
  | [] => 0
  | b :: bs => b.toNat + 256 * get_le bs

/-- The first number that does not fit `k` bytes. -/
def room : ℕ → ℕ
  | 0 => 1
  | k + 1 => 256 * room k

@[simp] lemma put_le_length (k v : ℕ) : (put_le k v).length = k := by
  induction k generalizing v with
  | zero => rfl
  | succ k ih => rw [put_le, length_cons, ih]

theorem get_put_le {k v : ℕ} (h : v < room k) : get_le (put_le k v) = v := by
  induction k generalizing v with
  | zero =>
    rw [room] at h
    rw [put_le, get_le]
    omega
  | succ k ih =>
    rw [room] at h
    have hbyte : v.toUInt8.toNat = v % 256 := by
      simp [Nat.toUInt8]
    rw [put_le, get_le, ih (by omega), hbyte]
    omega

end Binary
