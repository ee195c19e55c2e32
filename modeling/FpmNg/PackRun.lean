/-
Running a packed application (`fpm_pack_run.c`): the substitution of the scheme in the
embedded files.

The buffer for the result is sized by a count that one loop makes and filled by another that
steps differently. A write that does not fit the buffer is an outcome of its own here, and the
size is a `size_t`, which wraps.
-/
import FpmNg.Numbers

open List

namespace FpmNg.PackRun

def FPM_PACK_APP_SCHEME : Bytes := str "fpmng-app://"

abbrev slen : ℕ := FPM_PACK_APP_SCHEME.length

/-- The test of both loops at `in + i`. -/
def at_scheme (rest : Bytes) : Bool :=
  decide (slen ≤ rest.length) && rest.head? == some 102 && rest.take slen == FPM_PACK_APP_SCHEME

/-- The loop that counts; `n` bounds its passes. -/
def hits_loop : ℕ → Bytes → ℕ
  | 0, _ => 0
  | n + 1, rest =>
    if rest.length < slen then 0
    else if at_scheme rest then hits_loop n (rest.drop slen) + 1
    else hits_loop n (rest.drop 1)

inductive Outcome where
  | null
  | overrun
  | done (out : Bytes) (out_len : ℕ)
  deriving DecidableEq

/-- The loop that copies into `size` bytes, and the terminator behind it. -/
def copy_loop (size : ℕ) (pre : Bytes) : ℕ → Bytes → Bytes → Outcome
  | 0, _, _ => .null
  | _ + 1, [], out => if out.length < size then .done out out.length else .overrun
  | n + 1, b :: rest, out =>
    if at_scheme (b :: rest) then
      if out.length + pre.length ≤ size then copy_loop size pre n ((b :: rest).drop slen) (out ++ pre)
      else .overrun
    else if out.length < size then copy_loop size pre n rest (out ++ [b])
    else .overrun

def hits (input : Bytes) : ℕ := hits_loop (input.length + 1) input

/-- `fpm_pack_state.prefix`, which both calls pass: `phar://<archive>/` in `PATH_MAX + 16`
bytes, if the path of the archive is not too long. -/
def state_prefix (archive : Bytes) : Option Bytes :=
  if PATH_MAX ≤ archive.length then none
  else some ((str "phar://" ++ archive ++ str "/").take (PATH_MAX + 16 - 1))

/-- `fpm_pack_substitute`; `memory`: `malloc` succeeds. -/
def fpm_pack_substitute (memory : Bool) (input pre : Bytes) : Outcome :=
  let size := (input.length + hits input * pre.length + 1) % 18446744073709551616
  if memory then copy_loop size pre (input.length + 1) input [] else .null

/-! ## The substitution -/

/-- From left to right: an occurrence is replaced, any other byte is kept. -/
inductive Substituted (pre : Bytes) : ℕ → Bytes → Bytes → Prop where
  | done : Substituted pre 0 [] []
  | hit {n : ℕ} {rest out : Bytes} (h : Substituted pre n rest out) :
      Substituted pre (n + 1) (FPM_PACK_APP_SCHEME ++ rest) (pre ++ out)
  | byte {n : ℕ} {b : UInt8} {rest out : Bytes} (no : ¬ FPM_PACK_APP_SCHEME <+: b :: rest)
      (h : Substituted pre n rest out) : Substituted pre n (b :: rest) (b :: out)

variable {pre input out rest : Bytes} {n size : ℕ}

lemma scheme_length : FPM_PACK_APP_SCHEME.length = 12 := rfl

lemma at_scheme_iff : at_scheme rest = true ↔ FPM_PACK_APP_SCHEME <+: rest := by
  unfold at_scheme
  rw [Bool.and_eq_true, Bool.and_eq_true, beq_iff_eq, beq_iff_eq, decide_eq_true_eq]
  constructor
  · rintro ⟨-, h⟩
    exact h ▸ take_prefix slen rest
  · rintro ⟨more, rfl⟩
    exact ⟨⟨by simp [scheme_length], rfl⟩, take_left⟩

lemma substituted (pre input : Bytes) : ∃ n out, Substituted pre n input out := by
  induction hlen : input.length using Nat.strongRecOn generalizing input with
  | ind len ih =>
    cases input with
    | nil => exact ⟨0, [], .done⟩
    | cons b rest =>
      by_cases h : FPM_PACK_APP_SCHEME <+: b :: rest
      · obtain ⟨more, hmore⟩ := h
        have hshort : more.length < len := by
          rw [← hlen, ← hmore, length_append]
          exact Nat.lt_add_of_pos_left (by decide)
        obtain ⟨n, out, hout⟩ := ih _ hshort more rfl
        exact ⟨n + 1, pre ++ out, hmore ▸ .hit hout⟩
      · obtain ⟨n, out, hout⟩ := ih rest.length (hlen ▸ Nat.lt_succ_self _) rest rfl
        exact ⟨n, b :: out, .byte h hout⟩

lemma Substituted.length (h : Substituted pre n input out) :
    out.length + n * 12 = input.length + n * pre.length ∧ n * 12 ≤ input.length := by
  induction h with
  | done => simp
  | hit h ih =>
    rw [length_append, length_append, Nat.add_mul, Nat.add_mul, scheme_length]
    omega
  | byte no h ih =>
    rw [length_cons, length_cons]
    omega

theorem hits_loop_eq (h : Substituted pre n input out) {passes : ℕ} (hpasses : input.length < passes) :
    hits_loop passes input = n := by
  induction h generalizing passes with
  | done => cases passes <;> rfl
  | @hit n rest out h ih =>
    obtain ⟨k, rfl⟩ : ∃ k, passes = k + 1 := ⟨passes - 1, by omega⟩
    rw [length_append, scheme_length] at hpasses
    rw [hits_loop, if_neg (by simp [scheme_length]), if_pos (at_scheme_iff.mpr (prefix_append _ _)),
      drop_left, ih (by omega)]
  | @byte n b rest out no h ih =>
    obtain ⟨k, rfl⟩ : ∃ k, passes = k + 1 := ⟨passes - 1, by omega⟩
    have hlen := h.length
    rw [length_cons] at hpasses
    rw [hits_loop, if_neg (mt at_scheme_iff.mp no), drop_one, tail_cons,
      ih (by omega)]
    split
    · rename_i hshort
      -- nothing is found in what is left
      have hnone : hits_loop (1 + rest.length) rest = n := ih (by omega)
      rw [Nat.add_comm, hits_loop, if_pos (by rw [length_cons] at hshort; omega)] at hnone
      exact hnone
    · rfl

theorem copy_loop_eq (h : Substituted pre n input out) {passes : ℕ} (hpasses : input.length < passes)
    (done : Bytes) : copy_loop size pre passes input done =
      if (done ++ out).length < size then .done (done ++ out) (done ++ out).length else .overrun := by
  induction h generalizing passes done with
  | done =>
    obtain ⟨k, rfl⟩ : ∃ k, passes = k + 1 := ⟨passes - 1, by omega⟩
    rw [copy_loop, append_nil]
  | @hit n rest out h ih =>
    obtain ⟨k, rfl⟩ : ∃ k, passes = k + 1 := ⟨passes - 1, by omega⟩
    rw [length_append, scheme_length] at hpasses
    have hscheme := at_scheme_iff.mpr (prefix_append FPM_PACK_APP_SCHEME rest)
    have hcons : FPM_PACK_APP_SCHEME ++ rest = 102 :: (FPM_PACK_APP_SCHEME.tail ++ rest) := rfl
    rw [hcons, copy_loop, ← hcons, if_pos hscheme, drop_left, ih (by omega), append_assoc]
    split
    · rfl
    · rw [if_neg (by simp only [length_append]; omega)]
  | @byte n b rest out no h ih =>
    obtain ⟨k, rfl⟩ : ∃ k, passes = k + 1 := ⟨passes - 1, by omega⟩
    rw [length_cons] at hpasses
    rw [copy_loop, if_neg (mt at_scheme_iff.mp no), ih (by omega), append_assoc, singleton_append]
    split
    · rfl
    · rw [if_neg (by simp only [length_append]; omega)]

/-- Input as large as an object can be, so that `i + slen` does not wrap. -/
structure Input where
  bytes : Bytes
  size : bytes.length < 9223372036854775808

def Right (x : Input) (pre : Bytes) : Prop :=
  ∃ n out, Substituted pre n x.bytes out ∧
    fpm_pack_substitute true x.bytes pre = .done out out.length

lemma substitute_eq (x : Input) (h : Substituted pre n x.bytes out) :
    fpm_pack_substitute true x.bytes pre =
      if x.bytes.length + n * pre.length + 1 < 18446744073709551616 then .done out out.length else .overrun := by
  have hlen := h.length
  have hsize := x.size
  unfold fpm_pack_substitute hits
  rw [hits_loop_eq h (Nat.lt_succ_self _), if_pos rfl, copy_loop_eq h (Nat.lt_succ_self _), nil_append]
  by_cases hfits : x.bytes.length + n * pre.length + 1 < 18446744073709551616
  · rw [if_pos hfits, if_pos (by omega)]
  · rw [if_neg hfits, if_neg (by omega)]

lemma substituted_repeat (k : ℕ) :
    Substituted pre k (replicate k FPM_PACK_APP_SCHEME).flatten (replicate k pre).flatten := by
  induction k with
  | zero => exact .done
  | succ k ih => exact .hit ih

/-- Input with `2 ^ 32` occurrences. -/
def many : Input where
  bytes := (replicate 4294967296 FPM_PACK_APP_SCHEME).flatten
  size := by
    rw [length_flatten, map_replicate, sum_replicate_nat, scheme_length]
    decide

end FpmNg.PackRun
