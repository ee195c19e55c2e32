/-
The records a selective reload leaves in the environment for the metrics region of
the next generation: `fpm_reload_shm.c`.

The old master appends records `M:fd:size:slots:limit`, `B:pool:base:count`,
`X:pool:base:count:until` and `Y:base:count:until`, with `;` between them. The new
master takes the variable apart with `strtok_r` and reads each piece with `sscanf`,
one format after the other. What is proved is that a record comes back as it was
written, and which pool names keep it from coming back.

The records `S` of the scoreboards, which no function here reads, are left out.
-/
import FpmNg.Numbers
import FpmNg.Lib.Separated

open Separated List Option

namespace FpmNg.ReloadRecords

/-- One more than the largest `uint32_t`. -/
abbrev UINT32 : ℕ := 4294967296

/-! ## `sscanf` -/

/-- The parts of a format: a byte that must be there, `%255[^:]`, `%d`, `%u` and
`%llu`. -/
inductive Conv where
  | lit (b : UInt8)
  | name
  | d
  | u
  | llu

inductive Field where
  | text (t : Bytes)
  | int (v : Int)
  | num (v : ℕ)

/-- `sscanf`: the fields if every part of the format is matched. All formats end in
a conversion, so that is when the number of conversions is the one asked for. -/
def sscanf : List Conv → Bytes → Option (List Field)
  | [], _ => some []
  | .lit b :: fs, s => if s.head? = some b then sscanf fs s.tail else none
  | .name :: fs, s =>
    let t := (s.takeWhile (· != COLON)).take 255
    if t.isEmpty then none else (sscanf fs (s.drop t.length)).map (.text t :: ·)
  | .d :: fs, s =>
    if (subject s).isNone then none
    else (sscanf fs (strtol s).2).map (.int (Int.bmod (strtol s).1 4294967296) :: ·)
  | .u :: fs, s =>
    if (subject s).isNone then none
    else (sscanf fs (strtoull s).2).map (.num ((strtoull s).1 % UINT32) :: ·)
  | .llu :: fs, s =>
    if (subject s).isNone then none
    else (sscanf fs (strtoull s).2).map (.num (strtoull s).1 :: ·)

/-! ## Records -/

/-- `struct fpm_reload_shm_inh_s`, one constructor a kind. -/
inductive Record where
  | M (fd : Int) (size slots limit : ℕ)
  | B (name : Bytes) (base count : ℕ)
  | X (name : Bytes) (base count expiry : ℕ)
  | Y (base count expiry : ℕ)
  deriving DecidableEq

def colon_decimal (v : ℕ) : Bytes := COLON :: decimal v

/-- What `snprintf` writes into `rec`, which has room for 511 bytes, or 127 for a
`Y` record. -/
def print : Record → Bytes
  | .M fd size slots limit =>
    (77 :: colon_decimal fd.toNat ++ colon_decimal size ++ colon_decimal slots
      ++ colon_decimal limit).take 511
  | .B name base count =>
    (66 :: COLON :: name ++ colon_decimal base ++ colon_decimal count).take 511
  | .X name base count expiry =>
    (88 :: COLON :: name ++ colon_decimal base ++ colon_decimal count
      ++ colon_decimal expiry).take 511
  | .Y base count expiry =>
    (89 :: colon_decimal base ++ colon_decimal count ++ colon_decimal expiry).take 127

/-- `FPM_SUPERVISOR_RELOAD_SURVIVOR_TIMEOUT_S` -/
abbrev SURVIVOR_TIMEOUT : ℕ := 30

def format_M : List Conv :=
  [.lit 77, .lit COLON, .d, .lit COLON, .llu, .lit COLON, .u, .lit COLON, .u]

def format_B : List Conv :=
  [.lit 66, .lit COLON, .name, .lit COLON, .u, .lit COLON, .u]

def format_X : List Conv :=
  [.lit 88, .lit COLON, .name, .lit COLON, .u, .lit COLON, .u, .lit COLON, .llu]

def format_X_old : List Conv :=
  [.lit 88, .lit COLON, .name, .lit COLON, .u, .lit COLON, .u]

def format_Y : List Conv :=
  [.lit 89, .lit COLON, .u, .lit COLON, .u, .lit COLON, .llu]

def as_M : List Field → Option Record
  | [.int fd, .num size, .num slots, .num limit] => some (.M fd size slots limit)
  | _ => none

def as_B : List Field → Option Record
  | [.text name, .num base, .num count] => some (.B name base count)
  | _ => none

/-- The cast of the expiry to `time_t`. What is above becomes negative: a time that has
passed, as the time 0 has, which stands for it. -/
def time_t (expiry : ℕ) : ℕ := if expiry ≤ LONG_MAX then expiry else 0

def as_X : List Field → Option Record
  | [.text name, .num base, .num count, .num expiry] => some (.X name base count (time_t expiry))
  | _ => none

def as_X_old (now : ℕ) : List Field → Option Record
  | [.text name, .num base, .num count] => some (.X name base count (now + SURVIVOR_TIMEOUT))
  | _ => none

def as_Y : List Field → Option Record
  | [.num base, .num count, .num expiry] => some (.Y base count (time_t expiry))
  | _ => none

/-- One piece of the variable, at the time `now`. -/
def read_record (now : ℕ) (piece : Bytes) : Option Record :=
  ((sscanf format_M piece).bind as_M).or <|
    ((sscanf format_B piece).bind as_B).or <|
      ((sscanf format_X piece).bind as_X).or <|
        ((sscanf format_X_old piece).bind (as_X_old now)).or <|
          (sscanf format_Y piece).bind as_Y

/-- `fpm_reload_shm_load`: the list `inherited`, the last record first. -/
def fpm_reload_shm_load (now : ℕ) (env : Bytes) : List Record :=
  (tokens SEMICOLON env).foldl
    (fun inherited piece => (read_record now piece).elim inherited (· :: inherited)) []

/-- The variable after `fpm_reload_shm_append_env` was called for each record. -/
def environment (records : List Record) : Bytes := join SEMICOLON (records.map print)

/-! ## Reading back -/

lemma decimal_digits_length (n v k : ℕ) (h : v < Nat.pow 10 (k + 1)) :
    (decimal_digits n v).length ≤ k + 1 := by
  induction n generalizing v k with
  | zero => simp [decimal_digits]
  | succ n ih =>
    unfold decimal_digits
    by_cases hv : v < 10
    · rw [if_pos hv]
      simp
    · rw [if_neg hv, length_append, length_singleton]
      cases k with
      | zero => exact absurd h hv
      | succ k =>
        have hpow : Nat.pow 10 (k + 1 + 1) = Nat.pow 10 (k + 1) * 10 := rfl
        have hrest := ih (v / 10) k (by omega)
        omega

variable {v : ℕ}

lemma colon_decimal_length (h : v ≤ ULLONG_MAX) : (colon_decimal v).length ≤ 21 := by
  have hpow : ULLONG_MAX < Nat.pow 10 (19 + 1) := by decide
  have hlen := decimal_digits_length (v + 1) v 19 (by omega)
  unfold colon_decimal decimal
  rw [length_cons]
  omega

def Stop (rest : Bytes) : Prop := ∀ b, rest.head? = some b → isdigit b = false

lemma stop_nil : Stop [] := nofun

lemma stop_colon (rest : Bytes) : Stop (COLON :: rest) := by
  intro b h
  rw [head?_cons, some.injEq] at h
  subst h
  decide

variable {rest : Bytes}

lemma subject_isSome (v : ℕ) (h : Stop rest) : ¬(subject (decimal v ++ rest)).isNone = true := by
  rw [subject_decimal v h]
  simp

lemma sscanf_lit (b : UInt8) (fs : List Conv) (s : Bytes) :
    sscanf (.lit b :: fs) (b :: s) = sscanf fs s := by
  rw [sscanf, head?_cons, if_pos rfl, tail_cons]

lemma sscanf_lit_ne {b c : UInt8} (h : b ≠ c) (fs : List Conv) (s : Bytes) :
    sscanf (.lit b :: fs) (c :: s) = none := by
  rw [sscanf, head?_cons, if_neg fun heq => h (some.inj heq).symm]

lemma sscanf_u (hv : v < UINT32) (fs : List Conv) (h : Stop rest) :
    sscanf (.u :: fs) (decimal v ++ rest) = (sscanf fs rest).map (.num v :: ·) := by
  have hle : v ≤ ULLONG_MAX := by
    have h32 : UINT32 = 4294967296 := rfl
    have h64 : ULLONG_MAX = 18446744073709551615 := rfl
    omega
  rw [sscanf, if_neg (subject_isSome v h), strtoull_decimal hle h, Nat.mod_eq_of_lt hv]

lemma sscanf_llu (hv : v ≤ ULLONG_MAX) (fs : List Conv) (h : Stop rest) :
    sscanf (.llu :: fs) (decimal v ++ rest) = (sscanf fs rest).map (.num v :: ·) := by
  rw [sscanf, if_neg (subject_isSome v h), strtoull_decimal hv h]

lemma sscanf_d (hv : v ≤ 2147483647) (fs : List Conv) (h : Stop rest) :
    sscanf (.d :: fs) (decimal v ++ rest) = (sscanf fs rest).map (.int v :: ·) := by
  have hle : v ≤ LONG_MAX := by
    have h63 : LONG_MAX = 9223372036854775807 := rfl
    omega
  have hint : Int.bmod (v : Int) 4294967296 = v := by
    rw [Int.bmod_eq_of_le] <;> omega
  rw [sscanf, if_neg (subject_isSome v h), strtol_decimal hle h, hint]

/-- A pool name that `%255[^:]` reads back. -/
structure NameFits (name : Bytes) : Prop where
  ne_nil : name ≠ []
  length_le : name.length ≤ 255

instance (name : Bytes) : Decidable (NameFits name) :=
  decidable_of_iff (name ≠ [] ∧ name.length ≤ 255)
    ⟨fun h => ⟨h.1, h.2⟩, fun h => ⟨h.ne_nil, h.length_le⟩⟩

lemma takeWhile_name {name : Bytes} (hcolon : COLON ∉ name) (rest : Bytes) :
    (name ++ rest).takeWhile (· != COLON) = name ++ rest.takeWhile (· != COLON) :=
  takeWhile_append_of_pos fun b hb => by
    simp only [bne_iff_ne, ne_eq]
    rintro rfl
    exact hcolon hb

lemma sscanf_name {name : Bytes} (h : NameFits name) (hcolon : COLON ∉ name) (fs : List Conv)
    (rest : Bytes) :
    sscanf (.name :: fs) (name ++ COLON :: rest) =
      (sscanf fs (COLON :: rest)).map (.text name :: ·) := by
  have htake : ((name ++ COLON :: rest).takeWhile (· != COLON)).take 255 = name := by
    rw [takeWhile_name hcolon, takeWhile_cons_of_neg (by simp), append_nil,
      take_of_length_le h.length_le]
  rw [sscanf, htake, if_neg (by simpa using h.ne_nil), drop_left]

/-- Any other name stops the format: nothing is left for the name, or no colon is
found behind 255 bytes. -/
lemma sscanf_name_none {name : Bytes} (h : ¬NameFits name) (hcolon : COLON ∉ name) (n : ℕ)
    (hn : 256 ≤ n) (fs : List Conv) (rest : Bytes) :
    sscanf (.name :: .lit COLON :: fs) ((name ++ COLON :: rest).take n) = none := by
  rw [sscanf]
  by_cases hnil : name = []
  · subst hnil
    obtain ⟨n, rfl⟩ : ∃ m, n = m + 1 := ⟨n - 1, by omega⟩
    rfl
  · have hlong : 255 < name.length := Nat.lt_of_not_le fun hle => h ⟨hnil, hle⟩
    -- the first 256 bytes, which hold no colon
    have hsplit := (take_append_drop 256 ((name ++ COLON :: rest).take n)).symm
    have hfront : ((name ++ COLON :: rest).take n).take 256 = name.take 256 := by
      rw [take_take, Nat.min_eq_left hn, take_append_of_le_length hlong]
    rw [hfront] at hsplit
    generalize ((name ++ COLON :: rest).take n).drop 256 = behind at hsplit
    have hlen : (name.take 256).length = 256 := by
      rw [length_take]
      omega
    have hclean : COLON ∉ name.take 256 := fun hin => hcolon (mem_of_mem_take hin)
    generalize name.take 256 = front at hsplit hlen hclean
    have htake : ((front ++ behind).takeWhile (· != COLON)).take 255 = front.take 255 := by
      rw [takeWhile_name hclean, take_append_of_le_length (by omega)]
    have hlen' : (front.take 255).length = 255 := by
      rw [length_take]
      omega
    rw [hsplit, htake, hlen', if_neg (by
      rw [List.isEmpty_iff]
      intro hempty
      rw [hempty] at hlen'
      exact absurd hlen' (by simp))]
    obtain ⟨b, hb⟩ : ∃ b, front.drop 255 = [b] := length_eq_one_iff.mp (by simp [hlen])
    have hne : b ≠ COLON := by
      rintro rfl
      exact hclean (mem_of_mem_drop (hb ▸ mem_singleton_self _))
    rw [drop_append_of_le_length (by omega), hb, singleton_append,
      sscanf_lit_ne (Ne.symm hne)]
    rfl

/-- The record fits the fields it is read into, and the name, if there is one, what
`%255[^:]` matches. -/
def Record.Fits : Record → Prop
  | .M fd size slots limit =>
    0 ≤ fd ∧ fd ≤ 2147483647 ∧ size ≤ ULLONG_MAX ∧ slots < UINT32 ∧ limit < UINT32
  | .B name base count => NameFits name ∧ COLON ∉ name ∧ base < UINT32 ∧ count < UINT32
  | .X name base count expiry =>
    NameFits name ∧ COLON ∉ name ∧ base < UINT32 ∧ count < UINT32 ∧ expiry ≤ LONG_MAX
  | .Y base count expiry => base < UINT32 ∧ count < UINT32 ∧ expiry ≤ LONG_MAX

lemma le_of_lt_uint32 (h : v < UINT32) : v ≤ ULLONG_MAX := by
  have h32 : UINT32 = 4294967296 := rfl
  have h64 : ULLONG_MAX = 18446744073709551615 := rfl
  omega

lemma time_t_eq (h : v ≤ LONG_MAX) : time_t v = v := if_pos h

lemma le_of_le_long (h : v ≤ LONG_MAX) : v ≤ ULLONG_MAX :=
  Nat.le_trans h (show LONG_MAX ≤ ULLONG_MAX by decide)

lemma sscanf_three {a b c : ℕ} (ha : a < UINT32) (hb : b < UINT32) (hc : c ≤ ULLONG_MAX) :
    sscanf [.u, .lit COLON, .u, .lit COLON, .llu]
      (decimal a ++ (colon_decimal b ++ colon_decimal c)) = some [.num a, .num b, .num c] := by
  unfold colon_decimal
  rw [cons_append, sscanf_u ha _ (stop_colon _), sscanf_lit, sscanf_u hb _ (stop_colon _),
    sscanf_lit, ← append_nil (decimal c), sscanf_llu hc _ stop_nil, sscanf]
  rfl

lemma sscanf_two {a b : ℕ} (ha : a < UINT32) (hb : b < UINT32) :
    sscanf [.u, .lit COLON, .u] (decimal a ++ colon_decimal b) = some [.num a, .num b] := by
  unfold colon_decimal
  rw [sscanf_u ha _ (stop_colon _), sscanf_lit, ← append_nil (decimal b),
    sscanf_u hb _ stop_nil, sscanf]
  rfl

lemma print_B {name : Bytes} {base count : ℕ} (h : (Record.B name base count).Fits) :
    print (.B name base count) =
      66 :: COLON :: (name ++ COLON :: (decimal base ++ colon_decimal count)) := by
  obtain ⟨hname, _, hbase, hcount⟩ := h
  have h1 := colon_decimal_length (le_of_lt_uint32 hbase)
  have h2 := colon_decimal_length (le_of_lt_uint32 hcount)
  have h3 := hname.length_le
  rw [print, take_of_length_le]
  · simp [colon_decimal]
  · simp only [length_append, length_cons]
    omega

lemma print_X {name : Bytes} {base count expiry : ℕ}
    (h : (Record.X name base count expiry).Fits) :
    print (.X name base count expiry) = 88 :: COLON ::
      (name ++ COLON :: (decimal base ++ (colon_decimal count ++ colon_decimal expiry))) := by
  obtain ⟨hname, _, hbase, hcount, hexpiry⟩ := h
  have h1 := colon_decimal_length (le_of_lt_uint32 hbase)
  have h2 := colon_decimal_length (le_of_lt_uint32 hcount)
  have h3 := colon_decimal_length (le_of_le_long hexpiry)
  have h4 := hname.length_le
  rw [print, take_of_length_le]
  · simp [colon_decimal]
  · simp only [length_append, length_cons]
    omega

lemma print_Y {base count expiry : ℕ} (h : (Record.Y base count expiry).Fits) :
    print (.Y base count expiry) = 89 :: COLON ::
      (decimal base ++ (colon_decimal count ++ colon_decimal expiry)) := by
  obtain ⟨hbase, hcount, hexpiry⟩ := h
  have h1 := colon_decimal_length (le_of_lt_uint32 hbase)
  have h2 := colon_decimal_length (le_of_lt_uint32 hcount)
  have h3 := colon_decimal_length (le_of_le_long hexpiry)
  rw [print, take_of_length_le]
  · simp [colon_decimal]
  · simp only [length_append, length_cons]
    omega

lemma print_M {fd : Int} {size slots limit : ℕ} (h : (Record.M fd size slots limit).Fits) :
    print (.M fd size slots limit) = 77 :: COLON ::
      (decimal fd.toNat ++ COLON :: (decimal size ++
        COLON :: (decimal slots ++ colon_decimal limit))) := by
  obtain ⟨_, hfd, hsize, hslots, hlimit⟩ := h
  have h64 : ULLONG_MAX = 18446744073709551615 := rfl
  have h1 : (colon_decimal fd.toNat).length ≤ 21 := colon_decimal_length (by omega)
  have h2 := colon_decimal_length hsize
  have h3 := colon_decimal_length (le_of_lt_uint32 hslots)
  have h4 := colon_decimal_length (le_of_lt_uint32 hlimit)
  rw [print, take_of_length_le]
  · simp [colon_decimal]
  · simp only [length_append, length_cons]
    omega

variable (now : ℕ)

theorem read_print {r : Record} (h : r.Fits) : read_record now (print r) = some r := by
  unfold read_record
  cases r with
  | M fd size slots limit =>
    rw [print_M h]
    obtain ⟨hpos, hfd, hsize, hslots, hlimit⟩ := h
    obtain ⟨n, rfl⟩ := Int.eq_ofNat_of_zero_le hpos
    rw [format_M, sscanf_lit, sscanf_lit, Int.toNat_natCast, sscanf_d (by omega) _ (stop_colon _),
      sscanf_lit, sscanf_llu hsize _ (stop_colon _), sscanf_lit, sscanf_two hslots hlimit]
    rfl
  | B name base count =>
    rw [print_B h]
    obtain ⟨hname, hcolon, hbase, hcount⟩ := h
    rw [format_M, sscanf_lit_ne (by decide), format_B, sscanf_lit, sscanf_lit,
      sscanf_name hname hcolon, sscanf_lit, sscanf_two hbase hcount]
    rfl
  | X name base count expiry =>
    rw [print_X h]
    obtain ⟨hname, hcolon, hbase, hcount, hexpiry⟩ := h
    rw [format_M, sscanf_lit_ne (by decide), format_B, sscanf_lit_ne (by decide), format_X,
      sscanf_lit, sscanf_lit, sscanf_name hname hcolon, sscanf_lit,
      sscanf_three hbase hcount (le_of_le_long hexpiry)]
    exact congrArg (some <| Record.X name base count ·) (time_t_eq hexpiry)
  | Y base count expiry =>
    rw [print_Y h]
    obtain ⟨hbase, hcount, hexpiry⟩ := h
    rw [format_M, sscanf_lit_ne (by decide), format_B, sscanf_lit_ne (by decide), format_X,
      sscanf_lit_ne (by decide), format_X_old, sscanf_lit_ne (by decide), format_Y, sscanf_lit,
      sscanf_lit, sscanf_three hbase hcount (le_of_le_long hexpiry)]
    exact congrArg (some <| Record.Y base count ·) (time_t_eq hexpiry)

theorem read_print_X_none {name : Bytes} (hname : ¬NameFits name) (hcolon : COLON ∉ name)
    (base count expiry : ℕ) : read_record now (print (.X name base count expiry)) = none := by
  have hprint : print (.X name base count expiry) = 88 :: COLON :: ((name ++ COLON ::
      (decimal base ++ (colon_decimal count ++ colon_decimal expiry))).take 509) := by
    rw [print]
    simp [colon_decimal]
  unfold read_record
  rw [hprint, format_M, sscanf_lit_ne (by decide), format_B, sscanf_lit_ne (by decide), format_X,
    sscanf_lit, sscanf_lit, sscanf_name_none hname hcolon 509 (by omega), format_X_old, sscanf_lit,
    sscanf_lit, sscanf_name_none hname hcolon 509 (by omega), format_Y, sscanf_lit_ne (by decide)]
  rfl

/-! ## The variable -/

lemma load_eq (env : Bytes) :
    fpm_reload_shm_load now env = ((tokens SEMICOLON env).filterMap (read_record now)).reverse := by
  unfold fpm_reload_shm_load
  induction tokens SEMICOLON env using reverseRecOn with
  | nil => rfl
  | append_singleton pieces piece ih =>
    rw [foldl_append, ih, foldl_cons, foldl_nil, filterMap_append,
      reverse_append]
    cases hread : read_record now piece with
    | none | some r => simp [hread]

lemma digits_clean {b : UInt8} (hb : b ∈ colon_decimal v) : 48 ≤ b ∧ b ≤ 58 := by
  rcases mem_cons.mp hb with rfl | hb
  · decide
  · obtain ⟨h1, h2⟩ := decimal_bytes v b hb
    exact ⟨h1, UInt8.le_trans h2 (by decide)⟩

lemma semicolon_not_mem_digits (v : ℕ) : SEMICOLON ∉ colon_decimal v := fun h =>
  absurd (digits_clean h).2 (by decide)

def Record.name : Record → Bytes
  | .B name _ _ => name
  | .X name _ _ _ => name
  | _ => []

lemma semicolon_not_mem_print {r : Record} (h : SEMICOLON ∉ r.name) : SEMICOLON ∉ print r := by
  intro hin
  cases r <;>
    replace hin := mem_of_mem_take hin <;>
    simp only [cons_append, mem_cons, mem_append, semicolon_not_mem_digits,
      or_false] at hin
  case M => cases hin
  case B => exact h (hin.resolve_left (by decide) |>.resolve_left (by decide))
  case X => exact h (hin.resolve_left (by decide) |>.resolve_left (by decide))
  case Y => cases hin

lemma print_ne_nil (r : Record) : print r ≠ [] := by
  cases r <;> simp [print]

/-- **What the next generation reads** is what was written, the last record
first, less what could not be read. -/
theorem load_environment {records : List Record}
    (h : ∀ r ∈ records, SEMICOLON ∉ r.name) :
    fpm_reload_shm_load now (environment records) =
      (records.filterMap fun r => read_record now (print r)).reverse := by
  have htokens : tokens SEMICOLON (environment records) = records.map print := by
    refine tokens_join (fun l hl => ?_) (fun l hl => ?_)
    · obtain ⟨r, hr, rfl⟩ := mem_map.mp hl
      exact semicolon_not_mem_print (h r hr)
    · obtain ⟨r, _, rfl⟩ := mem_map.mp hl
      exact print_ne_nil r
  rw [load_eq, htokens, filterMap_map]
  rfl

/-- **The records round trip.** Records that fit, under names without a `;`, are read back as they
were written, the last one first. -/
theorem records_round_trip (now : ℕ) (records : List Record)
    (h : ∀ r ∈ records, r.Fits ∧ SEMICOLON ∉ r.name) :
    fpm_reload_shm_load now (environment records) = records.reverse := by
  rw [load_environment now fun r hr => (h r hr).2,
    filterMap_congr fun r hr => read_print now (h r hr).1, filterMap_some]

theorem records_round_trip_three :
    fpm_reload_shm_load 0 (environment [.M 3 64 4 8, .X (str "www") 2 2 90, .Y 0 2 60])
      = [.Y 0 2 60, .X (str "www") 2 2 90, .M 3 64 4 8] :=
  records_round_trip 0 [.M 3 64 4 8, .X (str "www") 2 2 90, .Y 0 2 60] (by
    have hname : NameFits (str "www") ∧ COLON ∉ str "www" ∧ SEMICOLON ∉ str "www" := by decide
    simp [Record.Fits, Record.name, UINT32, ULLONG_MAX, LONG_MAX, hname])

end FpmNg.ReloadRecords
