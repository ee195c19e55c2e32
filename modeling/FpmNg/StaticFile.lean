/-
Which bytes the static file server hands out: the containment tests of `fpm_http_static.c`
and `fpm_http_direct_request.c`, and the Range header of `fpm_http_static_range.c`.

A test compares bytes and looks at one more; what it is for is said of the segments of two
paths. The Range parser clamps its numbers to `LLONG_MAX`; what it is for is said of
unbounded ones. Each is exact but for one case, and the case is part of its theorem.
-/
import FpmNg.Numbers
import FpmNg.Lib.Separated

open List Option

namespace FpmNg.StaticFile

/-! ## Containment -/

/-- `strncmp(a, b, n) == 0`. -/
def strneq (a b : Bytes) (n : ℕ) : Bool := a.take n == b.take n

/-- `none` is the terminator. -/
def fpm_http_static_contained (resolved root : Bytes) (root_len : ℕ) : Bool :=
  strneq resolved root root_len &&
    (resolved[root_len]? == none || resolved[root_len]? == some SLASH)

/-- The test at the end of `fpm_http_direct_resolve_script`. -/
def fpm_http_direct_contained (script root : Bytes) : Bool :=
  !(!strneq script root root.length ||
    (root != [SLASH] && script[root.length]? != some SLASH))

structure Path where
  segments : List Bytes
  proper : ∀ s ∈ segments, s ≠ [] ∧ SLASH ∉ s ∧ 0 ∉ s ∧ s ≠ str "." ∧ s ≠ str ".."

def joined (segments : List Bytes) : Bytes := segments.flatMap (SLASH :: ·)

/-- A path as `realpath` writes it. -/
def path_text (segments : List Bytes) : Bytes := if segments = [] then [SLASH] else joined segments

abbrev Path.text (p : Path) : Bytes := path_text p.segments

def Ends (rest : Bytes) : Prop := rest = [] ∨ rest.head? = some SLASH

lemma joined_ends (l : List Bytes) : Ends (joined l) := by
  rcases l with _ | ⟨s, l⟩
  · exact .inl rfl
  · exact .inr rfl

lemma takeWhile_segment {s u : Bytes} (hs : SLASH ∉ s) (hu : Ends u) :
    (s ++ u).takeWhile (· != SLASH) = s := by
  refine (ByteScan.takeWhile_append_head ?_ ?_).1
  · intro b hb
    rw [bne_iff_ne]
    rintro rfl
    exact hs hb
  · intro b hb
    rcases hu with rfl | hu
    · exact nomatch hb
    · rw [hu, mem_some_iff] at hb
      rw [← hb]
      rfl

/-- **Bytes and segments.** What is left behind the bytes of one path begins with a slash
or is empty exactly if the segments are a prefix. -/
theorem joined_append_iff {r l : List Bytes} (hr : ∀ s ∈ r, SLASH ∉ s) (hl : ∀ s ∈ l, SLASH ∉ s) :
    (∃ rest, joined l = joined r ++ rest ∧ Ends rest) ↔ r <+: l := by
  constructor
  · rintro ⟨rest, heq, hrest⟩
    induction r generalizing l with
    | nil => exact nil_prefix
    | cons s r ih =>
      rcases l with _ | ⟨t, l⟩
      · exact nomatch heq
      have heq : t ++ joined l = s ++ (joined r ++ rest) := by
        simpa [joined] using heq
      have hends : Ends (joined r ++ rest) := by
        rcases r with _ | ⟨u, r⟩
        · exact hrest
        · exact .inr rfl
      -- both sides name the same first segment
      have hst := takeWhile_segment (hl t (.head _)) (joined_ends l)
      rw [heq, takeWhile_segment (hr s (.head _)) hends] at hst
      subst hst
      exact cons_prefix_cons.mpr ⟨rfl, ih (fun u hu => hr u (.tail _ hu))
        (fun u hu => hl u (.tail _ hu)) (append_cancel_left heq)⟩
  · rintro ⟨m, rfl⟩
    exact ⟨joined m, flatMap_append, joined_ends m⟩

lemma strneq_iff {a b : Bytes} : strneq a b b.length = true ↔ b <+: a := by
  rw [strneq, beq_iff_eq, take_length, eq_comm, prefix_iff_eq_take]

lemma getElem?_behind (root rest : Bytes) : (root ++ rest)[root.length]? = rest.head? := by
  rw [getElem?_append_right (Nat.le_refl _), Nat.sub_self, head?_eq_getElem?]

lemma fpm_http_static_contained_iff {p root : Bytes} :
    fpm_http_static_contained p root root.length = true ↔ ∃ rest, p = root ++ rest ∧ Ends rest := by
  rw [fpm_http_static_contained, Bool.and_eq_true, strneq_iff]
  constructor
  · rintro ⟨⟨rest, rfl⟩, h⟩
    rw [getElem?_behind] at h
    exact ⟨rest, rfl, by simpa [Ends] using h⟩
  · rintro ⟨rest, rfl, h⟩
    rw [getElem?_behind]
    exact ⟨prefix_append _ _, by simpa [Ends] using h⟩

lemma fpm_http_direct_contained_iff {p root : Bytes} :
    fpm_http_direct_contained p root = true ↔
      ∃ rest, p = root ++ rest ∧ (root = [SLASH] ∨ rest.head? = some SLASH) := by
  rw [fpm_http_direct_contained, Bool.not_or, Bool.and_eq_true, Bool.not_not, strneq_iff]
  constructor
  · rintro ⟨⟨rest, rfl⟩, h⟩
    rw [getElem?_behind] at h
    exact ⟨rest, rfl, by simpa [Classical.or_iff_not_imp_left] using h⟩
  · rintro ⟨rest, rfl, h⟩
    rw [getElem?_behind]
    exact ⟨prefix_append _ _, by simpa [Classical.or_iff_not_imp_left] using h⟩

lemma text_append_iff {root p : Path} (hroot : root.segments ≠ []) :
    (∃ rest, p.text = root.text ++ rest ∧ Ends rest) ↔ root.segments <+: p.segments := by
  rw [← joined_append_iff (fun s hs => (root.proper s hs).2.1) (fun s hs => (p.proper s hs).2.1),
    Path.text, Path.text, path_text, path_text, if_neg hroot]
  split
  · rename_i hp
    obtain ⟨s, l, hs⟩ := exists_cons_of_ne_nil hroot
    obtain ⟨b, t, rfl⟩ := exists_cons_of_ne_nil (root.proper s (hs ▸ .head _)).1
    rw [hs, hp]
    constructor <;> rintro ⟨_, h, -⟩ <;> exact nomatch h
  · rfl

lemma text_slash (p : Path) : ∃ rest, p.text = SLASH :: rest := by
  unfold Path.text path_text
  split
  · exact ⟨[], rfl⟩
  · obtain ⟨s, l, hs⟩ := exists_cons_of_ne_nil ‹_›
    exact ⟨s ++ joined l, by rw [hs]; rfl⟩

lemma root_rest {p : Path} {rest : Bytes} (h : p.text = SLASH :: rest) (hrest : Ends rest) :
    p.segments = [] := by
  by_contra hne
  obtain ⟨s, l, hs⟩ := exists_cons_of_ne_nil hne
  obtain ⟨hnil, hslash, -⟩ := p.proper s (hs ▸ .head _)
  obtain ⟨b, t, rfl⟩ := exists_cons_of_ne_nil hnil
  rw [Path.text, path_text, if_neg hne, hs] at h
  obtain rfl : b :: t ++ joined l = rest := (cons.inj h).2
  rcases hrest with h | h
  · exact nomatch h
  · exact hslash (some.inj h ▸ .head _)

lemma text_eq_root_iff {p : Path} : p.text = [SLASH] ↔ p.segments = [] :=
  ⟨fun h => root_rest h (.inl rfl), fun h => if_pos h⟩

/-- **The containment tests.** For every canonical root and every canonical path: the test
for static files is containment by segments unless the root is `/` and the path another,
and the test for scripts is unless the path is the root and not `/`. -/
theorem contained_iff_below (root p : Path) :
    ((fpm_http_static_contained p.text root.text root.text.length = true
        ↔ root.segments <+: p.segments) ↔ (root.segments = [] → p.segments = [])) ∧
    ((fpm_http_direct_contained p.text root.text = true ↔ root.segments <+: p.segments)
      ↔ (p.segments = root.segments → root.segments = [])) := by
  rw [fpm_http_static_contained_iff, fpm_http_direct_contained_iff, text_eq_root_iff]
  by_cases hroot : root.segments = []
  · have htext : root.text = [SLASH] := if_pos hroot
    obtain ⟨rest, hrest⟩ := text_slash p
    rw [htext]
    simp only [hroot, nil_prefix, iff_true, true_or, and_true, implies_true, forall_true_left]
    refine ⟨⟨fun ⟨rest, h, hends⟩ => root_rest h hends, fun h => ?_⟩, rest, hrest⟩
    exact ⟨[], text_eq_root_iff.mpr h, .inl rfl⟩
  · rw [text_append_iff hroot]
    simp only [hroot, false_imp_iff, iff_self, true_and, false_or, imp_false]
    constructor
    · -- the path would have to go on behind itself
      intro h heq
      obtain ⟨rest, hrest, hslash⟩ := h.mpr (heq ▸ prefix_rfl)
      rw [Path.text, Path.text, heq, self_eq_append_right] at hrest
      rw [hrest] at hslash
      exact nomatch hslash
    · intro hne
      refine ⟨fun ⟨rest, h, hslash⟩ => (text_append_iff hroot).mp ⟨rest, h, .inr hslash⟩, ?_⟩
      rintro ⟨_ | ⟨s, m⟩, hm⟩
      · exact absurd ((append_nil _).symm.trans hm).symm hne
      · refine ⟨joined (s :: m), ?_, rfl⟩
        rw [Path.text, Path.text, path_text, path_text, if_neg hroot, ← hm, if_neg (by simp), joined, flatMap_append]
        rfl

/-- `/` and `/etc`. -/
def slash_root : Path := ⟨[], by simp⟩
def etc_path : Path := ⟨[str "etc"], by decide⟩

theorem static_root_refuses :
    fpm_http_static_contained etc_path.text slash_root.text slash_root.text.length = false ∧
      slash_root.segments <+: etc_path.segments :=
  ⟨by decide, nil_prefix⟩

/-! ## The Range header -/

abbrev LLONG_MAX : ℕ := 0x7FFFFFFFFFFFFFFF

def range_digits_from (out n : ℕ) : Bytes → ℕ × ℕ × Bytes
  | [] => (out, n, [])
  | b :: p =>
    if isdigit b then
      range_digits_from
        (if out > (LLONG_MAX - digit b) / 10 then LLONG_MAX else out * 10 + digit b) (n + 1) p
    else (out, n, b :: p)

def fpm_http_static_range_digits (p : Bytes) : ℕ × ℕ × Bytes := range_digits_from 0 0 p

/-- The answer, with `*first` and `*last`. -/
inductive Range where
  | ignore
  | unsatisfiable
  | interval (first last : ℕ)
  deriving DecidableEq

/-- `value` is `none` for `NULL`. -/
def fpm_http_static_parse_range (value : Option Bytes) (len : ℕ) : Range :=
  match value with
  | none => .ignore
  | some value =>
    if !strcaseeq (value.take 6) (str "bytes=") then .ignore
    else
      let p := value.drop 6
      if p.head? = some DASH then
        let (a, na, p) := fpm_http_static_range_digits p.tail
        if na = 0 ∨ p ≠ [] then .ignore
        else if a = 0 ∨ len = 0 then .unsatisfiable
        else .interval (len - if a > len then len else a) (len - 1)
      else
        let (a, na, p) := fpm_http_static_range_digits p
        if na = 0 ∨ p.head? ≠ some DASH then .ignore
        else
          let (b, nb, p) := fpm_http_static_range_digits p.tail
          if p ≠ [] then .ignore
          else if nb > 0 ∧ b < a then .ignore
          else if a ≥ len then .unsatisfiable
          else .interval a (if nb > 0 ∧ b < len then b else len - 1)

inductive RangeSpec where
  | int (first : ℕ) (last : Option ℕ)
  | suffix (length : ℕ)

/-- The one range a header names: `bytes=`, and digits on one or both sides of a dash. -/
def single_range (value : Bytes) : Option RangeSpec :=
  if !strcaseeq (value.take 6) (str "bytes=") then none
  else
    match ByteScan.cut (· == DASH) (value.drop 6) with
    | none => none
    | some (a, b) =>
      if !(a ++ b).all isdigit then none
      else if a = [] then if b = [] then none else some (.suffix (digits_value b))
      else some (.int (digits_value a) (if b = [] then none else some (digits_value b)))

def RangeSpec.answer (len : ℕ) : RangeSpec → Range
  | .int a none => if len ≤ a then .unsatisfiable else .interval a (len - 1)
  | .int a (some b) =>
    if b < a then .ignore else if len ≤ a then .unsatisfiable else .interval a (min b (len - 1))
  | .suffix n => if n = 0 ∨ len = 0 then .unsatisfiable else .interval (len - n) (len - 1)

def range_reference (value : Option Bytes) (len : ℕ) : Range :=
  match value.bind single_range with
  | none => .ignore
  | some spec => spec.answer len

def RangeSpec.clamped : RangeSpec → Bool
  | .int a (some b) => b < a && LLONG_MAX ≤ b
  | _ => false

lemma range_digits_from_eq (v n : ℕ) (p : Bytes) :
    range_digits_from (min v LLONG_MAX) n p
      = (min ((p.takeWhile isdigit).foldl (fun v b => v * 10 + (b.toNat - 48)) v) LLONG_MAX,
          n + (p.takeWhile isdigit).length, p.dropWhile isdigit) := by
  induction p generalizing v n with
  | nil => rfl
  | cons b p ih =>
    rw [range_digits_from]
    by_cases hb : isdigit b = true
    · -- the clamp is the minimum of one step
      have hstep : (if min v LLONG_MAX > (LLONG_MAX - digit b) / 10 then LLONG_MAX
          else min v LLONG_MAX * 10 + digit b) = min (v * 10 + (b.toNat - 48)) LLONG_MAX := by
        have hd : digit b < 10 := by
          simp only [isdigit, Bool.and_eq_true, decide_eq_true_eq, UInt8.le_iff_toNat_le] at hb
          exact Nat.lt_of_le_of_lt (Nat.sub_le_sub_right hb.2 48) (by decide)
        have hmax : LLONG_MAX = 9223372036854775807 := rfl
        unfold digit at hd ⊢
        split <;> omega
      rw [if_pos hb, hstep, ih, takeWhile_cons_of_pos hb, dropWhile_cons_of_pos hb,
        foldl_cons, length_cons, Nat.add_assoc, Nat.add_comm 1]
    · rw [if_neg hb, takeWhile_cons_of_neg hb, dropWhile_cons_of_neg hb]
      rfl

lemma fpm_http_static_range_digits_eq (p : Bytes) :
    fpm_http_static_range_digits p = (min (digits_value (p.takeWhile isdigit)) LLONG_MAX,
      (p.takeWhile isdigit).length, p.dropWhile isdigit) := by
  rw [fpm_http_static_range_digits, show (0 : ℕ) = min 0 LLONG_MAX from rfl, range_digits_from_eq,
    Nat.zero_min, Nat.zero_add]
  rfl

lemma scan_stops {a : Bytes} (h : a.all isdigit = false) (rest : Bytes) :
    ∃ c ∈ a, ∃ l, (a ++ rest).dropWhile isdigit = c :: l := by
  induction a with
  | nil => exact nomatch h
  | cons c a ih =>
    by_cases hc : isdigit c = true
    · rw [all_cons, hc, Bool.true_and] at h
      obtain ⟨d, hd, l, hl⟩ := ih h
      exact ⟨d, .tail _ hd, l, by rw [← hl]; exact dropWhile_cons_of_pos hc⟩
    · exact ⟨c, .head _, a ++ rest, dropWhile_cons_of_neg hc⟩

lemma scan_through {a rest : Bytes} (h : a.all isdigit = true)
    (hrest : rest = [] ∨ rest.head? = some DASH) :
    (a ++ rest).takeWhile isdigit = a ∧ (a ++ rest).dropWhile isdigit = rest := by
  refine ByteScan.takeWhile_append_head (all_eq_true.mp h) ?_
  rintro c hc
  rcases hrest with rfl | hrest
  · exact nomatch hc
  · rw [← some.inj (hrest.symm.trans hc)]
    rfl

lemma parse_range_eq (value : Bytes) {len : ℕ} (hlen : len ≤ LLONG_MAX) :
    fpm_http_static_parse_range (some value) len =
      match single_range value with
      | none => .ignore
      | some spec => if spec.clamped then .unsatisfiable else spec.answer len := by
  have hmax : LLONG_MAX = 9223372036854775807 := rfl
  unfold fpm_http_static_parse_range single_range
  dsimp only
  split
  · rfl
  cases hcut : ByteScan.cut (· == DASH) (value.drop 6) with
  | none =>
    have hno : ∀ l : Bytes, l <:+ value.drop 6 → l.head? ≠ some DASH := fun l hl h => by
      simpa using (ByteScan.cut_eq_none_iff _ _).mp hcut _ (hl.subset (mem_of_mem_head? h))
    rw [if_neg (hno _ suffix_rfl), fpm_http_static_range_digits_eq]
    exact if_pos (.inr (hno _ (dropWhile_suffix _)))
  | some ab =>
    obtain ⟨a, b⟩ := ab
    obtain ⟨c, hc, htext, ha⟩ := ByteScan.cut_eq_some hcut
    obtain rfl : c = DASH := beq_iff_eq.mp hc
    simp only [htext, fpm_http_static_range_digits_eq, all_append]
    -- the digits behind the dash reach to the end, or the scan stops before it
    have hb : b.dropWhile isdigit = [] ∧ b.takeWhile isdigit = b ∧ b.all isdigit = true
        ∨ b.dropWhile isdigit ≠ [] ∧ b.all isdigit = false := by
      cases hall : b.all isdigit with
      | true =>
        have h := scan_through hall (.inl rfl)
        rw [append_nil] at h
        exact .inl ⟨h.2, h.1, rfl⟩
      | false =>
        obtain ⟨c, -, l, hl⟩ := scan_stops hall []
        rw [append_nil] at hl
        exact .inr ⟨by simp [hl], rfl⟩
    -- a suffix range has nothing in front of the dash
    rcases a with _ | ⟨c, a⟩
    · rcases hb with ⟨hdrop, htake, hall⟩ | ⟨hdrop, hall⟩
      · rcases b with _ | ⟨d, b⟩
        · rfl
        simp [hall, htake, hdrop, RangeSpec.answer, RangeSpec.clamped]
        split_ifs <;> first | rfl | omega | exact congrArg₂ Range.interval (by omega) rfl
      · simp [hall, hdrop]
    · have hhead : ¬ (c :: a ++ DASH :: b).head? = some DASH := by
        simpa using ha c (.head _)
      rw [if_neg hhead]
      cases hall : (c :: a).all isdigit with
      | false =>
        obtain ⟨d, hd, l, hl⟩ := scan_stops hall (DASH :: b)
        rw [hl, if_pos (.inr (by simpa using ha d hd))]
        rfl
      | true =>
        obtain ⟨htake, hdrop⟩ := @scan_through (c :: a) (DASH :: b) hall (.inr rfl)
        rw [htake, hdrop, if_neg (by simp), tail_cons]
        rcases hb with ⟨hdrop, htake, hall⟩ | ⟨hdrop, hall⟩
        · rw [htake, hdrop, if_neg (by simp)]
          rcases b with _ | ⟨d, b⟩
          · simp [RangeSpec.answer, RangeSpec.clamped]
            split_ifs <;> first | rfl | omega | exact congrArg₂ Range.interval (by omega) rfl
          · simp [hall, RangeSpec.answer, RangeSpec.clamped]
            split_ifs <;> first | rfl | omega | exact congrArg₂ Range.interval (by omega) (by omega)
        · simp [hall, hdrop]

lemma answer_inside {spec : RangeSpec} {len first last : ℕ}
    (h : spec.answer len = .interval first last) : first ≤ last ∧ last < len := by
  rcases spec with ⟨a, _ | b⟩ | n
  all_goals
    simp only [RangeSpec.answer] at h
    split_ifs at h
    cases h
    omega

/-- **The Range header.** For every header and every size of a file: the answer is the one
of the reference in unbounded numbers exactly unless the range ends before it begins and
both ends are clamped, and an interval lies inside the file. -/
theorem range_exact_iff (value : Option Bytes) (size : Fin (LLONG_MAX + 1)) :
    (fpm_http_static_parse_range value size = range_reference value size ↔
      ∀ spec ∈ value.bind single_range, spec.clamped = false) ∧
    ∀ first last, fpm_http_static_parse_range value size = .interval first last →
      first ≤ last ∧ last < size := by
  rcases value with _ | value
  · exact ⟨⟨fun _ _ h => (nomatch h), fun _ => rfl⟩, fun _ _ h => nomatch h⟩
  rw [parse_range_eq value (Nat.le_of_lt_succ size.isLt), range_reference, bind_some]
  rcases single_range value with _ | spec
  · simp
  cases hc : spec.clamped with
  | false =>
    simp only [Bool.false_eq_true, if_false, mem_some_iff, forall_eq', hc, iff_self, true_and]
    exact fun _ _ => answer_inside
  | true =>
    -- the reference ignores such a range
    rcases spec with ⟨a, _ | b⟩ | n
    · exact nomatch hc
    · rw [RangeSpec.clamped, Bool.and_eq_true, decide_eq_true_eq] at hc
      simp [RangeSpec.answer, RangeSpec.clamped, hc.1, decide_eq_true_eq.mp hc.2]
    · exact nomatch hc

/-- Both ends are past `LLONG_MAX`, and the last is below the first. -/
theorem range_inverted_unsatisfiable :
    fpm_http_static_parse_range (some (str "bytes=9223372036854775808-9223372036854775807")) 10
        = .unsatisfiable ∧
      range_reference (some (str "bytes=9223372036854775808-9223372036854775807")) 10 = .ignore := by
  decide

end FpmNg.StaticFile
