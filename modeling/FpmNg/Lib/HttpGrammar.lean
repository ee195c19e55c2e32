/-
The head of an HTTP/1.1 message as RFC 9112 writes it: lines ended by CRLF, a
request line of three parts, field lines `token ":" OWS value OWS`, and the
empty line behind them.

`parse_head` is the strict reader. `parse_head_render` says what it makes of a
head that was put together from parts without line ends, whatever else the parts
contain: it accepts exactly the heads whose parts are of the right shape.
-/
import FpmNg.Lib.ByteScan

open ByteScan List Option

namespace HttpGrammar

/-! ## Characters -/

/-- `tchar`: a letter, a digit, or one of the fifteen marks. -/
def tchar (b : UInt8) : Bool :=
  (48 ≤ b && b ≤ 57) || (65 ≤ b && b ≤ 90) || (97 ≤ b && b ≤ 122)
    || [33, 35, 36, 37, 38, 39, 42, 43, 45, 46, 94, 95, 96, 124, 126].contains b

/-- `VCHAR`. -/
def vchar (b : UInt8) : Bool := 33 ≤ b && b ≤ 126

/-- A byte of a field value with the white space around it: `VCHAR`, `obs-text`,
a space or a tab. -/
def field_byte (b : UInt8) : Bool := b == 9 || b == 32 || vchar b || 128 ≤ b

def is_token (l : List UInt8) : Bool := !l.isEmpty && l.all tchar

/-- The request target, at the level of the request line: one or more `VCHAR`. -/
def is_target (l : List UInt8) : Bool := !l.isEmpty && l.all vchar

def is_value (l : List UInt8) : Bool := l.all field_byte

/-- `HTTP/` DIGIT `.` DIGIT. -/
def is_version : List UInt8 → Bool
  | [72, 84, 84, 80, 47, major, 46, minor] =>
    (48 ≤ major && major ≤ 57) && (48 ≤ minor && minor ≤ 57)
  | _ => false

def ows (b : UInt8) : Bool := b == 32 || b == 9

def trim (l : List UInt8) : List UInt8 := ((l.dropWhile ows).reverse.dropWhile ows).reverse

lemma trim_eq_self {l : List UInt8} (h : ∀ b ∈ l, ows b = false) : trim l = l := by
  have hdrop : ∀ m : List UInt8, (∀ b ∈ m, ows b = false) → m.dropWhile ows = m := by
    intro m hm
    cases m with
    | nil => rfl
    | cons b m => rw [dropWhile_cons_of_neg (by simp [hm b])]
  unfold trim
  rw [hdrop l h, hdrop l.reverse (fun b hb => h b (mem_reverse.mp hb)), reverse_reverse]

/-- `1*DIGIT`, and its value. -/
def read_decimal (l : List UInt8) : Option ℕ :=
  if !l.isEmpty && l.all (fun b => 48 ≤ b && b ≤ 57) then
    some (l.foldl (fun v b => v * 10 + (b.toNat - 48)) 0)
  else none

/-! ## Lines -/

abbrev crlf : List UInt8 := [13, 10]

def line_safe (l : List UInt8) : Prop := ∀ b ∈ l, b ≠ 13 ∧ b ≠ 10

-- bytes are finite, so the search for an instance could also run over all of them
instance (l : List UInt8) : Decidable (line_safe l) :=
  decidableBAll (fun b => b ≠ 13 ∧ b ≠ 10) l

def next_line (s : List UInt8) : Option (List UInt8 × List UInt8) :=
  match cut (· == 10) s with
  | none => none
  | some (l, rest) =>
    if l.getLast? = some 13 ∧ (13 : UInt8) ∉ l.dropLast then some (l.dropLast, rest) else none

lemma next_line_render {l : List UInt8} (hl : line_safe l) (rest : List UInt8) :
    next_line (l ++ crlf ++ rest) = some (l, rest) := by
  have hbefore : ∀ b ∈ l ++ [13], (b == (10 : UInt8)) = false := by
    intro b hb
    rcases mem_append.mp hb with hb | hb
    · exact beq_eq_false_iff_ne.mpr (hl b hb).2
    · rw [mem_singleton.mp hb]
      rfl
  have hcut : cut (· == 10) (l ++ crlf ++ rest) = some (l ++ [13], rest) := by
    have := cut_append_cons hbefore (show ((10 : UInt8) == 10) = true from rfl) rest
    rw [← this]
    simp
  unfold next_line
  rw [hcut]
  dsimp only
  rw [dropLast_concat, getLast?_append, if_pos]
  · exact ⟨rfl, fun hmem => (hl 13 hmem).1 rfl⟩

/-! ## Fields -/

structure Field where
  name : List UInt8
  value : List UInt8
  deriving DecidableEq

def parse_field (line : List UInt8) : Option Field :=
  match cut (· == 58) line with
  | none => none
  | some (name, value) =>
    if is_token name && is_value value then some { name := name, value := trim value } else none

def field_line (name value : List UInt8) : List UInt8 := name ++ [58, 32] ++ value

lemma parse_field_render {name : List UInt8} (hname : (58 : UInt8) ∉ name) (value : List UInt8) :
    parse_field (field_line name value)
      = if is_token name && is_value value then some { name := name, value := trim value }
        else none := by
  have hbefore : ∀ b ∈ name, (b == (58 : UInt8)) = false := by
    intro b hb
    exact beq_eq_false_iff_ne.mpr fun h => hname (h ▸ hb)
  have hcut : cut (· == 58) (field_line name value) = some (name, 32 :: value) := by
    have := cut_append_cons hbefore (show ((58 : UInt8) == 58) = true from rfl) (32 :: value)
    rw [← this]
    simp [field_line]
  have hvalue : is_value (32 :: value) = is_value value := rfl
  have htrim : trim (32 :: value) = trim value := rfl
  unfold parse_field
  rw [hcut]
  dsimp only
  rw [hvalue, htrim]

/-- Field lines up to the empty line; `n` bounds their number. -/
def parse_fields : ℕ → List UInt8 → Option (List Field × List UInt8)
  | 0, _ => none
  | n + 1, s => do
    let (line, rest) ← next_line s
    if line = [] then some ([], rest)
    else do
      let f ← parse_field line
      let (fields, rest) ← parse_fields n rest
      some (f :: fields, rest)

/-- A list of name and value pairs as a field block, without its empty line. -/
def render_fields (fields : List (List UInt8 × List UInt8)) : List UInt8 :=
  fields.flatMap fun f => field_line f.1 f.2 ++ crlf

def well_formed (f : List UInt8 × List UInt8) : Bool := is_token f.1 && is_value f.2

def field_safe (f : List UInt8 × List UInt8) : Prop :=
  line_safe f.1 ∧ (58 : UInt8) ∉ f.1 ∧ line_safe f.2

lemma line_safe_field_line {f : List UInt8 × List UInt8} (h : field_safe f) :
    line_safe (field_line f.1 f.2) := by
  intro b hb
  simp only [field_line, mem_append, mem_cons, not_mem_nil, or_false] at hb
  rcases hb with (hb | rfl | rfl) | hb
  · exact h.1 b hb
  · decide
  · decide
  · exact h.2.2 b hb

/-- A rendered block is read back when every field is well formed, and refused
as a whole when one is not. -/
lemma parse_fields_render (fields : List (List UInt8 × List UInt8)) (hsafe : ∀ f ∈ fields, field_safe f)
    (body : List UInt8) (n : ℕ) (hn : fields.length < n) :
    parse_fields n (render_fields fields ++ crlf ++ body)
      = if fields.all well_formed then
          some (fields.map fun f => { name := f.1, value := trim f.2 }, body)
        else none := by
  induction fields generalizing n with
  | nil =>
    obtain ⟨m, rfl⟩ : ∃ m, n = m + 1 := ⟨n - 1, by simp at hn; omega⟩
    have hline := next_line_render (l := []) (by simp [line_safe]) body
    simp only [render_fields, flatMap_nil, nil_append] at hline ⊢
    rfl
  | cons f fields ih =>
    obtain ⟨m, rfl⟩ : ∃ m, n = m + 1 := ⟨n - 1, by simp at hn; omega⟩
    have hf : field_safe f := hsafe f (by simp)
    have hrest := ih (fun g hg => hsafe g (by simp [hg])) m (by simpa using hn)
    have hline := next_line_render (line_safe_field_line hf) (render_fields fields ++ crlf ++ body)
    have hshape : render_fields (f :: fields) ++ crlf ++ body
        = field_line f.1 f.2 ++ crlf ++ (render_fields fields ++ crlf ++ body) := by
      simp [render_fields]
    have hne : field_line f.1 f.2 ≠ [] := by simp [field_line]
    rw [hshape, parse_fields, hline, bind_eq_bind, bind_some]
    dsimp only
    rw [if_neg hne, parse_field_render hf.2.1, hrest]
    by_cases hwf : well_formed f
    · rw [show (is_token f.1 && is_value f.2) = true from hwf, if_pos rfl, all_cons, hwf,
        Bool.true_and]
      by_cases hall : fields.all well_formed
      · rw [if_pos hall, if_pos hall]
        rfl
      · rw [if_neg hall, if_neg hall]
        rfl
    · rw [show (is_token f.1 && is_value f.2) = false from by simpa [well_formed] using hwf,
        all_cons]
      simp [hwf]

/-! ## The head of a request -/

structure Head where
  method : List UInt8
  target : List UInt8
  fields : List Field
  deriving DecidableEq

def parse_request_line (line : List UInt8) : Option (List UInt8 × List UInt8) :=
  match cut (· == 32) line with
  | none => none
  | some (method, rest) =>
    match cut (· == 32) rest with
    | none => none
    | some (target, version) =>
      if is_token method && is_target target && is_version version then some (method, target)
      else none

def parse_head (s : List UInt8) : Option (Head × List UInt8) := do
  let (line, rest) ← next_line s
  let (method, target) ← parse_request_line line
  let (fields, rest) ← parse_fields rest.length rest
  some ({ method := method, target := target, fields := fields }, rest)

lemma tchar_ne_space {b : UInt8} (h : tchar b = true) : (b == (32 : UInt8)) = false := by
  rw [beq_eq_false_iff_ne]
  rintro rfl
  cases h

lemma vchar_ne_space {b : UInt8} (h : vchar b = true) : (b == (32 : UInt8)) = false := by
  rw [beq_eq_false_iff_ne]
  rintro rfl
  cases h

/-- A request line is read as its parts exactly when the target is one; a target
with a space in it is cut at the space, and what is left is no version. -/
lemma parse_request_line_render {method version : List UInt8} (hmethod : is_token method = true)
    (hversion : is_version version = true) (target : List UInt8) :
    parse_request_line (method ++ [32] ++ target ++ [32] ++ version)
      = if is_target target then some (method, target) else none := by
  have hm : ∀ b ∈ method, (b == (32 : UInt8)) = false := by
    intro b hb
    simp only [is_token, Bool.and_eq_true, List.all_eq_true] at hmethod
    exact tchar_ne_space (hmethod.2 b hb)
  have hcut : cut (· == 32) (method ++ [32] ++ target ++ [32] ++ version)
      = some (method, target ++ [32] ++ version) := by
    have := cut_append_cons hm (show ((32 : UInt8) == 32) = true from rfl)
      (target ++ [32] ++ version)
    rw [← this]
    simp
  unfold parse_request_line
  rw [hcut]
  dsimp only
  by_cases hspace : ∀ b ∈ target, (b == (32 : UInt8)) = false
  · have hcut' : cut (· == 32) (target ++ [32] ++ version) = some (target, version) := by
      have := cut_append_cons hspace (show ((32 : UInt8) == 32) = true from rfl) version
      rw [← this]
      simp
    rw [hcut']
    dsimp only
    rw [hmethod, hversion, Bool.true_and, Bool.and_true]
  · -- the version read is longer than a version
    have hno : is_target target = false := by
      rw [Bool.eq_false_iff]
      intro ht
      simp only [is_target, Bool.and_eq_true, List.all_eq_true] at ht
      exact hspace fun b hb => vchar_ne_space (ht.2 b hb)
    rw [hno, if_neg Bool.false_ne_true]
    cases hc : cut (· == 32) target with
    | none => exact absurd ((cut_eq_none_iff _ _).mp hc) hspace
    | some parts =>
      obtain ⟨x, y⟩ := parts
      have hcut' := cut_append_right hc ([32] ++ version)
      rw [append_assoc, hcut']
      dsimp only
      rw [if_neg]
      have hlen : ∀ l, is_version l = true → l.length = 8 := by
        intro l hl
        unfold is_version at hl
        split at hl
        · rfl
        · cases hl
      intro hall
      have hlong : is_version (y ++ ([32] ++ version)) = true := by
        simp only [Bool.and_eq_true] at hall
        exact hall.2
      have h1 := hlen _ hlong
      have h2 := hlen _ hversion
      simp only [length_append, length_singleton] at h1
      omega

theorem parse_head_render {method version : List UInt8} (hmethod : is_token method = true)
    (hversion : is_version version = true) (hversion_safe : line_safe version)
    (hmethod_safe : line_safe method) {target : List UInt8} (htarget : line_safe target)
    (fields : List (List UInt8 × List UInt8)) (hsafe : ∀ f ∈ fields, field_safe f) (body : List UInt8) :
    parse_head (method ++ [32] ++ target ++ [32] ++ version ++ crlf ++ render_fields fields
        ++ crlf ++ body)
      = if is_target target && fields.all well_formed then
          some ({ method := method, target := target,
                  fields := fields.map fun f => { name := f.1, value := trim f.2 } }, body)
        else none := by
  have hline_safe : line_safe (method ++ [32] ++ target ++ [32] ++ version) := by
    intro b hb
    simp only [mem_append, mem_singleton] at hb
    rcases hb with (((hb | rfl) | hb) | rfl) | hb
    · exact hmethod_safe b hb
    · decide
    · exact htarget b hb
    · decide
    · exact hversion_safe b hb
  have hline := next_line_render hline_safe (render_fields fields ++ crlf ++ body)
  have hcount : fields.length < (render_fields fields ++ crlf ++ body).length := by
    have hle : fields.length ≤ (render_fields fields).length := by
      clear hsafe hline
      induction fields with
      | nil => simp
      | cons f fields ih =>
        simp only [render_fields, flatMap_cons, length_append, length_cons] at ih ⊢
        omega
    simp only [length_append, length_cons]
    omega
  have hfields := parse_fields_render fields hsafe body _ hcount
  unfold parse_head
  rw [show method ++ [32] ++ target ++ [32] ++ version ++ crlf ++ render_fields fields ++ crlf
      ++ body = (method ++ [32] ++ target ++ [32] ++ version) ++ crlf
      ++ (render_fields fields ++ crlf ++ body) by simp only [append_assoc],
    hline, bind_eq_bind, bind_some]
  dsimp only
  rw [parse_request_line_render hmethod hversion, hfields]
  cases is_target target <;> cases fields.all well_formed <;> rfl

end HttpGrammar
