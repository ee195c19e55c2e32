/-
The directories a direct pool reads `.user.ini` from: `fpm_direct_user_ini_plan` of
`fpm_http_direct_user_ini.c`.

The walk goes over a copy of the script's directory in a buffer, and compares with a length
that has grown by the slash of another copy. So the buffer is modelled with what lies behind
the terminator, and the plan is asked not to depend on it.
-/
import FpmNg.StaticFile

open List Option Separated

namespace FpmNg.UserIni

open FpmNg.StaticFile

abbrev FPM_DIRECT_USER_INI_MAX_DEPTH : ℕ := 32

/-! ## The plan -/

/-- `strchr(buf + i, '/')`, as an offset into the buffer. -/
def strchr (buf : Bytes) (i : ℕ) : Option ℕ :=
  let t := cstr (buf.drop i)
  if SLASH ∈ t then some (i + (t.takeWhile (· != SLASH)).length) else none

/-- The loop, with so much room left in `file[]`. -/
def plan_walk (dir : Bytes) (dir_len : ℕ) : ℕ → Option ℕ → List Bytes
  -- the warning about the depth
  | 0, _ => []
  | room + 1, p =>
    let len := match p with
      | some p => p
      | none => dir_len
    let len := if len = 0 then 1 else len
    cstr (dir.take len) ::
      match p with
      | none => []
      | some p => if len = dir_len then [] else plan_walk dir dir_len room (strchr dir (p + 1))

/-- `fpm_direct_user_ini_plan`: the path for the per-directory sections and the directories.
`behind` is what the buffer holds behind the copy and its terminator. -/
def fpm_direct_user_ini_plan (root script behind : Bytes) : Option (Bytes × List Bytes) :=
  -- strrchr
  if SLASH ∉ script then none
  else
    let p := last_start SLASH script - 1
    if p < root.length then none
    else
      let dir_len := if p = 0 then 1 else p
      if dir_len ≥ PATH_MAX then none
      else
        let dir := script.take dir_len
        if dir_len + 2 > PATH_MAX then none
        else
          let path := if dir.getLast? = some SLASH then dir else dir ++ [SLASH]
          some (path, plan_walk (dir ++ 0 :: behind) path.length FPM_DIRECT_USER_INI_MAX_DEPTH
            (some (if root.length > 1 then root.length else 0)))

/-! ## What it is for -/

structure Site where
  root : List Bytes
  below : List Bytes
  name : Bytes
  proper : ∀ s ∈ root ++ below ++ [name], s ≠ [] ∧ SLASH ∉ s ∧ 0 ∉ s ∧ s ≠ str "." ∧ s ≠ str ".."
  depth : below.length < FPM_DIRECT_USER_INI_MAX_DEPTH

def Site.directories (x : Site) : List Bytes := x.below.inits.map fun l => path_text (x.root ++ l)

def Site.Planned (x : Site) : Prop :=
  ∀ behind, (fpm_direct_user_ini_plan (path_text x.root) (path_text (x.root ++ x.below ++ [x.name]))
    behind).map Prod.snd = some x.directories

/-! ## The walk -/

variable {pre rest : List Bytes} {behind : Bytes}

lemma cstr_append {x y : Bytes} (hx : 0 ∉ x) (hy : ∀ b ∈ y.head?, b = 0) : cstr (x ++ y) = x := by
  refine (ByteScan.takeWhile_append_head (fun b hb => ?_) (fun b hb => ?_)).1
  · rw [bne_iff_ne]
    rintro rfl
    exact hx hb
  · rw [hy b hb]
    rfl

lemma zero_not_mem {l : List Bytes} (h : ∀ s ∈ l, 0 ∉ s) : 0 ∉ joined l := by
  intro hmem
  obtain ⟨s, hs, h0⟩ := mem_flatMap.mp hmem
  rcases mem_cons.mp h0 with h0 | h0
  · exact nomatch h0
  · exact h s hs h0

lemma joined_append (a b : List Bytes) : joined (a ++ b) = joined a ++ joined b := flatMap_append

lemma joined_cons (s : Bytes) (l : List Bytes) : joined (s :: l) = SLASH :: (s ++ joined l) := rfl

lemma cstr_take (hpre : ∀ s ∈ pre, 0 ∉ s) (y : Bytes) :
    cstr ((joined pre ++ SLASH :: y).take
      (if (joined pre).length = 0 then 1 else (joined pre).length)) = path_text pre := by
  unfold path_text
  rcases pre with _ | ⟨s, l⟩
  · rfl
  · rw [if_neg (by simp [joined]), if_neg (by simp), take_left]
    have h := cstr_append (y := []) (zero_not_mem hpre) (by simp)
    rwa [append_nil] at h

/-- **The walk**, from the end of `pre` on: it records every directory down to the last. -/
theorem plan_walk_eq {room : ℕ} (hrest : rest ≠ []) (hslash : ∀ s ∈ rest, SLASH ∉ s)
    (hzero : ∀ s ∈ pre ++ rest, 0 ∉ s) (hroom : rest.length < room) :
    plan_walk (joined (pre ++ rest) ++ 0 :: behind) ((joined (pre ++ rest)).length + 1) room
      (some (joined pre).length) = rest.inits.map fun l => path_text (pre ++ l) := by
  induction rest generalizing pre room with
  | nil => exact absurd rfl hrest
  | cons s rest ih =>
    obtain ⟨room, rfl⟩ : ∃ n, room = n + 1 := ⟨room - 1, by omega⟩
    have hfirst := cstr_take (fun t ht => hzero t (mem_append_left _ ht))
      (s ++ joined rest ++ 0 :: behind)
    have hmem : joined (pre ++ s :: rest) ++ 0 :: behind =
        joined pre ++ SLASH :: (s ++ joined rest ++ 0 :: behind) := by
      simp [joined_append, joined_cons]
    have hlen : (joined (pre ++ s :: rest)).length =
        (joined pre).length + 1 + s.length + (joined rest).length := by
      simp [joined_append, joined_cons]
      omega
    -- the next slash, if there is one in front of the terminator
    have hnext : strchr (joined (pre ++ s :: rest) ++ 0 :: behind) ((joined pre).length + 1) =
        if rest = [] then none else some (joined (pre ++ [s])).length := by
      have hs0 : 0 ∉ s ++ joined rest := by
        rw [mem_append, not_or]
        exact ⟨hzero s (by simp), zero_not_mem fun t ht => hzero t (by simp [ht])⟩
      have hdrop : (joined pre ++ SLASH :: (s ++ joined rest ++ 0 :: behind)).drop
          ((joined pre).length + 1) = s ++ joined rest ++ 0 :: behind := by
        rw [drop_append]
        simp
      rw [strchr, hmem, hdrop, cstr_append hs0 (by simp), takeWhile_segment (hslash s (.head _)) (joined_ends _)]
      rcases rest with _ | ⟨t, rest⟩
      · simp [joined, hslash s (.head _)]
      · simp [joined, Nat.add_assoc, Nat.add_comm 1]
    rw [plan_walk, hnext, hlen]
    rw [hmem, hfirst, if_neg (by split <;> omega), inits, map_cons, append_nil, List.map_map]
    refine congrArg (path_text pre :: ·) ?_
    rw [← hmem, ← hlen]
    have hstep : joined (pre ++ s :: rest) = joined (pre ++ [s] ++ rest) := by simp
    by_cases hend : rest = []
    · obtain ⟨room, rfl⟩ : ∃ n, room = n + 1 := ⟨room - 1, by rw [hend] at hroom; simp at hroom; omega⟩
      have hall : 0 ∉ joined (pre ++ [s]) := zero_not_mem fun t ht => hzero t (by simpa [hend] using ht)
      rw [if_pos hend, hend, plan_walk, if_neg (Nat.succ_ne_zero _), take_length_add_append]
      simp [cstr_append (y := [0]) hall (by simp), path_text]
    · rw [if_neg hend, hstep, ih hend (fun t ht => hslash t (.tail _ ht)) (by simpa using hzero)
        (Nat.lt_of_succ_lt_succ hroom)]
      simp

/-! ## The plan -/

lemma last_not_slash {l : List Bytes} (hl : l ≠ []) (h : ∀ s ∈ l, s ≠ [] ∧ SLASH ∉ s) :
    (joined l).getLast? ≠ some SLASH := by
  obtain ⟨a, s, rfl⟩ := (eq_nil_or_concat l).resolve_left hl
  rw [concat_eq_append] at h ⊢
  obtain ⟨hne, hslash⟩ := h s (by simp)
  obtain ⟨b, t, rfl⟩ := exists_cons_of_ne_nil hne
  rw [joined_append, getLast?_append_of_ne_nil _ (by simp [joined])]
  intro hlast
  exact hslash (mem_of_getLast? (by simpa [joined] using hlast))

lemma length_text (l : List Bytes) (h : ∀ s ∈ l, s ≠ []) :
    (if (path_text l).length > 1 then (path_text l).length else 0) = (joined l).length ∧
      ((path_text l).length = 1 ∨ (path_text l).length = (joined l).length) := by
  rcases l with _ | ⟨s, l⟩
  · exact ⟨rfl, .inl rfl⟩
  · have hs := length_pos_iff.mpr (h s (.head _))
    have htext : path_text (s :: l) = joined (s :: l) := if_neg (by simp)
    rw [htext, if_pos (by rw [joined_cons]; simp; omega)]
    exact ⟨rfl, .inr rfl⟩

lemma plan_eq (x : Site) (hdir : x.root ++ x.below ≠ []) (behind : Bytes) :
    fpm_direct_user_ini_plan (path_text x.root) (path_text (x.root ++ x.below ++ [x.name])) behind =
      if PATH_MAX < (joined (x.root ++ x.below)).length + 2 then none
      else some (joined (x.root ++ x.below) ++ [SLASH],
        plan_walk (joined (x.root ++ x.below) ++ 0 :: behind) ((joined (x.root ++ x.below)).length + 1)
          FPM_DIRECT_USER_INI_MAX_DEPTH (some (joined x.root).length)) := by
  have hprop := fun s hs => x.proper s (mem_append_left [x.name] hs)
  have hname := x.proper x.name (by simp)
  have hscript : path_text (x.root ++ x.below ++ [x.name]) =
      joined (x.root ++ x.below) ++ SLASH :: x.name := by
    rw [path_text, if_neg (by simp), joined_append (x.root ++ x.below), joined_cons]
    simp [joined]
  have hlast : last_start SLASH (joined (x.root ++ x.below) ++ SLASH :: x.name) - 1 =
      (joined (x.root ++ x.below)).length := by
    rw [last_start_append hname.2.1, Nat.add_sub_cancel]
  obtain ⟨hstart, hle⟩ := length_text x.root fun s hs => (hprop s (mem_append_left _ hs)).1
  have hpos : 0 < (joined (x.root ++ x.below)).length := by
    obtain ⟨s, l, hs⟩ := exists_cons_of_ne_nil hdir
    simp [hs, joined]
  have hroot : ¬(joined (x.root ++ x.below)).length < (path_text x.root).length := by
    rw [joined_append, length_append] at hpos ⊢
    omega
  rw [fpm_direct_user_ini_plan, hscript, if_neg (by simp), hlast, hstart]
  simp only [if_neg hroot, if_neg (Nat.ne_of_gt hpos), take_left,
    if_neg (last_not_slash hdir fun s hs => ⟨(hprop s hs).1, (hprop s hs).2.1⟩), length_append,
    length_singleton]
  split
  · rw [if_pos (by omega)]
  · rfl

/-- **The plan is right unless the script lies in the root itself**, as long as the paths fit
into their buffers. -/
theorem planned_iff (x : Site) :
    x.Planned ↔ x.below ≠ [] ∧ (path_text (x.root ++ x.below)).length + 2 ≤ PATH_MAX := by
  have hprop := fun s hs => x.proper s (mem_append_left [x.name] hs)
  constructor
  · intro h
    have hplan := h []
    by_cases hdir : x.root ++ x.below = []
    · -- directly under `/` there is no plan
      have hlast := last_start_append (p := []) (x.proper x.name (by simp)).2.1
      rw [nil_append] at hlast
      obtain ⟨hroot, hbelow⟩ := append_eq_nil_iff.mp hdir
      simp [fpm_direct_user_ini_plan, hroot, hbelow, path_text, joined, hlast] at hplan
    · rw [plan_eq x hdir] at hplan
      split at hplan
      · simp at hplan
      rename_i hlen
      refine ⟨fun hbelow => ?_, by rw [path_text, if_neg hdir]; omega⟩
      -- the length in the test is not the root's, and there is nothing behind the terminator
      rw [hbelow, append_nil] at hdir
      have hpos : (joined x.root).length ≠ 0 := by
        obtain ⟨s, l, hs⟩ := exists_cons_of_ne_nil hdir
        simp [hs, joined]
      have hnext : strchr (joined x.root ++ [0]) ((joined x.root).length + 1) = none := by
        simp [strchr, cstr]
      have htwo := congrArg (Option.map length) hplan
      simp [plan_walk, hbelow, hpos, hnext, Site.directories] at htwo
  · rintro ⟨hbelow, hlen⟩ behind
    have hdir : x.root ++ x.below ≠ [] := append_ne_nil_of_right_ne_nil _ hbelow
    rw [path_text, if_neg hdir] at hlen
    rw [plan_eq x hdir, if_neg (Nat.not_lt.mpr hlen), map_some,
      plan_walk_eq hbelow (fun s hs => (hprop s (mem_append_right _ hs)).2.1)
        (fun s hs => (hprop s hs).2.2.1) x.depth]
    rfl

def front_controller : Site := ⟨[str "srv"], [], str "i.php", by decide, by decide⟩

/-- The root is there twice; how often depends on what the buffer held. -/
theorem root_planned_twice :
    fpm_direct_user_ini_plan (str "/srv") (str "/srv/i.php") [] =
        some (str "/srv/", [str "/srv", str "/srv"]) ∧
      fpm_direct_user_ini_plan (str "/srv") (str "/srv/i.php") (str "x/y") =
        some (str "/srv/", [str "/srv", str "/srv", str "/srv"]) ∧
      fpm_direct_user_ini_plan (str "/") (str "/i.php") [] = none ∧
      front_controller.directories = [str "/srv"] := by
  decide

end FpmNg.UserIni
