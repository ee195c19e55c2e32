/-
The hand-over of a spared pool's children across a selective reload:
`fpm_reload_selective.c`.

The old master writes the children of every unchanged pool into one environment
variable, a group `name:pid/start,pid/start` per pool and `;` between groups. The
new master's pools take their groups out of it again, by name and in whatever
order the pools start, and what nobody took is signalled at the end.

`Groups` is what the variable means: the groups still to be taken. Every function
is proved to do to the meaning what it is for, and the conservation of the
children is then an argument about groups.

Memory suffices in the new master. In the old one the two failures the source
handles are arguments of `fpm_reload_selective_spare_pool`.
-/
import FpmNg.Numbers
import FpmNg.Lib.Separated
import FpmNg.Lib.WhileLoop
import Mathlib.Data.List.Perm.Subperm

open ByteScan Separated WhileLoop List Option Prod

namespace FpmNg.ReloadSelective

/-! ## Children -/

/-- `struct fpm_child_s`, as far as the hand-over reads it. A worker is never
process 1, and `pid_t` is an `int`. `start` is what `fpm_pid_start_time` says
about it, `started` the clock of its fork. -/
structure Child where
  pid : ℕ
  start : ℕ
  started : ℕ
  pid_gt : 1 < pid
  pid_le : pid ≤ 2147483647
  start_le : start ≤ ULLONG_MAX
  deriving DecidableEq

/-- `struct fpm_reload_selective_carried_s`. -/
structure Carried where
  pid : Int
  start : ℕ
  deriving DecidableEq

def Child.carried (c : Child) : Carried := ⟨c.pid, c.start⟩

/-- The conversion of a `long` to `pid_t`. -/
def pid_t (v : Int) : Int := Int.bmod v 4294967296

/-- `fpm_worker_pool_s`: its name and its children. -/
structure Pool where
  name : Bytes
  children : List Child

/-- The search of `fpm_children_detach_oldest`. -/
def oldest : List Child → Option Child
  | [] => none
  | c :: l => some (l.foldl (fun o c => if c.started < o.started then c else o) c)

/-- `while ((child = fpm_children_detach_oldest(wp)) != NULL)`: the children in
the order they are detached; `n` bounds their number. -/
def detach_all : ℕ → List Child → List Child
  | 0, _ => []
  | n + 1, l =>
    match oldest l with
    | none => []
    | some c => c :: detach_all n (l.erase c)

/-! ## What a master does

The environment variable, and the calls that reach a process. -/

inductive Act where
  /-- `fpm_children_adopt`. -/
  | adopt (pool : Bytes) (c : Carried)
  /-- `fpm_reload_shm_drop_slot`: offered, but no longer the process it was. -/
  | drop_slot (pool : Bytes) (c : Carried)
  /-- `kill(pid, SIGTERM)`. -/
  | sigterm (c : Carried)
  deriving DecidableEq

structure Master where
  env : Option Bytes
  acts : List Act

/-- `fpm_pid_is_same(pid, start)`. No entry is asked about twice, so one answer
per entry also describes processes that exit between the questions. -/
abbrev IsSame := Int → ℕ → Bool

/-- One pass of the loop of `fpm_reload_selective_sigterm_list`: the text at `p`,
and the entries signalled. -/
def sigterm_pass (same : IsSame) (s : Bytes × List Carried) : Pass (Bytes × List Carried) :=
  if s.1.isEmpty then .leave s
  else
    let pid := strtol s.1
    let start := if pid.2.head? = some SLASH then strtoull pid.2.tail else (0, pid.2)
    -- kill(2) reads 0 and -1 as a process group and as everything
    let sent := decide (1 < pid.1) && same (pid_t pid.1) start.1
    .again ((start.2.dropWhile (· != COMMA)).tail,
      if sent then s.2 ++ [⟨pid_t pid.1, start.1⟩] else s.2)

/-- `fpm_reload_selective_sigterm_list`: the entries signalled, in order. -/
def fpm_reload_selective_sigterm_list (same : IsSame) (list : Bytes) : List Carried :=
  (loop (fun s => s.1.length) (sigterm_pass same) (list, [])).2

/-! ## The old master -/

/-- `!strpbrk(name, ":,;")`. -/
def fpm_reload_selective_name_ok (name : Bytes) : Bool :=
  name.all fun b => b != COLON && b != COMMA && b != SEMICOLON

/-- `"%d/%llu"`. -/
def entry (c : Child) : Bytes := decimal c.pid ++ SLASH :: decimal c.start

/-- The list the detach loop builds; `n ? "," : ""` is the state of the fold. -/
def pid_list (children : List Child) : Bytes :=
  (children.foldl (fun s c => (s.1 + 1, s.2 ++ (if s.1 = 0 then [] else [COMMA]) ++ entry c))
    (0, ([] : Bytes))).2

/-- `fpm_reload_selective_spare_pool`: what it returns, the pool and the master
afterwards. `alloc_ok` and `setenv_ok` are the success of the two allocations and
of `setenv`. -/
def fpm_reload_selective_spare_pool (same : IsSame) (alloc_ok setenv_ok : Bool) (wp : Pool)
    (m : Master) : Bool × Pool × Master :=
  if !fpm_reload_selective_name_ok wp.name then (false, wp, m)
  else if wp.children.isEmpty then (true, wp, m)
  else if !alloc_ok then (false, wp, m)
  else
    let pids := pid_list (detach_all wp.children.length wp.children)
    let group := wp.name ++ COLON :: pids
    let existing := m.env.getD []
    if !setenv_ok then
      (false, ⟨wp.name, []⟩,
        ⟨m.env, m.acts ++ (fpm_reload_selective_sigterm_list same pids).map .sigterm⟩)
    else
      (true, ⟨wp.name, []⟩,
        ⟨some (if existing.isEmpty then group else existing ++ SEMICOLON :: group), m.acts⟩)

/-! ## The new master -/

/-- The loop of `fpm_reload_selective_env_take`. -/
structure Scan where
  found : Option Bytes
  kept : Bytes

def scan_group (name : Bytes) (s : Scan) (group : Bytes) : Scan :=
  if s.found.isNone && (name ++ [COLON]).isPrefixOf group then
    { s with found := some (group.drop (name.length + 1)) }
  else if group.isEmpty then s
  else { s with kept := (if s.kept.isEmpty then [] else s.kept ++ [SEMICOLON]) ++ group }

/-- One entry of a list. No `/`: written by a binary that carried no start time. -/
def read_entry (t : Bytes) : Carried :=
  let pid := strtol t
  ⟨pid_t pid.1, if pid.2.head? = some SLASH then (strtoull pid.2.tail).1 else 0⟩

/-- `fpm_reload_selective_env_take`: the entries of the group, and the variable
without it. -/
def fpm_reload_selective_env_take (name : Bytes) (env : Option Bytes) :
    List Carried × Option Bytes :=
  let existing := env.getD []
  if existing.isEmpty then ([], env)
  else
    let s := (pieces SEMICOLON existing).foldl (scan_group name) ⟨none, []⟩
    match s.found with
    | none => ([], env)
    | some pids =>
      ((pieces COMMA pids).map read_entry, if s.kept.isEmpty then none else some s.kept)

def offer (same : IsSame) (name : Bytes) (c : Carried) : Act :=
  if same c.pid c.start then .adopt name c else .drop_slot name c

/-- `fpm_reload_selective_adopt`. -/
def fpm_reload_selective_adopt (same : IsSame) (name : Bytes) (m : Master) : Master :=
  let taken := fpm_reload_selective_env_take name m.env
  ⟨taken.2, m.acts ++ taken.1.map (offer same name)⟩

/-- One group of `fpm_reload_selective_sigterm_carried`. -/
def sigterm_group (same : IsSame) (group : Bytes) : List Carried :=
  match cut (· == COLON) group with
  | none => []
  | some (_, list) => fpm_reload_selective_sigterm_list same list

/-- `fpm_reload_selective_sigterm_carried`, and with it
`fpm_reload_selective_discard_unadopted`. -/
def fpm_reload_selective_discard_unadopted (same : IsSame) (m : Master) : Master :=
  let existing := m.env.getD []
  if existing.isEmpty then m
  else ⟨none, m.acts ++
    ((pieces SEMICOLON existing).flatMap (sigterm_group same)).map .sigterm⟩

/-! ## One entry -/

lemma oldest_mem {l : List Child} {c : Child} (h : oldest l = some c) : c ∈ l := by
  have hfold : ∀ (l : List Child) (o : Child),
      l.foldl (fun o c => if c.started < o.started then c else o) o ∈ o :: l := by
    intro l
    induction l with
    | nil => exact fun o => .head _
    | cons d l ih =>
      intro o
      rw [foldl_cons]
      split
      · exact .tail _ (ih d)
      · rcases mem_cons.mp (ih o) with hmem | hmem
        · rw [hmem]
          exact .head _
        · exact .tail _ (.tail _ hmem)
  cases l with
  | nil => simp [oldest] at h
  | cons d l =>
    rw [← some.inj h]
    exact hfold l d

lemma detach_all_perm (n : ℕ) (l : List Child) (h : l.length ≤ n) : (detach_all n l).Perm l := by
  induction n generalizing l with
  | zero => rw [length_eq_zero_iff.mp (Nat.le_zero.mp h)]; rfl
  | succ n ih =>
    rw [detach_all]
    cases hold : oldest l with
    | none =>
      cases l with
      | nil => rfl
      | cons d l => simp [oldest] at hold
    | some c =>
      have hmem := oldest_mem hold
      have hlen := length_erase_of_mem hmem
      exact (Perm.cons c (ih (l.erase c) (by omega))).trans (perm_cons_erase hmem).symm

lemma entry_bytes {c : Child} {b : UInt8} (hb : b ∈ entry c) : 47 ≤ b ∧ b ≤ 57 := by
  have hdigit : ∀ v, b ∈ decimal v → 47 ≤ b ∧ b ≤ 57 := by
    intro v hv
    obtain ⟨h1, h2⟩ := decimal_bytes v b hv
    exact ⟨UInt8.le_trans (by decide) h1, h2⟩
  rcases mem_append.mp hb with hb | hb
  · exact hdigit _ hb
  · rcases mem_cons.mp hb with rfl | hb
    · exact ⟨by decide, by decide⟩
    · exact hdigit _ hb

lemma entry_ne_nil (c : Child) : entry c ≠ [] := by simp [entry]

lemma comma_not_mem_entry (c : Child) : COMMA ∉ entry c :=
  fun h => absurd (entry_bytes h).1 (by decide)

lemma pid_t_child (c : Child) : pid_t (c.pid : Int) = c.pid := by
  have h := c.pid_le
  unfold pid_t
  rw [Int.bmod_def]
  omega

lemma isdigit_slash : isdigit SLASH = false := by decide

lemma strtol_entry (c : Child) (rest : Bytes) :
    strtol (entry c ++ rest) = ((c.pid : Int), SLASH :: (decimal c.start ++ rest)) := by
  have hle : c.pid ≤ LONG_MAX := Nat.le_trans c.pid_le (by decide)
  unfold entry
  rw [append_assoc, cons_append, strtol_decimal hle]
  intro b hb
  rw [← some.inj hb]
  exact isdigit_slash

theorem read_entry_entry (c : Child) : read_entry (entry c) = c.carried := by
  have hpid := strtol_entry c []
  rw [append_nil, append_nil] at hpid
  have hstart : strtoull (decimal c.start ++ []) = (c.start, []) :=
    strtoull_decimal c.start_le (by simp)
  rw [append_nil] at hstart
  unfold read_entry
  rw [hpid]
  simp only [head?_cons, tail_cons, if_true, hstart, pid_t_child]
  rfl

/-! ## A list of entries -/

lemma pid_list_eq (cs : List Child) : pid_list cs = [COMMA].intercalate (cs.map entry) := by
  have hfold : ∀ (cs : List Child) (n : ℕ) (t : Bytes),
      (cs.foldl (fun s c => (s.1 + 1, s.2 ++ (if s.1 = 0 then [] else [COMMA]) ++ entry c))
        (n + 1, t)).2 = t ++ cs.flatMap (fun c => COMMA :: entry c) := by
    intro cs
    induction cs with
    | nil => intro n t; simp
    | cons c cs ih =>
      intro n t
      rw [foldl_cons, ih, if_neg (by simp)]
      simp
  have hjoin : ∀ (c : Child) (cs : List Child), [COMMA].intercalate ((c :: cs).map entry) =
      entry c ++ cs.flatMap (fun c => COMMA :: entry c) := by
    intro c cs
    induction cs generalizing c with
    | nil => simp
    | cons d cs ih =>
      rw [map_cons, map_cons, intercalate_cons_cons, ← map_cons, ih d]
      simp
  cases cs with
  | nil => rfl
  | cons c cs =>
    rw [hjoin]
    unfold pid_list
    rw [foldl_cons, hfold]
    rfl

lemma pid_list_bytes {cs : List Child} {b : UInt8} (hb : b ∈ pid_list cs) : 44 ≤ b ∧ b ≤ 57 := by
  rw [pid_list_eq] at hb
  induction cs with
  | nil => simp at hb
  | cons c cs ih =>
    have hentry : b ∈ entry c → 44 ≤ b ∧ b ≤ 57 := fun h =>
      ⟨UInt8.le_trans (by decide) (entry_bytes h).1, (entry_bytes h).2⟩
    rcases cs with _ | ⟨d, cs⟩
    · rw [map_singleton, intercalate_singleton] at hb
      exact hentry hb
    · rw [map_cons, map_cons, intercalate_cons_cons, ← map_cons] at hb
      rcases mem_append.mp hb with hb | hb
      · rcases mem_append.mp hb with hb | hb
        · exact hentry hb
        · rw [mem_singleton.mp hb]
          exact ⟨by decide, by decide⟩
      · exact ih hb

theorem read_pid_list (cs : List Child) :
    (pieces COMMA (pid_list cs)).map read_entry = cs.map Child.carried := by
  rw [pid_list_eq, pieces_intercalate, List.map_map]
  · apply map_congr_left
    intro c _
    exact read_entry_entry c
  · intro l hl
    obtain ⟨c, -, rfl⟩ := mem_map.mp hl
    exact comma_not_mem_entry c
  · intro l hl
    obtain ⟨c, -, rfl⟩ := mem_map.mp hl
    exact entry_ne_nil c

lemma strtol_rest (s : Bytes) : (strtol s).2.length ≤ s.length := by
  unfold strtol
  cases h : subject s with
  | none => exact Nat.le_refl _
  | some r =>
    obtain ⟨minus, ds, rest⟩ := r
    have hrest := subject_rest h
    cases minus <;> exact hrest

lemma strtoull_rest (s : Bytes) : (strtoull s).2.length ≤ s.length := by
  unfold strtoull
  cases h : subject s with
  | none => exact Nat.le_refl _
  | some r =>
    have hrest := subject_rest h
    dsimp only
    split
    · exact hrest
    · split <;> exact hrest

def entry_rest (p : Bytes) : Bytes :=
  ((if (strtol p).2.head? = some SLASH then strtoull (strtol p).2.tail
    else (0, (strtol p).2)).2.dropWhile (· != COMMA)).tail

lemma entry_rest_lt {p : Bytes} (h : p ≠ []) : (entry_rest p).length < p.length := by
  have hpos := length_pos_iff.mpr h
  have hpid := strtol_rest p
  have hend : (if (strtol p).2.head? = some SLASH then strtoull (strtol p).2.tail
      else (0, (strtol p).2)).2.length ≤ p.length := by
    split
    · have hstart := strtoull_rest (strtol p).2.tail
      rw [length_tail] at hstart
      omega
    · exact hpid
  unfold entry_rest
  rw [length_tail]
  have hdrop := (dropWhile_sublist (· != COMMA) (l := (if (strtol p).2.head? = some SLASH
    then strtoull (strtol p).2.tail else (0, (strtol p).2)).2)).length_le
  omega

variable (same : IsSame)

lemma sigterm_decreases :
    Decreases (fun s : Bytes × List Carried => s.1.length) (sigterm_pass same)
      (fun _ => True) := by
  refine ⟨fun _ _ _ _ => trivial, ?_⟩
  rintro ⟨p, sent⟩ s' _ h
  unfold sigterm_pass at h
  split at h
  · simp at h
  · rename_i hne
    rw [← Pass.again.inj h]
    exact entry_rest_lt (by simpa using hne)

lemma sigterm_pass_entry (c : Child) (rest : Bytes) (sent : List Carried)
    (h : rest = [] ∨ rest.head? = some COMMA) :
    sigterm_pass same (entry c ++ rest, sent) = .again (rest.tail,
      sent ++ [c.carried].filter fun d => same d.pid d.start) := by
  have hne : ¬ (entry c ++ rest).isEmpty = true := by simp [entry]
  have hdigit : ∀ b, rest.head? = some b → isdigit b = false := by
    intro b hb
    rcases h with rfl | h
    · simp at hb
    · rw [← some.inj (h.symm.trans hb)]
      decide
  have hskip : rest.dropWhile (· != COMMA) = rest := by
    rcases rest with _ | ⟨b, rest⟩
    · rfl
    · rcases h with h | h
      · simp at h
      · rw [some.inj h, dropWhile_cons_of_neg (by simp)]
  have hgt : (1 : Int) < c.pid := by exact_mod_cast c.pid_gt
  unfold sigterm_pass
  rw [if_neg hne]
  rw [strtol_entry]
  simp only [head?_cons, tail_cons, if_true, strtoull_decimal c.start_le hdigit, hskip,
    pid_t_child, hgt, decide_true, Bool.true_and]
  cases hsame : same c.pid c.start <;> simp [Child.carried, hsame]

theorem sigterm_pid_list (cs : List Child) :
    fpm_reload_selective_sigterm_list same (pid_list cs) =
      (cs.map Child.carried).filter fun d => same d.pid d.start := by
  have hrun : ∀ (cs : List Child) (sent : List Carried),
      (loop (fun s => s.1.length) (sigterm_pass same) (pid_list cs, sent)).2 =
        sent ++ (cs.map Child.carried).filter fun d => same d.pid d.start := by
    intro cs
    induction cs with
    | nil =>
      intro sent
      rw [loop_unfold (sigterm_decreases same) _ trivial]
      simp [sigterm_pass, pid_list]
    | cons c cs ih =>
      intro sent
      obtain ⟨rest, hrest, htail, htext⟩ : ∃ rest : Bytes, (rest = [] ∨ rest.head? = some COMMA) ∧
          rest.tail = pid_list cs ∧ pid_list (c :: cs) = entry c ++ rest := by
        rw [pid_list_eq, pid_list_eq]
        rcases cs with _ | ⟨d, cs⟩
        · exact ⟨[], .inl rfl, rfl, by simp⟩
        · refine ⟨COMMA :: [COMMA].intercalate ((d :: cs).map entry), .inr rfl, rfl, ?_⟩
          rw [map_cons, map_cons, intercalate_cons_cons, ← map_cons]
          simp
      rw [loop_unfold (sigterm_decreases same) _ trivial, htext,
        sigterm_pass_entry same c rest sent hrest]
      rw [htail, ih, map_cons, append_assoc, ← filter_append]
      rfl
  exact (hrun cs []).trans (nil_append _)

/-! ## What the variable means -/

abbrev Groups := List (Bytes × List Child)

def group_text (g : Bytes × List Child) : Bytes := g.1 ++ COLON :: pid_list g.2

def encode (gs : Groups) : Bytes := [SEMICOLON].intercalate (gs.map group_text)

structure Carries (env : Option Bytes) (gs : Groups) : Prop where
  text : env.getD [] = encode gs
  names : (gs.map fst).Nodup
  name_ok : ∀ g ∈ gs, fpm_reload_selective_name_ok g.1 = true
  full : ∀ g ∈ gs, g.2 ≠ []

lemma name_ok_bytes {name : Bytes} (h : fpm_reload_selective_name_ok name = true) :
    COLON ∉ name ∧ SEMICOLON ∉ name := by
  unfold fpm_reload_selective_name_ok at h
  rw [List.all_eq_true] at h
  constructor
  · intro hmem
    exact nomatch h _ hmem
  · intro hmem
    exact nomatch h _ hmem

lemma colon_not_mem_pid_list (cs : List Child) : COLON ∉ pid_list cs :=
  fun h => absurd (pid_list_bytes h).2 (by decide)

variable {g : Bytes × List Child}

lemma semicolon_not_mem_group (h : fpm_reload_selective_name_ok g.1 = true) :
    SEMICOLON ∉ group_text g := by
  intro hmem
  rcases mem_append.mp hmem with hmem | hmem
  · exact (name_ok_bytes h).2 hmem
  · rcases mem_cons.mp hmem with hmem | hmem
    · cases hmem
    · exact absurd (pid_list_bytes hmem).2 (by decide)

lemma group_ne_nil (g : Bytes × List Child) : group_text g ≠ [] := by simp [group_text]

lemma groups_ne_nil (gs : Groups) : ∀ l ∈ gs.map group_text, l ≠ [] := by
  intro l hl
  obtain ⟨g, -, rfl⟩ := mem_map.mp hl
  exact group_ne_nil g

variable {gs : Groups}

lemma encode_eq_nil : encode gs = [] ↔ gs = [] := by
  unfold encode
  rw [intercalate_eq_nil (groups_ne_nil gs), map_eq_nil_iff]

lemma encode_concat (gs : Groups) (g : Bytes × List Child) :
    encode (gs ++ [g]) =
      (if (encode gs).isEmpty then [] else encode gs ++ [SEMICOLON]) ++ group_text g := by
  by_cases h : gs = []
  · subst h
    simp [encode]
  · have hne : ¬ (encode gs).isEmpty = true := by
      rw [List.isEmpty_iff, encode_eq_nil]
      exact h
    rw [if_neg hne]
    unfold encode
    rw [map_append, map_singleton, intercalate_concat (by simpa using h),
      append_assoc, singleton_append]

lemma pieces_encode (h : ∀ g ∈ gs, fpm_reload_selective_name_ok g.1 = true) :
    pieces SEMICOLON (encode gs) = gs.map group_text := by
  apply pieces_intercalate
  · intro l hl
    obtain ⟨g, hg, rfl⟩ := mem_map.mp hl
    exact semicolon_not_mem_group (h g hg)
  · exact groups_ne_nil gs

lemma group_prefix_iff (h : fpm_reload_selective_name_ok g.1 = true) (name : Bytes) :
    (name ++ [COLON]).isPrefixOf (group_text g) = true ↔ g.1 = name := by
  rw [List.isPrefixOf_iff_prefix]
  constructor
  · rintro ⟨t, ht⟩
    rw [append_assoc, singleton_append] at ht
    -- the only colon of the group stands behind the pool's name
    rcases append_eq_append_iff.mp ht with ⟨u, hname, hrest⟩ | ⟨u, hname, hrest⟩
    · rcases u with _ | ⟨b, u⟩
      · rw [hname, append_nil]
      · rw [cons_append, cons.injEq] at hrest
        have hmem : COLON ∈ g.1 := by
          rw [hname, hrest.1]
          simp
        exact absurd hmem (name_ok_bytes h).1
    · rcases u with _ | ⟨b, u⟩
      · rw [hname, append_nil]
      · rw [cons_append, cons.injEq] at hrest
        have hmem : COLON ∈ pid_list g.2 := by
          rw [hrest.2]
          simp
        exact absurd hmem (colon_not_mem_pid_list g.2)
  · rintro rfl
    exact ⟨pid_list g.2, by simp [group_text]⟩

/-! ## Taking a group -/

lemma scan_groups {name : Bytes} (hok : ∀ g ∈ gs, fpm_reload_selective_name_ok g.1 = true)
    (hnames : (gs.map fst).Nodup) :
    (gs.map group_text).foldl (scan_group name) ⟨none, []⟩ =
      ⟨(gs.find? fun g => g.1 = name).map fun g => pid_list g.2,
        encode (gs.filter fun g => g.1 ≠ name)⟩ := by
  induction gs using reverseRecOn with
  | nil => rfl
  | append_singleton gs g ih =>
    have hg : fpm_reload_selective_name_ok g.1 = true := hok g (by simp)
    rw [map_append, nodup_append] at hnames
    obtain ⟨hnames, -, hdisj⟩ := hnames
    rw [map_append, foldl_append,
      ih (fun k hk => hok k (mem_append_left _ hk)) hnames, map_singleton,
      foldl_cons, foldl_nil, find?_append, filter_append]
    unfold scan_group
    by_cases hname : g.1 = name
    · -- names are distinct, so no group in front of it matched
      have hnone : gs.find? (fun k => decide (k.1 = name)) = none := by
        rw [find?_eq_none]
        intro k hk
        have hne := hdisj k.1 (mem_map_of_mem hk) g.1 (by simp)
        simpa [hname] using hne
      have hdrop : (group_text g).drop (name.length + 1) = pid_list g.2 := by
        rw [← hname]
        unfold group_text
        rw [drop_append]
        simp
      rw [hnone, (group_prefix_iff hg name).mpr hname]
      simp [hname, hdrop]
    · have hpre : (name ++ [COLON]).isPrefixOf (group_text g) = false := by
        rw [← Bool.not_eq_true, group_prefix_iff hg]
        exact hname
      rw [hpre, Bool.and_false]
      simp only [Bool.false_eq_true, if_false, List.isEmpty_iff, group_ne_nil]
      simp [hname, encode_concat]

def group_of (gs : Groups) (name : Bytes) : List Child :=
  (gs.filter fun g => g.1 = name).flatMap snd

lemma group_of_eq (hnames : (gs.map fst).Nodup) (name : Bytes) :
    group_of gs name = ((gs.find? fun g => g.1 = name).map snd).getD [] := by
  unfold group_of
  induction gs with
  | nil => rfl
  | cons g gs ih =>
    rw [map_cons, nodup_cons] at hnames
    by_cases hname : g.1 = name
    · have hnone : gs.filter (fun k => decide (k.1 = name)) = [] := by
        rw [filter_eq_nil_iff]
        intro k hk hkn
        apply hnames.1
        rw [hname, ← of_decide_eq_true hkn]
        exact mem_map_of_mem hk
      simp [hname, hnone]
    · simp [hname, ih hnames.2]

lemma carries_filter {env env' : Option Bytes} (h : Carries env gs)
    {q : Bytes × List Child → Bool} (henv : env'.getD [] = encode (gs.filter q)) :
    Carries env' (gs.filter q) where
  text := henv
  names := h.names.sublist ((filter_sublist).map _)
  name_ok := fun g hg => h.name_ok g (mem_filter.mp hg).1
  full := fun g hg => h.full g (mem_filter.mp hg).1

lemma getD_kept (kept : Bytes) :
    (if kept.isEmpty then none else some kept : Option Bytes).getD [] = kept := by
  split
  · rename_i h
    exact (List.isEmpty_iff.mp h).symm
  · rfl

variable {env : Option Bytes}

theorem env_take_spec (h : Carries env gs) (name : Bytes) :
    (fpm_reload_selective_env_take name env).1 = (group_of gs name).map Child.carried ∧
      Carries (fpm_reload_selective_env_take name env).2 (gs.filter fun g => g.1 ≠ name) := by
  have hunchanged : gs.find? (fun g => decide (g.1 = name)) = none →
      gs.filter (fun g => decide (g.1 ≠ name)) = gs := by
    intro hnone
    rw [filter_eq_self]
    intro g hg
    simpa using find?_eq_none.mp hnone g hg
  rw [group_of_eq h.names]
  unfold fpm_reload_selective_env_take
  by_cases hempty : (env.getD []).isEmpty = true
  · -- nothing is carried
    rw [if_pos hempty]
    rw [List.isEmpty_iff, h.text, encode_eq_nil] at hempty
    subst hempty
    exact ⟨rfl, h⟩
  · rw [if_neg hempty, h.text, pieces_encode h.name_ok, scan_groups h.name_ok h.names]
    cases hfind : gs.find? (fun g => decide (g.1 = name)) with
    | none =>
      refine ⟨rfl, ?_⟩
      rw [hunchanged hfind]
      exact h
    | some g =>
      exact ⟨read_pid_list g.2, carries_filter h (getD_kept _)⟩

/-! ## The acts of a run -/

def Act.offered : Act → Option (Bytes × Carried)
  | .adopt pool c => some (pool, c)
  | .drop_slot pool c => some (pool, c)
  | .sigterm _ => none

def Act.adopted : Act → Option (Bytes × Carried)
  | .adopt pool c => some (pool, c)
  | _ => none

def Act.signalled : Act → Option Carried
  | .sigterm c => some c
  | _ => none

def entries (gs : Groups) : List (Bytes × Carried) :=
  gs.flatMap fun g => g.2.map fun c => (g.1, c.carried)

lemma filterMap_map_some {α β γ : Type} {f : α → β} {g : β → Option γ} {k : α → γ}
    (h : ∀ a, g (f a) = some (k a)) (l : List α) : (l.map f).filterMap g = l.map k := by
  rw [filterMap_map]
  exact filterMap_eq_map_iff_forall_eq_some.mpr fun a _ => h a

lemma filterMap_map_none {α β γ : Type} {f : α → β} {g : β → Option γ}
    (h : ∀ a, g (f a) = none) (l : List α) : (l.map f).filterMap g = [] := by
  rw [filterMap_map, filterMap_eq_nil_iff]
  exact fun a _ => h a

lemma offered_offer (name : Bytes) (c : Carried) :
    (offer same name c).offered = some (name, c) := by
  unfold offer
  split <;> rfl

lemma signalled_offer (name : Bytes) (c : Carried) :
    (offer same name c).signalled = none := by
  unfold offer
  split <;> rfl

lemma adopted_offers (name : Bytes) (cs : List Carried) :
    (cs.map (offer same name)).filterMap Act.adopted =
      ((cs.map (offer same name)).filterMap Act.offered).filter fun x => same x.2.pid x.2.start := by
  induction cs with
  | nil => rfl
  | cons c cs ih =>
    rw [map_cons, filterMap_cons, filterMap_cons, offered_offer, ih]
    unfold offer
    cases hsame : same c.pid c.start <;> simp [Act.adopted, hsame]

lemma entries_group (gs : Groups) (name : Bytes) :
    entries (gs.filter fun g => g.1 = name) =
      ((group_of gs name).map Child.carried).map fun c => (name, c) := by
  unfold entries group_of
  rw [List.map_map, map_flatMap]
  apply flatMap_congr
  intro g hg
  rw [of_decide_eq_true (mem_filter.mp hg).2]
  rfl

/-! ## The new master's run -/

/-- What holds while the pools of the new master start: `names` have adopted, and
`gs` is what the old master handed over. -/
structure Adopting (same : IsSame) (gs : Groups) (before : List Act) (names : List Bytes)
    (m : Master) : Prop where
  carries : Carries m.env (gs.filter fun g => g.1 ∉ names)
  offered : (m.acts.filterMap Act.offered).Perm
    (before.filterMap Act.offered ++ entries (gs.filter fun g => g.1 ∈ names))
  adopted : ∃ acts, m.acts = before ++ acts ∧ acts.filterMap Act.signalled = [] ∧
    acts.filterMap Act.adopted =
      (acts.filterMap Act.offered).filter fun x => same x.2.pid x.2.start

variable {m : Master}

lemma adopting_step {same : IsSame} {before : List Act} {names : List Bytes}
    (h : Adopting same gs before names m) (name : Bytes) :
    Adopting same gs before (names ++ [name]) (fpm_reload_selective_adopt same name m) := by
  obtain ⟨htaken, hcarries⟩ := env_take_spec h.carries name
  obtain ⟨acts, hacts, hsig, hadopt⟩ := h.adopted
  have hoffers : ((group_of (gs.filter fun g => g.1 ∉ names) name).map Child.carried).map
      (fun c => (name, c)) = entries ((gs.filter fun g => g.1 ∉ names).filter fun g => g.1 = name) :=
    (entries_group _ name).symm
  refine ⟨?_, ?_, ?_⟩
  · -- what is left in the environment is of the names not asked for yet
    rw [List.filter_filter] at hcarries
    have hfilter : gs.filter (fun g => decide (g.1 ∉ names ++ [name])) =
        gs.filter (fun g => decide (g.1 ≠ name) && decide (g.1 ∉ names)) := by
      apply filter_congr
      intro g _
      simp [and_comm]
    rw [hfilter]
    exact hcarries
  · -- the groups of `names`, and the one taken now, are those of `names ++ [name]`
    have hsplit := filter_append_perm (fun g : Bytes × List Child => decide (g.1 ∈ names))
      (gs.filter fun g => decide (g.1 ∈ names ++ [name]))
    rw [List.filter_filter, List.filter_filter] at hsplit
    have hin : gs.filter (fun g => decide (g.1 ∈ names) && decide (g.1 ∈ names ++ [name])) =
        gs.filter fun g => decide (g.1 ∈ names) := by
      apply filter_congr
      intro g _
      by_cases hg : g.1 ∈ names <;> simp [hg]
    have hout : gs.filter (fun g => (!decide (g.1 ∈ names)) && decide (g.1 ∈ names ++ [name])) =
        (gs.filter fun g => g.1 ∉ names).filter fun g => g.1 = name := by
      rw [List.filter_filter]
      apply filter_congr
      intro g _
      by_cases hg : g.1 ∈ names <;> simp [hg]
    rw [hin, hout] at hsplit
    have hentries : (entries (gs.filter fun g => g.1 ∈ names) ++
        entries ((gs.filter fun g => g.1 ∉ names).filter fun g => g.1 = name)).Perm
          (entries (gs.filter fun g => g.1 ∈ names ++ [name])) := by
      unfold entries
      rw [← flatMap_append]
      exact hsplit.flatMap_right _
    unfold fpm_reload_selective_adopt
    dsimp only
    rw [htaken, filterMap_append, filterMap_map_some (offered_offer same name), hoffers]
    refine (h.offered.append_right _).trans ?_
    rw [append_assoc]
    exact hentries.append_left _
  · refine ⟨acts ++ ((group_of (gs.filter fun g => g.1 ∉ names) name).map Child.carried).map
      (offer same name), ?_, ?_, ?_⟩
    · unfold fpm_reload_selective_adopt
      dsimp only
      rw [htaken, hacts, append_assoc]
    · rw [filterMap_append, hsig, filterMap_map_none (signalled_offer same name)]
      rfl
    · rw [filterMap_append, filterMap_append, filter_append, hadopt,
        adopted_offers]

theorem adopting_run (h : Carries m.env gs) (names : List Bytes) :
    Adopting same gs m.acts names
      (names.foldl (fun m name => fpm_reload_selective_adopt same name m) m) := by
  induction names using reverseRecOn with
  | nil =>
    refine ⟨?_, ?_, [], by simp, rfl, rfl⟩
    · have hall : gs.filter (fun g => decide (g.1 ∉ ([] : List Bytes))) = gs := by simp
      rw [hall]
      exact h
    · simp [entries]
  | append_singleton names name ih =>
    rw [foldl_append]
    exact adopting_step ih name

theorem sigterm_groups (h : Carries env gs) :
    (pieces SEMICOLON (env.getD [])).flatMap (sigterm_group same) =
      ((entries gs).map snd).filter fun d => same d.pid d.start := by
  have hgroup : ∀ g ∈ gs, sigterm_group same (group_text g) =
      (g.2.map Child.carried).filter fun d => same d.pid d.start := by
    intro g hg
    have hcut : cut (· == COLON) (group_text g) = some (g.1, pid_list g.2) := by
      apply cut_append_cons _ (by decide)
      intro b hb
      rw [beq_eq_false_iff_ne]
      rintro rfl
      exact (name_ok_bytes (h.name_ok g hg)).1 hb
    unfold sigterm_group
    rw [hcut]
    exact sigterm_pid_list same g.2
  rw [h.text, pieces_encode h.name_ok, flatMap_map]
  unfold entries
  rw [map_flatMap, filter_flatMap]
  apply flatMap_congr
  intro g hg
  rw [hgroup g hg, List.map_map]
  rfl

theorem discard_spec (h : Carries m.env gs) :
    (fpm_reload_selective_discard_unadopted same m).env.getD [] = [] ∧
      (fpm_reload_selective_discard_unadopted same m).acts = m.acts ++
        (((entries gs).map snd).filter fun d => same d.pid d.start).map .sigterm := by
  unfold fpm_reload_selective_discard_unadopted
  dsimp only
  split
  · rename_i hempty
    rw [List.isEmpty_iff] at hempty
    have hnil := hempty
    rw [h.text, encode_eq_nil] at hnil
    subst hnil
    exact ⟨hempty, by simp [entries]⟩
  · refine ⟨rfl, ?_⟩
    rw [sigterm_groups same h]

/-! ## The old master's run -/

/-- One call of `fpm_reload_selective_spare_pool`. -/
structure SpareCall where
  pool : Pool
  alloc_ok : Bool
  setenv_ok : Bool

namespace SpareCall

def handed (c : SpareCall) : Bool :=
  fpm_reload_selective_name_ok c.pool.name && c.alloc_ok && c.setenv_ok

/-- The children are detached, but `setenv` failed. -/
def abandoned (c : SpareCall) : Bool :=
  fpm_reload_selective_name_ok c.pool.name && c.alloc_ok && !c.setenv_ok

def group (c : SpareCall) : Groups :=
  if c.handed && !c.pool.children.isEmpty then
    [(c.pool.name, detach_all c.pool.children.length c.pool.children)]
  else []

def given_up (c : SpareCall) : List Carried :=
  if c.abandoned then (detach_all c.pool.children.length c.pool.children).map Child.carried else []

def run (same : IsSame) (m : Master) (c : SpareCall) : Master :=
  (fpm_reload_selective_spare_pool same c.alloc_ok c.setenv_ok c.pool m).2.2

end SpareCall

lemma detach_all_ne_nil {l : List Child} (h : l ≠ []) : detach_all l.length l ≠ [] := by
  intro hnil
  have hperm := detach_all_perm l.length l (Nat.le_refl _)
  rw [hnil] at hperm
  exact h hperm.symm.eq_nil

lemma mem_group {c : SpareCall} (h : g ∈ c.group) :
    g.1 = c.pool.name ∧ fpm_reload_selective_name_ok g.1 = true ∧ g.2 ≠ [] := by
  unfold SpareCall.group at h
  split at h
  · rename_i hcond
    rw [mem_singleton] at h
    subst h
    simp only [SpareCall.handed, Bool.and_eq_true, Bool.not_eq_true'] at hcond
    exact ⟨rfl, hcond.1.1.1, detach_all_ne_nil (by simpa using hcond.2)⟩
  · simp at h

theorem spare_pool_spec (c : SpareCall) (h : Carries m.env gs)
    (hname : c.pool.name ∉ gs.map fst) :
    Carries (c.run same m).env (gs ++ c.group) ∧
      (c.run same m).acts = m.acts ++
        (c.given_up.filter fun d => same d.pid d.start).map .sigterm := by
  have htext : (c.run same m).env.getD [] = encode (gs ++ c.group) ∧
      (c.run same m).acts = m.acts ++
        (c.given_up.filter fun d => same d.pid d.start).map .sigterm := by
    unfold SpareCall.run SpareCall.group SpareCall.given_up SpareCall.handed SpareCall.abandoned
      fpm_reload_selective_spare_pool
    cases fpm_reload_selective_name_ok c.pool.name with
    | false => simp [h.text]
    | true =>
      by_cases hnil : c.pool.children = []
      · simp [hnil, h.text, detach_all]
      have hne : c.pool.children.isEmpty = false := by simpa using hnil
      cases c.alloc_ok with
      | false => simp [hne, h.text]
      | true =>
        cases c.setenv_ok with
        | false => simp [hne, h.text, sigterm_pid_list]
        | true =>
          -- the group goes behind what the variable holds
          simp only [hne, Bool.not_true, Bool.not_false, Bool.and_true, Bool.and_false,
            Bool.false_eq_true, if_false, if_true, encode_concat, h.text]
          constructor
          · cases hgs : (encode gs).isEmpty <;> simp [group_text]
          · simp
  have hgroup : ∀ g ∈ gs ++ c.group, g ∈ gs ∨ g ∈ c.group := fun g hg => mem_append.mp hg
  refine ⟨⟨htext.1, ?_, ?_, ?_⟩, htext.2⟩
  · rw [map_append, nodup_append]
    refine ⟨h.names, ?_, ?_⟩
    · unfold SpareCall.group
      split <;> simp
    · rintro a ha b hb rfl
      obtain ⟨g, hg, rfl⟩ := mem_map.mp hb
      rw [(mem_group hg).1] at ha
      exact hname ha
  · intro g hg
    rcases hgroup g hg with hg | hg
    · exact h.name_ok g hg
    · exact (mem_group hg).2.1
  · intro g hg
    rcases hgroup g hg with hg | hg
    · exact h.full g hg
    · exact (mem_group hg).2.2

theorem spare_run (henv : env.getD [] = []) (calls : List SpareCall)
    (hnames : (calls.map fun c => c.pool.name).Nodup) :
    Carries (calls.foldl (SpareCall.run same) ⟨env, []⟩).env (calls.flatMap SpareCall.group) ∧
      (calls.foldl (SpareCall.run same) ⟨env, []⟩).acts =
        ((calls.flatMap SpareCall.given_up).filter fun d => same d.pid d.start).map .sigterm := by
  induction calls using reverseRecOn with
  | nil => exact ⟨⟨henv, by simp, by simp, by simp⟩, rfl⟩
  | append_singleton calls c ih =>
    rw [map_append, nodup_append] at hnames
    obtain ⟨hcarries, hacts⟩ := ih hnames.1
    -- the group of an earlier call has another name
    have hname : c.pool.name ∉ (calls.flatMap SpareCall.group).map fst := by
      intro hmem
      obtain ⟨g, hg, hgname⟩ := mem_map.mp hmem
      obtain ⟨d, hd, hgd⟩ := mem_flatMap.mp hg
      rw [(mem_group hgd).1] at hgname
      exact hnames.2.2 _ (mem_map_of_mem hd) c.pool.name (by simp) hgname
    obtain ⟨hcarries', hacts'⟩ := spare_pool_spec same c hcarries hname
    rw [foldl_append, flatMap_append, flatMap_append, foldl_cons,
      foldl_nil, flatMap_singleton, flatMap_singleton]
    refine ⟨hcarries', ?_⟩
    rw [hacts', hacts, filter_append, map_append]

/-! ## Conservation -/

def spared (calls : List SpareCall) : List (Bytes × Carried) :=
  (calls.filter SpareCall.handed).flatMap fun c =>
    c.pool.children.map fun d => (c.pool.name, d.carried)

/-- The children of pools for which `setenv` failed. -/
def abandoned (calls : List SpareCall) : List Carried :=
  (calls.filter SpareCall.abandoned).flatMap fun c => c.pool.children.map Child.carried

/-- The whole reload: the old master's calls, the pools of the new configuration
in the order they start, and the end of the new master's start. -/
def handoff (same : IsSame) (calls : List SpareCall) (names : List Bytes) (m : Master) : Master :=
  fpm_reload_selective_discard_unadopted same
    (names.foldl (fun m name => fpm_reload_selective_adopt same name m)
      (calls.foldl (SpareCall.run same) m))

/-- Every child handed over is offered once, to the pool of its own name, or
signalled once if no pool of that name starts and it is still the same process;
adopted is what was offered and is the same process; nothing else is adopted or
signalled, except the children the old master had to give up; and the variable is
empty. -/
structure Conserved (same : IsSame) (calls : List SpareCall) (names : List Bytes) (m : Master) :
    Prop where
  env_empty : m.env.getD [] = []
  offered : (m.acts.filterMap Act.offered).Perm ((spared calls).filter fun x => x.1 ∈ names)
  adopted : m.acts.filterMap Act.adopted =
    (m.acts.filterMap Act.offered).filter fun x => same x.2.pid x.2.start
  signalled : (m.acts.filterMap Act.signalled).Perm
    ((abandoned calls ++ ((spared calls).filter fun x => x.1 ∉ names).map snd).filter
      fun d => same d.pid d.start)

lemma flatMap_filter_ite {α β : Type} (q : α → Bool) (f : α → List β) (l : List α) :
    (l.filter q).flatMap f = l.flatMap fun a => if q a then f a else [] := by
  induction l with
  | nil => rfl
  | cons a l ih =>
    rw [filter_cons, flatMap_cons]
    split
    · rw [flatMap_cons, ih]
    · rw [ih, nil_append]

lemma entries_groups_perm (calls : List SpareCall) :
    (entries (calls.flatMap SpareCall.group)).Perm (spared calls) := by
  unfold entries spared
  rw [flatMap_assoc, flatMap_filter_ite]
  apply Perm.flatMap_left
  intro c _
  have hperm := detach_all_perm c.pool.children.length c.pool.children (Nat.le_refl _)
  unfold SpareCall.group
  by_cases hh : c.handed = true
  · by_cases hnil : c.pool.children = []
    · simp [hnil]
    · have hne : c.pool.children.isEmpty = false := by simpa using hnil
      simp only [hh, hne, Bool.not_false, Bool.and_true, if_true, flatMap_singleton]
      exact hperm.map _
  · simp [hh]

lemma given_up_perm (calls : List SpareCall) :
    (calls.flatMap SpareCall.given_up).Perm (abandoned calls) := by
  unfold abandoned
  rw [flatMap_filter_ite]
  apply Perm.flatMap_left
  intro c _
  unfold SpareCall.given_up
  split
  · exact (detach_all_perm _ _ (Nat.le_refl _)).map _
  · rfl

lemma entries_filter (gs : Groups) (q : Bytes → Bool) :
    entries (gs.filter fun g => q g.1) = (entries gs).filter fun x => q x.1 := by
  unfold entries
  rw [flatMap_filter_ite, filter_flatMap]
  apply flatMap_congr
  intro g _
  rw [List.filter_map]
  cases hq : q g.1 <;> simp [Function.comp_def, hq]

/-- **The hand-over conserves the children**, for any pools with distinct names,
any pools in the new configuration and any order of their start. -/
theorem children_conserved (same : IsSame) (calls : List SpareCall)
    (hnames : (calls.map fun c => c.pool.name).Nodup) (names : List Bytes) (env : Option Bytes)
    (henv : env.getD [] = []) :
    Conserved same calls names (handoff same calls names ⟨env, []⟩) := by
  obtain ⟨hcarries, hspare⟩ := spare_run same henv calls hnames
  have hadopt := adopting_run same hcarries names
  obtain ⟨henv', hdiscard⟩ := discard_spec same hadopt.carries
  obtain ⟨acts, hacts, hsig, hadopted⟩ := hadopt.adopted
  have hsigterm : ∀ c : Carried, (Act.sigterm c).offered = none := fun _ => rfl
  have hsigterm' : ∀ c : Carried, (Act.sigterm c).adopted = none := fun _ => rfl
  have hsignalled : ∀ c : Carried, (Act.sigterm c).signalled = some c := fun _ => rfl
  refine ⟨henv', ?_, ?_, ?_⟩
  · unfold handoff
    rw [hdiscard, filterMap_append, filterMap_map_none hsigterm, append_nil]
    refine hadopt.offered.trans ?_
    rw [hspare, filterMap_map_none hsigterm, nil_append,
      entries_filter _ fun n => decide (n ∈ names)]
    exact (entries_groups_perm calls).filter _
  · unfold handoff
    rw [hdiscard, hacts, hspare, filterMap_append, filterMap_append,
      filterMap_append, filterMap_append, filterMap_map_none hsigterm,
      filterMap_map_none hsigterm, filterMap_map_none hsigterm', filterMap_map_none hsigterm',
      nil_append, append_nil, nil_append, append_nil, hadopted]
  · unfold handoff
    rw [hdiscard, hacts, hspare, filterMap_append, filterMap_append, hsig,
      append_nil, filterMap_map_some hsignalled, filterMap_map_some hsignalled,
      List.map_id', List.map_id', ← filter_append]
    apply Perm.filter
    refine (given_up_perm calls).append ?_
    rw [entries_filter _ fun n => decide (n ∉ names)]
    exact ((entries_groups_perm calls).filter _).map _

def two_pools : List SpareCall :=
  [⟨⟨str "www", [⟨812, 4711, 2, by decide, by decide, by decide⟩,
      ⟨811, 4710, 1, by decide, by decide, by decide⟩]⟩, true, true⟩,
    ⟨⟨str "www2", [⟨900, 0, 5, by decide, by decide, by decide⟩]⟩, true, true⟩]

example : (two_pools.foldl (SpareCall.run fun _ _ => true) ⟨none, []⟩).env =
    some (str "www:811/4710,812/4711;www2:900/0") := by decide +kernel

theorem children_conserved_two_pools :
    (two_pools.map fun c => c.pool.name).Nodup ∧
      Conserved (fun _ _ => true) two_pools [str "www2"]
        (handoff (fun _ _ => true) two_pools [str "www2"] ⟨none, []⟩) :=
  ⟨by decide, children_conserved _ _ (by decide) _ _ rfl⟩

end FpmNg.ReloadSelective
