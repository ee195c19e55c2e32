/-
The guard of a selective reload: `fpm_reload_selective_guard.c`.

Between the exec and the adoption the spared workers have no master. The old master
leaves a guard behind, which holds the read end of a pipe. The write end goes on to
the new master, through the exec, and by fork to everything that master forks. The
new master writes one byte when it is done. The guard reads either that byte, or the
end of file that comes when the last copy of the write end is gone.

The world is the list of the processes that come out of the old master, each with its
copy of the descriptor, of the static that knows its number and of the two
environment variables; the guard, which is at one place of its own code; and the
process table, from which the kernel answers `/proc/<pid>/stat` and `kill`. The run
begins at the end of the double fork. From there every process takes its steps in any
order, and any of them dies at any point. A pid is used again only after its process
was reaped, and the new process has a later start time.

`pipe`, `fork` and `write` succeed, and nobody but the processes themselves touches
their descriptors.
-/
import FpmNg.ReloadSelective
import FpmNg.Lib.Runs

open ByteScan Separated Runs List Option Function

namespace FpmNg.ReloadGuard

open ReloadSelective

/-! ## The value in the environment -/

structure Pipe where
  fd : ℕ
  ino : ℕ
  deriving DecidableEq

/-- `"%d/%lu"`. -/
def guard_value (g : Pipe) : Bytes := decimal g.fd ++ SLASH :: decimal g.ino

/-- `fpm_reload_selective_guard_parse`. -/
def fpm_reload_selective_guard_parse (value : Bytes) : Option Pipe :=
  let n := strtol value
  if n.2 = value ∨ n.2.head? ≠ some SLASH ∨ n.1 < 3 ∨ 65536 < n.1 then none
  else
    -- unsigned long and unsigned long long are both 64 bits wide
    let ino := strtoull n.2.tail
    if ino.2.isEmpty then some ⟨n.1.toNat, ino.1⟩ else none

/-- **The new master reads what the old one wrote**, if the descriptor is one it
takes. -/
theorem guard_parse_value {g : Pipe} (hlow : 3 ≤ g.fd) (hhigh : g.fd ≤ 65536)
    (hino : g.ino ≤ ULLONG_MAX) :
    fpm_reload_selective_guard_parse (guard_value g) = some g := by
  have hslash : ∀ b, (SLASH :: decimal g.ino).head? = some b → isdigit b = false := by
    intro b hb
    obtain rfl : SLASH = b := some.inj hb
    decide
  have hlong : g.fd ≤ LONG_MAX := Nat.le_trans hhigh (by decide)
  have hfd : strtol (guard_value g) = ((g.fd : Int), SLASH :: decimal g.ino) :=
    strtol_decimal hlong hslash
  have hino : strtoull (decimal g.ino) = (g.ino, []) := by
    have h : strtoull (decimal g.ino ++ []) = (g.ino, []) := strtoull_decimal hino (by simp)
    rwa [append_nil] at h
  have hmore : SLASH :: decimal g.ino ≠ guard_value g := by
    intro heq
    have hlen := congrArg length heq
    have hpos := length_pos_iff.mpr (decimal_ne_nil g.fd)
    rw [guard_value, length_append] at hlen
    omega
  unfold fpm_reload_selective_guard_parse
  simp only [hfd, tail_cons, hino]
  rw [if_neg]
  · rfl
  · rintro (h | h | h | h)
    · exact hmore h
    · exact h rfl
    · omega
    · omega

/-! ## Processes -/

/-- `fpm_reload_selective_sigterm_carried` on its way through the list: the entry
whose check has just passed, and the entries to come. -/
structure Sweep where
  passed : Option Carried
  todo : List Carried
  deriving DecidableEq

inductive Role where
  /-- The old master, in `waitpid` for the intermediate process `i`. -/
  | waiting (i : ℕ)
  /-- The intermediate process, after its own fork. -/
  | intermediate
  /-- The old master, before `execvp`. -/
  | execing
  /-- The old master, before the attempt through `/proc/self/exe`. -/
  | retrying
  /-- The new image, before `fpm_reload_selective_guard_init_main`. -/
  | booting
  /-- The new master, in `fpm_init`. -/
  | starting
  /-- What the new master was before it went into the background. -/
  | daemon_parent
  /-- The new master, in `fpm_run`: it adopts and forks. -/
  | serving
  /-- A master in `fpm_reload_selective_discard_unadopted`. -/
  | discarding (s : Sweep)
  /-- A master after it. -/
  | released
  /-- A child or a gateway, before `fpm_reload_selective_guard_child_init`. -/
  | newborn
  /-- A child or a gateway after it, and what these fork. -/
  | worker
  /-- Gone, by `exit(0)` or otherwise. -/
  | gone (ok : Bool)
  deriving DecidableEq

structure Proc where
  role : Role
  /-- The write end is open in this process. -/
  write_end : Bool
  /-- `fpm_reload_selective_guard_fd` and `fpm_reload_selective_guard_ino`. -/
  guard_fd : Option Pipe
  /-- `FPMNG_SELECTIVE_RELOAD_GUARD`. -/
  guard_env : Option Bytes
  /-- `FPMNG_SELECTIVE_RELOAD_SURVIVORS`. -/
  survivors : Option Bytes
  deriving DecidableEq

/-- `fpm_reload_selective_guard_fd_is_pipe`, in a process. -/
def fpm_reload_selective_guard_fd_is_pipe (pipe : Pipe) (p : Proc) (g : Pipe) : Bool :=
  p.write_end && g == pipe

def fpm_reload_selective_guard_init_main (pipe : Pipe) (p : Proc) : Proc :=
  match p.guard_env with
  | none => p
  | some value =>
    match fpm_reload_selective_guard_parse value with
    | none => { p with guard_env := none }
    | some g =>
      if fpm_reload_selective_guard_fd_is_pipe pipe p g then
        { p with guard_env := none, guard_fd := some g }
      else { p with guard_env := none }

/-- `fpm_reload_selective_guard_release`, and whether it wrote the byte. -/
def fpm_reload_selective_guard_release (pipe : Pipe) (p : Proc) : Proc × Bool :=
  match p.guard_fd with
  | none => (p, false)
  | some g =>
    if fpm_reload_selective_guard_fd_is_pipe pipe p g then
      ({ p with guard_fd := none, write_end := false }, true)
    else ({ p with guard_fd := none }, false)

def fpm_reload_selective_guard_child_init (pipe : Pipe) (p : Proc) : Proc :=
  match p.guard_fd with
  | none => p
  | some g =>
    if fpm_reload_selective_guard_fd_is_pipe pipe p g then
      { p with guard_fd := none, write_end := false }
    else { p with guard_fd := none }

/-! ## The process table -/

abbrev Table := Int → Option ℕ

/-- `fpm_pid_start_time`. `readable`: `/proc` is there and could be read. -/
def fpm_pid_start_time (readable : Bool) (table : Table) (pid : Int) : ℕ :=
  if readable then (table pid).getD 0 else 0

/-- `fpm_pid_is_same`. Every process may be signalled, so `kill(pid, 0)` says whether
there is one. -/
def fpm_pid_is_same (readable : Bool) (table : Table) (pid : Int) (start : ℕ) : Bool :=
  if start = 0 then (table pid).isSome else fpm_pid_start_time readable table pid == start

/-- A `SIGTERM`: the entry it is for, and the start time of the process it reaches. -/
abbrev Signal := Carried × ℕ

/-- The entries `fpm_reload_selective_sigterm_carried` goes through. -/
def sigterm_entries (env : Option Bytes) : List Carried :=
  (pieces SEMICOLON (env.getD [])).flatMap (sigterm_group fun _ _ => true)

namespace Sweep

def start (env : Option Bytes) : Sweep := ⟨none, sigterm_entries env⟩

def done (s : Sweep) : Bool := s.passed.isNone && s.todo.isEmpty

/-- The check of an entry and its `kill` are two system calls, and anything may
happen between them. -/
def step (readable : Bool) (table : Table) (s : Sweep) : Sweep × List Signal :=
  match s.passed, s.todo with
  | some c, todo => (⟨none, todo⟩, ((table c.pid).map fun b => (c, b)).toList)
  | none, c :: todo =>
    (⟨if fpm_pid_is_same readable table c.pid c.start then some c else none, todo⟩, [])
  | none, [] => (s, [])

end Sweep

/-! ## What a process does -/

inductive Act where
  | exit
  | waitpid
  | execvp (ok : Bool)
  | init_main
  | daemonize
  | fpm_run
  | adopt (name : Bytes)
  | fork_child
  | child_init
  /-- A fork in a worker: a watchdog, or whatever its script starts. -/
  | fork
  | discard_unadopted
  /-- The next system call of the sweep. -/
  | sweep (readable : Bool)
  | release
  deriving DecidableEq

/-- What an act does: the process afterwards, the processes it forked, whether it
wrote the byte, and the signals it sent. -/
structure Effect where
  self : Proc
  born : List Proc
  wrote : Bool
  signals : List Signal

namespace Effect

def become (p : Proc) : Effect := ⟨p, [], false, []⟩

def forks (p child : Proc) : Effect := ⟨p, [child], false, []⟩

end Effect

def discard (p : Proc) : Proc :=
  { p with role := .discarding (Sweep.start p.survivors), survivors := none }

/-- A process is replaced by a new image: its statics are fresh, its descriptors and
its environment stay. -/
def exec (p : Proc) : Proc := { p with role := .booting, guard_fd := none }

/-- The end of `fpm_reload_selective_guard_arm`, with the status of the intermediate
process. -/
def armed (pipe : Pipe) (ok : Bool) (p : Proc) : Proc :=
  if ok then { p with role := .execing, guard_fd := some pipe }
  else { p with role := .execing, write_end := false, guard_env := none }

/-- `none`: the process is not at a place where it does this. `status` is what
`waitpid` would say. -/
def effect (pipe : Pipe) (table : Table) (status : ℕ → Option Bool) (p : Proc) (a : Act) :
    Option Effect :=
  match p.role, a with
  | .waiting i, .waitpid => (status i).map fun ok => .become (armed pipe ok p)
  | .execing, .execvp ok => some (.become (if ok then exec p else { p with role := .retrying }))
  | .retrying, .execvp ok => some (.become (if ok then exec p else discard p))
  | .booting, .init_main =>
    some (.become { fpm_reload_selective_guard_init_main pipe p with role := .starting })
  | .starting, .daemonize => some (.forks { p with role := .daemon_parent } p)
  | .starting, .fpm_run => some (.become { p with role := .serving })
  | .serving, .adopt name =>
    some (.become { p with survivors := (fpm_reload_selective_env_take name p.survivors).2 })
  | .serving, .fork_child => some (.forks p { p with role := .newborn })
  | .released, .fork_child => some (.forks p { p with role := .newborn })
  | .newborn, .child_init =>
    some (.become { fpm_reload_selective_guard_child_init pipe p with role := .worker })
  | .worker, .fork => some (.forks p p)
  -- a failed start, the end of the initial fork loop, and the exit of a master
  | .starting, .discard_unadopted => some (.become (discard p))
  | .serving, .discard_unadopted => some (.become (discard p))
  | .released, .discard_unadopted => some (.become (discard p))
  | .discarding s, .sweep readable =>
    if s.done then none
    else
      let next := s.step readable table
      some ⟨{ p with role := .discarding next.1 }, [], false, next.2⟩
  | .discarding s, .release =>
    if s.done then
      let after := fpm_reload_selective_guard_release pipe p
      some ⟨{ after.1 with role := .released }, [], after.2, []⟩
    else none
  | .intermediate, .exit => some (.become { p with role := .gone true, write_end := false })
  | .daemon_parent, .exit => some (.become { p with role := .gone true, write_end := false })
  | .released, .exit => some (.become { p with role := .gone true, write_end := false })
  | .worker, .exit => some (.become { p with role := .gone true, write_end := false })
  | _, _ => none

/-! ## The guard -/

inductive Phase where
  /-- Before `close(wfd)`. -/
  | starting (env : Option Bytes)
  /-- At its `read`. -/
  | reading (env : Option Bytes)
  /-- After the end of file, in `fpm_reload_selective_sigterm_carried`. -/
  | sweeping (s : Sweep)
  /-- Gone after the byte, or after an error of `read`. -/
  | quit
  /-- Gone after the sweep. -/
  | finished
  deriving DecidableEq

/-- What `read(rfd, &byte, 1)` returns. -/
inductive Got where
  | byte
  | eof
  | eintr
  | error

/-- One pass of the loop in `fpm_reload_selective_guard_main`. -/
def after_read (env : Option Bytes) : Got → Phase
  | .byte => .quit
  | .eof => .sweeping (Sweep.start env)
  | .eintr => .reading env
  | .error => .quit

/-! ## The world -/

structure World where
  pipe : Pipe
  procs : List Proc
  /-- The byte was written. Only the guard reads, and it reads once. -/
  byte : Bool
  guard : Phase
  table : Table
  /-- The start time of the next process. -/
  clock : ℕ
  guard_log : List Signal
  master_log : List Signal

inductive Event where
  /-- Process `i` does `a`. -/
  | act (i : ℕ) (a : Act)
  /-- Process `i` is killed. -/
  | die (i : ℕ)
  /-- The guard takes its next step. -/
  | guard (readable : Bool)
  /-- A signal interrupts the guard's `read`. -/
  | interrupt
  /-- The process that has `pid` is gone and reaped. -/
  | reap (pid : Int)
  /-- A process somewhere in the system gets `pid`. -/
  | spawn (pid : Int)
  deriving DecidableEq

namespace World

def held (w : World) : Bool := w.procs.any Proc.write_end

/-- What `waitpid` says about process `i`. -/
def status (w : World) (i : ℕ) : Option Bool :=
  match w.procs[i]?.map Proc.role with
  | some (.gone ok) => some ok
  | _ => none

/-- The kernel's side of `read`: the data first, then the end of file if nobody is
left to write. `none`: the guard waits. The guard itself closed its copy before. -/
def pipe_read (w : World) : Option Got :=
  if w.byte then some .byte else if w.held then none else some .eof

def act (w : World) (i : ℕ) (a : Act) : World :=
  match w.procs[i]? with
  | none => w
  | some p =>
    match effect w.pipe w.table w.status p a with
    | none => w
    | some e =>
      { w with
        procs := w.procs.set i e.self ++ e.born
        byte := w.byte || e.wrote
        master_log := w.master_log ++ e.signals }

def killed (p : Proc) : Proc :=
  match p.role with
  | .gone _ => p
  | _ => { p with role := .gone false, write_end := false }

def guard_step (w : World) (readable : Bool) : World :=
  match w.guard with
  | .starting env => { w with guard := .reading env }
  | .reading env =>
    match w.pipe_read with
    | none => w
    | some got => { w with guard := after_read env got }
  | .sweeping s =>
    if s.done then { w with guard := .finished }
    else
      let next := s.step readable w.table
      { w with guard := .sweeping next.1, guard_log := w.guard_log ++ next.2 }
  | .quit => w
  | .finished => w

def step (w : World) : Event → World
  | .act i a => w.act i a
  | .die i => { w with procs := w.procs.modify i killed }
  | .guard readable => w.guard_step readable
  | .interrupt =>
    match w.guard with
    | .reading env => { w with guard := after_read env .eintr }
    | _ => w
  | .reap pid => { w with table := update w.table pid none }
  | .spawn pid =>
    if (w.table pid).isSome then w
    else { w with table := update w.table pid (some w.clock), clock := w.clock + 1 }

end World

/-- What the old master has when it has forked the guard: the pipe, the groups it
carries, and the processes there are. No two of its children have one pid. -/
structure Start where
  pipe : Pipe
  ino_le : pipe.ino ≤ ULLONG_MAX
  env : Option Bytes
  groups : Groups
  carries : Carries env groups
  pids : ((entries groups).map fun x => x.2.pid).Nodup
  table : Table
  clock : ℕ
  older : ∀ pid b, table pid = some b → 0 < b ∧ b < clock

namespace Start

def carried (s : Start) : List Carried := (entries s.groups).map Prod.snd

def world (s : Start) : World :=
  { pipe := s.pipe
    procs := [⟨.waiting 1, true, none, some (guard_value s.pipe), s.env⟩,
      ⟨.intermediate, true, none, some (guard_value s.pipe), s.env⟩]
    byte := false
    guard := .starting s.env
    table := s.table
    clock := s.clock
    guard_log := []
    master_log := [] }

end Start

/-! ## What the functions do to the descriptor -/

@[simp] lemma init_main_write_end (pipe : Pipe) (p : Proc) :
    (fpm_reload_selective_guard_init_main pipe p).write_end = p.write_end := by
  unfold fpm_reload_selective_guard_init_main
  split
  · rfl
  · split
    · rfl
    · split <;> rfl

variable {p : Proc}

lemma child_init_write_end (pipe : Pipe) (h : p.write_end = false) :
    (fpm_reload_selective_guard_child_init pipe p).write_end = false := by
  unfold fpm_reload_selective_guard_child_init
  split
  · exact h
  · split
    · rfl
    · exact h

lemma release_write_end (pipe : Pipe) (h : p.write_end = false) :
    (fpm_reload_selective_guard_release pipe p).1.write_end = false ∧
      (fpm_reload_selective_guard_release pipe p).2 = false := by
  unfold fpm_reload_selective_guard_release
  split
  · exact ⟨h, rfl⟩
  · rw [if_neg (by simp [fpm_reload_selective_guard_fd_is_pipe, h])]
    exact ⟨h, rfl⟩

lemma armed_write_end (pipe : Pipe) (ok : Bool) (h : p.write_end = false) :
    (armed pipe ok p).write_end = false := by
  unfold armed
  split
  · exact h
  · rfl

variable {pipe : Pipe}

theorem effect_write_end {table : Table} {status : ℕ → Option Bool} {a : Act} {e : Effect}
    (h : effect pipe table status p a = some e) (hp : p.write_end = false) :
    e.self.write_end = false ∧ (∀ q ∈ e.born, q.write_end = false) ∧ e.wrote = false := by
  have hborn : ∀ {l : List Proc}, l = [] → ∀ q ∈ l, q.write_end = false := by
    rintro l rfl q hq
    exact absurd hq not_mem_nil
  unfold effect at h
  split at h
  -- waitpid
  case h_1 =>
    obtain ⟨ok, -, rfl⟩ := map_eq_some_iff.mp h
    exact ⟨armed_write_end pipe ok hp, hborn rfl, rfl⟩
  -- the first execvp
  case h_2 =>
    cases h
    refine ⟨?_, hborn rfl, rfl⟩
    split <;> exact hp
  -- the second execvp
  case h_3 =>
    cases h
    refine ⟨?_, hborn rfl, rfl⟩
    split <;> exact hp
  -- init_main
  case h_4 =>
    cases h
    exact ⟨(init_main_write_end pipe p).trans hp, hborn rfl, rfl⟩
  -- child_init
  case h_10 =>
    cases h
    exact ⟨child_init_write_end pipe hp, hborn rfl, rfl⟩
  -- a call of the sweep
  case h_15 =>
    split at h
    · simp at h
    · cases h
      exact ⟨hp, hborn rfl, rfl⟩
  -- release
  case h_16 =>
    split at h
    · cases h
      exact ⟨(release_write_end pipe hp).1, hborn rfl, (release_write_end pipe hp).2⟩
    · simp at h
  -- not at such a place
  case h_21 => simp at h
  -- what is left only moves the process on, forks a copy of it or ends it
  all_goals
    cases h
    simp [Effect.become, Effect.forks, discard, hp]

def Known (pipe : Pipe) (p : Proc) : Prop :=
  p.write_end = true →
    match p.role with
    | .waiting _ => p.guard_env = some (guard_value pipe)
    | .intermediate => True
    | .execing => p.guard_fd = some pipe ∧ p.guard_env = some (guard_value pipe)
    | .retrying => p.guard_fd = some pipe ∧ p.guard_env = some (guard_value pipe)
    | .booting => p.guard_env = some (guard_value pipe)
    | .starting => p.guard_fd = some pipe
    | .daemon_parent => True
    | .serving => p.guard_fd = some pipe
    | .discarding _ => p.guard_fd = some pipe
    | .released => False
    | .newborn => p.guard_fd = some pipe
    | .worker => False
    | .gone _ => False

lemma known_of_closed (h : p.write_end = false) : Known pipe p := by
  intro hopen
  simp [h] at hopen

lemma init_main_known (hparse : fpm_reload_selective_guard_parse (guard_value pipe) = some pipe)
    (hopen : p.write_end = true) (henv : p.guard_env = some (guard_value pipe)) :
    (fpm_reload_selective_guard_init_main pipe p).guard_fd = some pipe := by
  unfold fpm_reload_selective_guard_init_main
  rw [henv]
  dsimp only
  rw [hparse]
  dsimp only
  rw [if_pos (by simp [fpm_reload_selective_guard_fd_is_pipe, hopen])]

theorem child_init_closes (h : p.write_end = true → p.guard_fd = some pipe) :
    (fpm_reload_selective_guard_child_init pipe p).write_end = false := by
  cases hopen : p.write_end with
  | false => exact child_init_write_end pipe hopen
  | true =>
    unfold fpm_reload_selective_guard_child_init
    rw [h hopen]
    dsimp only
    rw [if_pos (by simp [fpm_reload_selective_guard_fd_is_pipe, hopen])]

lemma release_closes (h : p.write_end = true → p.guard_fd = some pipe) :
    (fpm_reload_selective_guard_release pipe p).1.write_end = false := by
  cases hopen : p.write_end with
  | false => exact (release_write_end pipe hopen).1
  | true =>
    unfold fpm_reload_selective_guard_release
    rw [h hopen]
    dsimp only
    rw [if_pos (by simp [fpm_reload_selective_guard_fd_is_pipe, hopen])]

theorem effect_known {table : Table} {status : ℕ → Option Bool} {a : Act} {e : Effect}
    (hparse : fpm_reload_selective_guard_parse (guard_value pipe) = some pipe)
    (h : effect pipe table status p a = some e) (hp : Known pipe p) :
    Known pipe e.self ∧ ∀ q ∈ e.born, Known pipe q := by
  cases hopen : p.write_end with
  | false =>
    obtain ⟨hself, hborn, -⟩ := effect_write_end h hopen
    exact ⟨known_of_closed hself, fun q hq => known_of_closed (hborn q hq)⟩
  | true =>
    have hknown := hp hopen
    unfold effect at h
    split at h
    -- waitpid
    case h_1 hrole =>
      rw [hrole] at hknown
      obtain ⟨ok, -, rfl⟩ := map_eq_some_iff.mp h
      cases ok
      · exact ⟨known_of_closed rfl, by simp [Effect.become]⟩
      · exact ⟨fun _ => ⟨rfl, hknown⟩, by simp [Effect.become]⟩
    -- the first execvp
    case h_2 ok hrole =>
      rw [hrole] at hknown
      cases h
      cases ok
      · exact ⟨fun _ => hknown, by simp [Effect.become]⟩
      · exact ⟨fun _ => hknown.2, by simp [Effect.become]⟩
    -- the second execvp
    case h_3 ok hrole =>
      rw [hrole] at hknown
      cases h
      cases ok
      · exact ⟨fun _ => hknown.1, by simp [Effect.become]⟩
      · exact ⟨fun _ => hknown.2, by simp [Effect.become]⟩
    -- init_main
    case h_4 hrole =>
      rw [hrole] at hknown
      cases h
      exact ⟨fun _ => init_main_known hparse hopen hknown, by simp [Effect.become]⟩
    -- child_init
    case h_10 hrole =>
      rw [hrole] at hknown
      cases h
      exact ⟨known_of_closed (child_init_closes fun _ => hknown), by simp [Effect.become]⟩
    -- a call of the sweep
    case h_15 hrole =>
      rw [hrole] at hknown
      split at h
      · simp at h
      · cases h
        exact ⟨fun _ => hknown, by simp⟩
    -- release
    case h_16 hrole =>
      rw [hrole] at hknown
      split at h
      · cases h
        exact ⟨known_of_closed (release_closes fun _ => hknown), by simp⟩
      · simp at h
    -- not at such a place
    case h_21 => simp at h
    -- what is left only moves the process on, forks a copy of it or ends it
    all_goals
      cases h
      simp_all [Effect.become, Effect.forks, discard, Known]

/-! ## One step of the world -/

variable {w : World}

namespace World

/-- **The rule for the processes.** What every act hands on to the processes it leaves
behind, and death keeps, holds of all processes after a step. -/
theorem step_forall {P : Proc → Prop}
    (heffect : ∀ p a e, P p → effect w.pipe w.table w.status p a = some e → P e.self ∧ ∀ q ∈ e.born, P q)
    (hkilled : ∀ p, P p → P (killed p)) (h : ∀ p ∈ w.procs, P p) (e : Event) :
    ∀ p ∈ (w.step e).procs, P p := by
  cases e with
  | act i a =>
    intro q hq
    simp only [step, act] at hq
    split at hq
    · exact h q hq
    rename_i p hp
    split at hq
    · exact h q hq
    rename_i e he
    obtain ⟨hself, hborn⟩ := heffect p a e (h p (mem_of_getElem? hp)) he
    rcases mem_append.mp hq with hq | hq
    · rcases mem_or_eq_of_mem_set hq with hq | rfl
      · exact h q hq
      · exact hself
    · exact hborn q hq
  | die i =>
    intro q hq
    obtain ⟨j, hj⟩ := mem_iff_getElem?.mp hq
    simp only [step, getElem?_modify] at hj
    obtain ⟨p, hp, rfl⟩ := map_eq_some_iff.mp hj
    have hmem := mem_of_getElem? hp
    split
    · exact hkilled p (h p hmem)
    · exact h p hmem
  | guard readable =>
    intro q hq
    -- the guard is no process of the list
    have hprocs : (w.guard_step readable).procs = w.procs := by
      unfold guard_step
      split
      · rfl
      · split <;> rfl
      · split <;> rfl
      · rfl
      · rfl
    exact h q (hprocs ▸ hq)
  | interrupt | spawn pid =>
    intro q hq
    simp only [step] at hq
    split at hq <;> exact h q hq
  | reap pid => exact h

def Abandoned (w : World) : Prop := (∀ p ∈ w.procs, p.write_end = false) ∧ w.byte = false

lemma pipe_read_abandoned (h : w.Abandoned) : w.pipe_read = some .eof := by
  have hheld : w.held = false := by
    unfold held
    rw [List.any_eq_false]
    intro p hp
    rw [h.1 p hp]
    decide
  unfold pipe_read
  rw [h.2, hheld]
  rfl

theorem pipe_read_cases (w : World) :
    (w.pipe_read = some .byte ∧ w.byte = true) ∨ w.pipe_read = none ∨
      (w.pipe_read = some .eof ∧ w.Abandoned) := by
  unfold pipe_read
  cases hbyte : w.byte with
  | true => exact .inl ⟨rfl, rfl⟩
  | false =>
    cases hheld : w.held with
    | true => exact .inr (.inl rfl)
    | false =>
      refine .inr (.inr ⟨rfl, fun p hp => ?_, hbyte⟩)
      have hnot := List.any_eq_false.mp hheld p hp
      simpa using hnot

lemma step_other (w : World) {e : Event} (he : ∀ r, e ≠ .guard r) :
    (w.step e).guard = w.guard ∧ (w.step e).guard_log = w.guard_log ∧
      (w.byte = true → (w.step e).byte = true) := by
  cases e with
  | act i a =>
    simp only [step, act]
    split
    · exact ⟨rfl, rfl, id⟩
    split
    · exact ⟨rfl, rfl, id⟩
    · exact ⟨rfl, rfl, fun h => by simp [h]⟩
  | die i | reap pid => exact ⟨rfl, rfl, id⟩
  | guard r => exact absurd rfl (he r)
  | interrupt =>
    simp only [step]
    split
    · rename_i env hguard
      exact ⟨hguard.symm, rfl, id⟩
    · exact ⟨rfl, rfl, id⟩
  | spawn pid =>
    simp only [step]
    split <;> exact ⟨rfl, rfl, id⟩

lemma guard_step_frame (w : World) (readable : Bool) :
    (w.guard_step readable).procs = w.procs ∧ (w.guard_step readable).byte = w.byte ∧
      (w.guard_step readable).table = w.table := by
  unfold guard_step
  split
  · exact ⟨rfl, rfl, rfl⟩
  · split <;> exact ⟨rfl, rfl, rfl⟩
  · split <;> exact ⟨rfl, rfl, rfl⟩
  · exact ⟨rfl, rfl, rfl⟩
  · exact ⟨rfl, rfl, rfl⟩

@[simp] lemma step_pipe (w : World) (e : Event) : (w.step e).pipe = w.pipe := by
  cases e with
  | act i a =>
    simp only [step, act]
    split
    · rfl
    split <;> rfl
  | die i => rfl
  | guard r =>
    simp only [step, guard_step]
    split
    · rfl
    · split <;> rfl
    · split <;> rfl
    · rfl
    · rfl
  | interrupt | spawn pid =>
    simp only [step]
    split <;> rfl
  | reap pid => rfl

lemma killed_write_end (h : p.write_end = false) : (killed p).write_end = false := by
  unfold killed
  split
  · exact h
  · rfl

lemma killed_known (h : Known pipe p) : Known pipe (killed p) := by
  unfold killed
  split
  · exact h
  · exact known_of_closed rfl

theorem step_abandoned (h : w.Abandoned) (e : Event) : (w.step e).Abandoned := by
  refine ⟨step_forall (P := fun p => p.write_end = false) (fun p a f hp hf => ?_)
    (fun p hp => killed_write_end hp) h.1 e, ?_⟩
  · obtain ⟨hself, hborn, -⟩ := effect_write_end hf hp
    exact ⟨hself, hborn⟩
  cases e with
  | act i a =>
    simp only [step, act]
    split
    · exact h.2
    rename_i p hp
    split
    · exact h.2
    rename_i f hf
    obtain ⟨-, -, hwrote⟩ := effect_write_end hf (h.1 p (mem_of_getElem? hp))
    simp [h.2, hwrote]
  | die i | reap pid => exact h.2
  | guard r => exact (guard_step_frame w r).2.1.trans h.2
  | interrupt | spawn pid =>
    simp only [step]
    split <;> exact h.2

end World

end FpmNg.ReloadGuard
