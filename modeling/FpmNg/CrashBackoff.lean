/-
The crash backoff of a worker pool, `fpm_crash_backoff.c`.

A child that exits within ten seconds of its start without having served a
request is a fast failure. A streak of those slows the respawn down: the master
records the monotonic time before which no child may be forked, answers the
spawn question with it, and arms a one-shot timer that runs
`fpm_children_make()` again. A child that served a request, or that lived a
whole window, ends the streak.

The model is the master's side of one pool: the entry of the pool, the two
timers as the event loop holds them (`fpm_events.c` keeps a deadline for a
queued timer and fires it once, removed from the queue, at a reading that is not
before the deadline), the children of the pool, those a reload carried over among them,
and the clock. Times are
microseconds. A clock reading is written as the time since the reading before
it, so time never runs backwards, and every `fpm_clock_get()` of the source is a
reading of its own: the one `fpm_crash_backoff_may_spawn()` compares with and
the one `fpm_event_add()` counts from are two.

What is proved is about every sequence of exits, questions, forks and timer
expiries. The notes a run leaves behind (`Note`) say what each question was
answered and what each failure cost; `Right` says what such a note must look
like.
-/
import FpmNg.Lib.Runs
import Mathlib.Algebra.Ring.Nat
import Mathlib.Algebra.Ring.Int.Defs

open List Option

namespace FpmNg.CrashBackoff

/-! ## The delay -/

/-- `FPM_CRASH_BACKOFF_CAP_MS`. -/
abbrev CAP_MS : ℕ := 60000

/-- `FPM_CRASH_BACKOFF_WINDOW_S`. -/
abbrev WINDOW_S : ℕ := 10

/-- `fpm_crash_backoff_jitter()`: a value in `[0, max]`, mixed by splitmix64 from
the clock and the pid of the master. -/
def jitter (now pid max : ℕ) : ℕ :=
  if max = 0 then 0
  else
    let x : UInt64 := (UInt64.ofNat (now / 1000000) <<< 32) ^^^ UInt64.ofNat (now % 1000000)
      ^^^ (UInt64.ofNat pid <<< 48)
    let x := x + 0x9e3779b97f4a7c15
    let x := (x ^^^ (x >>> 30)) * 0xbf58476d1ce4e5b9
    let x := (x ^^^ (x >>> 27)) * 0x94d049bb133111eb
    let x := x ^^^ (x >>> 31)
    x.toNat % (max + 1)

lemma jitter_le (now pid max : ℕ) : jitter now pid max ≤ max := by
  unfold jitter
  split
  · exact Nat.zero_le _
  · exact Nat.le_of_lt_succ (Nat.mod_lt _ (Nat.succ_pos _))

/-- The window the delay is drawn from, in ms; `none` for the failure that
respawns at once. -/
def delay_window (failures : ℕ) (gave_up : Bool) : Option ℕ :=
  if gave_up then some CAP_MS
  else if failures < 2 then none
  else
    let shift := if failures - 2 > 6 then 6 else failures - 2
    let window := 1000 <<< shift
    some (if window > CAP_MS then CAP_MS else window)

/-- `fpm_crash_backoff_delay_ms()`; `now` is the reading the jitter takes. -/
def delay_ms (now pid failures : ℕ) (gave_up : Bool) : ℕ :=
  match delay_window failures gave_up with
  | none => 0
  | some window => window / 2 + jitter now pid (window - window / 2)

/-- **The window of the `n`-th failure in a row**: the cap once the pool has given up, nothing for
the first failure, a second that doubles with every further one up to the cap. `limit` is
`pm.max_consecutive_failures`. -/
def window (limit : ℤ) (n : ℕ) : ℕ :=
  if 0 < limit ∧ limit ≤ n then CAP_MS
  else if n < 2 then 0
  else min (1000 * 2 ^ (n - 2)) CAP_MS

lemma shifted_window (k : ℕ) :
    (if 1000 <<< (if k > 6 then 6 else k) > CAP_MS then CAP_MS
      else 1000 <<< (if k > 6 then 6 else k)) = min (1000 * 2 ^ k) CAP_MS := by
  by_cases hk : k > 6
  · have hpow : 2 ^ 6 ≤ 2 ^ k := Nat.pow_le_pow_right (by decide) (by omega)
    have hbig : CAP_MS ≤ 1000 * 2 ^ k := by
      have : CAP_MS ≤ 1000 * 2 ^ 6 := by decide
      omega
    rw [if_pos hk, min_eq_right hbig]
    decide
  · rw [if_neg hk, Nat.shiftLeft_eq]
    split
    · next h => exact (min_eq_right (le_of_lt h)).symm
    · next h => exact (Nat.min_eq_left (Nat.le_of_not_lt h)).symm

lemma delay_window_le (failures : ℕ) (gave_up : Bool) (w : ℕ)
    (h : delay_window failures gave_up = some w) : w ≤ CAP_MS := by
  unfold delay_window at h
  split at h
  · exact le_of_eq (some.inj h).symm
  · split at h
    · simp at h
    · have hw := some.inj h
      rw [shifted_window] at hw
      rw [← hw]
      exact min_le_right _ _

lemma delay_ms_le (now pid failures : ℕ) (gave_up : Bool) :
    delay_ms now pid failures gave_up ≤ CAP_MS := by
  unfold delay_ms
  split
  · exact Nat.zero_le _
  · next w h =>
    have hw := delay_window_le _ _ _ h
    have hj := jitter_le now pid (w - w / 2)
    omega

lemma delay_window_window (limit : ℤ) (n : ℕ) (gave_up : Bool)
    (hgave : gave_up = true ↔ 0 < limit ∧ limit ≤ n) :
    (delay_window n gave_up).getD 0 = window limit n := by
  unfold delay_window window
  by_cases h : 0 < limit ∧ limit ≤ n
  · rw [if_pos (hgave.mpr h), if_pos h]
    rfl
  · have hno : ¬ gave_up = true := fun hg => h (hgave.mp hg)
    rw [if_neg hno, if_neg h]
    by_cases hn : n < 2
    · rw [if_pos hn, if_pos hn]
      rfl
    · rw [if_neg hn, if_neg hn]
      exact shifted_window (n - 2)

theorem delay_ms_window (limit : ℤ) (now pid n : ℕ) (gave_up : Bool)
    (hgave : gave_up = true ↔ 0 < limit ∧ limit ≤ n) :
    window limit n / 2 ≤ delay_ms now pid n gave_up
      ∧ delay_ms now pid n gave_up ≤ window limit n := by
  rw [← delay_window_window limit n gave_up hgave]
  unfold delay_ms
  cases delay_window n gave_up with
  | none => exact ⟨le_rfl, le_rfl⟩
  | some w =>
    have hj := jitter_le now pid (w - w / 2)
    simp only [getD_some]
    omega

/-! ## The state -/

/-- `struct fpm_child_s`, as far as this file reads it. -/
structure Child where
  pid : ℕ
  started : ℕ
  deriving DecidableEq

/-- `struct fpm_crash_backoff_entry_s` with its shared block. A `timeval` of zero
is an unset one. -/
structure Entry where
  consecutive_failures : ℕ
  gave_up : Bool
  respawn_delay_ms : ℕ
  next_spawn : ℕ
  gate_due : ℕ
  gate_armed : Bool
  survive_armed : Bool
  watch_pid : ℕ
  watch_started : ℕ
  deriving DecidableEq

/-- What a run leaves behind. `lag` is the time between the two clock readings
of the question that armed the gate. -/
inductive Note where
  | permitted (now recorded : ℕ)
  | refused (now next_spawn gate_due deadline lag : ℕ)
  | failed (n delay : ℕ)
  deriving DecidableEq

/-- The master, as far as one pool with backoff is concerned. `gate_ev` and `survive_ev` are the
deadlines of the queued timers. The last five fields are not the program's: the fast failures in a
row, the next-spawn time the last of them recorded, whether the last spawn question was refused
and `fpm_children_make()` not called since, the lag of the queued gate, and the notes, newest
first. -/
structure Master where
  e : Entry
  gate_ev : Option ℕ
  survive_ev : Option ℕ
  children : List Child
  now : ℕ
  streak : ℕ
  recorded : ℕ
  waiting : Bool
  gate_lag : ℕ
  log : List Note
  deriving DecidableEq

/-- What `fpm_crash_backoff_init()` leaves: a zeroed entry and no timer queued. -/
def init (now : ℕ) : Master where
  e := ⟨0, false, 0, 0, 0, false, false, 0, 0⟩
  gate_ev := none
  survive_ev := none
  children := []
  now := now
  streak := 0
  recorded := 0
  waiting := false
  gate_lag := 0
  log := []

/-- What does not change while the master runs: `pm.max_consecutive_failures`
and the pid of the master. -/
structure Config where
  max_consecutive_failures : ℤ
  master_pid : ℕ

/-! ## The functions of the source -/

/-- `fpm_clock_get()`, `d` after the reading before. -/
def clock_get (m : Master) (d : ℕ) : Master := { m with now := m.now + d }

/-- `fpm_crash_backoff_clear()`. -/
def clear (m : Master) : Master :=
  { m with
    e := { m.e with consecutive_failures := 0, gave_up := false, respawn_delay_ms := 0,
                    next_spawn := 0 }
    streak := 0
    recorded := 0 }

/-- The part of `fpm_crash_backoff_child_exited()` behind the test that the
exit is a fast failure; `d` is the time from the function's own clock reading
to the one the jitter takes. -/
def fast_failure (cfg : Config) (m : Master) (d : ℕ) : Master :=
  let failures : ℕ := (m.e.consecutive_failures + 1) % 2 ^ 32
  let max := cfg.max_consecutive_failures
  let gave_up :=
    if max > 0 ∧ (failures : ℤ) ≥ max ∧ m.e.gave_up = false then true else m.e.gave_up
  let delay := delay_ms (m.now + d) cfg.master_pid failures gave_up
  { m with
    e := { m.e with consecutive_failures := failures, gave_up := gave_up,
                    respawn_delay_ms := delay, next_spawn := m.now + delay * 1000 }
    now := m.now + d
    streak := m.streak + 1
    recorded := m.now + delay * 1000
    log := .failed (m.streak + 1) delay :: m.log }

/-- `fpm_crash_backoff_child_exited()`, for a child that started at `started`
and served `requests` requests. `can_spawn` is `fpm_pctl_can_spawn_children()`. -/
def child_exited (cfg : Config) (m : Master) (can_spawn : Bool) (started requests : ℕ)
    (d d' : ℕ) : Master :=
  if !can_spawn then m
  else
    let m := clock_get m d
    let life := m.now - started
    if requests > 0 ∨ life / 1000000 ≥ WINDOW_S then clear m
    else fast_failure cfg m d'

/-- The question of `fpm_crash_backoff_may_spawn()` answered no: the gate is
armed, or moved earlier when a shorter delay is now due. `left` is rounded up to
whole milliseconds. -/
def refuse (m : Master) (d : ℕ) : Master :=
  let left := m.e.next_spawn - m.now
  let ms := left / 1000000 * 1000 + (left % 1000000 + 999) / 1000
  let m' :=
    if m.e.gate_armed = false ∨ m.e.next_spawn < m.e.gate_due then
      { m with
        e := { m.e with gate_due := m.e.next_spawn, gate_armed := true }
        gate_ev := some (m.now + d + ms * 1000)
        now := m.now + d
        gate_lag := d }
    else m
  { m' with
    waiting := true
    log := .refused m.now m'.e.next_spawn m'.e.gate_due (m'.gate_ev.getD 0) m'.gate_lag :: m'.log }

def permit (m : Master) : Master :=
  { m with
    e := { m.e with next_spawn := 0 }
    waiting := false
    log := .permitted m.now m.recorded :: m.log }

/-- `fpm_crash_backoff_may_spawn()`; `d` is the time to its clock reading, `d'`
the time from there to the reading of `fpm_event_add()`. -/
def may_spawn (m : Master) (d d' : ℕ) : Master × Bool :=
  let m := clock_get m d
  if m.e.next_spawn = 0 ∨ ¬ m.now < m.e.next_spawn then (permit m, true)
  else (refuse m d', false)

/-- `fpm_crash_backoff_child_spawned()`. -/
def child_spawned (m : Master) (child : Child) (d : ℕ) : Master :=
  let m := { m with e := { m.e with respawn_delay_ms := 0 } }
  if m.e.consecutive_failures = 0 then m
  else
    { m with
      e := { m.e with watch_pid := child.pid, watch_started := child.started,
                      survive_armed := true }
      now := m.now + d
      survive_ev := some (m.now + d + WINDOW_S * 1000 * 1000) }

/-- One turn of the loop of `fpm_children_make()`: the clock readings of the
spawn question, the pid the fork returned (`none` when the resources or the
fork failed), and the readings after it. -/
structure Fork where
  asked : ℕ
  armed : ℕ
  pid : Option ℕ
  born : ℕ
  watched : ℕ
  deriving DecidableEq

def birth (m : Master) (pid : ℕ) (born watched : ℕ) : Master :=
  let m := clock_get m born
  let child : Child := ⟨pid, m.now⟩
  let m := child_spawned m child watched
  { m with children := child :: m.children }

/-- The loop of `fpm_children_make()`. The list is as long as the loop condition
holds: the pool may fork and wants another child. -/
def make_loop : Master → List Fork → Master
  | m, [] => m
  | m, f :: rest =>
    match may_spawn m f.asked f.armed with
    | (m, false) => m
    | (m, true) =>
      match f.pid with
      | none => m
      | some pid => make_loop (birth m pid f.born f.watched) rest

/-- `fpm_children_make()`. -/
def children_make (m : Master) (forks : List Fork) : Master :=
  make_loop { m with waiting := false } forks

/-- `fpm_crash_backoff_gate_fire()`. -/
def gate_fire (m : Master) (forks : List Fork) : Master :=
  children_make { m with e := { m.e with gate_armed := false } } forks

/-- `fpm_crash_backoff_survive_fire()`. A child of another pool fails the test on
`child->wp`, so only the children of this pool matter. -/
def survive_fire (m : Master) (forks : List Fork) : Master :=
  let m := { m with e := { m.e with survive_armed := false } }
  if m.e.consecutive_failures = 0 then m
  else
    match m.children.find? (fun c => c.pid == m.e.watch_pid) with
    | none => m
    | some child =>
      if child.started = m.e.watch_started then children_make (clear m) forks else m

/-! ## The machine -/

/-- What can happen to the pool. `d`, `d'` and the readings of a `Fork` are times
since the reading before. -/
inductive Event where
  /-- `fpm_children_bury()` unlinks a child and, when it is to be respawned,
  classifies its exit. -/
  | exit (pid requests : ℕ) (restart can_spawn : Bool) (d d' : ℕ)
  /-- A child of the master before is taken over. -/
  | adopt (pid d : ℕ)
  /-- The sweep of the adopted children finds that one is gone. -/
  | adopted_exited (pid : ℕ) (restart : Bool) (forks : List Fork)
  /-- The idle server maintenance asks whether a child may be forked. -/
  | ask (d d' : ℕ)
  /-- Somebody calls `fpm_children_make()`. -/
  | make (forks : List Fork)
  /-- The event loop looks at the gate timer. -/
  | gate (d : ℕ) (forks : List Fork)
  /-- The event loop looks at the survival timer. -/
  | survive (d : ℕ) (forks : List Fork)
  deriving DecidableEq

/-- The child `pid` is unlinked and, if it is to be respawned, classified. -/
def bury (cfg : Config) (m : Master) (pid requests : ℕ) (restart can_spawn : Bool)
    (d d' : ℕ) : Master :=
  match m.children.find? (fun c => c.pid == pid) with
  | none => m
  | some child =>
    let m := { m with children := m.children.erase child }
    if restart then child_exited cfg m can_spawn child.started requests d d' else m

/-- `fpm_children_adopt()` of a child that a reload carried over: its `started` is the time of
the adoption. -/
def adopt (m : Master) (pid d : ℕ) : Master :=
  let m := clock_get m d
  { m with children := ⟨pid, m.now⟩ :: m.children }

/-- `fpm_children_adopted_exited()`, for a child whose exit no `SIGCHLD` reports: it is
replaced, and never a failure. -/
def adopted_exited (m : Master) (pid : ℕ) (restart : Bool) (forks : List Fork) : Master :=
  match m.children.find? (fun c => c.pid == pid) with
  | none => m
  | some child =>
    let m := { m with children := m.children.erase child }
    if restart then children_make m forks else m

/-- A queued timer fires once its deadline is reached, and is off the queue by then. -/
def due (timer : Option ℕ) (now : ℕ) : Bool :=
  match timer with
  | none => false
  | some deadline => decide (deadline ≤ now)

def step (cfg : Config) (m : Master) : Event → Master
  | .exit pid requests restart can_spawn d d' => bury cfg m pid requests restart can_spawn d d'
  | .adopt pid d => adopt m pid d
  | .adopted_exited pid restart forks => adopted_exited m pid restart forks
  | .ask d d' => (may_spawn m d d').1
  | .make forks => children_make m forks
  | .gate d forks =>
    let m := clock_get m d
    if due m.gate_ev m.now then gate_fire { m with gate_ev := none } forks else m
  | .survive d forks =>
    let m := clock_get m d
    if due m.survive_ev m.now then survive_fire { m with survive_ev := none } forks else m

def run (cfg : Config) (start : ℕ) (events : List Event) : Master :=
  Runs.run (step cfg) (init start) events

/-! ## What a run may leave behind -/

/-- **What a note must look like.** A permitted spawn is not before the time the last failure of
the streak recorded. A refused one has a gate recorded as due no later than the next-spawn time;
its deadline in the queue is behind that by less than the millisecond it is rounded up by and the
time between the two clock readings. A failure costs at most the cap, and while the counter has
not wrapped its delay is in the upper half of the window. -/
def Note.Right (limit : ℤ) : Note → Prop
  | .permitted now recorded => recorded ≤ now
  | .refused now next_spawn gate_due deadline lag =>
    now < next_spawn ∧ gate_due ≤ next_spawn ∧ gate_due ≤ deadline
      ∧ deadline < next_spawn + 1000 + lag
  | .failed n delay =>
    delay ≤ CAP_MS ∧ (n < 2 ^ 32 → window limit n / 2 ≤ delay ∧ delay ≤ window limit n)

instance (limit : ℤ) (note : Note) : Decidable (note.Right limit) := by
  cases note <;> unfold Note.Right <;> infer_instance

structure Inv (limit : ℤ) (m : Master) : Prop where
  armed : m.e.gate_armed = m.gate_ev.isSome
  gate : ∀ deadline, m.gate_ev = some deadline →
    m.e.gate_due ≤ deadline ∧ deadline < m.e.gate_due + 1000 + m.gate_lag
  waits : m.waiting = true → m.gate_ev.isSome = true
  spawn : (m.e.next_spawn = 0 ∧ m.recorded ≤ m.now) ∨ m.e.next_spawn = m.recorded
  cleared : m.streak = 0 → m.e.next_spawn = 0 ∧ m.e.gave_up = false ∧ m.recorded = 0
  counter : m.e.consecutive_failures = m.streak % 2 ^ 32
  given_up : m.streak < 2 ^ 32 → (m.e.gave_up = true ↔ 0 < limit ∧ limit ≤ m.streak)
  log : ∀ note ∈ m.log, note.Right limit

lemma init_inv (limit : ℤ) (start : ℕ) : Inv limit (init start) where
  armed := rfl
  gate := by simp [init]
  waits := by simp [init]
  spawn := .inr rfl
  cleared := fun _ => ⟨rfl, rfl, rfl⟩
  counter := rfl
  given_up := by
    intro _
    simp only [init, Nat.cast_zero]
    constructor
    · intro h
      simp at h
    · rintro ⟨h0, h1⟩
      omega
  log := by simp [init]

variable {m : Master} {limit : ℤ}

lemma clock_get_inv (h : Inv limit m) (d : ℕ) :
    Inv limit (clock_get m d) where
  armed := h.armed
  gate := h.gate
  waits := h.waits
  spawn := by
    rcases h.spawn with ⟨h0, h1⟩ | h1
    · exact .inl ⟨h0, Nat.le_trans h1 (Nat.le_add_right _ _)⟩
    · exact .inr h1
  cleared := h.cleared
  counter := h.counter
  given_up := h.given_up
  log := h.log

lemma clear_inv (h : Inv limit m) : Inv limit (clear m) where
  armed := h.armed
  gate := h.gate
  waits := h.waits
  spawn := .inr rfl
  cleared := fun _ => ⟨rfl, rfl, rfl⟩
  counter := rfl
  given_up := (init_inv limit 0).given_up
  log := h.log

/-- While the counter has not wrapped, the pool has given up exactly from the
`limit`-th failure of the streak on. -/
lemma gave_up_after (h : Inv limit m) (hn : m.streak + 1 < 2 ^ 32) :
    ((if limit > 0 ∧ (((m.e.consecutive_failures + 1) % 2 ^ 32 : ℕ) : ℤ) ≥ limit
        ∧ m.e.gave_up = false then true else m.e.gave_up) = true)
      ↔ 0 < limit ∧ limit ≤ ((m.streak + 1 : ℕ) : ℤ) := by
  have hcount : (m.e.consecutive_failures + 1) % 2 ^ 32 = m.streak + 1 := by
    rw [h.counter]
    omega
  have hgave := h.given_up (by omega)
  rw [hcount]
  split
  · next hc => exact ⟨fun _ => ⟨hc.1, hc.2.1⟩, fun _ => rfl⟩
  · next hc =>
    rw [hgave]
    constructor
    · rintro ⟨h0, h1⟩
      exact ⟨h0, by omega⟩
    · rintro ⟨h0, h1⟩
      -- the test failed although the limit is reached: the mark was there already
      rcases Bool.eq_false_or_eq_true m.e.gave_up with hg | hg
      · exact hgave.mp hg
      · exact absurd ⟨h0, h1, hg⟩ hc

variable (cfg : Config)

lemma fast_failure_inv (h : Inv cfg.max_consecutive_failures m) (d : ℕ) :
    Inv cfg.max_consecutive_failures (fast_failure cfg m d) where
  armed := h.armed
  gate := h.gate
  waits := h.waits
  spawn := .inr rfl
  cleared := fun h0 => absurd h0 (Nat.succ_ne_zero _)
  counter := by
    simp only [fast_failure]
    rw [h.counter]
    omega
  given_up := gave_up_after h
  log := by
    intro note hnote
    rcases mem_cons.mp hnote with rfl | hold
    · refine ⟨delay_ms_le _ _ _ _, ?_⟩
      intro hn
      have hcount : (m.e.consecutive_failures + 1) % 2 ^ 32 = m.streak + 1 := by
        rw [h.counter]
        omega
      have hgave := gave_up_after h hn
      rw [hcount] at hgave ⊢
      exact delay_ms_window _ _ _ _ _ hgave
    · exact h.log note hold

lemma child_exited_inv (h : Inv cfg.max_consecutive_failures m) (can_spawn : Bool)
    (started requests d d' : ℕ) :
    Inv cfg.max_consecutive_failures (child_exited cfg m can_spawn started requests d d') := by
  unfold child_exited
  split
  · exact h
  · dsimp only
    split
    · exact clear_inv (clock_get_inv h d)
    · exact fast_failure_inv cfg (clock_get_inv h d) d'

/-- A permitted spawn is not before the recorded time: an unset `next_spawn` was
either never set in this streak or taken back when its time had come. -/
lemma permit_inv (h : Inv limit m) (hmay : m.e.next_spawn = 0 ∨ ¬ m.now < m.e.next_spawn) :
    Inv limit (permit m) := by
  have hdue : m.recorded ≤ m.now := by
    rcases h.spawn with ⟨_, h1⟩ | h1
    · exact h1
    · omega
  exact
    { armed := h.armed
      gate := h.gate
      waits := by simp [permit]
      spawn := .inl ⟨rfl, hdue⟩
      cleared := fun h0 => ⟨rfl, (h.cleared h0).2⟩
      counter := h.counter
      given_up := h.given_up
      log := by
        intro note hnote
        rcases mem_cons.mp hnote with rfl | hold
        · exact hdue
        · exact h.log note hold }

lemma refuse_inv (h : Inv limit m) (hnot : m.now < m.e.next_spawn) (d : ℕ) :
    Inv limit (refuse m d) := by
  unfold refuse
  by_cases harm : m.e.gate_armed = false ∨ m.e.next_spawn < m.e.gate_due
  · simp only [if_pos harm, getD_some]
    exact
      { armed := rfl
        gate := by
          intro deadline hd
          have hd' := some.inj hd
          simp only
          omega
        waits := fun _ => rfl
        spawn := by
          rcases h.spawn with ⟨h0, _⟩ | h1
          · omega
          · exact .inr h1
        cleared := h.cleared
        counter := h.counter
        given_up := h.given_up
        log := by
          intro note hnote
          rcases mem_cons.mp hnote with rfl | hold
          · refine ⟨hnot, le_rfl, ?_, ?_⟩ <;> omega
          · exact h.log note hold }
  · simp only [if_neg harm]
    -- the gate is queued already, and for a time that is early enough
    have harmed : m.e.gate_armed = true := by
      rcases Bool.eq_false_or_eq_true m.e.gate_armed with ha | ha
      · exact ha
      · exact absurd (.inl ha) harm
    have hearly : m.e.gate_due ≤ m.e.next_spawn :=
      Nat.le_of_not_lt (fun hlt => harm (.inr hlt))
    have hqueued : m.gate_ev.isSome = true := by rw [← h.armed]; exact harmed
    obtain ⟨deadline, hev⟩ := isSome_iff_exists.mp hqueued
    have hgate := h.gate deadline hev
    exact
      { armed := h.armed
        gate := h.gate
        waits := fun _ => hqueued
        spawn := h.spawn
        cleared := h.cleared
        counter := h.counter
        given_up := h.given_up
        log := by
          intro note hnote
          rcases mem_cons.mp hnote with rfl | hold
          · simp only [hev, getD_some]
            refine ⟨hnot, hearly, hgate.1, ?_⟩
            omega
          · exact h.log note hold }

lemma may_spawn_inv (h : Inv limit m) (d d' : ℕ) : Inv limit (may_spawn m d d').1 := by
  unfold may_spawn
  dsimp only
  split
  · next hmay => exact permit_inv (clock_get_inv h d) hmay
  · next hno =>
    have hlt : (clock_get m d).now < (clock_get m d).e.next_spawn :=
      Classical.not_not.mp (fun hc => hno (.inr hc))
    exact refuse_inv (clock_get_inv h d) hlt d'

lemma child_spawned_inv (h : Inv limit m) (child : Child) (d : ℕ) :
    Inv limit (child_spawned m child d) := by
  unfold child_spawned
  dsimp only
  split
  · exact ⟨h.armed, h.gate, h.waits, h.spawn, h.cleared, h.counter, h.given_up, h.log⟩
  · have ht := clock_get_inv h d
    exact ⟨ht.armed, ht.gate, ht.waits, ht.spawn, ht.cleared, ht.counter, ht.given_up, ht.log⟩

lemma birth_inv (h : Inv limit m) (pid born watched : ℕ) :
    Inv limit (birth m pid born watched) := by
  have hs := child_spawned_inv (clock_get_inv h born) ⟨pid, (clock_get m born).now⟩ watched
  exact ⟨hs.armed, hs.gate, hs.waits, hs.spawn, hs.cleared, hs.counter, hs.given_up, hs.log⟩

lemma make_loop_inv (forks : List Fork) (h : Inv limit m) : Inv limit (make_loop m forks) := by
  induction forks generalizing m with
  | nil => exact h
  | cons f rest ih =>
    have hask := may_spawn_inv h f.asked f.armed
    rw [make_loop]
    split
    · next m' hm => rw [hm] at hask; exact hask
    · next m' hm =>
      rw [hm] at hask
      split
      · exact hask
      · next pid _ => exact ih (birth_inv hask pid f.born f.watched)

lemma children_make_inv (h : Inv limit m) (forks : List Fork) :
    Inv limit (children_make m forks) :=
  make_loop_inv forks
    ⟨h.armed, h.gate, nofun, h.spawn, h.cleared, h.counter, h.given_up,
      h.log⟩

lemma gate_fire_inv (h : Inv limit m) (forks : List Fork) :
    Inv limit (gate_fire { m with gate_ev := none } forks) :=
  make_loop_inv forks
    ⟨rfl, by simp, nofun, h.spawn, h.cleared,
      h.counter, h.given_up, h.log⟩

lemma survive_fire_inv (h : Inv limit m) (forks : List Fork) :
    Inv limit (survive_fire m forks) := by
  have hm : Inv limit { m with e := { m.e with survive_armed := false } } :=
    ⟨h.armed, h.gate, h.waits, h.spawn, h.cleared, h.counter, h.given_up, h.log⟩
  unfold survive_fire
  dsimp only
  split
  · exact hm
  · split
    · exact hm
    · split
      · exact children_make_inv (clear_inv hm) forks
      · exact hm

lemma Inv.children (h : Inv limit m) (children : List Child) :
    Inv limit { m with children := children } :=
  ⟨h.armed, h.gate, h.waits, h.spawn, h.cleared, h.counter, h.given_up, h.log⟩

lemma adopted_exited_inv (h : Inv limit m) (pid : ℕ) (restart : Bool) (forks : List Fork) :
    Inv limit (adopted_exited m pid restart forks) := by
  unfold adopted_exited
  split
  · exact h
  · split
    · exact children_make_inv (h.children _) forks
    · exact h.children _

lemma bury_inv (h : Inv cfg.max_consecutive_failures m) (pid requests : ℕ)
    (restart can_spawn : Bool) (d d' : ℕ) :
    Inv cfg.max_consecutive_failures (bury cfg m pid requests restart can_spawn d d') := by
  unfold bury
  split
  · exact h
  · next child _ =>
    split
    · exact child_exited_inv cfg (h.children _) can_spawn child.started requests d d'
    · exact h.children _

theorem step_inv (m : Master) (event : Event)
    (h : Inv cfg.max_consecutive_failures m) :
    Inv cfg.max_consecutive_failures (step cfg m event) := by
  cases event with
  | exit pid requests restart can_spawn d d' =>
    exact bury_inv cfg h pid requests restart can_spawn d d'
  | adopt pid d => exact (clock_get_inv h d).children _
  | adopted_exited pid restart forks => exact adopted_exited_inv h pid restart forks
  | ask d d' => exact may_spawn_inv h d d'
  | make forks => exact children_make_inv h forks
  | gate d forks =>
    simp only [step]
    split
    · exact gate_fire_inv (clock_get_inv h d) forks
    · exact clock_get_inv h d
  | survive d forks =>
    have ht := clock_get_inv h d
    simp only [step]
    split
    · apply survive_fire_inv
      exact ⟨ht.armed, ht.gate, ht.waits, ht.spawn, ht.cleared, ht.counter, ht.given_up, ht.log⟩
    · exact ht

lemma run_inv (start : ℕ) (events : List Event) :
    Inv cfg.max_consecutive_failures (run cfg start events) :=
  Runs.run_invariant (step_inv cfg) _ events
    (init_inv _ start)

/-! ## A refused pool is asked again -/

def Note.Question : Note → Prop
  | .permitted _ _ => True
  | .refused _ _ _ _ _ => True
  | .failed _ _ => False

lemma may_spawn_log (m : Master) (d d' : ℕ) :
    ∃ note : Note, note.Question ∧ (may_spawn m d d').1.log = note :: m.log := by
  unfold may_spawn
  dsimp only
  split
  · refine ⟨_, ?_, rfl⟩
    exact trivial
  · unfold refuse
    split
    · refine ⟨_, ?_, rfl⟩
      exact trivial
    · refine ⟨_, ?_, rfl⟩
      exact trivial

lemma birth_log (m : Master) (pid born watched : ℕ) : (birth m pid born watched).log = m.log := by
  simp only [birth, child_spawned]
  split <;> rfl

lemma make_loop_log (forks : List Fork) (m : Master) : m.log <:+ (make_loop m forks).log := by
  induction forks generalizing m with
  | nil => exact suffix_refl _
  | cons f rest ih =>
    obtain ⟨note, _, hlog⟩ := may_spawn_log m f.asked f.armed
    have hone : m.log <:+ (may_spawn m f.asked f.armed).1.log := by
      rw [hlog]
      exact suffix_cons _ _
    rw [make_loop]
    split
    · next m' hm => rw [hm] at hone; exact hone
    · next m' hm =>
      rw [hm] at hone
      split
      · exact hone
      · next pid _ =>
        have hrest := ih (birth m' pid f.born f.watched)
        rw [birth_log] at hrest
        exact hone.trans hrest

lemma make_loop_asks (f : Fork) (rest : List Fork) (m : Master) :
    ∃ note : Note, note.Question ∧ (note :: m.log) <:+ (make_loop m (f :: rest)).log := by
  obtain ⟨note, hnote, hlog⟩ := may_spawn_log m f.asked f.armed
  refine ⟨note, hnote, ?_⟩
  rw [make_loop]
  split
  · next m' hm =>
    rw [hm] at hlog
    exact ⟨[], hlog.symm⟩
  · next m' hm =>
    rw [hm] at hlog
    split
    · exact ⟨[], hlog.symm⟩
    · next pid _ =>
      have hrest := make_loop_log rest (birth m' pid f.born f.watched)
      rw [birth_log, hlog] at hrest
      exact hrest

lemma gate_asks (m : Master) (deadline d : ℕ) (f : Fork) (rest : List Fork)
    (hev : m.gate_ev = some deadline) (hdue : deadline ≤ m.now + d) :
    ∃ note : Note, note.Question ∧ (note :: m.log) <:+ (step cfg m (.gate d (f :: rest))).log := by
  have hfire : due (clock_get m d).gate_ev (clock_get m d).now = true := by
    simp only [clock_get, hev, due, decide_eq_true_eq]
    exact hdue
  simp only [step]
  rw [if_pos hfire]
  exact make_loop_asks f rest
    { clock_get m d with gate_ev := none, e := { m.e with gate_armed := false }, waiting := false }

/-- **The backoff of a pool, over every run.** No spawn is permitted before the recorded
next-spawn time; the `n`-th failure in a row costs a delay in the upper half of its window, which
is the cap from the failure on that makes the pool give up, and never more than the cap; a refusal
leaves a gate queued that is recorded as due no later than the next-spawn time, with a deadline
less than the rounding and the lag of the clock behind it. A pool that was refused keeps its gate
until it is asked again, and the gate, once due, does ask. A streak that was cleared leaves
neither a next-spawn time nor the gave-up mark. -/
theorem backoff_run (cfg : Config) (start : ℕ) (events : List Event) :
    (∀ note ∈ (run cfg start events).log, note.Right cfg.max_consecutive_failures)
      ∧ ((run cfg start events).waiting = true →
          ∃ deadline, (run cfg start events).gate_ev = some deadline
            ∧ ∀ d f rest, deadline ≤ (run cfg start events).now + d → ∃ note : Note, note.Question ∧
                (note :: (run cfg start events).log)
                  <:+ (step cfg (run cfg start events) (.gate d (f :: rest))).log)
      ∧ ((run cfg start events).streak = 0 →
          (run cfg start events).e.next_spawn = 0 ∧ (run cfg start events).e.gave_up = false) := by
  have h := run_inv cfg start events
  refine ⟨h.log, ?_, ?_⟩
  · intro hwait
    obtain ⟨deadline, hev⟩ := isSome_iff_exists.mp (h.waits hwait)
    refine ⟨deadline, hev, ?_⟩
    intro d f rest hdue
    exact gate_asks cfg _ deadline d f rest hev hdue
  · intro hzero
    have hc := h.cleared hzero
    exact ⟨hc.1, hc.2.1⟩

/-! ## Where the formula ends -/

lemma window_cap {n : ℕ} (h : 8 ≤ n) : window 0 n = CAP_MS := by
  have hbig : CAP_MS ≤ 1000 * 2 ^ (n - 2) :=
    calc CAP_MS ≤ 1000 * 2 ^ 6 := by decide
      _ ≤ 1000 * 2 ^ (n - 2) := Nat.mul_le_mul_left _ (Nat.pow_le_pow_right (by decide) (by omega))
  rw [window, if_neg (by simp), if_neg (by omega), min_eq_right hbig]

lemma make_spawns (m : Master) :
    ∃ m', children_make m [⟨m.e.next_spawn, 0, some 7, 0, 0⟩] = m' ∧
      m'.children = ⟨7, m'.now⟩ :: m.children ∧ m'.streak = m.streak ∧
      m'.e.gave_up = m.e.gave_up ∧ m'.e.consecutive_failures = m.e.consecutive_failures := by
  have hmay : may_spawn { m with waiting := false } m.e.next_spawn 0
      = (permit (clock_get { m with waiting := false } m.e.next_spawn), true) :=
    if_pos (.inr (Nat.not_lt.mpr (Nat.le_add_left _ _)))
  refine ⟨birth (permit (clock_get { m with waiting := false } m.e.next_spawn)) 7 0 0, ?_, ?_⟩
  · rw [children_make, make_loop, hmay]
    rfl
  · unfold birth child_spawned
    dsimp only
    split <;> exact ⟨rfl, rfl, rfl, rfl⟩

lemma failures_in_a_row (pid start n : ℕ) :
    ∃ events, (run ⟨0, pid⟩ start events).children = [] ∧
      (run ⟨0, pid⟩ start events).streak = n ∧ (run ⟨0, pid⟩ start events).e.gave_up = false ∧
      (0 < n → n % 2 ^ 32 = 0 → Note.failed n 0 ∈ (run ⟨0, pid⟩ start events).log) := by
  induction n with
  | zero => exact ⟨[], rfl, rfl, rfl, fun h => absurd h (Nat.lt_irrefl 0)⟩
  | succ n ih =>
    obtain ⟨events, hchildren, hstreak, hgave, -⟩ := ih
    have hcounter := (run_inv ⟨0, pid⟩ start events).counter
    generalize hm : run ⟨0, pid⟩ start events = m at hchildren hstreak hgave hcounter
    obtain ⟨m', hmake, hborn, hstreak', hgave', hfailures⟩ := make_spawns m
    -- the child exits at once
    have hexit : run ⟨0, pid⟩ start (events ++
        [.make [⟨m.e.next_spawn, 0, some 7, 0, 0⟩], .exit 7 0 true true 0 0]) =
          fast_failure ⟨0, pid⟩ { m' with children := [] } 0 := by
      rw [show run ⟨0, pid⟩ start (events ++ _) =
        Runs.run (step ⟨0, pid⟩) (run ⟨0, pid⟩ start events) _ from foldl_append .., hm]
      simp [step, hmake, bury, hborn, hchildren, child_exited, clock_get]
    rw [hgave] at hgave'
    rw [hstreak] at hstreak' hcounter
    rw [hcounter] at hfailures
    refine ⟨events ++ [.make [⟨m.e.next_spawn, 0, some 7, 0, 0⟩], .exit 7 0 true true 0 0], ?_⟩
    rw [hexit]
    refine ⟨rfl, congrArg (· + 1) hstreak', by simp [fast_failure, hgave'], fun _ hwraps => ?_⟩
    have hzero : (m'.e.consecutive_failures + 1) % 2 ^ 32 = 0 := by
      rw [hfailures]
      omega
    refine mem_cons.mpr (.inl ?_)
    dsimp only
    rw [hzero, hgave', hstreak', if_neg (by simp)]
    rfl

/-- **Where the delay leaves the doubling window, and the gate the next-spawn time.** With
`pm.max_consecutive_failures = 1` the first failure already waits half a minute or more. Without a
limit, a question one microsecond after the second failure is refused with a gate due one
microsecond after the next-spawn time, and the failure with which the counter wraps costs nothing,
though its window is the cap. -/
theorem first_failure_waits_and_gate_is_late :
    (∃ delay, Note.failed 1 delay ∈ (run ⟨1, 100⟩ 5000000
        [.make [⟨0, 0, some 7, 0, 0⟩], .exit 7 0 true true 0 0]).log ∧ 30000 ≤ delay)
      ∧ (∃ now next_spawn gate_due deadline,
          Note.refused now next_spawn gate_due deadline 0 ∈ (run ⟨0, 100⟩ 5000000
            [.make [⟨0, 0, some 7, 0, 0⟩, ⟨0, 0, some 8, 0, 0⟩], .exit 7 0 true true 0 0,
              .exit 8 0 true true 0 0, .ask 1 0]).log ∧ next_spawn < deadline)
      ∧ ∃ events, Note.failed 4294967296 0 ∈ (run ⟨0, 100⟩ 5000000 events).log
        ∧ window 0 4294967296 = CAP_MS := by
  refine ⟨⟨delay_ms 5000000 100 1 true, by decide, by decide⟩, ?_, ?_⟩
  · refine ⟨5000001, 5000000 + delay_ms 5000000 100 2 false * 1000,
      5000000 + delay_ms 5000000 100 2 false * 1000,
      5000001 + delay_ms 5000000 100 2 false * 1000, by decide, by decide⟩
  · obtain ⟨events, -, -, -, hwraps⟩ := failures_in_a_row 100 5000000 4294967296
    exact ⟨events, hwraps (by decide) (by decide), window_cap (by decide)⟩

end FpmNg.CrashBackoff
