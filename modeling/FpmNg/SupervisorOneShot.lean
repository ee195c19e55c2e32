/-
One-shot supervisor pools: `supervisor.restart = never` and `on-failure`,
`fpm_pool_supervisor.c`.

A pool runs `N` copies of a script, one process in each scoreboard slot. A copy
that is done sets the completion byte of its slot and parks. The pool is
finished when all bytes are set, and nobody counts them under a lock: a process
scans the bytes again and again until a pass adds nothing. A process can be
killed anywhere, also between its byte and its scan, and the master forks
another one into the free slot.

The model runs the processes of one pool against the shared block, one load or
store of shared memory at a time, in program order. A slot holds at most one
process, so a process is named by its slot. Everything the other processes
cannot see is an input of the step: whether a stop was requested, whether the
copy has to wait for its start (`next_allowed_start` and the cold starts), how
the script ended and how long it ran. The fields that only the status page reads
(`starts`, `last_start`, `running`, `last_exit_code`, the fast-run warning) and
the `fatal` signal to the master are left out.

The two marks of the block are two stores in either branch that sets them, and
that is where the pool can be left **terminal without having finished**: the
give-up branch stores `terminal` before `gave_up`.
-/
import FpmNg.Lib.Runs
import FpmNg.Lib.Interleave
import Mathlib.Algebra.Ring.Nat
import Mathlib.Algebra.Ring.Int.Defs
import Mathlib.Data.Fintype.Basic

open List Function Bool Option Runs

namespace FpmNg.SupervisorOneShot

open Interleave World

/-! ## The shared block and the places of the program -/

/-- The two values of `supervisor.restart` that run a script once. -/
inductive Restart where
  | never
  | on_failure
  deriving DecidableEq

structure Config where
  supervisor_processes : ℤ
  supervisor_restart : Restart
  supervisor_restart_max : ℤ

/-- `supervisor_processes > 0 ? supervisor_processes : 1`. -/
def Config.processes (c : Config) : ℕ :=
  if c.supervisor_processes > 0 then c.supervisor_processes.toNat else 1

instance (c : Config) : NeZero c.processes where
  out := by
    unfold Config.processes
    split
    · omega
    · exact Nat.one_ne_zero

/-- What a run leaves behind: a script was started in a slot, and the byte of
the slot then; a process came out of `one_shot_maybe_finish()`, with whether all
bytes were set when its last pass began, whether they are now, and the mark. -/
inductive Note (N : ℕ) where
  | started (slot : Fin N) (done : Bool)
  | scanned (slot : Fin N) (fresh full terminal : Bool)
  deriving DecidableEq

/-- `struct fpm_supervisor_shared_s`, with the notes of the run. -/
structure Shared (N : ℕ) where
  terminal : Bool
  gave_up : Bool
  failures : ℕ
  one_shot_done_no_slot : ℕ
  one_shot_done_by_slot : Fin N → Bool
  log : List (Note N)

/-- All `N` bytes are set. -/
def Shared.full {N : ℕ} (s : Shared N) : Bool := decide (∀ k, s.one_shot_done_by_slot k = true)

/-- Who called `one_shot_maybe_finish()`: the copy that just set its byte, or
the respawn of a copy that was done. -/
inductive Caller where
  | completed
  | respawned
  deriving DecidableEq

/-- Where a process of the pool stands. In the places of the scan, `fresh` is
not the program's: it says whether all bytes were set when the pass began. -/
inductive Pc where
  /-- `child_main()` reads `terminal`. -/
  | entry
  /-- It reads the byte of its slot. -/
  | own_byte
  /-- The top of the loop. -/
  | loop
  /-- Behind the backoff wait. -/
  | waited
  /-- The last look at `terminal` before the script. -/
  | start
  /-- The script runs. -/
  | running
  /-- The copy is done: its byte is about to be set. -/
  | mark
  /-- A pass of the scan begins. -/
  | pass (caller : Caller) (previous : ℕ)
  /-- The pass is about to read byte `i`. -/
  | scan (caller : Caller) (previous done i : ℕ) (fresh : Bool)
  /-- The scan is over: `done >= processes && !terminal`. -/
  | check (caller : Caller) (done : ℕ) (fresh : Bool)
  | set_terminal (caller : Caller) (fresh : Bool)
  | clear_gave_up (caller : Caller) (fresh : Bool)
  | clear_failures (caller : Caller) (fresh : Bool)
  /-- `one_shot_maybe_finish()` returns. -/
  | finished (caller : Caller) (fresh : Bool)
  /-- A failure: a long run resets the counter. -/
  | age
  | load_failures
  | store_failures (v : ℕ)
  /-- The counter is compared with `supervisor.restart_max`. -/
  | limit
  | give_terminal
  | give_gave_up
  /-- `apply_policy()` asked for a retry. -/
  | retry
  | parked
  /-- Out of the loop, about to exit. -/
  | leaving
  deriving DecidableEq

/-- What a step takes from outside: a stop was requested, the copy has to wait
before its start, the exit code of the script, and that it ran for
`restart_delay_max` or longer. -/
structure Env where
  term : Bool
  waits : Bool
  exit_code : ℕ
  long_run : Bool
  deriving DecidableEq

/-! ## One step of a process -/

/-- `apply_policy()`: `wants_retry`. -/
def wants_retry (c : Config) (exit_code : ℕ) : Bool :=
  match c.supervisor_restart with
  | .never => false
  | .on_failure => decide (exit_code ≠ 0)

/-- One load or store of the process in `slot`, which stands at the given place.
No place behind it means that the process exits. -/
def advance (c : Config) (s : Shared c.processes) (slot : Fin c.processes) (env : Env) :
    Pc → Shared c.processes × Option Pc
  | .entry => (s, some (if s.terminal then .parked else .own_byte))
  | .own_byte =>
    (s, some (if s.one_shot_done_by_slot slot then .pass .respawned 0 else .loop))
  | .loop => (s, some (if env.term then .leaving else if env.waits then .waited else .start))
  | .waited => (s, some (if env.term then .leaving else if s.terminal then .leaving else .start))
  | .start =>
    if env.term || s.terminal then (s, some .leaving)
    else ({ s with log := .started slot (s.one_shot_done_by_slot slot) :: s.log }, some .running)
  | .running => (s, some (if wants_retry c env.exit_code then .age else .mark))
  | .mark =>
    ({ s with one_shot_done_by_slot := update s.one_shot_done_by_slot slot true },
      some (.pass .completed 0))
  | .pass caller previous =>
    (s, some (.scan caller previous s.one_shot_done_no_slot 0 s.full))
  | .scan caller previous done i fresh =>
    if h : i < c.processes then
      (s, some (.scan caller previous
        (if s.one_shot_done_by_slot ⟨i, h⟩ then done + 1 else done) (i + 1) fresh))
    else if done = previous then (s, some (.check caller done fresh))
    else (s, some (.pass caller done))
  | .check caller done fresh =>
    (s, some (if done ≥ c.processes ∧ s.terminal = false then .set_terminal caller fresh
      else .finished caller fresh))
  | .set_terminal caller fresh => ({ s with terminal := true }, some (.clear_gave_up caller fresh))
  | .clear_gave_up caller fresh =>
    ({ s with gave_up := false }, some (.clear_failures caller fresh))
  | .clear_failures caller fresh => ({ s with failures := 0 }, some (.finished caller fresh))
  | .finished caller fresh =>
    ({ s with log := .scanned slot fresh s.full s.terminal :: s.log },
      some (match caller with
        | .respawned => .parked
        | .completed => if s.terminal then .leaving else .parked))
  | .age => (if env.long_run then { s with failures := 0 } else s, some .load_failures)
  | .load_failures => (s, some (.store_failures s.failures))
  | .store_failures v => ({ s with failures := (v + 1) % 2 ^ 32 }, some .limit)
  | .limit =>
    (s, some (if c.supervisor_restart_max > 0 ∧ (s.failures : ℤ) ≥ c.supervisor_restart_max
      then .give_terminal else .retry))
  | .give_terminal => ({ s with terminal := true }, some .give_gave_up)
  | .give_gave_up => ({ s with gave_up := true }, some .retry)
  | .retry => (s, some (if s.terminal then .leaving else .loop))
  | .parked => (s, if env.term then none else some .parked)
  | .leaving => (s, none)

/-! ## The pool -/

abbrev Pool (c : Config) := World (Shared c.processes) (Fin c.processes) Pc

/-- What `init_main()` leaves: a zeroed block, nobody forked yet. -/
def init (c : Config) : Pool c where
  shared := ⟨false, false, 0, 0, fun _ => false, []⟩
  procs := fun _ => none

/-- What can happen to the pool: the master forks into a slot, the process of a
slot takes a step, or it is killed. -/
inductive Event (N : ℕ) where
  | spawn (slot : Fin N)
  | advance (slot : Fin N) (env : Env)
  | kill (slot : Fin N)
  deriving DecidableEq

def step (c : Config) (w : Pool c) : Event c.processes → Pool c
  | .spawn slot =>
    match w.procs slot with
    | none => w.put slot w.shared (some .entry)
    | some _ => w
  | .advance slot env =>
    match w.procs slot with
    | none => w
    | some pc => w.put slot (advance c w.shared slot env pc).1 (advance c w.shared slot env pc).2
  | .kill slot => w.put slot w.shared none

def run (c : Config) (events : List (Event c.processes)) : Pool c :=
  Runs.run (step c) (init c) events

/-! ## What a process may assume where it stands -/

variable {c : Config}

/-- **The assertion of each place.** Before its byte is set, the byte of its slot
is clear: nobody else writes it. In a pass of the scan, `done` is the number of
bytes read only if all of them were set, and it is that if all bytes were set
when the pass began. Behind the check the bytes are all set and nobody has given
up, so storing the marks changes nothing that somebody else decided. -/
def Local (s : Shared c.processes) (slot : Fin c.processes) : Pc → Prop
  | .entry | .own_byte | .pass _ _ | .parked | .leaving => True
  | .loop | .waited | .start | .running | .mark | .age | .load_failures | .store_failures _
  | .limit | .give_terminal | .retry => s.one_shot_done_by_slot slot = false
  | .give_gave_up => s.one_shot_done_by_slot slot = false ∧ s.terminal = true
  | .scan _ _ done i fresh =>
    done ≤ i ∧ i ≤ c.processes ∧ (done = i → ∀ k, k.val < i → s.one_shot_done_by_slot k = true)
      ∧ (fresh = true → done = i ∧ ∀ k, s.one_shot_done_by_slot k = true)
  | .check _ done fresh =>
    (c.processes ≤ done → ∀ k, s.one_shot_done_by_slot k = true)
      ∧ (fresh = true → c.processes ≤ done)
  | .set_terminal _ _ => (∀ k, s.one_shot_done_by_slot k = true) ∧ s.gave_up = false
  | .clear_gave_up _ _ =>
    (∀ k, s.one_shot_done_by_slot k = true) ∧ s.gave_up = false ∧ s.terminal = true
  | .clear_failures _ _ => s.terminal = true
  | .finished _ fresh => fresh = true → s.terminal = true

def Note.Right {N : ℕ} : Note N → Prop
  | .started _ done => done = false
  | .scanned _ fresh _ terminal => fresh = true → terminal = true

structure Global (s : Shared c.processes) : Prop where
  no_slot : s.one_shot_done_no_slot = 0
  gave_up : s.gave_up = true → s.terminal = true
  log : ∀ note ∈ s.log, note.Right

/-- **What one step can do to the block**, seen by the other processes: it writes
no byte but its own and clears none, the pool stays terminal, and the gave-up
mark is never taken back and only set by a copy that is not done. -/
structure Effect (slot : Fin c.processes) (s s' : Shared c.processes) : Prop where
  others : ∀ k, k ≠ slot → s'.one_shot_done_by_slot k = s.one_shot_done_by_slot k
  grows : ∀ k, s.one_shot_done_by_slot k = true → s'.one_shot_done_by_slot k = true
  terminal : s.terminal = true → s'.terminal = true
  kept : s.gave_up = true → s'.gave_up = true
  gave_up : s'.gave_up = true → s.gave_up = true ∨ s.one_shot_done_by_slot slot = false

lemma Effect.refl (slot : Fin c.processes) (s : Shared c.processes) : Effect slot s s :=
  ⟨fun _ _ => rfl, fun _ h => h, fun h => h, fun h => h, Or.inl⟩

variable {pc : Pc}

lemma Local.stable {s s' : Shared c.processes} {slot k : Fin c.processes} (he : Effect slot s s')
    (hk : k ≠ slot) (h : Local s k pc) : Local s' k pc := by
  have hgave : (∀ j, s.one_shot_done_by_slot j = true) → s.gave_up = false →
      s'.gave_up = false := by
    intro hall hno
    by_contra hc
    rcases he.gave_up (eq_true_of_not_eq_false hc) with h1 | h1
    · rw [hno] at h1
      simp at h1
    · rw [hall slot] at h1
      simp at h1
  cases pc with
  | entry | own_byte | pass | parked | leaving => trivial
  | give_gave_up => exact ⟨(he.others k hk).trans h.1, he.terminal h.2⟩
  | scan caller previous done i fresh =>
    obtain ⟨hle, hi, hset, hfresh⟩ := h
    refine ⟨hle, hi, ?_, ?_⟩
    · intro heq j hj
      exact he.grows j (hset heq j hj)
    · intro hf
      exact ⟨(hfresh hf).1, fun j => he.grows j ((hfresh hf).2 j)⟩
  | check caller done fresh => exact ⟨fun hd j => he.grows j (h.1 hd j), h.2⟩
  | set_terminal => exact ⟨fun j => he.grows j (h.1 j), hgave h.1 h.2⟩
  | clear_gave_up =>
    exact ⟨fun j => he.grows j (h.1 j), hgave h.1 h.2.1, he.terminal h.2.2⟩
  | clear_failures => exact he.terminal h
  | finished => exact fun hf => he.terminal (h hf)
  | _ => exact (he.others k hk).trans h

/-! ## One step -/

/-- What a step has to show: the effect on the others, the block, and its own
assertion at the place it moves to. -/
structure Moved (slot : Fin c.processes) (s : Shared c.processes)
    (r : Shared c.processes × Option Pc) : Prop where
  effect : Effect slot s r.1
  shared : Global r.1
  here : ∀ q, r.2 = some q → Local r.1 slot q

variable {s : Shared c.processes} {slot : Fin c.processes}

lemma Moved.stored {s' : Shared c.processes} {q : Pc} (hG : Global s')
    (hbytes : s'.one_shot_done_by_slot = s.one_shot_done_by_slot)
    (hterminal : s.terminal = true → s'.terminal = true)
    (hgave : s'.gave_up = s.gave_up ∨ s'.gave_up = true ∧ s.one_shot_done_by_slot slot = false)
    (hq : Local s' slot q) : Moved slot s (s', some q) where
  effect := by
    refine ⟨fun k _ => congrFun hbytes k, fun k => (congrFun hbytes k).trans, hterminal, ?_, ?_⟩
    · intro h
      rcases hgave with hsame | ⟨hnow, -⟩
      · exact hsame.trans h
      · exact hnow
    · intro h
      rcases hgave with hsame | ⟨-, hclear⟩
      · exact .inl (hsame.symm.trans h)
      · exact .inr hclear
  shared := hG
  here := by
    intro q' h
    rw [← some.inj h]
    exact hq

lemma Moved.look (hG : Global s) {q : Pc} (hq : Local s slot q) : Moved slot s (s, some q) :=
  .stored hG rfl id (.inl rfl) hq

lemma Global.note (hG : Global s) {note : Note c.processes} (h : note.Right) :
    Global { s with log := note :: s.log } where
  no_slot := hG.no_slot
  gave_up := hG.gave_up
  log := forall_mem_cons.mpr ⟨h, hG.log⟩

lemma advance_unfinished (hG : Global s) (env : Env)
    (hpc : pc = .loop ∨ pc = .waited ∨ pc = .start ∨ pc = .running ∨ pc = .age ∨ pc = .load_failures ∨ (∃ v, pc = .store_failures v) ∨ pc = .limit ∨ pc = .give_terminal ∨ pc = .retry)
    (h : s.one_shot_done_by_slot slot = false) : Moved slot s (advance c s slot env pc) := by
  rcases hpc with rfl | rfl | rfl | rfl | rfl | rfl | ⟨v, rfl⟩ | rfl | rfl | rfl
  · refine Moved.look hG ?_
    split
    · trivial
    · split <;> exact h
  · refine Moved.look hG ?_
    split
    · trivial
    · split
      · trivial
      · exact h
  · rw [advance]
    split
    · exact Moved.look hG trivial
    · exact .stored (hG.note h) rfl id (.inl rfl) h
  · refine Moved.look hG ?_
    split <;> exact h
  · rw [advance]
    split
    · exact .stored ⟨hG.no_slot, hG.gave_up, hG.log⟩ rfl id (.inl rfl) h
    · exact Moved.look hG h
  · exact Moved.look hG h
  · exact .stored ⟨hG.no_slot, hG.gave_up, hG.log⟩ rfl id (.inl rfl) h
  · refine Moved.look hG ?_
    split <;> exact h
  · exact .stored ⟨hG.no_slot, fun _ => rfl, hG.log⟩ rfl (fun _ => rfl) (.inl rfl) ⟨h, rfl⟩
  · refine Moved.look hG ?_
    split
    · trivial
    · exact h

lemma advance_scan (hG : Global s) (env : Env) (caller : Caller) (previous done i : ℕ)
    (fresh : Bool) (h : Local s slot (.scan caller previous done i fresh)) :
    Moved slot s (advance c s slot env (.scan caller previous done i fresh)) := by
  obtain ⟨hle, hi, hset, hfresh⟩ := h
  rw [advance]
  split
  · next hlt =>
    refine Moved.look hG ?_
    cases hbyte : s.one_shot_done_by_slot ⟨i, hlt⟩ with
    | false =>
      rw [if_neg (by simp)]
      refine ⟨by omega, hlt, fun heq => absurd heq (by omega), ?_⟩
      intro hf
      -- a fresh pass cannot meet a clear byte
      rw [(hfresh hf).2] at hbyte
      simp at hbyte
    | true =>
      rw [if_pos rfl]
      refine ⟨by omega, hlt, ?_, fun hf => ⟨by rw [(hfresh hf).1], (hfresh hf).2⟩⟩
      intro heq k hk
      rcases lt_or_ge k.val i with hlt' | hge
      · exact hset (by omega) k hlt'
      · have hki : k = ⟨i, hlt⟩ := Fin.ext (by simp only; omega)
        rw [hki]
        exact hbyte
  · next hend =>
    split
    · refine Moved.look hG ⟨?_, ?_⟩
      · intro hge k
        exact hset (by omega) k (by omega)
      · intro hf
        have hdone := (hfresh hf).1
        omega
    · exact Moved.look hG trivial

theorem advance_moved (hG : Global s) (env : Env) (h : Local s slot pc) :
    Moved slot s (advance c s slot env pc) := by
  cases pc with
  | entry =>
    refine Moved.look hG ?_
    split <;> trivial
  | own_byte =>
    refine Moved.look hG ?_
    split
    · trivial
    · next hbyte => exact eq_false_of_not_eq_true hbyte
  | mark =>
    refine ⟨⟨?_, ?_, fun h => h, fun h => h, Or.inl⟩, ⟨hG.no_slot, hG.gave_up, hG.log⟩, ?_⟩
    · intro k hk
      exact update_of_ne hk ..
    · intro k hk
      by_cases hks : k = slot
      · rw [hks]
        exact update_self ..
      · exact (update_of_ne hks ..).trans hk
    · intro q hq
      rw [← some.inj hq]
      trivial
  | pass caller previous =>
    refine Moved.look hG ?_
    rw [hG.no_slot]
    refine ⟨le_rfl, Nat.zero_le _, fun _ k hk => absurd hk (Nat.not_lt_zero _), ?_⟩
    intro hf
    exact ⟨rfl, of_decide_eq_true hf⟩
  | scan caller previous done i fresh => exact advance_scan hG env caller previous done i fresh h
  | check caller done fresh =>
    refine Moved.look hG ?_
    split
    · next hc =>
      refine ⟨h.1 hc.1, ?_⟩
      -- not terminal, so nobody has given up
      by_contra hg
      have hterm := hG.gave_up (eq_true_of_not_eq_false hg)
      rw [hc.2] at hterm
      simp at hterm
    · next hc =>
      intro hf
      by_contra hterm
      exact hc ⟨h.2 hf, eq_false_of_not_eq_true hterm⟩
  | set_terminal caller fresh =>
    exact .stored ⟨hG.no_slot, fun _ => rfl, hG.log⟩ rfl (fun _ => rfl) (.inl rfl) ⟨h.1, h.2, rfl⟩
  | clear_gave_up caller fresh =>
    -- the mark is clear already: the store changes nothing
    have hsame : { s with gave_up := false } = s := by
      rw [← h.2.1]
    rw [advance, hsame]
    exact Moved.look hG h.2.2
  | clear_failures caller fresh =>
    exact .stored ⟨hG.no_slot, hG.gave_up, hG.log⟩ rfl id (.inl rfl) fun _ => h
  | finished caller fresh =>
    refine .stored (hG.note h) rfl id (.inl rfl) ?_
    cases caller with
    | respawned => trivial
    | completed =>
      dsimp only
      split <;> trivial
  | give_gave_up =>
    exact .stored ⟨hG.no_slot, fun _ => h.2, hG.log⟩ rfl id (.inr ⟨rfl, h.1⟩) h.1
  | parked =>
    refine ⟨Effect.refl slot s, hG, ?_⟩
    intro q hq
    simp only [advance] at hq
    split at hq
    · exact nomatch hq
    · rw [← some.inj hq]
      trivial
  | leaving => exact ⟨Effect.refl slot s, hG, by simp [advance]⟩
  | _ => exact advance_unfinished hG env (by simp) h

/-! ## Every interleaving -/

abbrev Inv (w : Pool c) : Prop := Holds Global Local w

lemma init_inv : Inv (init c) where
  shared := ⟨rfl, by simp [init], by simp [init]⟩
  here := by simp [init]

lemma step_inv (w : Pool c) (event : Event c.processes) (h : Inv w) : Inv (step c w event) := by
  cases event with
  | spawn slot =>
    simp only [step]
    split
    · refine h.put h.shared ?_ (fun _ _ _ _ hl => hl)
      intro q hq
      rw [← some.inj hq]
      trivial
    · exact h
  | advance slot env =>
    simp only [step]
    split
    · exact h
    · next pc hpc =>
      have hm := advance_moved h.shared env (h.here slot pc hpc)
      exact h.put hm.shared hm.here (fun k q hk _ hl => hl.stable hm.effect hk)
  | kill slot =>
    exact h.put h.shared nofun (fun _ _ _ _ hl => hl)

lemma run_inv (events : List (Event c.processes)) : Inv (run c events) :=
  run_invariant step_inv _ events init_inv

lemma step_gave_up (w : Pool c) (event : Event c.processes) (h : Inv w)
    (hgave : w.shared.terminal = true ∧ w.shared.gave_up = true) :
    (step c w event).shared.terminal = true ∧ (step c w event).shared.gave_up = true := by
  cases event with
  | spawn slot =>
    simp only [step]
    split <;> exact hgave
  | advance slot env =>
    simp only [step]
    split
    · exact hgave
    · next pc hpc =>
      have hm := advance_moved h.shared env (h.here slot pc hpc)
      exact ⟨hm.effect.terminal hgave.1, hm.effect.kept hgave.2⟩
  | kill slot => exact hgave

lemma run_gave_up (w : Pool c) (events : List (Event c.processes)) (h : Inv w)
    (hgave : w.shared.terminal = true ∧ w.shared.gave_up = true) :
    (Runs.run (step c) w events).shared.terminal = true
      ∧ (Runs.run (step c) w events).shared.gave_up = true := by
  have hrun := run_invariant
    (I := fun w : Pool c => Inv w ∧ w.shared.terminal = true ∧ w.shared.gave_up = true)
    (fun w event hw => ⟨step_inv w event hw.1, step_gave_up w event hw.1 hw.2⟩) w events ⟨h, hgave⟩
  exact hrun.2

/-! ## Runs that spare the two marks -/

/-- Whether all bytes were set when the pass of a scan began, for a process that
is in one. -/
def Pc.fresh? : Pc → Option Bool
  | .scan _ _ _ _ fresh | .check _ _ fresh | .set_terminal _ fresh | .clear_gave_up _ fresh
  | .clear_failures _ fresh | .finished _ fresh => some fresh
  | _ => none

/-- **The condition on the events of a run.** No process is killed between its
two stores of `terminal` and `gave_up`, and the last byte is not set while
another process is in the middle of a pass. -/
def Spared (w : Pool c) : Event c.processes → Prop
  | .spawn _ => True
  | .advance slot _ =>
    w.procs slot = some .mark → (∀ k, k ≠ slot → w.shared.one_shot_done_by_slot k = true) →
      ∀ k, k ≠ slot → (w.procs k).bind Pc.fresh? = none
  | .kill slot => w.procs slot ≠ some .give_gave_up

instance (w : Pool c) (event : Event c.processes) : Decidable (Spared w event) := by
  cases event <;> unfold Spared <;> infer_instance

/-- Terminal without having given up: all bytes are set, unless somebody is about
to store the other mark. -/
def Finishing (w : Pool c) : Prop :=
  w.shared.terminal = true → w.shared.gave_up = false →
    (∀ k, w.shared.one_shot_done_by_slot k = true) ∨ ∃ k, w.procs k = some .give_gave_up

/-- A pass that is under way when all bytes are set began then. -/
structure Looking (w : Pool c) : Prop where
  here : (∀ k, w.shared.one_shot_done_by_slot k = true) →
    ∀ k, (w.procs k).bind Pc.fresh? ≠ some false
  log : ∀ slot fresh full terminal, Note.scanned slot fresh full terminal ∈ w.shared.log →
    full = true → fresh = true

lemma advance_marks (env : Env) (h : Local s slot pc) :
    ((advance c s slot env pc).1.terminal = s.terminal
        ∧ (advance c s slot env pc).1.gave_up = s.gave_up ∧ pc ≠ .give_gave_up)
      ∨ (∀ k, (advance c s slot env pc).1.one_shot_done_by_slot k = true)
      ∨ (advance c s slot env pc).2 = some .give_gave_up
      ∨ (advance c s slot env pc).1.gave_up = true := by
  cases pc with
  | start | age =>
    left
    rw [advance]
    split <;> exact ⟨rfl, rfl, by simp⟩
  | scan caller previous done i fresh =>
    left
    rw [advance]
    split
    · exact ⟨rfl, rfl, by simp⟩
    · split <;> exact ⟨rfl, rfl, by simp⟩
  | set_terminal caller fresh | clear_gave_up caller fresh => exact .inr (.inl h.1)
  | give_terminal => exact .inr (.inr (.inl rfl))
  | give_gave_up => exact .inr (.inr (.inr rfl))
  | _ => exact .inl ⟨rfl, rfl, by simp⟩

lemma step_finishing (w : Pool c) (event : Event c.processes) (hspared : Spared w event)
    (hinv : Inv w) (h : Finishing w) : Finishing (step c w event) := by
  -- a process that is about to store the other mark is only moved by its own step
  have hother : ∀ slot s p, w.procs slot ≠ some .give_gave_up →
      (∃ k, w.procs k = some .give_gave_up) →
      ∃ k, (w.put slot s p).procs k = some .give_gave_up := by
    rintro slot s p hslot ⟨k, hk⟩
    have hne : k ≠ slot := fun heq => hslot (heq ▸ hk)
    exact ⟨k, (put_procs_other w s p hne).trans hk⟩
  cases event with
  | spawn slot =>
    simp only [step]
    split
    · next hfree =>
      intro ht hg
      rcases h ht hg with hall | hmid
      · exact .inl hall
      · exact .inr (hother slot _ _ (by rw [hfree]; simp) hmid)
    · exact h
  | kill slot =>
    intro ht hg
    rcases h ht hg with hall | hmid
    · exact .inl hall
    · exact .inr (hother slot _ _ hspared hmid)
  | advance slot env =>
    simp only [step]
    split
    · exact h
    · next pc hpc =>
      have hl := hinv.here slot pc hpc
      have hm := advance_moved hinv.shared env hl
      intro ht hg
      rcases advance_marks env hl with ⟨hterm, hgave, hne⟩ | hall | hnext | hgave
      · rcases h (hterm.symm.trans ht) (hgave.symm.trans hg) with hall | hmid
        · exact .inl (fun k => hm.effect.grows k (hall k))
        · exact .inr (hother slot _ _ (by rw [hpc]; simpa using hne) hmid)
      · exact .inl hall
      · exact .inr ⟨slot, (put_procs_self ..).trans hnext⟩
      · exact nomatch hgave.symm.trans hg

lemma advance_fresh (s : Shared c.processes) (slot : Fin c.processes) (env : Env) (pc : Pc) :
    ((advance c s slot env pc).2.bind Pc.fresh? = pc.fresh?
        ∧ ((advance c s slot env pc).1.one_shot_done_by_slot = s.one_shot_done_by_slot))
      ∨ (advance c s slot env pc).2.bind Pc.fresh? = none
      ∨ ((advance c s slot env pc).2.bind Pc.fresh? = some s.full
        ∧ (advance c s slot env pc).1 = s) := by
  -- a pass notes whether all bytes were set, its scan keeps the note, the rest drops it
  cases pc with
  | start =>
    rw [advance]
    split <;> exact .inr (.inl rfl)
  | scan caller previous done i fresh =>
    rw [advance]
    split
    · exact .inl ⟨rfl, rfl⟩
    · split
      · exact .inl ⟨rfl, rfl⟩
      · exact .inr (.inl rfl)
  | check caller done fresh =>
    refine .inl ⟨?_, rfl⟩
    simp only [advance, bind_some]
    split <;> rfl
  | set_terminal | clear_gave_up | clear_failures => exact .inl ⟨rfl, rfl⟩
  | pass => exact .inr (.inr ⟨rfl, rfl⟩)
  | finished caller fresh =>
    right; left
    cases caller with
    | respawned => rfl
    | completed =>
      simp only [advance, bind_some]
      split <;> rfl
  | entry | own_byte | running | limit | retry | parked =>
    right; left
    simp only [advance, bind_some]
    split <;> rfl
  | loop | waited =>
    right; left
    simp only [advance, bind_some]
    split
    · rfl
    · split <;> rfl
  | _ => exact .inr (.inl rfl)

lemma advance_bytes (s : Shared c.processes) (slot : Fin c.processes) (env : Env) (h : pc ≠ .mark)
    :
    (advance c s slot env pc).1.one_shot_done_by_slot = s.one_shot_done_by_slot := by
  cases pc with
  | mark => exact absurd rfl h
  | start | age =>
    rw [advance]
    split <;> rfl
  | scan =>
    rw [advance]
    split
    · rfl
    · split <;> rfl
  | _ => rfl

/-- The note of a scan is made where `one_shot_maybe_finish()` returns. -/
lemma advance_scanned (s : Shared c.processes) (slot : Fin c.processes) (env : Env) (pc : Pc)
    {k : Fin c.processes} {fresh full terminal : Bool}
    (h : Note.scanned k fresh full terminal ∈ (advance c s slot env pc).1.log) :
    Note.scanned k fresh full terminal ∈ s.log ∨ (pc.fresh? = some fresh ∧ full = s.full) := by
  cases pc with
  | start =>
    rw [advance] at h
    split at h
    · exact .inl h
    · rcases mem_cons.mp h with heq | hold
      · simp at heq
      · exact .inl hold
  | scan =>
    rw [advance] at h
    split at h
    · exact .inl h
    · split at h <;> exact .inl h
  | age =>
    rw [advance] at h
    split at h <;> exact .inl h
  | finished caller fresh' =>
    rcases mem_cons.mp h with heq | hold
    · right
      injection heq with _ hfresh hfull _
      exact ⟨by rw [hfresh]; rfl, hfull⟩
    · exact .inl hold
  | _ => exact .inl h

lemma step_looking (w : Pool c) (event : Event c.processes) (hspared : Spared w event)
    (h : Looking w) : Looking (step c w event) := by
  -- a slot that holds no scan afterwards, with the block as it was
  have hidle : ∀ slot p, Option.bind p Pc.fresh? = none →
      Looking (w.put slot w.shared p) := by
    intro slot p hp
    refine ⟨?_, h.log⟩
    intro hall k
    by_cases hk : k = slot
    · rw [hk, put_procs_self, hp]
      simp
    · rw [put_procs_other w w.shared p hk]
      exact h.here hall k
  cases event with
  | spawn slot =>
    simp only [step]
    split
    · exact hidle slot _ rfl
    · exact h
  | kill slot => exact hidle slot none rfl
  | advance slot env =>
    cases hpc : w.procs slot with
    | none =>
      simp only [step, hpc]
      exact h
    | some pc =>
      simp only [step, hpc]
      refine ⟨?_, ?_⟩
      · intro hall k
        by_cases hk : k = slot
        · rw [hk, put_procs_self]
          rcases advance_fresh w.shared slot env pc with ⟨hsame, hbytes⟩ | hnone | ⟨hnew, hsame⟩
          · have hbefore := h.here (fun j => by
              have hj := hall j
              rw [put_shared, hbytes] at hj
              exact hj) slot
            rw [hpc] at hbefore
            rw [hsame]
            exact hbefore
          · rw [hnone]
            simp
          · rw [put_shared, hsame] at hall
            rw [hnew, Shared.full, decide_eq_true hall]
            simp
        · rw [put_procs_other w _ _ hk]
          by_cases hmark : pc = .mark
          · -- the byte may be the last one: then nobody else is in a pass
            rw [hmark] at hpc hall
            have hnone := hspared hpc (fun j hj => by
              have hset := hall j
              exact (update_of_ne hj ..).symm.trans hset) k hk
            rw [hnone]
            simp
          · refine h.here (fun j => ?_) k
            have hj := hall j
            rw [put_shared, advance_bytes w.shared slot env hmark] at hj
            exact hj
      · intro k fresh full terminal hnote hfull
        rcases advance_scanned w.shared slot env pc hnote with hold | ⟨hfresh, hnow⟩
        · exact h.log k fresh full terminal hold hfull
        · -- the pass that returns now began with all bytes set
          have hbefore := h.here (of_decide_eq_true (hnow.symm.trans hfull)) slot
          rw [hpc, bind_some, hfresh] at hbefore
          cases fresh with
          | true => rfl
          | false => exact absurd rfl hbefore

/-! ## The pool -/

/-- **One-shot pools.** In every interleaving of forks, steps and kills that
spares the two stores of the give-up branch and does not set the last byte in the
middle of somebody's pass: no script is started in a slot whose byte is set; the
pool is terminal without having given up only if all bytes are set (or somebody
is between the two stores); whenever a process has completed its scan and all
bytes are set, the pool is terminal; and a pool that gave up stays so, whatever
happens afterwards. -/
theorem one_shot_settles (c : Config) (events : List (Event c.processes))
    (h : Along (step c) Spared (init c) events) :
    (∀ slot done, Note.started slot done ∈ (run c events).shared.log → done = false)
      ∧ ((run c events).shared.terminal = true → (run c events).shared.gave_up = false →
          (∀ k, (run c events).procs k ≠ some .give_gave_up) →
          ∀ k, (run c events).shared.one_shot_done_by_slot k = true) ∧ (∀ slot fresh full terminal,
          Note.scanned slot fresh full terminal ∈ (run c events).shared.log →
          full = true → terminal = true) ∧ ∀ more : List (Event c.processes),
          (run c events).shared.terminal = true ∧ (run c events).shared.gave_up = true →
          (run c (events ++ more)).shared.terminal = true
            ∧ (run c (events ++ more)).shared.gave_up = true := by
  have hinv := run_inv events
  have hmore := run_invariant_along (I := fun w : Pool c => Inv w ∧ Finishing w ∧ Looking w)
    (fun w event hs hw => ⟨step_inv w event hw.1, step_finishing w event hs hw.1 hw.2.1,
      step_looking w event hs hw.2.2⟩) (init c) events h
    ⟨init_inv, fun ht => absurd ht (by simp [init]),
      ⟨fun _ k => by simp [init], by simp [init]⟩⟩
  obtain ⟨_, hfin, hlook⟩ := hmore
  refine ⟨fun slot done hn => hinv.shared.log _ hn, ?_, ?_, ?_⟩
  · intro ht hg hmid
    rcases hfin ht hg with hall | ⟨k, hk⟩
    · exact hall
    · exact absurd hk (hmid k)
  · intro slot fresh full terminal hn hfull
    exact hinv.shared.log _ hn (hlook.log slot fresh full terminal hn hfull)
  · intro more hgave
    have happend : run c (events ++ more) = Runs.run (step c) (run c events) more := by
      exact foldl_append ..
    rw [happend]
    exact run_gave_up (run c events) more hinv hgave

def quiet : Env := ⟨false, false, 0, false⟩

/-- Two copies side by side. The first is done and parks; the second is killed between its
byte and its scan, and the process forked behind it scans. -/
def two_copies : List (Event (Config.processes ⟨2, .never, 0⟩)) :=
  .spawn 0 :: .spawn 1 :: (replicate 5 [.advance 0 quiet, .advance 1 quiet]).flatten
    ++ replicate 12 (.advance 0 quiet) ++ [.advance 1 quiet, .kill 1, .spawn 1]
    ++ replicate 15 (.advance 1 quiet)

theorem one_shot_settles_two_copies :
    (run ⟨2, .never, 0⟩ two_copies).shared.terminal = true
      ∧ (run ⟨2, .never, 0⟩ two_copies).shared.log.map
        (fun | .started slot _ => (slot, false) | .scanned slot .. => (slot, true))
          = [(1, true), (0, true), (1, false), (0, false)]
      ∧ ∀ slot fresh full terminal, Note.scanned slot fresh full terminal
          ∈ (run ⟨2, .never, 0⟩ two_copies).shared.log → full = true → terminal = true :=
  ⟨by decide, by decide, (one_shot_settles ⟨2, .never, 0⟩ two_copies (by decide)).2.2.1⟩

/-- The only copy fails for the first time and is killed between its two stores. -/
def killed_early : List (Event (Config.processes ⟨1, .on_failure, 1⟩)) :=
  .spawn 0 :: replicate 4 (.advance 0 quiet)
    ++ replicate 6 (.advance 0 ⟨false, false, 1, false⟩) ++ [.kill 0]

/-- The second copy sets its byte when the first has read it for the last time. -/
def overtaken : List (Event (Config.processes ⟨2, .never, 0⟩)) :=
  .spawn 0 :: .spawn 1 :: replicate 5 (.advance 1 quiet)
    ++ replicate 13 (.advance 0 quiet) ++ [.advance 1 quiet]
    ++ replicate 3 (.advance 0 quiet)

/-- **A pool left terminal by a copy that failed.** With `restart = on-failure`
and `restart_max = 1`, the only copy fails and is killed between its two stores:
the pool is terminal, does not say that it gave up, and its byte is not set. With
two copies and `restart = never`, the byte of the second is set behind the back
of the first one's last pass: the first comes out of its scan with all bytes set
and the pool not terminal. -/
theorem killed_between_the_marks :
    ((run ⟨1, .on_failure, 1⟩ killed_early).shared.terminal = true
        ∧ (run ⟨1, .on_failure, 1⟩ killed_early).shared.gave_up = false
        ∧ (run ⟨1, .on_failure, 1⟩ killed_early).shared.one_shot_done_by_slot 0 = false)
      ∧ Note.scanned 0 false true false ∈ (run ⟨2, .never, 0⟩ overtaken).shared.log := by
  refine ⟨⟨?_, ?_, ?_⟩, ?_⟩ <;> decide

end FpmNg.SupervisorOneShot
