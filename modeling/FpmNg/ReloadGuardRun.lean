/-
The runs of the guard of a selective reload, from the double fork on.

The guard signals exactly if it is abandoned: nobody has the write end, and the byte
was not written. Both halves are about the same state. Nobody gains the write end and
only a process that has it can write, so a world that is abandoned stays abandoned,
and a guard that read the end of file was right about it for good. A guard that is
abandoned needs only its own steps.

What the identity of a process rests on is the check that comes before each signal.
It holds of the moment of the check. Where no start time was recorded, and between the
check and the signal, the pid alone decides; and a master that is killed in
`fpm_reload_selective_discard_unadopted` leaves to the guard what it has signalled
itself.
-/
import FpmNg.ReloadGuard

open Runs List Function Option Prod

namespace FpmNg.ReloadGuard

open ReloadSelective World

/-! ## The guard's place

What the guard knows at each place of its code. The list it has signalled and the list
it has still to look at make up, in this order, a part of what was carried. -/

def Sweep.pending (s : Sweep) : List Carried := s.passed.toList ++ s.todo

lemma Sweep.step_pending (readable : Bool) (table : Table) (s : Sweep) :
    ((s.step readable table).2.map fst ++ (s.step readable table).1.pending).Sublist
      s.pending := by
  obtain ⟨passed, todo⟩ := s
  cases passed with
  | some c =>
    cases hc : table c.pid with
    | none | some b => simp [Sweep.step, Sweep.pending, hc]
  | none =>
    cases todo with
    | nil => simp [Sweep.step, Sweep.pending]
    | cons c todo =>
      cases hc : fpm_pid_is_same readable table c.pid c.start <;>
        simp [Sweep.step, Sweep.pending, hc]

lemma sigterm_entries_carried (s : Start) : sigterm_entries s.env = s.carried := by
  unfold sigterm_entries Start.carried
  rw [sigterm_groups _ s.carries, filter_eq_self]
  intro d _
  rfl

def GuardAt (s : Start) (w : World) : Prop :=
  match w.guard with
  | .starting env => env = s.env ∧ w.guard_log = []
  | .reading env => env = s.env ∧ w.guard_log = []
  | .sweeping sw => w.Abandoned ∧ (w.guard_log.map fst ++ sw.pending).Sublist s.carried
  | .quit => w.byte = true ∧ w.guard_log = []
  | .finished => w.Abandoned ∧ (w.guard_log.map fst).Sublist s.carried

variable {w : World} {s : Start}

lemma guard_step_at (h : GuardAt s w) (readable : Bool) : GuardAt s (w.guard_step readable) := by
  unfold guard_step
  unfold GuardAt at h
  cases hguard : w.guard with
  | starting env =>
    rw [hguard] at h
    exact h
  | reading env =>
    rw [hguard] at h
    rcases w.pipe_read_cases with ⟨hread, hbyte⟩ | hread | ⟨hread, hgone⟩
    · rw [hread]
      exact ⟨hbyte, h.2⟩
    · rw [hread]
      unfold GuardAt
      rw [hguard]
      exact h
    · -- the end of file: nobody is left to write
      rw [hread]
      refine ⟨hgone, ?_⟩
      simp only [h.2, map_nil, nil_append, Sweep.start, Sweep.pending,
        toList_none, h.1, sigterm_entries_carried]
      exact Sublist.refl _
  | sweeping sw =>
    rw [hguard] at h
    obtain ⟨hgone, hlist⟩ := h
    dsimp only
    -- the sweep is over, or it looks at the next entry
    split
    · exact ⟨hgone, (sublist_append_left _ _).trans hlist⟩
    · refine ⟨hgone, ?_⟩
      rw [map_append, append_assoc]
      exact ((Sweep.step_pending readable w.table sw).append_left _).trans hlist
  | quit =>
    rw [hguard] at h
    unfold GuardAt
    rw [hguard]
    exact h
  | finished =>
    rw [hguard] at h
    unfold GuardAt
    dsimp only
    rw [hguard]
    exact h

lemma step_guard_at (h : GuardAt s w) (e : Event) : GuardAt s (w.step e) := by
  by_cases he : ∃ r, e = .guard r
  · obtain ⟨r, rfl⟩ := he
    exact guard_step_at h r
  · obtain ⟨hguard, hlog, hbyte⟩ := w.step_other fun r hr => he ⟨r, hr⟩
    unfold GuardAt at h ⊢
    rw [hguard, hlog]
    cases hphase : w.guard with
    | starting env | reading env => rwa [hphase] at h
    | sweeping sw | finished =>
      rw [hphase] at h
      exact ⟨step_abandoned h.1 e, h.2⟩
    | quit =>
      rw [hphase] at h
      exact ⟨hbyte h.1, h.2⟩

abbrev run (w : World) (events : List Event) : World := Runs.run step w events

lemma run_guard_at (s : Start) (events : List Event) : GuardAt s (run s.world events) :=
  run_invariant (I := GuardAt s) (fun _ e h => step_guard_at h e) _ events ⟨rfl, rfl⟩

/-! ## An abandoned guard needs only its own steps -/

def Phase.left : Phase → ℕ
  | .starting env => 2 * (sigterm_entries env).length + 3
  | .reading env => 2 * (sigterm_entries env).length + 2
  | .sweeping s => 2 * s.todo.length + s.passed.toList.length + 1
  | .quit => 0
  | .finished => 0

lemma Sweep.step_left {s : Sweep} (readable : Bool) (table : Table) (h : s.done = false) :
    2 * (s.step readable table).1.todo.length + (s.step readable table).1.passed.toList.length + 1 ≤
      2 * s.todo.length + s.passed.toList.length := by
  obtain ⟨passed, todo⟩ := s
  cases passed with
  | some c => simp [Sweep.step]
  | none =>
    cases todo with
    | nil => simp [Sweep.done] at h
    | cons c todo =>
      cases hc : fpm_pid_is_same readable table c.pid c.start <;> simp [Sweep.step, hc] <;> omega

lemma guard_step_left (h : w.Abandoned) (readable : Bool) :
    (w.guard_step readable).guard.left ≤ w.guard.left - 1 := by
  unfold guard_step
  cases hguard : w.guard with
  | starting env => simp [Phase.left]
  | reading env =>
    rw [pipe_read_abandoned h]
    simp [after_read, Phase.left, Sweep.start]
  | sweeping s =>
    dsimp only
    split
    · simp [Phase.left]
    · rename_i hdone
      have hleft := Sweep.step_left readable w.table (Bool.eq_false_iff.mpr hdone)
      simp only [Phase.left]
      omega
  | quit | finished => simp [hguard, Phase.left]

def guard_steps (events : List Event) : ℕ :=
  events.countP fun e => match e with
    | .guard _ => true
    | _ => false

lemma run_left (h : w.Abandoned) (events : List Event) :
    (run w events).guard.left ≤ w.guard.left - guard_steps events := by
  induction events generalizing w with
  | nil => exact Nat.le_refl _
  | cons e events ih =>
    have hrest := ih (step_abandoned h e)
    have hrun : run w (e :: events) = run (w.step e) events := rfl
    rw [hrun]
    by_cases he : ∃ r, e = .guard r
    · obtain ⟨r, rfl⟩ := he
      have hstep : (w.step (.guard r)).guard.left ≤ w.guard.left - 1 := guard_step_left h r
      have hcount : guard_steps (.guard r :: events) = guard_steps events + 1 :=
        countP_cons_of_pos rfl
      omega
    · have hne : ∀ r, e ≠ .guard r := fun r hr => he ⟨r, hr⟩
      have hcount : guard_steps (e :: events) = guard_steps events := by
        apply countP_cons_of_neg
        cases e with
        | guard r => exact absurd rfl (hne r)
        | _ => simp
      rw [(w.step_other hne).1] at hrest
      omega

theorem run_finished (hat : GuardAt s w) (h : w.Abandoned) {events : List Event}
    (henough : w.guard.left ≤ guard_steps events) :
    (run w events).guard = .finished := by
  have hzero : (run w events).guard.left = 0 := by
    have hleft := run_left h events
    omega
  have hat' : GuardAt s (run w events) :=
    run_invariant (I := GuardAt s) (fun _ e h => step_guard_at h e) _ events hat
  have hgone : (run w events).Abandoned :=
    run_invariant (I := Abandoned) (fun _ e h => step_abandoned h e) _ events h
  unfold GuardAt at hat'
  cases hphase : (run w events).guard with
  | starting env | reading env | sweeping sw =>
    rw [hphase] at hzero
    exact absurd hzero (Nat.succ_ne_zero _)
  | quit =>
    -- the byte was never written
    rw [hphase] at hat'
    exact absurd hat'.1 (by simp [hgone.2])
  | finished => rfl

/-! ## A carried child that is there gets its signal -/

def Present (table : Table) (c : Carried) : Prop :=
  fpm_pid_is_same true table c.pid c.start = true

/-- The child is not reaped, and `/proc` can be read. -/
def Staying (c : Carried) (_ : World) : Event → Prop
  | .reap pid => pid ≠ c.pid
  | .guard readable => readable = true
  | _ => True

variable {c : Carried}

lemma Present.isSome {table : Table} (h : Present table c) : (table c.pid).isSome = true := by
  unfold Present fpm_pid_is_same fpm_pid_start_time at h
  split at h
  · exact h
  · rename_i hstart
    cases hc : table c.pid with
    | some b => rfl
    | none =>
      rw [hc] at h
      exact absurd (beq_iff_eq.mp h).symm hstart

lemma Present.congr {table table' : Table} (h : Present table c) (hc : table' c.pid = table c.pid) :
    Present table' c := by
  unfold Present fpm_pid_is_same fpm_pid_start_time at *
  rwa [hc]

variable {e : Event}

lemma step_present (hstay : Staying c w e) (h : Present w.table c) :
    Present (w.step e).table c := by
  cases e with
  | act i a =>
    simp only [step, act]
    split
    · exact h
    split <;> exact h
  | die i => exact h
  | guard r =>
    have htable : (w.step (.guard r)).table = w.table := (guard_step_frame w r).2.2
    rwa [htable]
  | interrupt =>
    simp only [step]
    split <;> exact h
  | reap pid => exact h.congr (update_of_ne (Ne.symm hstay) _ _)
  | spawn pid =>
    simp only [step]
    split
    · exact h
    · rename_i hfree
      refine h.congr (update_of_ne ?_ _ _)
      rintro rfl
      exact hfree h.isSome

def Due (c : Carried) (w : World) : Prop :=
  match w.guard with
  | .starting env => c ∈ sigterm_entries env
  | .reading env => c ∈ sigterm_entries env
  | .sweeping s => c ∈ w.guard_log.map fst ∨ c ∈ s.pending
  | .quit => False
  | .finished => c ∈ w.guard_log.map fst

lemma Sweep.step_due {s : Sweep} {table : Table} (hc : Present table c) (h : c ∈ s.pending) :
    c ∈ (s.step true table).2.map fst ∨ c ∈ (s.step true table).1.pending := by
  obtain ⟨passed, todo⟩ := s
  cases passed with
  | some d =>
    rcases mem_cons.mp h with rfl | h
    · obtain ⟨b, hb⟩ := isSome_iff_exists.mp hc.isSome
      exact .inl (by simp [Sweep.step, hb])
    · exact .inr h
  | none =>
    cases todo with
    | nil => exact absurd h not_mem_nil
    | cons d todo =>
      right
      rcases mem_cons.mp h with rfl | h
      · have hsame : fpm_pid_is_same true table c.pid c.start = true := hc
        simp [Sweep.step, Sweep.pending, hsame]
      · exact mem_append_right _ h

lemma step_due (hstay : Staying c w e) (hgone : w.Abandoned) (hc : Present w.table c)
    (h : Due c w) : Due c (w.step e) := by
  by_cases he : ∃ r, e = .guard r
  · obtain ⟨r, rfl⟩ := he
    obtain rfl : r = true := hstay
    unfold Due at h
    show Due c (w.guard_step true)
    unfold guard_step
    cases hguard : w.guard with
    | starting env =>
      rw [hguard] at h
      exact h
    | reading env =>
      rw [hguard] at h
      rw [pipe_read_abandoned hgone]
      exact .inr h
    | sweeping s =>
      rw [hguard] at h
      dsimp only
      split
      · -- it is not over while the child is still in front of it
        rename_i hdone
        refine h.resolve_right fun hpending => ?_
        simp only [Sweep.done, Bool.and_eq_true, isNone_iff_eq_none,
          List.isEmpty_iff] at hdone
        rw [Sweep.pending, hdone.1, hdone.2] at hpending
        exact absurd hpending not_mem_nil
      · unfold Due
        rw [map_append, mem_append]
        rcases h with h | h
        · exact .inl (.inl h)
        · rcases Sweep.step_due hc h with h | h
          · exact .inl (.inr h)
          · exact .inr h
    | quit =>
      rw [hguard] at h
      exact h.elim
    | finished =>
      rw [hguard] at h
      unfold Due
      rw [hguard]
      exact h
  · obtain ⟨hguard, hlog, -⟩ := w.step_other fun r hr => he ⟨r, hr⟩
    unfold Due at h ⊢
    rwa [hguard, hlog]

theorem run_due {events : List Event} (hgone : w.Abandoned) (hc : Present w.table c)
    (hdue : Due c w) (hstay : Along step (Staying c) w events) :
    Due c (run w events) := by
  have h : (run w events).Abandoned ∧ Present (run w events).table c ∧ Due c (run w events) :=
    run_invariant_along (I := fun w => w.Abandoned ∧ Present w.table c ∧ Due c w)
      (fun w e hG h => ⟨step_abandoned h.1 e, step_present hG h.2.1, step_due hG h.1 h.2.1 h.2.2⟩)
      w events hstay ⟨hgone, hc, hdue⟩
  exact h.2.2

/-! ## Whom a signal reaches -/

def Phase.passed : Phase → Option Carried
  | .sweeping s => s.passed
  | _ => none

def Unreaped (w : World) : Event → Prop
  | .reap pid => ∀ c, w.guard.passed = some c → c.pid ≠ pid
  | _ => True

/-- A signal for an entry with a start time reaches the process of that start time. -/
structure Genuine (w : World) : Prop where
  passed : ∀ c, w.guard.passed = some c → c.start = 0 ∨ w.table c.pid = some c.start
  sent : ∀ x ∈ w.guard_log, x.1.start = 0 ∨ x.2 = x.1.start

lemma is_same_spec {readable : Bool} {table : Table} {pid : Int} {start : ℕ}
    (h : fpm_pid_is_same readable table pid start = true) :
    start = 0 ∨ table pid = some start := by
  unfold fpm_pid_is_same at h
  by_cases hstart : start = 0
  · exact .inl hstart
  rw [if_neg hstart, beq_iff_eq] at h
  right
  unfold fpm_pid_start_time at h
  split at h
  · cases hpid : table pid with
    | none =>
      rw [hpid] at h
      exact absurd h.symm hstart
    | some b =>
      rw [hpid] at h
      exact congrArg some h
  · exact absurd h.symm hstart

lemma Sweep.step_genuine {readable : Bool} {table : Table} {s : Sweep}
    (h : ∀ c, s.passed = some c → c.start = 0 ∨ table c.pid = some c.start) :
    (∀ c, (s.step readable table).1.passed = some c → c.start = 0 ∨ table c.pid = some c.start) ∧
      ∀ x ∈ (s.step readable table).2, x.1.start = 0 ∨ x.2 = x.1.start := by
  obtain ⟨passed, todo⟩ := s
  cases passed with
  | some c =>
    refine ⟨by simp [Sweep.step], fun x hx => ?_⟩
    obtain ⟨b, hb, rfl⟩ : ∃ b, table c.pid = some b ∧ (c, b) = x := by
      simpa [Sweep.step] using hx
    refine (h c rfl).imp_right fun hc => ?_
    exact some.inj (hb.symm.trans hc)
  | none =>
    cases todo with
    | nil => exact ⟨h, fun x hx => absurd hx not_mem_nil⟩
    | cons c todo =>
      refine ⟨fun d hd => ?_, fun x hx => absurd hx not_mem_nil⟩
      simp only [Sweep.step] at hd
      split at hd
      · rename_i hsame
        cases hd
        exact is_same_spec hsame
      · simp at hd

lemma guard_step_genuine (h : Genuine w) (readable : Bool) : Genuine (w.guard_step readable) := by
  unfold guard_step
  cases hguard : w.guard with
  | starting env => exact ⟨by simp [Phase.passed], h.sent⟩
  | reading env =>
    rcases w.pipe_read_cases with ⟨hread, -⟩ | hread | ⟨hread, -⟩
    · rw [hread]
      exact ⟨by simp [after_read, Phase.passed], h.sent⟩
    · rw [hread]
      exact h
    · rw [hread]
      exact ⟨by simp [after_read, Phase.passed, Sweep.start], h.sent⟩
  | sweeping s =>
    have hpassed : ∀ c, s.passed = some c → c.start = 0 ∨ w.table c.pid = some c.start := by
      intro c hc
      exact h.passed c (by rw [hguard]; exact hc)
    dsimp only
    split
    · exact ⟨by simp [Phase.passed], h.sent⟩
    · obtain ⟨hnext, hsent⟩ := @Sweep.step_genuine readable _ _ hpassed
      refine ⟨hnext, fun x hx => ?_⟩
      rcases mem_append.mp hx with hx | hx
      · exact h.sent x hx
      · exact hsent x hx
  | quit => exact h
  | finished => exact h

lemma step_genuine (hsafe : Unreaped w e) (h : Genuine w) : Genuine (w.step e) := by
  by_cases he : ∃ r, e = .guard r
  · obtain ⟨r, rfl⟩ := he
    exact guard_step_genuine h r
  obtain ⟨hguard, hlog, -⟩ := w.step_other fun r hr => he ⟨r, hr⟩
  refine ⟨fun c hc => ?_, fun x hx => h.sent x (by rwa [hlog] at hx)⟩
  rw [hguard] at hc
  refine (h.passed c hc).imp_right fun htable => ?_
  cases e with
  | act i a =>
    simp only [step, act]
    split
    · exact htable
    split <;> exact htable
  | die i => exact htable
  | guard r => exact absurd ⟨r, rfl⟩ he
  | interrupt =>
    simp only [step]
    split <;> exact htable
  | reap pid => exact (update_of_ne (hsafe c hc) _ _).trans htable
  | spawn pid =>
    simp only [step]
    split
    · exact htable
    · rename_i hfree
      refine (update_of_ne ?_ _ _).trans htable
      rintro rfl
      exact hfree (by rw [htable]; rfl)

/-! ## The law of the guard -/

namespace Role

def before_close : Role → Bool
  | .released => false
  | .worker => false
  | .gone _ => false
  | _ => true

end Role

lemma Known.before_close {pipe : Pipe} {p : Proc} (h : Known pipe p)
    (hopen : p.write_end = true) : p.role.before_close = true := by
  have hknown := h hopen
  cases hrole : p.role with
  | released | worker | gone ok => rw [hrole] at hknown; exact hknown.elim
  | _ => rfl

lemma run_known (hlow : 3 ≤ s.pipe.fd) (hhigh : s.pipe.fd ≤ 65536) (events : List Event) :
    ∀ p ∈ (run s.world events).procs, Known s.pipe p := by
  have hparse := guard_parse_value hlow hhigh s.ino_le
  have h : (run s.world events).pipe = s.pipe ∧
      ∀ p ∈ (run s.world events).procs, Known s.pipe p := by
    refine run_invariant (I := fun w => w.pipe = s.pipe ∧ ∀ p ∈ w.procs, Known s.pipe p)
      (fun w e h => ⟨(step_pipe w e).trans h.1, ?_⟩) s.world events ⟨rfl, ?_⟩
    · refine step_forall (fun p a f hp hf => ?_) (fun p hp => killed_known hp) h.2 e
      rw [h.1] at hf
      exact effect_known hparse hf hp
    · intro p hp
      rcases mem_cons.mp hp with rfl | hp
      · exact fun _ => rfl
      · obtain rfl := mem_singleton.mp hp
        exact fun _ => trivial
  exact h.2

lemma GuardAt.left_le (h : GuardAt s w) : w.guard.left ≤ 2 * s.carried.length + 3 := by
  unfold GuardAt at h
  cases hguard : w.guard with
  | starting env =>
    rw [hguard] at h
    exact Nat.le_of_eq (by rw [Phase.left, h.1, sigterm_entries_carried])
  | reading env =>
    rw [hguard] at h
    rw [Phase.left, h.1, sigterm_entries_carried]
    omega
  | sweeping sw =>
    rw [hguard] at h
    have hlen := h.2.length_le
    rw [Sweep.pending, length_append, length_append] at hlen
    simp only [Phase.left]
    omega
  | quit | finished => exact Nat.zero_le _

lemma GuardAt.log_sublist (h : GuardAt s w) : (w.guard_log.map fst).Sublist s.carried := by
  unfold GuardAt at h
  cases hguard : w.guard with
  | sweeping sw => rw [hguard] at h; exact (sublist_append_left _ _).trans h.2
  | finished => rw [hguard] at h; exact h.2
  | _ => rw [hguard] at h; rw [h.2]; exact nil_sublist _

lemma GuardAt.abandoned (h : GuardAt s w) (hlog : w.guard_log ≠ []) : w.Abandoned := by
  unfold GuardAt at h
  cases hguard : w.guard with
  | sweeping sw | finished => rw [hguard] at h; exact h.1
  | _ => rw [hguard] at h; exact absurd h.2 hlog

def Phase.waits : Phase → Bool
  | .starting _ => true
  | .reading _ => true
  | _ => false

lemma GuardAt.due (h : GuardAt s w) (hwaits : w.guard.waits = true) (hc : c ∈ s.carried) :
    Due c w := by
  unfold GuardAt at h
  unfold Due
  cases hguard : w.guard with
  | starting env | reading env =>
    rw [hguard] at h
    dsimp only
    rwa [h.1, sigterm_entries_carried]
  | _ => simp [hguard, Phase.waits] at hwaits

structure GuardLaw (s : Start) (w : World) : Prop where
  /-- It signals only if nobody has the write end and the byte was not written. -/
  only_abandoned : w.guard_log ≠ [] → w.Abandoned
  /-- If that is so it goes through the whole list, in a bounded number of its own
  steps and whatever happens in between. -/
  finishes : w.Abandoned → ∀ more, 2 * s.carried.length + 3 ≤ guard_steps more →
    (run w more).guard = .finished
  /-- A carried child that is there, and stays there, gets its signal. -/
  delivers : w.Abandoned → w.guard.waits = true → ∀ c ∈ s.carried, Present w.table c →
    ∀ more, Along step (Staying c) w more → 2 * s.carried.length + 3 ≤ guard_steps more →
      c ∈ (run w more).guard_log.map fst
  /-- After a release it never signals. -/
  never_released : w.byte = true → ∀ more, (run w more).guard_log = []
  /-- No process keeps the write end past its release, its child-side close or its
  end. -/
  holders : 3 ≤ s.pipe.fd → s.pipe.fd ≤ 65536 →
    ∀ p ∈ w.procs, p.write_end = true → p.role.before_close = true
  /-- It signals only carried children, and each of them once. -/
  only_carried : ∀ x ∈ w.guard_log, x.1 ∈ s.carried
  once : (w.guard_log.map fun x => x.1.pid).Nodup

lemma run_append (w : World) (first second : List Event) :
    run w (first ++ second) = run (run w first) second :=
  foldl_append

lemma step_byte (e : Event) (h : w.byte = true) : (w.step e).byte = true := by
  by_cases he : ∃ r, e = .guard r
  · obtain ⟨r, rfl⟩ := he
    exact (guard_step_frame w r).2.1.trans h
  · exact (w.step_other fun r hr => he ⟨r, hr⟩).2.2 h

/-- **The guard of a selective reload**, over every interleaving of the guard with the
processes of both masters, and with every death. A signal for an entry that has a
start time reaches the carried process itself, unless that process is reaped between
the check and the signal. -/
theorem guard_law (s : Start) (events : List Event) :
    GuardLaw s (run s.world events) ∧ (Along step Unreaped s.world events →
        ∀ x ∈ (run s.world events).guard_log, x.1.start ≠ 0 → x.2 = x.1.start) := by
  have hat := run_guard_at s events
  refine ⟨⟨hat.abandoned, ?_, ?_, ?_, ?_, ?_, ?_⟩, ?_⟩
  · intro hgone more henough
    exact run_finished hat hgone (Nat.le_trans hat.left_le henough)
  · intro hgone hwaits c hc hpresent more hstay henough
    have hdue := run_due hgone hpresent (hat.due hwaits hc) hstay
    unfold Due at hdue
    rwa [run_finished hat hgone (Nat.le_trans hat.left_le henough)] at hdue
  · intro hbyte more
    by_contra hlog
    -- the byte stays written, so the guard cannot have been abandoned
    have hat' : GuardAt s (run (run s.world events) more) := by
      rw [← run_append]
      exact run_guard_at s (events ++ more)
    have hstill : (run (run s.world events) more).byte = true :=
      run_invariant (I := fun w : World => w.byte = true) (fun _ e h => step_byte e h) _ more hbyte
    simp [(hat'.abandoned hlog).2] at hstill
  · intro hlow hhigh p hp hopen
    exact (run_known hlow hhigh events p hp).before_close hopen
  · intro x hx
    exact hat.log_sublist.subset (mem_map_of_mem hx)
  · have hpids : (s.carried.map Carried.pid).Nodup := by
      have h := s.pids
      rwa [Start.carried, List.map_map]
    have hsub := (hat.log_sublist.map Carried.pid).nodup hpids
    rwa [List.map_map] at hsub
  · intro hsafe x hx hstart
    have h := run_invariant_along (fun _ _ hG h => step_genuine hG h) s.world events
      hsafe ⟨by simp [Start.world, Phase.passed],
        fun x hx => absurd hx not_mem_nil⟩
    exact (h.sent x hx).resolve_left hstart

/-! ## Where the pid alone decides -/

/-- Two pools are spared, and `/proc` had no start time for the child of the second. -/
def two_pools_start : Start where
  pipe := ⟨9, 40961⟩
  ino_le := by decide
  env := (two_pools.foldl (SpareCall.run fun _ _ => true) ⟨none, []⟩).env
  groups := two_pools.flatMap SpareCall.group
  carries := (spare_run _ rfl two_pools (by decide)).1
  pids := by decide
  table := fun pid =>
    if pid = 811 then some 4710 else if pid = 812 then some 4711
    else if pid = 900 then some 4999 else none
  clock := 5000
  older := by
    intro pid b h
    split at h
    · simp_all; omega
    split at h
    · simp_all; omega
    split at h
    · simp_all; omega
    · simp at h

/-- The reload up to the new master's `fpm_run`. -/
def until_run : List Event :=
  [.act 1 .exit, .act 0 .waitpid, .act 0 (.execvp true), .act 0 .init_main, .act 0 .fpm_run]

/-- The master signals a child nobody adopted, and is killed before the release. -/
def killed_in_discard : List Event :=
  until_run ++ [.act 0 .discard_unadopted, .act 0 (.sweep true), .act 0 (.sweep true), .die 0] ++
    replicate 9 (.guard true)

def reused_before_check (pid : Int) : List Event :=
  until_run ++ [.die 0, .reap pid, .spawn pid] ++ replicate 9 (.guard true)

def reused_after_check (pid : Int) : List Event :=
  until_run ++ .die 0 :: replicate 3 (.guard true) ++ [.reap pid, .spawn pid] ++
    replicate 6 (.guard true)

/-- The same reload with the pipe at a descriptor the new master does not take. -/
def high_start : Start :=
  { two_pools_start with pipe := ⟨70000, 40961⟩, ino_le := two_pools_start.ino_le }

def outlived_by_child : List Event :=
  until_run ++ [.act 0 .fork_child, .act 2 .child_init, .die 0] ++ replicate 9 (.guard true)

/-- **A carried child can be signalled twice, and a signal can reach another process**:
by the master and then by the guard; where no start time was recorded; and between the
check and the signal. And with the pipe above descriptor 65536 a child keeps the write end
past its close, and the guard waits for it. -/
theorem signalled_twice_or_replaced :
    ((⟨811, 4710⟩, 4710) ∈ (run two_pools_start.world killed_in_discard).master_log ∧
      (⟨811, 4710⟩, 4710) ∈ (run two_pools_start.world killed_in_discard).guard_log) ∧
    (two_pools_start.table 900 = some 4999 ∧
      (⟨900, 0⟩, 5000) ∈ (run two_pools_start.world (reused_before_check 900)).guard_log) ∧
    (two_pools_start.table 811 = some 4710 ∧
      (⟨811, 4710⟩, 5000) ∈ (run two_pools_start.world (reused_after_check 811)).guard_log) ∧
    (run high_start.world outlived_by_child).procs.map (fun p => (p.role, p.write_end)) =
        [(.gone false, false), (.gone true, false), (.worker, true)] ∧
      (run high_start.world outlived_by_child).guard.waits = true := by
  decide +kernel

/-- With its start time recorded, a child that is replaced before the check is safe. -/
example : (run two_pools_start.world (reused_before_check 811)).guard_log =
    [(⟨812, 4711⟩, 4711), (⟨900, 0⟩, 4999)] := by decide +kernel

end FpmNg.ReloadGuard
