/-
The shared admission budget of a target: `fpm_http_budget_take`,
`fpm_http_budget_give_back` and the master's `fpm_http_counters_process_gone`,
run by any number of gateway processes with their steps interleaved.

A step is one access to memory that another process can see: a read of the
shared counter, a compare-and-set of it, or the update of a process's own gauge.
A process can die between any two. The master's reconciliation of a dead
process is cut into the same kind of steps.

The argument is one account. Each slot owes the counter what it has charged and
not returned (`owed`); the counter is never less than the sum, and it is more
only by what died between the two halves of an operation.
-/
import FpmNg.Lib.Runs
import FpmNg.Lib.Shares

open Runs Shares Function

namespace FpmNg.Budget

/-! ## One slot -/

/-- Where a live process is. `take_cas` and `give_cas` remember the value read. -/
inductive Pc where
  | idle
  | take_read
  | take_cas (used : ℕ)
  | take_gauge
  | give_gauge
  | give_read
  | give_cas (used : ℕ)
  deriving DecidableEq

/-- A slot's process is alive, or dead, or being reconciled by the master inside
`fpm_http_counter_sub`, or reconciled and ready to be spawned again. -/
inductive Life where
  | live (pc : Pc)
  | dead
  | sub_read (amount : ℕ)
  | sub_cas (amount value : ℕ)
  | zero_gauge
  | gone
  deriving DecidableEq

/-- One gateway process slot. `held` is the number of upstream connections the
process holds a reservation for, `gauge` its `upstreams_held` cell in shared
memory, which outlives it. -/
structure Proc where
  life : Life
  held : ℕ
  gauge : ℕ
  deriving DecidableEq

inductive Action where
  | take
  | give_back
  | die
  | respawn
  | advance
  deriving DecidableEq

/-- The next step of the program that runs in a slot, on the shared counter
`used` and the slot. The gauge is guarded at zero, as `fpm_http_counter_decr`. -/
def advance (max_upstreams used : ℕ) (p : Proc) : ℕ × Proc :=
  match p.life with
  | .live .idle => (used, p)
  | .live .take_read =>
    if used ≥ max_upstreams then (used, { p with life := .live .idle })
    else (used, { p with life := .live (.take_cas used) })
  | .live (.take_cas u) =>
    if used = u then (u + 1, { p with life := .live .take_gauge })
    else (used, { p with life := .live .take_read })
  | .live .take_gauge =>
    (used, { life := .live .idle, held := p.held + 1, gauge := p.gauge + 1 })
  | .live .give_gauge => (used, { p with life := .live .give_read, gauge := p.gauge - 1 })
  | .live .give_read =>
    if used = 0 then (used, { p with life := .live .idle })
    else (used, { p with life := .live (.give_cas used) })
  | .live (.give_cas u) =>
    if used = u then (u - 1, { p with life := .live .idle })
    else (used, { p with life := .live .give_read })
  | .dead =>
    if p.gauge = 0 then (used, { p with life := .gone })
    else (used, { p with life := .sub_read p.gauge })
  | .sub_read amount =>
    if min amount used = 0 then (used, { p with life := .zero_gauge })
    else (used, { p with life := .sub_cas amount used })
  | .sub_cas amount value =>
    if used = value then (value - min amount value, { p with life := .zero_gauge })
    else (used, { p with life := .sub_read amount })
  | .zero_gauge => (used, { p with life := .gone, gauge := 0 })
  | .gone => (used, p)

/-- An action on a slot. One that its state does not allow does nothing. A
connection is closed before its reservation is given back. -/
def act (max_upstreams used : ℕ) (p : Proc) : Action → ℕ × Proc
  | .take =>
    if p.life = .live .idle then (used, { p with life := .live .take_read }) else (used, p)
  | .give_back =>
    if p.life = .live .idle ∧ 0 < p.held then
      (used, { p with life := .live .give_gauge, held := p.held - 1 })
    else (used, p)
  | .die =>
    match p.life with
    | .live _ => (used, { p with life := .dead })
    | _ => (used, p)
  | .respawn =>
    if p.life = .gone then (used, { p with life := .live .idle, held := 0 }) else (used, p)
  | .advance => advance max_upstreams used p

/-! ## The pool of processes -/

variable {ι : Type*} [Fintype ι] [DecidableEq ι]

structure State (ι : Type*) where
  /-- `*t->upstreams_used`. -/
  used : ℕ
  procs : ι → Proc

def step (max_upstreams : ℕ) (s : State ι) (e : ι × Action) : State ι :=
  let r := act max_upstreams s.used (s.procs e.1) e.2
  { used := r.1, procs := update s.procs e.1 r.2 }

def start : State ι :=
  { used := 0, procs := fun _ => { life := .live .idle, held := 0, gauge := 0 } }

def live_held (p : Proc) : ℕ :=
  match p.life with
  | .live _ => p.held
  | _ => 0

def halfway (p : Proc) : Bool :=
  match p.life with
  | .live .take_gauge => true
  | .live .give_read => true
  | .live (.give_cas _) => true
  | _ => false

/-- No operation is in progress: no live process is inside one, and the master
is not inside a reconciliation. -/
def quiet (p : Proc) : Bool :=
  match p.life with
  | .live .idle => true
  | .dead => true
  | .gone => true
  | _ => false

/-! ## The account -/

def owed (p : Proc) : ℕ :=
  match p.life with
  | .live .idle => p.held
  | .live .take_read => p.held
  | .live (.take_cas _) => p.held
  | .live .take_gauge => p.held + 1
  | .live .give_gauge => p.held + 1
  | .live .give_read => p.held + 1
  | .live (.give_cas _) => p.held + 1
  | .dead => p.gauge
  | .sub_read amount => amount
  | .sub_cas amount _ => amount
  | .zero_gauge => 0
  | .gone => 0

def Good (max_upstreams : ℕ) (p : Proc) : Prop :=
  match p.life with
  | .live .idle => p.gauge = p.held
  | .live .take_read => p.gauge = p.held
  | .live (.take_cas u) => p.gauge = p.held ∧ u < max_upstreams
  | .live .take_gauge => p.gauge = p.held
  | .live .give_gauge => p.gauge = p.held + 1
  | .live .give_read => p.gauge = p.held
  | .live (.give_cas u) => p.gauge = p.held ∧ 0 < u
  | .dead => True
  | .sub_read amount => 0 < amount
  | .sub_cas amount value => 0 < amount ∧ amount ≤ value
  | .zero_gauge => True
  | .gone => p.gauge = 0

/-- One slot's step keeps the account: the counter gains what the slot owes more, and stays within
the limit. Nothing is lost unless the step is a death between the two halves of an operation. -/
structure Balanced (max_upstreams used : ℕ) (p : Proc) (r : ℕ × Proc) (clean : Prop) : Prop where
  good : Good max_upstreams r.2
  limit : r.1 ≤ max_upstreams
  covers : used + owed r.2 ≤ r.1 + owed p
  exact_ : clean → used + owed r.2 = r.1 + owed p

variable {max_upstreams used : ℕ} {p : Proc}

lemma balanced_refl {clean : Prop} (hgood : Good max_upstreams p) (hmax : used ≤ max_upstreams) :
    Balanced max_upstreams used p (used, p) clean :=
  ⟨hgood, hmax, le_rfl, fun _ => rfl⟩

lemma advance_balanced (hgood : Good max_upstreams p) (hmax : used ≤ max_upstreams)
    (howed : owed p ≤ used) :
    Balanced max_upstreams used p (advance max_upstreams used p) True := by
  obtain ⟨life, held, gauge⟩ := p
  unfold advance
  rcases life with pc | - | amount | ⟨amount, value⟩ | - | -
  · rcases pc with - | - | u | - | - | - | u <;> simp only [Good, owed] at hgood howed ⊢
    · exact balanced_refl hgood hmax
    · -- the value read is below the limit, or the call fails
      by_cases hfull : used ≥ max_upstreams
      · rw [if_pos hfull]
        exact ⟨hgood, hmax, le_rfl, fun _ => rfl⟩
      · rw [if_neg hfull]
        exact ⟨⟨hgood, by omega⟩, hmax, le_rfl, fun _ => rfl⟩
    · by_cases hsame : used = u
      · rw [if_pos hsame]
        refine ⟨hgood.1, hgood.2, ?_, fun _ => ?_⟩ <;> simp only [owed] <;> omega
      · rw [if_neg hsame]
        exact ⟨hgood.1, hmax, le_rfl, fun _ => rfl⟩
    · refine ⟨?_, hmax, le_rfl, fun _ => rfl⟩
      simp only [Good]
      omega
    · refine ⟨?_, hmax, le_rfl, fun _ => rfl⟩
      simp only [Good]
      omega
    · -- the counter still carries this reservation, so it is not zero
      rw [if_neg (by omega)]
      exact ⟨⟨hgood, by omega⟩, hmax, le_rfl, fun _ => rfl⟩
    · by_cases hsame : used = u
      · rw [if_pos hsame]
        refine ⟨hgood.1, by dsimp only; omega, ?_, fun _ => ?_⟩ <;> simp only [owed] <;> omega
      · rw [if_neg hsame]
        exact ⟨hgood.1, hmax, le_rfl, fun _ => rfl⟩
  · -- the master reads the gauge of a dead process
    by_cases hzero : gauge = 0
    · simp only [if_pos hzero]
      refine ⟨hzero, hmax, ?_, fun _ => ?_⟩ <;> simp only [owed] <;> omega
    · simp only [if_neg hzero]
      exact ⟨pos_of_ne_zero hzero, hmax, le_rfl, fun _ => rfl⟩
  · simp only [Good, owed] at hgood howed ⊢
    rw [if_neg (by omega)]
    exact ⟨⟨hgood, howed⟩, hmax, le_rfl, fun _ => rfl⟩
  · -- the clamp does not act: the counter was at least the amount
    simp only [Good, owed] at hgood howed ⊢
    by_cases hsame : used = value
    · rw [if_pos hsame]
      refine ⟨trivial, by dsimp only; omega, ?_, fun _ => ?_⟩ <;> simp only [owed] <;> omega
    · rw [if_neg hsame]
      exact ⟨hgood.1, hmax, le_rfl, fun _ => rfl⟩
  · exact ⟨rfl, hmax, le_rfl, fun _ => rfl⟩
  · exact balanced_refl hgood hmax

lemma die_balanced (hgood : Good max_upstreams p) (hmax : used ≤ max_upstreams) :
    Balanced max_upstreams used p (act max_upstreams used p .die) (halfway p = false) := by
  obtain ⟨life, held, gauge⟩ := p
  unfold act
  rcases life with pc | - | amount | ⟨amount, value⟩ | - | -
  · rcases pc with - | - | u | - | - | - | u <;> simp only [Good] at hgood <;>
      refine ⟨trivial, hmax, ?_, fun hclean => ?_⟩ <;> simp only [owed, halfway] at * <;>
      first | omega | exact nomatch hclean
  all_goals exact balanced_refl hgood hmax

theorem act_balanced (a : Action) (hgood : Good max_upstreams p) (hmax : used ≤ max_upstreams)
    (howed : owed p ≤ used) :
    Balanced max_upstreams used p (act max_upstreams used p a) (a = .die → halfway p = false) := by
  cases a with
  | advance =>
    obtain ⟨h1, h2, h3, h4⟩ := advance_balanced hgood hmax howed
    exact ⟨h1, h2, h3, fun _ => h4 trivial⟩
  | die =>
    obtain ⟨h1, h2, h3, h4⟩ := die_balanced hgood hmax
    exact ⟨h1, h2, h3, fun hclean => h4 (hclean rfl)⟩
  | take =>
    obtain ⟨life, held, gauge⟩ := p
    by_cases hidle : life = .live .idle
    · subst hidle
      simp only [act, if_true]
      exact ⟨hgood, hmax, le_rfl, fun _ => rfl⟩
    · simp only [act, if_neg hidle]
      exact balanced_refl hgood hmax
  | give_back =>
    obtain ⟨life, held, gauge⟩ := p
    by_cases hidle : life = .live .idle ∧ 0 < held
    · obtain ⟨rfl, hheld⟩ := hidle
      simp only [act, true_and, if_pos hheld]
      -- the closed connection is owed until the counter has been lowered
      have hback : held - 1 + 1 = held := by omega
      refine ⟨?_, hmax, ?_, fun _ => ?_⟩
      · simp only [Good] at hgood ⊢
        omega
      · simp only [owed, hback]
        exact le_rfl
      · simp [owed, hback]
    · simp only [act, if_neg hidle]
      exact balanced_refl hgood hmax
  | respawn =>
    obtain ⟨life, held, gauge⟩ := p
    by_cases hgone : life = .gone
    · subst hgone
      simp only [act, if_true]
      exact ⟨hgood, hmax, le_rfl, fun _ => rfl⟩
    · simp only [act, if_neg hgone]
      exact balanced_refl hgood hmax

/-! ## The invariant over interleavings -/

/-- The counter covers what every slot owes and stays within the limit. -/
structure Covered (max_upstreams : ℕ) (s : State ι) : Prop where
  good : ∀ i, Good max_upstreams (s.procs i)
  limit : s.used ≤ max_upstreams
  covers : total owed s.procs ≤ s.used

omit [DecidableEq ι] in
lemma covered_start (max_upstreams : ℕ) : Covered max_upstreams (start : State ι) where
  good := fun _ => rfl
  limit := Nat.zero_le _
  covers := by simp [total, start, owed]

omit [DecidableEq ι] in
lemma step_balanced {max_upstreams : ℕ} {s : State ι} (h : Covered max_upstreams s)
    (e : ι × Action) :
    Balanced max_upstreams s.used (s.procs e.1) (act max_upstreams s.used (s.procs e.1) e.2)
      (e.2 = .die → halfway (s.procs e.1) = false) :=
  act_balanced e.2 (h.good e.1) h.limit
    (le_trans (share_le_total owed s.procs e.1) h.covers)

lemma covered_step {max_upstreams : ℕ} (s : State ι) (e : ι × Action)
    (h : Covered max_upstreams s) : Covered max_upstreams (step max_upstreams s e) := by
  have hb := step_balanced h e
  refine ⟨?_, hb.limit, ?_⟩
  · intro i
    by_cases hi : i = e.1
    · subst hi
      simpa only [step, update_self] using hb.good
    · simpa only [step, update_of_ne hi] using h.good i
  · have hmove := total_update owed s.procs e.1 (act max_upstreams s.used (s.procs e.1) e.2).2
    have hcov := h.covers
    have hshare := hb.covers
    simp only [step]
    omega

def Clean (s : State ι) (e : ι × Action) : Prop := e.2 = .die → halfway (s.procs e.1) = false

structure Exact (max_upstreams : ℕ) (s : State ι) : Prop where
  covered : Covered max_upstreams s
  exact_ : total owed s.procs = s.used

lemma exact_step {max_upstreams : ℕ} (s : State ι) (e : ι × Action) (hclean : Clean s e)
    (h : Exact max_upstreams s) : Exact max_upstreams (step max_upstreams s e) := by
  refine ⟨covered_step s e h.covered, ?_⟩
  have hmove := total_update owed s.procs e.1 (act max_upstreams s.used (s.procs e.1) e.2).2
  have hshare := (step_balanced h.covered e).exact_ hclean
  have hsum := h.exact_
  simp only [step]
  omega

lemma live_held_le_owed (p : Proc) : live_held p ≤ owed p := by
  obtain ⟨life, held, gauge⟩ := p
  rcases life with pc | - | amount | ⟨amount, value⟩ | - | -
  · rcases pc with - | - | u | - | - | - | u <;> simp only [live_held, owed] <;> omega
  all_goals exact Nat.zero_le _

/-- Outside every operation, and with no dead process waiting for the master, a
slot owes exactly the connections it holds. -/
lemma owed_eq_live_held (hquiet : quiet p = true) (hdead : p.life ≠ .dead) :
    owed p = live_held p := by
  obtain ⟨life, held, gauge⟩ := p
  rcases life with pc | - | amount | ⟨amount, value⟩ | - | -
  · rcases pc with - | - | u | - | - | - | u
    · rfl
    all_goals exact nomatch hquiet
  · exact absurd rfl hdead
  · exact nomatch hquiet
  · exact nomatch hquiet
  · exact nomatch hquiet
  · rfl

/-- **The budget is safe.** In every interleaving the counter stays within the limit and covers
the connections of the live processes. If no process died between the two halves of an operation,
it is exact whenever no operation is in progress and no dead process waits for its reconciliation.
-/
theorem budget_safe (max_upstreams : ℕ) (events : List (ι × Action)) :
    let s := run (step max_upstreams) (start : State ι) events
    s.used ≤ max_upstreams ∧ total live_held s.procs ≤ s.used ∧
      (Along (step max_upstreams) Clean (start : State ι) events →
        (∀ i, quiet (s.procs i) = true) → (∀ i, (s.procs i).life ≠ .dead) →
        s.used = total live_held s.procs) := by
  intro s
  have hcov : Covered max_upstreams s :=
    run_invariant covered_step _ events (covered_start max_upstreams)
  refine ⟨hcov.limit, ?_, ?_⟩
  · exact le_trans (total_le_total fun i => live_held_le_owed (s.procs i)) hcov.covers
  · intro hclean hquiet hdead
    have hexact : Exact max_upstreams s :=
      run_invariant_along exact_step _ events hclean
        ⟨covered_start max_upstreams, by simp [total, start, owed]⟩
    rw [← hexact.exact_]
    exact total_congr fun i => owed_eq_live_held (hquiet i) (hdead i)

def lost (max_upstreams : ℕ) : State ι → List (ι × Action) → ℕ
  | _, [] => 0
  | s, e :: events => (if e.2 = .die ∧ halfway (s.procs e.1) then 1 else 0)
      + lost max_upstreams (step max_upstreams s e) events

lemma die_halfway (used : ℕ) (hgood : Good max_upstreams p) (hhalf : halfway p = true) :
    (act max_upstreams used p .die).1 = used
      ∧ owed p = owed (act max_upstreams used p .die).2 + 1 := by
  obtain ⟨life, held, gauge⟩ := p
  rcases life with (_ | _ | _ | _ | _ | _ | _) | _ | _ | _ | _ | _ <;>
    simp_all [halfway, Good, act, owed]

lemma run_account {s : State ι} {k : ℕ} (h : Covered max_upstreams s)
    (hk : s.used = total owed s.procs + k) (events : List (ι × Action)) :
    (run (step max_upstreams) s events).used
      = total owed (run (step max_upstreams) s events).procs + (k + lost max_upstreams s events) := by
  induction events generalizing s k with
  | nil => exact hk
  | cons e events ih =>
    have hmove := total_update owed s.procs e.1 (act max_upstreams s.used (s.procs e.1) e.2).2
    rw [lost, ← Nat.add_assoc k, run_cons]
    refine ih (covered_step s e h) ?_
    simp only [step]
    split
    · rename_i hdeath
      obtain ⟨hsame, hone⟩ := die_halfway s.used (h.good e.1) hdeath.2
      rw [hdeath.1] at hmove ⊢
      omega
    · rename_i hclean
      have hshare := (step_balanced h e).exact_ (by simpa using hclean)
      omega

/-- **The account of the budget.** In every interleaving the counter is what the slots owe and one
for each death between the two halves of an operation. -/
theorem budget_account (max_upstreams : ℕ) (events : List (ι × Action)) :
    let s := run (step max_upstreams) (start : State ι) events
    s.used = total owed s.procs + lost max_upstreams (start : State ι) events := by
  have h := run_account (covered_start max_upstreams) (k := 0) (by simp [total, start, owed]) events
  rwa [Nat.zero_add] at h

/-- A process that takes one reservation and dies outside every operation: until
the master has reconciled it, the counter is above the connections that are held. -/
theorem budget_dead_unreconciled :
    let events : List (Fin 1 × Action) :=
      [(0, .take), (0, .advance), (0, .advance), (0, .advance), (0, .die)]
    let s := run (step 1) (start : State (Fin 1)) events
    Along (step 1) Clean (start : State (Fin 1)) events ∧ (∀ i, quiet (s.procs i) = true) ∧
      s.used = 1 ∧ total live_held s.procs = 0 := by
  refine ⟨?_, ?_, ?_, ?_⟩
  · simp [Along, Clean, step, act, advance, start, halfway]
  · decide
  · decide
  · decide

end FpmNg.Budget
