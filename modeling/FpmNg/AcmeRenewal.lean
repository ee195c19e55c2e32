/-
The renewal of a certificate: `tickOrThrow()` and `dueReason()` of `renew.php` under the
lock of `lock.php`, for any number of processes that share a state directory and have
the same list of domains.

A tick reads the renewal record, decides whether the installed certificate is due,
takes the lock if it is free, and orders. The decision is four looks at the directory
and the clock, before the lock is taken, and nothing is looked at again once it is
held. The model takes one access a step, in any interleaving; a process may throw or be
killed anywhere but between placing an order and installing its certificate, since here
no order fails. An issued certificate covers the names and is valid for longer than the
threshold when it is installed.
-/
import FpmNg.Lib.Interleave
import FpmNg.Lib.Runs

open Interleave List Option Runs

namespace FpmNg.AcmeRenewal

open World

/-! ## The directory -/

/-- The leaf of `fullchain.pem`: `notAfter()`, if it can be parsed, and `covers()`. -/
structure Cert where
  not_after : Option ℕ
  covers : Bool
  deriving DecidableEq

/-- `renewal.json`. -/
structure Meta where
  failures : ℕ
  next_attempt : Option ℕ
  deriving DecidableEq

/-- An order that was placed: how many certificates had been installed before, and
whether the installed one was due. -/
structure Placed where
  certificate : ℕ
  due : Bool
  deriving DecidableEq

/-- The domain's directory, the lock, the clock, and a record of the orders. -/
structure Dir (ι : Type) where
  chain : Option Cert
  renewal : Meta
  holder : Option ι
  now : ℕ
  installs : ℕ
  orders : List Placed

/-- `$renewDays * 86400`. -/
structure Config where
  threshold : ℕ

/-- The last question of `dueReason()`. -/
def expires (cfg : Config) (now : ℕ) (not_after : ℕ) : Bool := not_after ≤ now + cfg.threshold

/-- The answer of `dueReason()` when nobody interferes: whether there is a reason. -/
def dueReason (cfg : Config) (now : ℕ) : Option Cert → Bool
  | none => true
  | some c =>
    match c.not_after with
    | none => true
    | some not_after => !c.covers || expires cfg now not_after

/-- `backoffRemaining()`. -/
def backoffRemaining (now : ℕ) (m : Meta) : ℕ :=
  match m.next_attempt with
  | none => 0
  | some next => if m.failures = 0 then 0 else next - now

/-! ## The processes -/

inductive Phase where
  /-- `readRenewalMeta()`. -/
  | reading_meta
  /-- `is_file()` in `dueReason()`. -/
  | checking_file (m : Meta)
  | reading_expiry (m : Meta)
  | reading_names (m : Meta) (not_after : ℕ)
  | checking_time (m : Meta) (not_after : ℕ)
  /-- It is due; `backoffRemaining()`. -/
  | checking_backoff (m : Meta)
  /-- `flock()` in `RenewalLock::run()`. -/
  | locking
  /-- In front of the `newOrder` request. -/
  | ordering
  /-- The order is placed; `installCertificate()` is next. -/
  | installing
  | recording
  | unlocking
  deriving DecidableEq

variable {ι : Type}

/-- The next access of a tick, and where it stands afterwards; `none` if it returns.
`life` is how long an issued certificate is valid beyond the threshold. -/
def advance (cfg : Config) (i : ι) (life : ℕ) (d : Dir ι) : Phase → Dir ι × Option Phase
  | .reading_meta => (d, some (.checking_file d.renewal))
  | .checking_file m =>
    (d, some (if d.chain.isSome then .reading_expiry m else .checking_backoff m))
  | .reading_expiry m =>
    match d.chain.bind Cert.not_after with
    | none => (d, some (.checking_backoff m))
    | some not_after => (d, some (.reading_names m not_after))
  | .reading_names m not_after =>
    (d, some (if (d.chain.map Cert.covers).getD false then .checking_time m not_after
      else .checking_backoff m))
  | .checking_time m not_after =>
    (d, if expires cfg d.now not_after then some (.checking_backoff m) else none)
  | .checking_backoff m => (d, if backoffRemaining d.now m = 0 then some .locking else none)
  | .locking =>
    match d.holder with
    | none => ({ d with holder := some i }, some .ordering)
    | some _ => (d, none)
  | .ordering =>
    ({ d with orders := d.orders ++ [⟨d.installs, dueReason cfg d.now d.chain⟩] }, some .installing)
  | .installing =>
    ({ d with
      chain := some ⟨some (d.now + cfg.threshold + 1 + life), true⟩
      installs := d.installs + 1 }, some .recording)
  | .recording => ({ d with renewal := ⟨0, none⟩ }, some .unlocking)
  | .unlocking => ({ d with holder := none }, none)

inductive Event (ι : Type) where
  | start (i : ι)
  | step (i : ι) (life : ℕ)
  /-- The process throws, ends or is killed; the kernel drops its lock. -/
  | leave (i : ι)
  | wait (seconds : ℕ)
  deriving DecidableEq

abbrev Processes (ι : Type) := World (Dir ι) ι Phase

def init (ι : Type) (chain : Option Cert) (m : Meta) (now : ℕ) : Processes ι where
  shared := ⟨chain, m, none, now, 0, []⟩
  procs := fun _ => none

variable [DecidableEq ι]

def Dir.drop (d : Dir ι) (i : ι) : Dir ι := if d.holder = some i then { d with holder := none } else d

def step (cfg : Config) (w : Processes ι) : Event ι → Processes ι
  | .start i =>
    match w.procs i with
    | none => w.put i w.shared (some .reading_meta)
    | some _ => w
  | .step i life =>
    match w.procs i with
    | none => w
    | some p => w.put i (advance cfg i life w.shared p).1 (advance cfg i life w.shared p).2
  | .leave i =>
    match w.procs i with
    | none | some .installing => w
    | some _ => w.put i (w.shared.drop i) none
  | .wait seconds => { w with shared := { w.shared with now := w.shared.now + seconds } }

def run (cfg : Config) (chain : Option Cert) (m : Meta) (now : ℕ) (events : List (Event ι)) :
    Processes ι :=
  Runs.run (step cfg) (init ι chain m now) events

/-! ## What is wanted -/

def Dir.OneOrder (d : Dir ι) : Prop :=
  (∀ p ∈ d.orders, p.due = true) ∧ (d.orders.map Placed.certificate).Nodup

def Timely (cfg : Config) (w : Processes ι) (e : Event ι) : Prop :=
  ∀ i life, e = .step i life → w.procs i = some .locking → w.shared.holder = none →
    dueReason cfg w.shared.now w.shared.chain = true

/-! ## The invariant -/

def Dir.Replaced (d : Dir ι) : Prop := ∀ p ∈ d.orders, p.certificate < d.installs

structure Global (d : Dir ι) : Prop where
  one : d.OneOrder
  free : d.holder = none → d.Replaced

def Local (cfg : Config) (d : Dir ι) (i : ι) : Phase → Prop
  | .ordering => d.holder = some i ∧ d.Replaced ∧ dueReason cfg d.now d.chain = true
  | .installing => d.holder = some i ∧ ∀ p ∈ d.orders, p.certificate ≤ d.installs
  | .recording | .unlocking => d.holder = some i ∧ d.Replaced
  | _ => True

variable {cfg : Config}

lemma dueReason_later {now later : ℕ} (hle : now ≤ later) {chain : Option Cert}
    (h : dueReason cfg now chain = true) : dueReason cfg later chain = true := by
  unfold dueReason at h ⊢
  split
  · rfl
  · rename_i c
    dsimp only at h
    split
    · rfl
    · rename_i not_after hnot
      rw [hnot] at h
      simp only [expires, Bool.or_eq_true, decide_eq_true_eq] at h ⊢
      exact h.imp_right fun hexpires => by omega

omit [DecidableEq ι] in
lemma Local.idle {d d' : Dir ι} {j : ι} {q : Phase} (h : Local cfg d j q)
    (hne : d.holder ≠ some j) : Local cfg d' j q := by
  cases q with
  | ordering | installing | recording | unlocking => exact absurd h.1 hne
  | _ => trivial

def Phase.holds_lock : Phase → Bool
  | .ordering | .installing | .recording | .unlocking => true
  | _ => false

/-- What holds in every state of a timely run; whoever has the lock is there. -/
structure Inv (cfg : Config) (w : Processes ι) : Prop where
  holds : Holds Global (Local cfg) w
  alive : ∀ i, w.shared.holder = some i → ∃ p, w.procs i = some p ∧ p.holds_lock = true

variable {w : Processes ι} {p : Phase} {i : ι}

lemma Inv.look {q : Option Phase} (h : Inv cfg w) (hp : w.procs i = some p)
    (hnot : p.holds_lock = false) (hq : ∀ p', q = some p' → p'.holds_lock = false) :
    Inv cfg (w.put i w.shared q) where
  holds := by
    refine h.holds.put h.holds.shared (fun p' hp' => ?_) fun _ _ _ _ hlocal => hlocal
    have := hq p' hp'
    cases p' with
    | ordering | installing | recording | unlocking => simp [Phase.holds_lock] at this
    | _ => trivial
  alive := by
    intro j hj
    obtain ⟨p', hp', hlock⟩ := h.alive j hj
    have hji : j ≠ i := by
      rintro rfl
      obtain rfl := some.inj (hp.symm.trans hp')
      exact nomatch hnot.symm.trans hlock
    exact ⟨p', (put_procs_other _ _ _ hji).trans hp', hlock⟩

lemma Inv.own {d : Dir ι} {q : Option Phase} (h : Inv cfg w)
    (hmine : ∀ j, w.shared.holder = some j → j = i) (hd : Global d)
    (hq : ∀ p, q = some p → Local cfg d i p)
    (halive : ∀ j, d.holder = some j → j = i ∧ ∃ p, q = some p ∧ p.holds_lock = true) :
    Inv cfg (w.put i d q) where
  holds := h.holds.put hd hq fun j _ hji _ hlocal => hlocal.idle fun hj => hji (hmine j hj)
  alive := by
    intro j hj
    obtain ⟨rfl, p, hp, hlock⟩ := halive j hj
    exact ⟨p, (put_procs_self ..).trans hp, hlock⟩

theorem advance_inv (life : ℕ) (h : Inv cfg w) (hp : w.procs i = some p)
    (ht : Timely cfg w (.step i life)) :
    Inv cfg (w.put i (advance cfg i life w.shared p).1 (advance cfg i life w.shared p).2) := by
  have hown := h.holds.here i p hp
  have hone := h.holds.shared.one
  -- the lock stays with `i`
  have hkeep : ∀ {d : Dir ι} {q : Phase}, w.shared.holder = some i → d.holder = some i →
      q.holds_lock = true → d.OneOrder → Local cfg d i q → Inv cfg (w.put i d (some q)) := by
    intro d q hheld hd hlock horder hlocal
    refine h.own (fun j hj => (some.inj (hheld.symm.trans hj)).symm)
      ⟨horder, fun hn => absurd (hd.symm.trans hn) (by simp)⟩ ?_ ?_
    · rintro q' hq'
      exact some.inj hq' ▸ hlocal
    · exact fun j hj => ⟨(some.inj (hd.symm.trans hj)).symm, q, rfl, hlock⟩
  cases p with
  | reading_meta => exact h.look hp rfl (by rintro p' ⟨⟩; rfl)
  | checking_file m | reading_names m not_after =>
    refine h.look hp rfl fun p' hp' => ?_
    rw [← some.inj hp']
    split <;> rfl
  | reading_expiry m =>
    rw [advance]
    split
    · exact h.look hp rfl (by rintro p' ⟨⟩; rfl)
    · exact h.look hp rfl (by rintro p' ⟨⟩; rfl)
  | checking_time m not_after | checking_backoff m =>
    rw [advance]
    split
    · exact h.look hp rfl (by rintro p' ⟨⟩; rfl)
    · exact h.look hp rfl (by rintro p' ⟨⟩)
  | locking =>
    rw [advance]
    split
    · rename_i hfree
      refine h.own (fun j hj => absurd (hfree.symm.trans hj) (by simp))
        ⟨hone, nofun⟩ ?_ ?_
      · rintro q hq
        rw [← some.inj hq]
        exact ⟨rfl, h.holds.shared.free hfree, ht i life rfl hp hfree⟩
      · exact fun j hj => ⟨(some.inj hj).symm, _, rfl, rfl⟩
    · exact h.look hp rfl (by rintro p' ⟨⟩)
  | ordering =>
    obtain ⟨hheld, hreplaced, hdue⟩ := hown
    set d : Dir ι := { w.shared with orders := w.shared.orders ++
      [⟨w.shared.installs, dueReason cfg w.shared.now w.shared.chain⟩] } with hd
    have horder : d.OneOrder := by
      constructor
      · intro q hq
        rcases mem_append.mp hq with hold | hnew
        · exact hone.1 q hold
        · rw [mem_singleton.mp hnew]
          exact hdue
      · -- the orders so far were for certificates that have been replaced
        rw [map_append, nodup_append]
        refine ⟨hone.2, pairwise_singleton .., ?_⟩
        intro n hn n' hn'
        obtain ⟨q, hq, rfl⟩ := mem_map.mp hn
        rw [mem_singleton.mp hn']
        exact Nat.ne_of_lt (hreplaced q hq)
    refine hkeep hheld hheld rfl horder ⟨hheld, fun q hq => ?_⟩
    rcases mem_append.mp hq with hold | hnew
    · exact Nat.le_of_lt (hreplaced q hold)
    · rw [mem_singleton.mp hnew]
      exact Nat.le_refl _
  | installing =>
    exact hkeep hown.1 hown.1 rfl hone ⟨hown.1, fun q hq => Nat.lt_succ_of_le (hown.2 q hq)⟩
  | recording => exact hkeep hown.1 hown.1 rfl hone hown
  | unlocking =>
    refine h.own (fun j hj => (some.inj (hown.1.symm.trans hj)).symm)
      ⟨hone, fun _ => hown.2⟩ (by rintro q ⟨⟩) (by rintro j ⟨⟩)

lemma leave_inv (h : Inv cfg w) (hp : w.procs i = some p) (hne : p ≠ .installing) :
    Inv cfg (w.put i (w.shared.drop i) none) := by
  unfold Dir.drop
  split
  · rename_i hheld
    have hreplaced : w.shared.Replaced := by
      obtain ⟨p', hp', hlock⟩ := h.alive i hheld
      obtain rfl := some.inj (hp.symm.trans hp')
      have hlocal := h.holds.here i p hp
      cases p with
      | ordering => exact hlocal.2.1
      | installing => exact absurd rfl hne
      | recording | unlocking => exact hlocal.2
      | _ => simp [Phase.holds_lock] at hlock
    exact h.own (fun j hj => (some.inj (hheld.symm.trans hj)).symm)
      ⟨h.holds.shared.one, fun _ => hreplaced⟩ (by rintro q ⟨⟩) (by rintro j ⟨⟩)
  · rename_i hheld
    refine ⟨h.holds.put h.holds.shared (by rintro q ⟨⟩) fun _ _ _ _ hlocal => hlocal, ?_⟩
    intro j hj
    obtain ⟨p', hp', hlock⟩ := h.alive j hj
    have hji : j ≠ i := by
      rintro rfl
      exact hheld hj
    exact ⟨p', (put_procs_other _ _ _ hji).trans hp', hlock⟩

lemma wait_inv (seconds : ℕ) (h : Inv cfg w) :
    Inv cfg (step cfg w (.wait seconds)) where
  holds := by
    refine ⟨⟨h.holds.shared.one, h.holds.shared.free⟩, fun i p hp => ?_⟩
    have hlocal := h.holds.here i p hp
    cases p with
    | ordering => exact ⟨hlocal.1, hlocal.2.1, dueReason_later (Nat.le_add_right ..) hlocal.2.2⟩
    | _ => exact hlocal
  alive := h.alive

lemma step_inv {e : Event ι} (h : Inv cfg w) (ht : Timely cfg w e) : Inv cfg (step cfg w e) := by
  cases e with
  | start i =>
    rw [step]
    split
    · rename_i hnone
      refine ⟨h.holds.put h.holds.shared (by rintro q ⟨⟩; trivial) fun _ _ _ _ hl => hl, ?_⟩
      intro j hj
      obtain ⟨p', hp', hlock⟩ := h.alive j hj
      have hji : j ≠ i := by
        rintro rfl
        exact nomatch hnone.symm.trans hp'
      exact ⟨p', (put_procs_other _ _ _ hji).trans hp', hlock⟩
    · exact h
  | step i life =>
    rw [step]
    split
    · exact h
    · rename_i p hp
      exact advance_inv life h hp ht
  | leave i =>
    rw [step]
    split
    · exact h
    · exact h
    · rename_i p _ hne hp
      exact leave_inv h hp hne
  | wait seconds => exact wait_inv seconds h

omit [DecidableEq ι] in
lemma init_inv (cfg : Config) (chain : Option Cert) (m : Meta) (now : ℕ) :
    Inv cfg (init ι chain m now) where
  holds := ⟨⟨⟨by simp [init], nodup_nil⟩,
    fun _ _ h => absurd h (by simp [init])⟩, fun _ _ h => absurd h (by simp [init])⟩
  alive := by simp [init]

/-! ## One order for a due certificate -/

/-- **One order for each certificate that is due**, in every run in which a process gets the lock
only while the certificate is due. After a step in which one gets it otherwise, its next step is
an order too many. -/
theorem one_order_iff_timely (cfg : Config) (chain : Option Cert) (m : Meta) (now : ℕ)
    (events : List (Event ι)) :
    (Along (step cfg) (Timely cfg) (init ι chain m now) events →
      (run cfg chain m now events).shared.OneOrder) ∧
    ∀ e, Along (step cfg) (Timely cfg) (init ι chain m now) events →
      ¬ Timely cfg (run cfg chain m now events) e →
      ∃ more, ¬ (run cfg chain m now (events ++ e :: more)).shared.OneOrder := by
  have hrun : Along (step cfg) (Timely cfg) (init ι chain m now) events →
      Inv cfg (run cfg chain m now events) := fun htimely =>
    run_invariant_along (fun w e ht h => step_inv h ht) _ events htimely
      (init_inv cfg chain m now)
  refine ⟨fun htimely => (hrun htimely).holds.shared.one, fun e htimely hnot => ?_⟩
  unfold Timely at hnot
  push Not at hnot
  obtain ⟨i, life, rfl, hp, hfree, hdue⟩ := hnot
  refine ⟨[.step i 0], fun hone => ?_⟩
  rw [run, Runs.run, foldl_append] at hone
  change (step cfg (step cfg (run cfg chain m now events) (.step i life)) (.step i 0)).shared.OneOrder
    at hone
  simp only [step, hp, advance, hfree, put_procs_self, put_shared] at hone
  exact hdue (hone.1 _ (mem_append_right _ (mem_singleton_self _)))

instance (cfg : Config) (w : Processes ι) : ∀ e, Decidable (Timely cfg w e)
  | .start _ | .leave _ | .wait _ => isTrue fun _ _ he => nomatch he
  | .step i life =>
    decidable_of_iff (w.procs i = some .locking → w.shared.holder = none →
        dueReason cfg w.shared.now w.shared.chain = true)
      ⟨fun h _ _ he => by cases he; exact h, fun h => h i life rfl⟩

/-- Two processes find that there is no certificate; the second comes to the lock while the
first holds it, and returns. Later it finds the certificate due and renews it. -/
def taking_turns : List (Event ℕ) :=
  [.start 0, .start 1, .step 0 0, .step 1 0, .step 0 0, .step 1 0, .step 0 0, .step 1 0, .step 0 0,
    .step 1 0, .step 0 0, .step 0 5, .step 0 0, .step 0 0, .wait 20, .start 1]
    ++ replicate 10 (.step 1 0)

theorem one_order_iff_timely_two :
    (run ⟨10⟩ none ⟨0, none⟩ 0 taking_turns).shared.orders = [⟨0, true⟩, ⟨1, true⟩]
      ∧ (run ⟨10⟩ none ⟨0, none⟩ 0 taking_turns).shared.OneOrder :=
  ⟨by decide, (one_order_iff_timely ⟨10⟩ none ⟨0, none⟩ 0 taking_turns).1 (by decide)⟩

/-- Two processes find that there is no certificate; the second gets the lock when the
first has ordered one, installed it and let go, and orders another. -/
theorem second_order_after_install :
    ¬ (run ⟨10⟩ none ⟨0, none⟩ 0 [.start 0, .start 1, .step 0 0, .step 1 0, .step 0 0, .step 1 0,
      .step 0 0, .step 1 0, .step 0 0, .step 0 0, .step 0 5, .step 0 0, .step 0 0, .step 1 0,
      .step 1 0] : Processes ℕ).shared.OneOrder := by
  have horders : (run ⟨10⟩ none ⟨0, none⟩ 0 [.start 0, .start 1, .step 0 0, .step 1 0, .step 0 0,
      .step 1 0, .step 0 0, .step 1 0, .step 0 0, .step 0 0, .step 0 5, .step 0 0, .step 0 0,
      .step 1 0, .step 1 0] : Processes ℕ).shared.orders = [⟨0, true⟩, ⟨1, false⟩] := by
    decide
  intro hone
  have hdue := hone.1 ⟨1, false⟩ (by rw [horders]; simp)
  simp at hdue

end FpmNg.AcmeRenewal
