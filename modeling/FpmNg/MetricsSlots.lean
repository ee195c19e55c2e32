/-
Which slots of the metrics region a pool's workers write to: the ranges of
`fpm_metrics.c` and how `fpm_metrics_init_main` lays them out.

The list `ranges` has the last range first. A range with a name belongs to a pool
of this generation; one without is reserved, because a process of an earlier
generation may still write there. The pools a selective reload spared keep their
range, the ranges of the others and the reservations that have not expired are
reserved, and the remaining pools are placed around all of these by first fit.

Slot numbers are `uint32_t`, so an addition can wrap around.
-/
import FpmNg.ReloadRecords
import FpmNg.Lib.FirstFit
import Mathlib.Data.List.Pairwise
import Mathlib.Algebra.Ring.Nat

open List

namespace FpmNg.MetricsSlots

open ReloadRecords

/-- `struct fpm_metrics_range_s`; a reserved range has no name. -/
structure Range where
  name : Option Bytes
  base : ℕ
  count : ℕ
  expiry : ℕ
  deriving DecidableEq

/-- `struct fpm_worker_pool_s`, as far as the layout and the expiry read it. -/
structure Pool where
  name : Bytes
  max_children : ℕ
  stop_timeout : ℕ
  deriving DecidableEq

/-- The sum of two `uint32_t`. -/
def add32 (a b : ℕ) : ℕ := (a + b) % UINT32

/-! ## Placing a range -/

def fpm_metrics_pool_range (ranges : List Range) (name : Bytes) : Option Range :=
  ranges.find? fun r => r.name = some name

/-- The test of `fpm_metrics_overlaps` and `fpm_metrics_first_fit`. -/
def in_the_way (count base : ℕ) (r : Range) : Bool :=
  decide (base < add32 r.base r.count) && decide (r.base < add32 base count)

def fpm_metrics_overlaps (ranges : List Range) (base count : ℕ) : Bool :=
  ranges.any (in_the_way count base)

def fpm_metrics_first_fit (ranges : List Range) (count : ℕ) : ℕ :=
  FirstFit.search (in_the_way count) (fun r => add32 r.base r.count) UINT32 ranges

def place (ranges : List Range) (p : Pool) : List Range :=
  if 0 < p.max_children ∧ fpm_metrics_pool_range ranges p.name = none then
    ⟨some p.name, fpm_metrics_first_fit ranges p.max_children, p.max_children, 0⟩ :: ranges
  else ranges

def total (ranges : List Range) : ℕ :=
  ranges.foldl (fun t r => if t < add32 r.base r.count then add32 r.base r.count else t) 0

/-! ## The layout of a generation -/

/-- The range of a `B` record of this name. -/
def spared_range (name : Bytes) : Record → Option (ℕ × ℕ)
  | .B pool base count => if pool = name then some (base, count) else none
  | _ => none

/-- `fpm_reload_shm_inherited_range` -/
def fpm_reload_shm_inherited_range (inherited : List Record) (name : Bytes) : Option (ℕ × ℕ) :=
  inherited.findSome? (spared_range name)

/-- The range of an `X` record, if there is no `B` record for its pool. -/
def unspared_range (inherited : List Record) : Record → Option Range
  | .X name base count expiry =>
    if (fpm_reload_shm_inherited_range inherited name).isNone then some ⟨none, base, count, expiry⟩
    else none
  | _ => none

/-- `fpm_reload_shm_foreach_unspared_range` with `fpm_metrics_reserve`. -/
def unspared_ranges (inherited : List Record) : List Range :=
  inherited.filterMap (unspared_range inherited)

/-- `fpm_reload_shm_foreach_carried_range` with `fpm_metrics_reserve_carried`. -/
def carried_ranges (now : ℕ) (inherited : List Record) : List Range :=
  inherited.filterMap fun
    | .Y base count expiry => if now < expiry then some ⟨none, base, count, expiry⟩ else none
    | _ => none

def keep_spared (inherited : List Record) (slots : ℕ) (ranges : List Range) (p : Pool) :
    List Range :=
  match fpm_reload_shm_inherited_range inherited p.name with
  | none => ranges
  | some (base, count) =>
    if 0 < p.max_children ∧ count = p.max_children ∧ add32 base count ≤ slots ∧
        fpm_metrics_overlaps ranges base count = false then
      ⟨some p.name, base, count, 0⟩ :: ranges
    else ranges

def held_ranges (now : ℕ) (inherited : List Record) (slots : ℕ) (pools : List Pool) : List Range :=
  (unspared_ranges inherited ++ carried_ranges now inherited).reverse ++
    pools.foldl (keep_spared inherited slots) []

def inherited_layout (now : ℕ) (inherited : List Record) (slots : ℕ) (pools : List Pool) :
    List Range :=
  pools.foldl place (held_ranges now inherited slots pools)

def fresh_layout (pools : List Pool) : List Range := pools.foldl place []

/-! ## First fit -/

lemma add32_eq {a b : ℕ} (h : a + b < UINT32) : add32 a b = a + b := Nat.mod_eq_of_lt h

def Range.Apart (r s : Range) : Prop := r.base + r.count ≤ s.base ∨ s.base + s.count ≤ r.base

lemma Range.Apart.symm {r s : Range} (h : r.Apart s) : s.Apart r := Or.symm h

instance : Std.Symm Range.Apart := ⟨fun _ _ h => h.symm⟩

variable {r : Range}

lemma in_the_way_eq_false {count base : ℕ} (hr : r.base + r.count < UINT32)
    (hb : base + count < UINT32) :
    in_the_way count base r = false ↔ r.base + r.count ≤ base ∨ base + count ≤ r.base := by
  unfold in_the_way
  rw [add32_eq hr, add32_eq hb, Bool.and_eq_false_iff, decide_eq_false_iff_not,
    decide_eq_false_iff_not, not_lt, not_lt]

/-- The ranges of a layout: no two share a slot, all end at `top` or before, and no
name has two. -/
structure Laid (ranges : List Range) (top : ℕ) : Prop where
  apart : ranges.Pairwise Range.Apart
  inside : ∀ r ∈ ranges, r.base + r.count ≤ top
  names : (ranges.filterMap Range.name).Nodup

variable {ranges : List Range}

lemma first_fit_spec {top count : ℕ} (hinside : ∀ r ∈ ranges, r.base + r.count ≤ top)
    (hroom : top + count < UINT32) :
    fpm_metrics_first_fit ranges count ≤ top ∧
      ∀ r ∈ ranges, r.base + r.count ≤ fpm_metrics_first_fit ranges count ∨
        fpm_metrics_first_fit ranges count + count ≤ r.base := by
  have hclears : FirstFit.Clears (in_the_way count) (fun r => add32 r.base r.count) ranges top := by
    intro r hr base hbase hhit
    have hin := hinside r hr
    have hr32 : add32 r.base r.count = r.base + r.count := add32_eq (by omega)
    unfold in_the_way at hhit
    rw [Bool.and_eq_true, decide_eq_true_eq] at hhit
    exact ⟨hhit.1, le_of_eq hr32 |>.trans hin⟩
  obtain ⟨htop, hfree⟩ := FirstFit.search_spec UINT32 hclears (by omega)
  refine ⟨htop, fun r hr => ?_⟩
  have hin := hinside r hr
  have hbase : fpm_metrics_first_fit ranges count ≤ top := htop
  exact (in_the_way_eq_false (by omega) (by omega)).mp (hfree r hr)

variable {name : Bytes}

lemma pool_range_some (h : fpm_metrics_pool_range ranges name = some r) :
    r ∈ ranges ∧ r.name = some name := by
  refine ⟨mem_of_find?_eq_some h, ?_⟩
  have := find?_some h
  simpa using this

lemma pool_range_none :
    fpm_metrics_pool_range ranges name = none ↔ name ∉ ranges.filterMap Range.name := by
  unfold fpm_metrics_pool_range
  simp

lemma pool_range_of_mem (hnames : (ranges.filterMap Range.name).Nodup) (hr : r ∈ ranges)
    (hname : r.name = some name) :
    fpm_metrics_pool_range ranges name = some r := by
  unfold fpm_metrics_pool_range
  induction ranges with
  | nil => exact absurd hr not_mem_nil
  | cons s ranges ih =>
    rcases mem_cons.mp hr with rfl | hr
    · rw [find?_cons_of_pos (by simpa using hname)]
    · have hmem : name ∈ ranges.filterMap Range.name := mem_filterMap.mpr ⟨r, hr, hname⟩
      cases hs : s.name with
      | none =>
        rw [filterMap_cons_none hs] at hnames
        rw [find?_cons_of_neg (by simp [hs])]
        exact ih hnames hr
      | some other =>
        rw [filterMap_cons_some hs, nodup_cons] at hnames
        have hne : other ≠ name := fun heq => hnames.1 (heq ▸ hmem)
        rw [find?_cons_of_neg (by simpa [hs] using hne)]
        exact ih hnames.2 hr

def children (pools : List Pool) : ℕ := (pools.map Pool.max_children).sum

structure OfPool (p : Pool) (r : Range) : Prop where
  name : r.name = some p.name
  count : r.count = p.max_children
  pos : 0 < p.max_children
  expiry : r.expiry = 0

/-- What the placing loop does to a layout: it is extended, by ranges of the pools,
and every pool with workers has one in the end. -/
structure Placed (ranges out : List Range) (pools : List Pool) (top : ℕ) : Prop where
  laid : Laid out top
  kept : ∀ r ∈ ranges, r ∈ out
  added : ∀ r ∈ out, r ∈ ranges ∨ ∃ p ∈ pools, OfPool p r
  all : ∀ p ∈ pools, 0 < p.max_children → ∃ r ∈ out, r.name = some p.name

variable {top : ℕ}

lemma place_spec (h : Laid ranges top) (p : Pool) (hroom : top + p.max_children < UINT32) :
    Placed ranges (place ranges p) [p] (top + p.max_children) := by
  have hinside : ∀ r ∈ ranges, r.base + r.count ≤ top + p.max_children := fun r hr => by
    have := h.inside r hr
    omega
  unfold place
  split
  · rename_i hplace
    obtain ⟨htop, hfree⟩ := first_fit_spec h.inside hroom
    refine ⟨⟨pairwise_cons.mpr ⟨fun r hr => (hfree r hr).symm, h.apart⟩, ?_, ?_⟩,
      fun r hr => mem_cons_of_mem _ hr, ?_, ?_⟩
    · intro r hr
      rcases mem_cons.mp hr with rfl | hr
      · show fpm_metrics_first_fit ranges p.max_children + p.max_children ≤ _
        omega
      · exact hinside r hr
    · rw [filterMap_cons_some (f := Range.name) (b := p.name) rfl, nodup_cons]
      exact ⟨pool_range_none.mp hplace.2, h.names⟩
    · intro r hr
      rcases mem_cons.mp hr with rfl | hr
      · exact .inr ⟨p, mem_singleton_self p, rfl, rfl, hplace.1, rfl⟩
      · exact .inl hr
    · intro q hq _
      rw [mem_singleton.mp hq]
      exact ⟨_, .head _, rfl⟩
  · rename_i hplace
    refine ⟨⟨h.apart, hinside, h.names⟩, fun r hr => hr, fun r hr => .inl hr, ?_⟩
    intro q hq hpos
    rw [mem_singleton.mp hq] at hpos ⊢
    -- the pool has workers, so it has a range already
    cases hrange : fpm_metrics_pool_range ranges p.name with
    | none => exact absurd ⟨hpos, hrange⟩ hplace
    | some r => exact ⟨r, pool_range_some hrange⟩

theorem places_spec (pools : List Pool) (h : Laid ranges top)
    (hroom : top + children pools < UINT32) :
    Placed ranges (pools.foldl place ranges) pools (top + children pools) := by
  induction pools generalizing ranges top with
  | nil =>
    exact ⟨h, fun r hr => hr, fun r hr => .inl hr, fun p hp => absurd hp not_mem_nil⟩
  | cons p pools ih =>
    have hsum : children (p :: pools) = p.max_children + children pools := by
      unfold children
      rw [map_cons, sum_cons]
    rw [hsum] at hroom ⊢
    have hfirst := place_spec h p (by omega)
    have hrest := ih hfirst.laid (by omega)
    rw [foldl_cons, ← add_assoc]
    refine ⟨hrest.laid, fun r hr => hrest.kept r (hfirst.kept r hr), ?_, ?_⟩
    · intro r hr
      rcases hrest.added r hr with hr | ⟨q, hq, hof⟩
      · rcases hfirst.added r hr with hr | ⟨q, hq, hof⟩
        · exact .inl hr
        · exact .inr ⟨q, mem_cons.mpr (.inl (mem_singleton.mp hq)), hof⟩
      · exact .inr ⟨q, mem_cons_of_mem _ hq, hof⟩
    · intro q hq hpos
      rcases mem_cons.mp hq with rfl | hq
      · obtain ⟨r, hr, hname⟩ := hfirst.all q (mem_singleton_self q) hpos
        exact ⟨r, hrest.kept r hr, hname⟩
      · exact hrest.all q hq hpos

lemma total_spec (htop : top < UINT32) (hinside : ∀ r ∈ ranges, r.base + r.count ≤ top) :
    total ranges ≤ top ∧ ∀ r ∈ ranges, r.base + r.count ≤ total ranges := by
  unfold total
  induction ranges using reverseRecOn with
  | nil => exact ⟨Nat.zero_le _, fun r hr => absurd hr not_mem_nil⟩
  | append_singleton ranges s ih =>
    obtain ⟨hle, hall⟩ := ih fun r hr => hinside r (mem_append_left _ hr)
    have hs := hinside s (by simp)
    rw [foldl_append, foldl_cons, foldl_nil, add32_eq (by omega)]
    generalize ranges.foldl (fun t r => if t < add32 r.base r.count then add32 r.base r.count else t)
      0 = t at hle hall ⊢
    have hmax : t ≤ (if t < s.base + s.count then s.base + s.count else t) ∧
        s.base + s.count ≤ (if t < s.base + s.count then s.base + s.count else t) ∧
        (if t < s.base + s.count then s.base + s.count else t) ≤ top := by
      split <;> omega
    refine ⟨hmax.2.2, fun r hr => ?_⟩
    rcases mem_append.mp hr with hr | hr
    · exact (hall r hr).trans hmax.1
    · rw [mem_singleton.mp hr]
      exact hmax.2.1

lemma fresh_spec {pools : List Pool} (hroom : children pools < UINT32) :
    Placed [] (fresh_layout pools) pools (children pools) := by
  have hempty : Laid [] 0 := ⟨Pairwise.nil, fun r hr => absurd hr not_mem_nil, nodup_nil⟩
  have hplaced := places_spec pools hempty (by omega)
  rw [zero_add] at hplaced
  exact hplaced

end FpmNg.MetricsSlots
