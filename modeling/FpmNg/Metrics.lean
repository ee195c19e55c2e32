/-
Application histograms: `fpmng_metrics.c` of the metrics extension, from
`fpm_metric_register` and `fpm_metric_observe` in the workers to the lines
`fpmng_metrics_render_range` writes.

Every worker owns a slot of the shared region, a table of entries in the order
they were allocated. An entry is a definition, whose key is the bare metric name,
or a series, whose key has the label set behind the name; the pool label is
always there, so the two kinds of keys never meet and a key is modelled as one or
the other. A series takes its boundaries from the definition in its own slot, or
the built-in ones, when it is created, and keeps them.

Boundaries and observations are `double`s, of which only `<=` matters here. A cell
counts by adding 1 to a `double`, which is exact below 2 ^ 53, so cells are
natural numbers. Counters and gauges, help texts and the order of the series in
the output are left out.
-/
import FpmNg.Bytes
import FpmNg.Lib.RankedTable
import FpmNg.Lib.Runs
import Mathlib.Algebra.Ring.Nat

open List Option

namespace FpmNg.Metrics

abbrev BUCKETS_MAX : ℕ := 32

/-- The `double`s: `le` is the comparison `<=`, false if an operand is not a
number. -/
structure Doubles (ν : Type) where
  le : ν → ν → Bool
  add : ν → ν → ν
  zero : ν
  /-- `fpmng_metrics_default_buckets` -/
  default_buckets : List ν
  default_room : default_buckets.length ≤ BUCKETS_MAX
  le_trans : ∀ {a b c : ν}, le a b = true → le b c = true → le a c = true
  le_self : ∀ {a b : ν}, le a b = true → le b b = true

/-- The comparison `==`. -/
def Doubles.eq {ν : Type} (D : Doubles ν) (a b : ν) : Bool := D.le a b && D.le b a

inductive MetricType where
  | counter
  | gauge_sum
  | gauge_max
  | histogram
  deriving DecidableEq

inductive Key where
  | definition (name : Bytes)
  | series (name labels : Bytes)
  deriving DecidableEq

/-- `strchr(key, '\x7b')` -/
def Key.has_labels : Key → Bool
  | .definition _ => false
  | .series _ _ => true

/-- `struct fpmng_metrics_entry_s`: `v` are the cells of the boundaries, `sum` and
`count` the two behind them. -/
structure Entry (ν : Type) where
  key : Key
  type : MetricType
  buckets : List ν
  v : ℕ → ℕ
  sum : ν
  count : ℕ

abbrev Slot (ν : Type) := List (Entry ν)

variable {ν : Type} (D : Doubles ν) (limit : ℕ)

/-! ## The calls -/

def find_series (slot : Slot ν) (key : Key) : Option (Entry ν) :=
  slot.find? fun e => e.key = key

def find_definition (slot : Slot ν) (name : Bytes) : Option (Entry ν) :=
  find_series slot (.definition name)

/-- The entry `alloc_series` hands out, behind the others, once its key and its
type are set; `none` if the slot is full. -/
def alloc_series (slot : Slot ν) (key : Key) (type : MetricType) (buckets : List ν) :
    Option (Slot ν) :=
  if limit ≤ slot.length then none
  else some (slot ++ [⟨key, type, buckets, fun _ => 0, D.zero, 0⟩])

def modify_entry (slot : Slot ν) (key : Key) (f : Entry ν → Entry ν) : Slot ν :=
  slot.map fun e => if e.key = key then f e else e

def series_buckets (slot : Slot ν) (name : Bytes) : List ν :=
  match find_definition slot name with
  | some d =>
    if d.type = .histogram ∧ d.buckets ≠ [] then d.buckets else D.default_buckets
  | none => D.default_buckets

/-- `op_series` for a histogram: the slot with the series in it. -/
def op_series (slot : Slot ν) (name labels : Bytes) : Option (Slot ν) :=
  match find_series slot (.series name labels) with
  | some e => if e.type = .histogram then some slot else none
  | none =>
    alloc_series D limit slot (.series name labels) .histogram
      ((series_buckets D slot name).take BUCKETS_MAX)

def bump (v : ℕ → ℕ) (k c : ℕ) : ℕ → ℕ := fun j => if j = k then v j + c else v j

def first_hit (buckets : List ν) (value : ν) : Option ℕ :=
  buckets.findIdx? fun b => D.le value b

/-- What `fpm_metric_observe` does to the entry. -/
def observe_entry (value : ν) (e : Entry ν) : Entry ν :=
  { e with
    v := (first_hit D e.buckets value).elim e.v fun k => bump e.v k 1
    sum := D.add e.sum value
    count := e.count + 1 }

/-- `fpm_metric_observe`; `none` if it returns false. -/
def fpm_metric_observe (slot : Slot ν) (name labels : Bytes) (value : ν) : Option (Slot ν) :=
  (op_series D limit slot name labels).map fun slot =>
    modify_entry slot (.series name labels) (observe_entry D value)

/-- `fpm_metric_register`; `none` if it returns false. -/
def fpm_metric_register (slot : Slot ν) (name : Bytes) (type : MetricType) (buckets : List ν) :
    Option (Slot ν) :=
  if BUCKETS_MAX < buckets.length then none
  else
    match find_definition slot name with
    | none =>
      alloc_series D limit slot (.definition name) type (if type = .histogram then buckets else [])
    | some e =>
      if e.type ≠ type then none
      else if type = .histogram ∧ buckets ≠ [] then
        if e.count ≠ 0 ∧ e.buckets.length ≠ buckets.length then none
        else some (modify_entry slot (.definition name) fun e => { e with buckets := buckets })
      else some slot

inductive Call (ν : Type) where
  | register (worker : ℕ) (name : Bytes) (type : MetricType) (buckets : List ν)
  | observe (worker : ℕ) (name labels : Bytes) (value : ν)

def Call.worker : Call ν → ℕ
  | .register worker _ _ _ => worker
  | .observe worker _ _ _ => worker

def Call.on (slot : Slot ν) : Call ν → Option (Slot ν)
  | .register _ name type buckets => fpm_metric_register D limit slot name type buckets
  | .observe _ name labels value => fpm_metric_observe D limit slot name labels value

/-- The slots of the workers, and the calls that returned true, in order. -/
structure World (ν : Type) where
  slots : List (Slot ν)
  calls : List (Call ν)

def step (w : World ν) (c : Call ν) : World ν :=
  match w.slots[c.worker]?.bind (c.on D limit) with
  | none => w
  | some slot => ⟨w.slots.set c.worker slot, w.calls ++ [c]⟩

/-- The world after the calls, from `workers` empty slots. -/
def after (workers : ℕ) (calls : List (Call ν)) : World ν :=
  Runs.run (step D limit) ⟨replicate workers [], []⟩ calls

/-! ## Rendering -/

/-- `struct agg_s`, for histograms. -/
structure Agg (ν : Type) where
  key : Key
  buckets : List ν
  v : ℕ → ℕ
  sum : ν
  count : ℕ

/-- Add cell `k` of the entry to the cell of the same boundary in the merged
table. -/
def merge_cell (table : List ν) (e : Entry ν) (v : ℕ → ℕ) (k : ℕ) : ℕ → ℕ :=
  (e.buckets[k]?.bind fun b => table.findIdx? fun t => D.eq t b).elim v fun m => bump v m (e.v k)

def merged_table (a : Agg ν) (e : Entry ν) : List ν :=
  if a.buckets.length < e.buckets.length then e.buckets else a.buckets

def merge (a : Agg ν) (e : Entry ν) : Agg ν :=
  { a with
    buckets := merged_table a e
    v := (range e.buckets.length).foldl (merge_cell D (merged_table a e) e) a.v
    sum := D.add a.sum e.sum
    count := a.count + e.count }

def aggregate_entry (e : Entry ν) : List (Agg ν) → List (Agg ν)
  | [] => [merge D ⟨e.key, [], fun _ => 0, D.zero, 0⟩ e]
  | a :: aggs => if a.key = e.key then merge D a e :: aggs else a :: aggregate_entry e aggs

def aggregate (slots : List (Slot ν)) : List (Agg ν) :=
  (slots.flatten.filter fun e => e.key.has_labels).foldl (fun aggs e => aggregate_entry D e aggs) []

inductive Line (ν : Type) where
  | bucket (le : ν) (n : ℕ)
  | inf (n : ℕ)
  | sum (s : ν)
  | count (n : ℕ)
  deriving DecidableEq

def Line.counts : Line ν → Bool
  | .sum _ => false
  | _ => true

/-- The boundaries and their indices in the order `idx` has them. -/
def sorted_buckets (buckets : List ν) : List (ν × ℕ) :=
  RankedTable.sort (fun row last => !D.le last.1 row.1) buckets.zipIdx

def emit_hist (a : Agg ν) : List (Line ν) :=
  (sorted_buckets D a.buckets).map (fun bn => .bucket bn.1 (a.v bn.2)) ++
    [.inf a.count, .sum a.sum, .count a.count]

/-- The lines `fpmng_metrics_render_range` writes for one series. -/
def series_lines (slots : List (Slot ν)) (key : Key) : List (Line ν) :=
  ((aggregate D slots).find? fun a => a.key = key).elim [] (emit_hist D)

/-! ## What the calls add up to -/

def observed (calls : List (Call ν)) (worker : ℕ) (key : Key) : List ν :=
  calls.filterMap fun
    | .register _ _ _ _ => none
    | .observe at_worker name labels value =>
      if at_worker = worker ∧ Key.series name labels = key then some value else none

/-- The number of observations that are at most `b`, in the slots whose bucket set
contains `b`. -/
def expected (w : World ν) (key : Key) (b : ν) : ℕ :=
  (w.slots.zipIdx.map fun sw =>
    if (find_series sw.1 key).any fun e => e.buckets.any fun c => D.eq c b then
      (observed w.calls sw.2 key).countP fun o => D.le o b
    else 0).sum

def all_observed (w : World ν) (key : Key) : List ν :=
  w.slots.zipIdx.flatMap fun sw => observed w.calls sw.2 key

/-- **What the lines of a histogram should say**, in whatever order the slots are
visited. The `_sum` line is a sum of `double`s, for which the order counts. -/
structure Right (w : World ν) (key : Key) : Prop where
  bucket : ∀ order : List (Slot ν), order.Perm w.slots →
    ∀ b n, Line.bucket b n ∈ series_lines D order key → n = expected D w key b
  monotone : ∀ order : List (Slot ν), order.Perm w.slots →
    ∀ b n c m, Line.bucket b n ∈ series_lines D order key →
      Line.bucket c m ∈ series_lines D order key → D.le b c = true → n ≤ m
  inf : ∀ order : List (Slot ν), order.Perm w.slots →
    ∀ n, Line.inf n ∈ series_lines D order key → n = (all_observed w key).length
  count : ∀ order : List (Slot ν), order.Perm w.slots →
    ∀ n, Line.count n ∈ series_lines D order key → n = (all_observed w key).length
  same : ∀ order : List (Slot ν), order.Perm w.slots →
    (series_lines D order key).filter Line.counts = (series_lines D w.slots key).filter Line.counts

def Thin (buckets : List ν) (value : ν) : Prop :=
  buckets.Pairwise fun b c => ¬(D.le value b = true ∧ D.le value c = true)

instance (buckets : List ν) (value : ν) : Decidable (Thin D buckets value) :=
  inferInstanceAs (Decidable (Pairwise _ _))

/-- The same boundaries: the same list, or the same numbers in another order. A boundary that is
not a number, or a zero of either sign, cannot be told from another by `<=`. -/
def Alike (buckets others : List ν) : Prop :=
  others = buckets ∨ others.Perm buckets ∧ ∀ b ∈ buckets, ∀ c ∈ buckets,
    (D.le b c = true ∨ D.le c b = true) ∧ (D.eq b c = true → b = c)

instance [DecidableEq ν] (buckets others : List ν) : Decidable (Alike D buckets others) :=
  inferInstanceAs (Decidable (_ ∨ _ ∧ ∀ b ∈ buckets, ∀ c ∈ buckets, (_ ∨ _) ∧ (_ → _)))

/-! ## The slots -/

/-- The cells of an entry count the observations by the first boundary they do not
exceed. -/
structure EntryOk (e : Entry ν) (os : List ν) : Prop where
  cells : ∀ k, e.v k = os.countP fun o => first_hit D e.buckets o = some k
  count : e.count = os.length

/-- A slot holds one entry a key, and its series what the worker observed. -/
structure SlotOk (slot : Slot ν) (obs : Key → List ν) : Prop where
  keys : (slot.map Entry.key).Nodup
  series : ∀ e ∈ slot, e.key.has_labels = true → e.type = .histogram ∧ EntryOk D e (obs e.key)
  missing : ∀ key, find_series slot key = none → obs key = []

variable {key : Key}

lemma find_series_eq_none {slot : Slot ν} :
    find_series slot key = none ↔ key ∉ slot.map Entry.key := by
  unfold find_series
  simp

variable {D limit}

variable {buckets : List ν} {slot slot' : Slot ν} {obs : Key → List ν}

lemma SlotOk.alloc (h : SlotOk D slot obs) {type : MetricType}
    (hnone : find_series slot key = none) (htype : key.has_labels = true → type = .histogram)
    (halloc : alloc_series D limit slot key type buckets = some slot') :
    SlotOk D slot' obs ∧ key ∈ slot'.map Entry.key := by
  unfold alloc_series at halloc
  split at halloc
  · simp at halloc
  · rw [← some.inj halloc]
    refine ⟨⟨?_, ?_, ?_⟩, by simp⟩
    · rw [map_append]
      exact nodup_append.mpr ⟨h.keys, nodup_singleton _, fun a ha b hb => by
        rw [map_singleton, mem_singleton] at hb
        rintro rfl
        have hak : a = key := hb
        exact find_series_eq_none.mp hnone (hak ▸ ha)⟩
    · intro e he hlabels
      rcases mem_append.mp he with he | he
      · exact h.series e he hlabels
      · -- the new series has counted nothing, and nothing was observed
        rw [mem_singleton] at he
        subst he
        have hempty : obs key = [] := h.missing key hnone
        exact ⟨htype hlabels, fun k => by simp [hempty], by simp [hempty]⟩
    · intro other hother
      refine h.missing other (find_series_eq_none.mpr fun hin => ?_)
      rw [find_series_eq_none, map_append] at hother
      exact hother (mem_append_left _ hin)

lemma map_key_modify_entry (slot : Slot ν) (key : Key) {f : Entry ν → Entry ν}
    (hf : ∀ e, (f e).key = e.key) : (modify_entry slot key f).map Entry.key = slot.map Entry.key := by
  unfold modify_entry
  rw [List.map_map]
  refine map_congr_left fun e _ => ?_
  rw [Function.comp_apply]
  split
  · exact hf e
  · rfl

lemma SlotOk.modify {slot : Slot ν} {obs obs' : Key → List ν} (h : SlotOk D slot obs)
    {f : Entry ν → Entry ν} (hf : ∀ e, (f e).key = e.key ∧ (f e).type = e.type)
    (hin : key ∈ slot.map Entry.key) (hother : ∀ other, other ≠ key → obs' other = obs other)
    (hkey : ∀ e ∈ slot, e.key = key → key.has_labels = true → EntryOk D e (obs key) → EntryOk D (f e) (obs' key))
    :
    SlotOk D (modify_entry slot key f) obs' := by
  have hkeys := map_key_modify_entry slot key fun e => (hf e).1
  refine ⟨by rw [hkeys]; exact h.keys, ?_, ?_⟩
  · intro e he hlabels
    obtain ⟨d, hd, rfl⟩ := List.mem_map.mp he
    by_cases hdk : d.key = key
    · rw [if_pos hdk] at hlabels ⊢
      rw [(hf d).1] at hlabels ⊢
      rw [(hf d).2]
      obtain ⟨htype, hok⟩ := h.series d hd hlabels
      subst hdk
      exact ⟨htype, hkey d hd rfl hlabels hok⟩
    · rw [if_neg hdk] at hlabels ⊢
      rw [hother d.key hdk]
      exact h.series d hd hlabels
  · intro other hnone
    rw [find_series_eq_none, hkeys] at hnone
    have hne : other ≠ key := fun heq => hnone (heq ▸ hin)
    rw [hother other hne]
    exact h.missing other (find_series_eq_none.mpr hnone)

variable {e : Entry ν} {os : List ν}

lemma EntryOk.observe (h : EntryOk D e os) (value : ν) :
    EntryOk D (observe_entry D value e) (os ++ [value]) := by
  refine ⟨fun k => ?_, ?_⟩
  · rw [countP_append, countP_singleton]
    have hcell := h.cells k
    unfold observe_entry
    cases hhit : first_hit D e.buckets value with
    | none => simp [hcell]
    | some j =>
      by_cases hjk : k = j
      · subst hjk
        simp [bump, hcell]
      · simp [bump, hcell, hjk, Ne.symm hjk]
  · rw [length_append, length_singleton, ← h.count]
    rfl

lemma SlotOk.op_series (h : SlotOk D slot obs) {name labels : Bytes}
    (hop : op_series D limit slot name labels = some slot') :
    SlotOk D slot' obs ∧ Key.series name labels ∈ slot'.map Entry.key := by
  unfold Metrics.op_series at hop
  cases hfind : find_series slot (.series name labels) with
  | none =>
    rw [hfind] at hop
    exact h.alloc hfind (fun _ => rfl) hop
  | some e =>
    rw [hfind] at hop
    dsimp only at hop
    split at hop
    · rw [← some.inj hop]
      refine ⟨h, ?_⟩
      by_contra hnot
      rw [find_series_eq_none.mpr hnot] at hfind
      simp at hfind
    · simp at hop

variable {value : ν}

lemma SlotOk.fpm_metric_observe (h : SlotOk D slot obs) {name labels : Bytes}
    (hcall : fpm_metric_observe D limit slot name labels value = some slot') :
    SlotOk D slot' fun key =>
      if Key.series name labels = key then obs key ++ [value] else obs key := by
  obtain ⟨opened, hop, rfl⟩ := map_eq_some_iff.mp hcall
  obtain ⟨hopened, hin⟩ := h.op_series hop
  refine hopened.modify (fun e => ⟨rfl, rfl⟩) hin (fun other hne => if_neg (Ne.symm hne)) ?_
  intro e _ _ _ hok
  rw [if_pos rfl]
  exact hok.observe value

lemma SlotOk.fpm_metric_register (h : SlotOk D slot obs) {name : Bytes} {type : MetricType}
    (hcall : fpm_metric_register D limit slot name type buckets = some slot') :
    SlotOk D slot' obs := by
  unfold Metrics.fpm_metric_register at hcall
  split at hcall
  · simp at hcall
  · cases hfind : find_definition slot name with
    | none =>
      rw [hfind] at hcall
      exact (h.alloc hfind (fun hlabels => absurd hlabels (by simp [Key.has_labels])) hcall).1
    | some e =>
      rw [hfind] at hcall
      dsimp only at hcall
      have hin : Key.definition name ∈ slot.map Entry.key := by
        by_contra hnot
        unfold find_definition at hfind
        rw [find_series_eq_none.mpr hnot] at hfind
        simp at hfind
      split at hcall
      · simp at hcall
      · split at hcall
        · split at hcall
          · simp at hcall
          · rw [← some.inj hcall]
            exact h.modify (fun e => ⟨rfl, rfl⟩) hin (fun _ _ => rfl)
              fun _ _ _ hlabels => absurd hlabels (by simp [Key.has_labels])
        · rw [← some.inj hcall]
          exact h

variable (calls : List (Call ν))

lemma observed_register (worker i : ℕ) (name : Bytes) (type : MetricType)
    (buckets : List ν) :
    observed (calls ++ [.register worker name type buckets]) i = observed calls i := by
  funext key
  unfold observed
  simp

lemma observed_observe (worker i : ℕ) (name labels : Bytes) (value : ν)
    (key : Key) :
    observed (calls ++ [.observe worker name labels value]) i key =
      if worker = i ∧ Key.series name labels = key then observed calls i key ++ [value]
      else observed calls i key := by
  unfold observed
  by_cases h : worker = i ∧ Key.series name labels = key <;> simp [h]

lemma SlotOk.call {calls : List (Call ν)} {c : Call ν}
    (h : SlotOk D slot (observed calls c.worker)) (hcall : c.on D limit slot = some slot') :
    SlotOk D slot' (observed (calls ++ [c]) c.worker) := by
  cases c with
  | register worker name type buckets =>
    rw [observed_register]
    exact h.fpm_metric_register hcall
  | observe worker name labels value =>
    have hobs : observed (calls ++ [.observe worker name labels value]) worker = fun key =>
        if Key.series name labels = key then observed calls worker key ++ [value]
        else observed calls worker key := by
      funext key
      rw [observed_observe]
      simp
    change SlotOk D slot' (observed _ worker)
    rw [hobs]
    exact h.fpm_metric_observe hcall

lemma observed_other {c : Call ν} {i : ℕ} (hi : c.worker ≠ i) :
    observed (calls ++ [c]) i = observed calls i := by
  cases c with
  | register worker name type buckets => exact observed_register calls worker i name type buckets
  | observe worker name labels value =>
    funext key
    rw [observed_observe, if_neg fun h => hi h.1]

variable (D) in
def WorldOk (w : World ν) : Prop :=
  ∀ i slot, w.slots[i]? = some slot → SlotOk D slot (observed w.calls i)

lemma step_ok (w : World ν) (c : Call ν) (h : WorldOk D w) : WorldOk D (step D limit w c) := by
  unfold step
  split
  · exact h
  · rename_i slot' hslot'
    obtain ⟨slot, hslot, hcall⟩ := bind_eq_some_iff.mp hslot'
    intro i s hi
    rw [getElem?_set] at hi
    by_cases hic : c.worker = i
    · subst hic
      rw [if_pos rfl] at hi
      split at hi
      · rw [← some.inj hi]
        exact (h c.worker slot hslot).call hcall
      · simp at hi
    · rw [if_neg hic] at hi
      have hslot := h i s hi
      rw [← observed_other w.calls hic] at hslot
      exact hslot

variable (D limit) in
theorem after_ok (workers : ℕ) (calls : List (Call ν)) : WorldOk D (after D limit workers calls) := by
  refine Runs.run_invariant step_ok _ _ fun i slot hi => ?_
  have hempty : slot = [] := eq_of_mem_replicate (mem_of_getElem? hi)
  subst hempty
  exact ⟨nodup_nil, fun e he => absurd he not_mem_nil, fun _ _ => rfl⟩

/-! ## Merging series -/

lemma first_hit_eq_some {k : ℕ} :
    first_hit D buckets value = some k ↔ ∃ hk : k < buckets.length, D.le value buckets[k] = true ∧
        ∀ j (hj : j < k), ¬D.le value buckets[j] = true :=
  findIdx?_eq_some_iff_getElem

/-- Where a table has boundary `k` of a series. -/
def place (D : Doubles ν) (table buckets : List ν) (k : ℕ) : Option ℕ :=
  buckets[k]?.bind fun b => table.findIdx? fun t => D.eq t b

/-- Where an observation shows in a table: at the place of the first boundary of its own
series that it does not exceed. -/
def lands (D : Doubles ν) (table : List ν) (x : List ν × ν) : Option ℕ :=
  (first_hit D x.1 x.2).bind (place D table x.1)

variable {m : ℕ} {table : List ν}

lemma merge_cells (h : EntryOk D e os) (v : ℕ → ℕ) (n m : ℕ) :
    (range n).foldl (merge_cell D table e) v m = v m + os.countP fun o =>
      (first_hit D e.buckets o).any fun k => k < n && place D table e.buckets k = some m := by
  induction n with
  | zero => simp
  | succ n ih =>
    rw [range_succ, foldl_append, foldl_cons, foldl_nil]
    generalize (range n).foldl (merge_cell D table e) v = u at ih ⊢
    have hcell : merge_cell D table e u n m
        = u m + if place D table e.buckets n = some m then e.v n else 0 := by
      show (place D table e.buckets n).elim u (fun m => bump u m (e.v n)) m = _
      cases place D table e.buckets n with
      | none => simp
      | some j => by_cases hj : m = j <;> simp [bump, hj, eq_comm]
    rw [hcell, ih, h.cells n, add_assoc]
    congr 1
    -- cell `n` counts what met boundary `n` first
    clear h ih hcell
    induction os with
    | nil => simp
    | cons o os ih =>
      simp only [countP_cons, ← ih]
      cases hhit : first_hit D e.buckets o with
      | none => simp
      | some k =>
        by_cases hplace : place D table e.buckets n = some m
        · by_cases hk : k = n
          · subst hk
            simp [hplace]
            omega
          · have hlt : decide (k < n + 1) = decide (k < n) := decide_eq_decide.mpr (by omega)
            simp only [Option.any_some, hlt]
            simp [hplace, hk]
            omega
        · by_cases hk : k = n
          · subst hk
            simp [hplace]
          · have hlt : decide (k < n + 1) = decide (k < n) := decide_eq_decide.mpr (by omega)
            simp only [Option.any_some, hlt]
            simp [hplace]

/-- What an entry adds to cell `m` of a table. -/
def shows (D : Doubles ν) (table : List ν) (m : ℕ) (e : Entry ν) : ℕ :=
  (range e.buckets.length).foldl (merge_cell D table e) (fun _ => 0) m

lemma shows_eq (h : EntryOk D e os) :
    shows D table m e = os.countP fun o => lands D table (e.buckets, o) = some m := by
  unfold shows
  rw [merge_cells h, zero_add]
  congr 1
  funext o
  unfold lands
  cases hhit : first_hit D e.buckets o with
  | none => simp
  | some k =>
    obtain ⟨hk, -⟩ := first_hit_eq_some.mp hhit
    simp [hk]

variable {a : Agg ν}

theorem merge_spec (h : EntryOk D e os)
    (htable : a.buckets.length = e.buckets.length ∧ a.buckets = table
      ∨ a.buckets = [] ∧ e.buckets = table) :
    (merge D a e).buckets = table ∧ (∀ m, (merge D a e).v m = a.v m + shows D table m e) ∧
      (merge D a e).count = a.count + e.count := by
  have hmerged : merged_table a e = table := by
    unfold merged_table
    rcases htable with ⟨hlength, rfl⟩ | ⟨hnil, rfl⟩
    · rw [hlength, if_neg (lt_irrefl _)]
    · rw [hnil]
      cases e.buckets with
      | nil => rfl
      | cons b rest => rfl
  refine ⟨hmerged, fun m => ?_, rfl⟩
  unfold merge shows
  dsimp only
  rw [hmerged, merge_cells h, merge_cells h, zero_add]

def absorb (D : Doubles ν) (o : Option (Agg ν)) (e : Entry ν) : Option (Agg ν) :=
  some (merge D (o.getD ⟨e.key, [], fun _ => 0, D.zero, 0⟩) e)

lemma merge_key (a : Agg ν) (e : Entry ν) : (merge D a e).key = a.key := rfl

lemma find_aggregate_entry (e : Entry ν) (aggs : List (Agg ν)) (key : Key) :
    (aggregate_entry D e aggs).find? (fun a => a.key = key) =
      if e.key = key then absorb D (aggs.find? fun a => a.key = key) e
      else aggs.find? fun a => a.key = key := by
  induction aggs with
  | nil =>
    rw [aggregate_entry]
    by_cases hk : e.key = key
    · simp [merge_key, hk, absorb]
    · simp [merge_key, hk]
  | cons a aggs ih =>
    rw [aggregate_entry]
    by_cases hae : a.key = e.key
    · rw [if_pos hae]
      by_cases hk : e.key = key
      · simp [merge_key, hae, hk, absorb]
      · simp [merge_key, hae, hk]
    · rw [if_neg hae]
      by_cases hak : a.key = key
      · have hek : e.key ≠ key := fun hek => hae (hak.trans hek.symm)
        simp [hak, hek]
      · rw [find?_cons_of_neg (by simpa using hak), find?_cons_of_neg (by simpa using hak)]
        exact ih

lemma find_aggregate_foldl (es : List (Entry ν)) (aggs : List (Agg ν)) (key : Key) :
    (es.foldl (fun aggs e => aggregate_entry D e aggs) aggs).find? (fun a => a.key = key) =
      (es.filter fun e => e.key = key).foldl (absorb D) (aggs.find? fun a => a.key = key) := by
  induction es generalizing aggs with
  | nil => rfl
  | cons e es ih =>
    rw [foldl_cons, ih, find_aggregate_entry]
    by_cases hk : e.key = key
    · rw [if_pos hk, filter_cons_of_pos (by simpa using hk), foldl_cons]
    · rw [if_neg hk, filter_cons_of_neg (by simpa using hk)]

def entries_of (slots : List (Slot ν)) (key : Key) : List (Entry ν) :=
  slots.flatten.filter fun e => e.key = key

lemma find_aggregate (slots : List (Slot ν)) (hlabels : key.has_labels = true) :
    (aggregate D slots).find? (fun a => a.key = key) =
      (entries_of slots key).foldl (absorb D) none := by
  unfold aggregate entries_of
  rw [find_aggregate_foldl, List.filter_filter]
  congr 1
  refine filter_congr fun e _ => ?_
  by_cases hk : e.key = key
  · simp [hk, hlabels]
  · simp [hk]

theorem absorb_spec {es : List (Entry ν)}
    (hes : ∀ e ∈ es, e.buckets.length = table.length ∧ ∃ os, EntryOk D e os) {o : Option (Agg ν)}
    (ho : ∀ b ∈ o, b.buckets = table) (hfirst : o = none → ∀ e ∈ es.head?, e.buckets = table)
    (ha : es.foldl (absorb D) o = some a) :
    a.buckets = table ∧
      (∀ m, a.v m = (o.elim 0 fun b => b.v m) + (es.map (shows D table m)).sum) ∧
      a.count = (o.elim 0 fun b => b.count) + (es.map fun e => e.count).sum := by
  induction es generalizing o with
  | nil =>
    rw [foldl_nil] at ha
    subst ha
    exact ⟨ho a rfl, fun m => by simp, by simp⟩
  | cons e es ih =>
    obtain ⟨hlength, os, hok⟩ := hes e mem_cons_self
    have hmerge : (merge D (o.getD ⟨e.key, [], fun _ => 0, D.zero, 0⟩) e).buckets = table ∧
        (∀ m, (merge D (o.getD ⟨e.key, [], fun _ => 0, D.zero, 0⟩) e).v m =
          (o.elim 0 fun b => b.v m) + shows D table m e) ∧
        (merge D (o.getD ⟨e.key, [], fun _ => 0, D.zero, 0⟩) e).count =
          (o.elim 0 fun b => b.count) + e.count := by
      cases o with
      | none => exact merge_spec hok (.inr ⟨rfl, hfirst rfl e rfl⟩)
      | some b =>
        have hb := ho b rfl
        exact merge_spec hok (.inl ⟨by rw [hlength, ← hb]; rfl, hb⟩)
    obtain ⟨hb, hv, hc⟩ := ih (fun d hd => hes d (.tail _ hd))
      (fun b hb => some.inj hb ▸ hmerge.1) (fun hnone => nomatch hnone) ha
    refine ⟨hb, fun m => ?_, ?_⟩
    · rw [hv m, elim_some, hmerge.2.1 m, map_cons, sum_cons, add_assoc]
    · rw [hc, elim_some, hmerge.2.2, map_cons, sum_cons, add_assoc]

lemma absorb_ne_none {es : List (Entry ν)} (hes : es ≠ []) (o : Option (Agg ν)) :
    ∃ a, es.foldl (absorb D) o = some a := by
  obtain ⟨front, e, rfl⟩ := eq_nil_or_concat es |>.resolve_left hes
  rw [concat_eq_append, foldl_append]
  exact ⟨_, rfl⟩

/-! ## Counting by the first boundary -/

lemma countP_eq_iff {α : Type} {p q : α → Bool} {l : List α} (hpq : ∀ x ∈ l, p x = true → q x = true) :
    l.countP p = l.countP q ↔ ∀ x ∈ l, q x = true → p x = true := by
  induction l with
  | nil => simp
  | cons x l ih =>
    have hrest : ∀ y ∈ l, p y = true → q y = true := fun y hy => hpq y (.tail _ hy)
    have hle : l.countP p ≤ l.countP q := countP_mono_left hrest
    rw [countP_cons, countP_cons, forall_mem_cons, ← ih hrest]
    have hx := hpq x mem_cons_self
    cases hp : p x <;> cases hq : q x
    · simp
    · simp only [Bool.false_eq_true, if_false, if_true, forall_const, false_and, iff_false]
      omega
    · exact absurd (hx hp) (by simp [hq])
    · simp

lemma le_of_lands {x : List ν × ν} {b : ν} (hget : table[m]? = some b)
    (hlands : lands D table x = some m) : D.le x.2 b = true := by
  obtain ⟨k, hhit, hplace⟩ := bind_eq_some_iff.mp hlands
  obtain ⟨hk, hle, -⟩ := first_hit_eq_some.mp hhit
  rw [place, getElem?_eq_getElem hk, bind_some, findIdx?_eq_some_iff_getElem] at hplace
  obtain ⟨hm, heq, -⟩ := hplace
  rw [getElem?_eq_getElem hm] at hget
  simp only [Doubles.eq, Bool.and_eq_true, some.inj hget] at heq
  exact D.le_trans hle heq.2

lemma thin_iff (hmem : ∀ b, b ∈ buckets ↔ b ∈ table) :
    Thin D table value ↔ ∀ m b, table[m]? = some b → D.le value b = true →
      lands D table (buckets, value) = some m := by
  unfold Thin
  rw [pairwise_iff_getElem]
  constructor
  · intro hthin m b hget hle
    obtain ⟨hm, rfl⟩ := List.getElem?_eq_some_iff.mp hget
    -- there is one boundary above it, in the table as in the series
    have honly : ∀ j (hj : j < table.length), D.le value table[j] = true → j = m := by
      intro j hj hjle
      rcases Nat.lt_trichotomy j m with hlt | heq | hlt
      · exact absurd ⟨hjle, hle⟩ (hthin j m hj hm hlt)
      · exact heq
      · exact absurd ⟨hle, hjle⟩ (hthin m j hm hj hlt)
    obtain ⟨k, hhit⟩ : ∃ k, first_hit D buckets value = some k := by
      rw [← isSome_iff_exists, first_hit, findIdx?_isSome, List.any_eq_true]
      exact ⟨_, (hmem _).mpr (getElem_mem hm), hle⟩
    obtain ⟨hk, hkle, -⟩ := first_hit_eq_some.mp hhit
    obtain ⟨i, hi, hki⟩ := getElem_of_mem ((hmem _).mp (getElem_mem hk))
    rw [← hki] at hkle
    obtain rfl := honly i hi hkle
    unfold lands place
    rw [hhit, bind_some, getElem?_eq_getElem hk, bind_some, findIdx?_eq_some_iff_getElem]
    rw [← hki]
    refine ⟨hm, by simp [Doubles.eq, D.le_self hle], fun j hj heq => ?_⟩
    simp only [Doubles.eq, Bool.and_eq_true] at heq
    have := honly j (by omega) (D.le_trans hle heq.2)
    omega
  · intro hlands j k hj hk hjk hboth
    have hj' := hlands j _ (getElem?_eq_getElem hj) hboth.1
    have hk' := hlands k _ (getElem?_eq_getElem hk) hboth.2
    have := some.inj (hj'.symm.trans hk')
    omega

variable {table' : List ν}

lemma Alike.perm (h : Alike D buckets table) : table.Perm buckets := by
  rcases h with rfl | ⟨hp, -⟩
  · exact Perm.refl _
  · exact hp

lemma Alike.thin_iff (h : Alike D buckets table) :
    Thin D table value ↔ Thin D buckets value :=
  h.perm.pairwise_iff fun hxy => fun hyx => hxy ⟨hyx.2, hyx.1⟩

lemma ranks_apart (h : ∀ b ∈ buckets, ∀ c ∈ buckets,
    (D.le b c = true ∨ D.le c b = true) ∧ (D.eq b c = true → b = c)) :
    RankedTable.RanksApart (fun row last => !D.le last row) buckets where
  asymm a ha b hb hab := by
    have := (h a ha b hb).1
    simp_all
  trans a _ b _ c _ hab hbc := by
    rw [Bool.not_eq_false'] at hab hbc ⊢
    exact D.le_trans hbc hab
  apart a ha b hb hab hba := (h a ha b hb).2 (by simp_all [Doubles.eq])

lemma Alike.sorted (h : Alike D buckets table) (h' : Alike D buckets table') :
    (sorted_buckets D table).map Prod.fst = (sorted_buckets D table').map Prod.fst := by
  have hfst : ∀ t, (sorted_buckets D t).map Prod.fst
      = RankedTable.sort (fun row last => !D.le last row) t := by
    intro t
    unfold sorted_buckets
    rw [RankedTable.sort_map Prod.fst (fun row last => !D.le last row) fun _ _ => rfl,
      zipIdx_map_fst]
  rw [hfst, hfst]
  rcases h with rfl | ⟨hp, hstrict⟩
  · rcases h' with rfl | ⟨hp, hstrict⟩
    · rfl
    · exact RankedTable.sort_eq_of_perm (ranks_apart hstrict) hp.symm
  · rw [← RankedTable.sort_eq_of_perm (ranks_apart hstrict) hp.symm]
    exact RankedTable.sort_eq_of_perm (ranks_apart hstrict) h'.perm.symm

/-! ## The lines after any calls -/

lemma SlotOk.filter_key {slot : Slot ν} (h : SlotOk D slot obs) (key : Key) :
    slot.filter (fun e => e.key = key) = (find_series slot key).toList := by
  have hkeys := h.keys
  clear h
  induction slot with
  | nil => rfl
  | cons e slot ih =>
    rw [map_cons, nodup_cons] at hkeys
    unfold find_series
    by_cases hk : e.key = key
    · have hrest : slot.filter (fun e => e.key = key) = [] := by
        rw [filter_eq_nil_iff]
        intro d hd hdk
        exact hkeys.1 (hk.trans (of_decide_eq_true hdk).symm ▸ mem_map_of_mem hd)
      rw [filter_cons_of_pos (by simpa using hk), find?_cons_of_pos (by simpa using hk),
        hrest]
      rfl
    · rw [filter_cons_of_neg (by simpa using hk), find?_cons_of_neg (by simpa using hk)]
      exact ih hkeys.2

def sightings (w : World ν) (key : Key) : List (List ν × ν) :=
  w.slots.zipIdx.flatMap fun sw => (observed w.calls sw.2 key).map fun o =>
    (((find_series sw.1 key).map Entry.buckets).getD [], o)

lemma map_snd_sightings (w : World ν) (key : Key) :
    (sightings w key).map Prod.snd = all_observed w key := by
  unfold sightings all_observed
  simp [map_flatMap, Function.comp_def]

lemma find_series_mem {slot : Slot ν} (h : find_series slot key = some e) : e ∈ slot ∧ e.key = key :=
  ⟨mem_of_find?_eq_some h, by simpa using find?_some h⟩

lemma sum_entries {w : World ν} (h : WorldOk D w) (hlabels : key.has_labels = true)
    {f : Entry ν → ℕ} {p : List ν × ν → Bool}
    (hf : ∀ e os, EntryOk D e os → f e = os.countP fun o => p (e.buckets, o)) :
    ((entries_of w.slots key).map f).sum = (sightings w key).countP p := by
  have hslots : w.slots = w.slots.zipIdx.map Prod.fst := by simp
  have hterm : ∀ sw ∈ w.slots.zipIdx, ((sw.1.filter fun e => e.key = key).map f).sum =
      (observed w.calls sw.2 key).countP
        fun o => p (((find_series sw.1 key).map Entry.buckets).getD [], o) := by
    intro sw hsw
    have hslot := h sw.2 sw.1 (mem_zipIdx_iff_getElem?.mp hsw)
    rw [hslot.filter_key]
    cases hfind : find_series sw.1 key with
    | none => simp [hslot.missing key hfind]
    | some e =>
      obtain ⟨he, hk⟩ := find_series_mem hfind
      have hfe := hf e _ (hslot.series e he (hk ▸ hlabels)).2
      rw [hk] at hfe
      simp [hfe]
  calc ((entries_of w.slots key).map f).sum
      = (w.slots.map fun slot => ((slot.filter fun e => e.key = key).map f).sum).sum := by
        unfold entries_of
        rw [filter_flatten, map_flatten, sum_flatten, List.map_map, List.map_map]
        rfl
    _ = (w.slots.zipIdx.map fun sw => ((sw.1.filter fun e => e.key = key).map f).sum).sum := by
        nth_rewrite 1 [hslots]
        rw [List.map_map]
        rfl
    _ = (sightings w key).countP p := by
        unfold sightings
        rw [map_congr_left hterm, countP_flatMap]
        simp [Function.comp_def, countP_map]

lemma entries_of_perm {order slots : List (Slot ν)} (h : order.Perm slots) (key : Key) :
    (entries_of order key).Perm (entries_of slots key) := by
  have hflat : order.flatten.Perm slots.flatten := by
    rw [← flatMap_id, ← flatMap_id]
    exact h.flatMap_right id
  exact hflat.filter _

lemma mem_entries_of {slots : List (Slot ν)} :
    e ∈ entries_of slots key ↔ (∃ slot ∈ slots, e ∈ slot) ∧ e.key = key := by
  unfold entries_of
  rw [mem_filter, mem_flatten, decide_eq_true_eq]

variable {b : ν} {n : ℕ}

lemma bucket_mem_emit_hist :
    Line.bucket b n ∈ emit_hist D a ↔ ∃ m, a.buckets[m]? = some b ∧ n = a.v m := by
  unfold emit_hist sorted_buckets
  have hmem : ∀ bn : ν × ℕ, bn ∈ RankedTable.sort (fun row last => !D.le last.1 row.1)
      a.buckets.zipIdx ↔ a.buckets[bn.2]? = some bn.1 := fun bn =>
    (RankedTable.sort_perm _).mem_iff.trans mem_zipIdx_iff_getElem?
  simp only [mem_append, List.mem_map, hmem, mem_cons, not_mem_nil, or_false,
    reduceCtorEq, Line.bucket.injEq]
  constructor
  · rintro ⟨⟨c, m⟩, hget, rfl, rfl⟩
    exact ⟨m, hget, rfl⟩
  · rintro ⟨m, hget, rfl⟩
    exact ⟨(b, m), hget, rfl, rfl⟩

lemma emit_hist_counts (a : Agg ν) :
    (emit_hist D a).filter Line.counts =
      (sorted_buckets D a.buckets).map (fun bn => .bucket bn.1 (a.v bn.2)) ++
        [.inf a.count, .count a.count] := by
  unfold emit_hist
  rw [filter_append]
  congr 1
  rw [filter_eq_self]
  intro l hl
  obtain ⟨bn, _, rfl⟩ := List.mem_map.mp hl
  rfl

variable {order : List (Slot ν)}

section SameBoundaries

variable {w : World ν} (h : WorldOk D w) {key : Key} (hlabels : key.has_labels = true)
  {buckets : List ν}
  (hsame : ∀ slot ∈ w.slots, ∀ e ∈ slot, e.key = key → Alike D buckets e.buckets)

include h hlabels

lemma sightings_of_no_entries (hnone : entries_of w.slots key = []) : sightings w key = [] := by
  have hcount := sum_entries h hlabels (f := fun e => e.count) (p := fun _ => true)
    fun e os hos => by rw [hos.count, countP_true]
  rw [hnone, countP_true] at hcount
  exact length_eq_zero_iff.mp hcount.symm

omit hlabels

include hsame

lemma sightings_alike {x : List ν × ν} (hx : x ∈ sightings w key) : Alike D buckets x.1 := by
  obtain ⟨sw, hsw, hx⟩ := mem_flatMap.mp hx
  obtain ⟨o, ho, rfl⟩ := List.mem_map.mp hx
  have hget : w.slots[sw.2]? = some sw.1 := mem_zipIdx_iff_getElem?.mp hsw
  cases hfind : find_series sw.1 key with
  | none =>
    rw [(h sw.2 sw.1 hget).missing key hfind] at ho
    exact absurd ho not_mem_nil
  | some e =>
    obtain ⟨he, hk⟩ := find_series_mem hfind
    exact hsame sw.1 (mem_of_getElem? hget) e he hk

include hlabels in
/-- **The lines of a series**, whatever the order of the slots: the table is that of the first
entry, and a cell counts the observations that show there. -/
theorem series_lines_spec (hp : order.Perm w.slots) :
    (entries_of w.slots key = [] ∧ series_lines D order key = []) ∨
      entries_of w.slots key ≠ [] ∧ ∃ a : Agg ν,
        series_lines D order key = emit_hist D a ∧ Alike D buckets a.buckets ∧
        (∀ m, a.v m = (sightings w key).countP fun x => lands D a.buckets x = some m) ∧
        a.count = (all_observed w key).length := by
  have hperm := entries_of_perm hp key
  unfold series_lines
  rw [find_aggregate order hlabels]
  by_cases hnone : entries_of w.slots key = []
  · left
    rw [hnone, perm_nil] at hperm
    rw [hperm]
    exact ⟨hnone, rfl⟩
  · right
    have hes : ∀ e ∈ entries_of order key, Alike D buckets e.buckets ∧ ∃ os, EntryOk D e os := by
      intro e he
      obtain ⟨⟨slot, hslot, hin⟩, hk⟩ := mem_entries_of.mp (hperm.mem_iff.mp he)
      obtain ⟨i, hi⟩ := mem_iff_getElem?.mp hslot
      exact ⟨hsame slot hslot e hin hk, _, ((h i slot hi).series e hin (hk ▸ hlabels)).2⟩
    have hne : entries_of order key ≠ [] := fun hnil => hnone (nil_perm.mp (hnil ▸ hperm))
    obtain ⟨first, rest, hsplit⟩ := exists_cons_of_ne_nil hne
    have hfirst := (hes first (hsplit ▸ .head _)).1
    obtain ⟨a, ha⟩ := absorb_ne_none hne none
    obtain ⟨hb, hv, hc⟩ := absorb_spec (fun e he =>
      ⟨((hes e he).1.perm.trans hfirst.perm.symm).length_eq, (hes e he).2⟩) (by simp)
      (by rw [hsplit]; simp) ha
    refine ⟨hnone, a, by rw [ha]; rfl, hb ▸ hfirst, fun m => ?_, ?_⟩
    · rw [hv m, elim_none, zero_add, (hperm.map _).sum_nat, hb]
      exact sum_entries h hlabels fun e os hos => shows_eq hos
    · rw [hc, elim_none, zero_add, (hperm.map _).sum_nat, ← map_snd_sightings, length_map,
        ← countP_true]
      exact sum_entries h hlabels fun e os hos => by rw [hos.count, countP_true]

lemma expected_eq (hb : b ∈ buckets) :
    expected D w key b = (sightings w key).countP fun x => D.le x.2 b := by
  unfold expected sightings
  rw [countP_flatMap]
  congr 1
  refine map_congr_left fun sw hsw => ?_
  have hget : w.slots[sw.2]? = some sw.1 := mem_zipIdx_iff_getElem?.mp hsw
  rw [Function.comp_apply, countP_map]
  cases hfind : find_series sw.1 key with
  | none => simp [(h sw.2 sw.1 hget).missing key hfind]
  | some e =>
    obtain ⟨he, hk⟩ := find_series_mem hfind
    have hmem := (hsame sw.1 (mem_of_getElem? hget) e he hk).perm.mem_iff.mpr hb
    rw [any_some]
    split
    · rfl
    · -- then the boundary is not a number, and nothing is at most that
      rename_i hany
      symm
      rw [countP_eq_zero]
      intro o _ ho
      refine hany (List.any_eq_true.mpr ⟨b, hmem, ?_⟩)
      have hself := D.le_self ho
      simp [Doubles.eq, hself]

/-- The cell of a boundary counts all it should exactly if every observation that does not
exceed it shows there. -/
lemma cell_right_iff (htable : Alike D buckets table) (hget : table[m]? = some b) :
    ((sightings w key).countP fun x => lands D table x = some m) = expected D w key b ↔
      ∀ x ∈ sightings w key, D.le x.2 b = true → lands D table x = some m := by
  rw [expected_eq h hsame (htable.perm.mem_iff.mp (mem_of_getElem? hget)),
    countP_eq_iff fun x _ hx => le_of_lands hget (of_decide_eq_true hx)]
  simp

include hlabels

lemma total_line (hp : order.Perm w.slots)
    (hmem : Line.inf n ∈ series_lines D order key ∨ Line.count n ∈ series_lines D order key) :
    n = (all_observed w key).length := by
  rcases series_lines_spec h hlabels hsame hp with ⟨_, hnil⟩ | ⟨_, a, ha, _, _, hc⟩
  · rw [hnil] at hmem
    simp at hmem
  · rw [ha] at hmem
    rw [← hc]
    simpa [emit_hist] using hmem

lemma thin_of_bucket_lines (hright : ∀ b n, Line.bucket b n ∈ series_lines D w.slots key →
    n = expected D w key b) {o : ν} (ho : o ∈ all_observed w key) : Thin D buckets o := by
  rw [← map_snd_sightings] at ho
  obtain ⟨x, hx, rfl⟩ := List.mem_map.mp ho
  rcases series_lines_spec h hlabels hsame (Perm.refl _) with ⟨hnone, _⟩ | ⟨_, a, ha, hb, hv, _⟩
  · rw [sightings_of_no_entries h hlabels hnone] at hx
    exact absurd hx not_mem_nil
  · rw [← hb.thin_iff, thin_iff fun b =>
      ((sightings_alike h hsame hx).perm.trans hb.perm.symm).mem_iff (a := b)]
    intro m b hget hle
    have hline : Line.bucket b (a.v m) ∈ series_lines D w.slots key := by
      rw [ha, bucket_mem_emit_hist]
      exact ⟨m, hget, rfl⟩
    have hn := hright b _ hline
    rw [hv] at hn
    exact (cell_right_iff h hsame hb hget).mp hn x hx hle

variable (hthin : ∀ o ∈ all_observed w key, Thin D buckets o)

include hthin

omit hlabels in
lemma cell_right (htable : Alike D buckets table) (hget : table[m]? = some b) :
    ((sightings w key).countP fun x => lands D table x = some m) = expected D w key b := by
  refine (cell_right_iff h hsame htable hget).mpr fun x hx hle => ?_
  have ho : x.2 ∈ all_observed w key := map_snd_sightings w key ▸ mem_map_of_mem hx
  exact (thin_iff fun b => ((sightings_alike h hsame hx).perm.trans htable.perm.symm).mem_iff).mp
    (htable.thin_iff.mpr (hthin x.2 ho)) m b hget hle

lemma bucket_line (hp : order.Perm w.slots)
    (hmem : Line.bucket b n ∈ series_lines D order key) :
    b ∈ buckets ∧ n = expected D w key b := by
  rcases series_lines_spec h hlabels hsame hp with ⟨_, hnil⟩ | ⟨_, a, ha, hb, hv, _⟩
  · rw [hnil] at hmem
    exact absurd hmem not_mem_nil
  · rw [ha, bucket_mem_emit_hist] at hmem
    obtain ⟨m, hget, rfl⟩ := hmem
    rw [hv]
    exact ⟨hb.perm.mem_iff.mp (mem_of_getElem? hget), cell_right h hsame hthin hb hget⟩

lemma counted_lines_perm (hp : order.Perm w.slots) :
    (series_lines D order key).filter Line.counts =
      (series_lines D w.slots key).filter Line.counts := by
  -- a boundary line is made of the boundary alone
  have hlines : ∀ a : Agg ν, Alike D buckets a.buckets →
      (∀ m, a.v m = (sightings w key).countP fun x => lands D a.buckets x = some m) →
      (sorted_buckets D a.buckets).map (fun bn => Line.bucket bn.1 (a.v bn.2))
        = ((sorted_buckets D a.buckets).map Prod.fst).map fun b => .bucket b (expected D w key b) := by
    intro a hb hv
    rw [List.map_map]
    refine map_congr_left fun bn hbn => ?_
    have hget : a.buckets[bn.2]? = some bn.1 :=
      mem_zipIdx_iff_getElem?.mp ((RankedTable.sort_perm _).mem_iff.mp hbn)
    rw [hv, cell_right h hsame hthin hb hget]
    rfl
  rcases series_lines_spec h hlabels hsame hp with ⟨hnone, hnil⟩ | ⟨hne, a, ha, hb, hv, hc⟩ <;>
    rcases series_lines_spec h hlabels hsame (Perm.refl _) with
      ⟨hnone', hnil'⟩ | ⟨hne', a', ha', hb', hv', hc'⟩
  · rw [hnil, hnil']
  · exact absurd hnone hne'
  · exact absurd hnone' hne
  · rw [ha, ha', emit_hist_counts, emit_hist_counts, hc, hc', hlines a hb hv, hlines a' hb' hv',
      hb.sorted hb']

end SameBoundaries

/-- **When a histogram says what it should.** Where all workers have the series
with the same boundaries, in whatever order, its lines are right exactly if no observation is
at most two of them. -/
theorem histogram_right_iff (D : Doubles ν) (limit workers : ℕ) (calls : List (Call ν))
    (name labels : Bytes) (buckets : List ν)
    (hsame : ∀ slot ∈ (after D limit workers calls).slots, ∀ e ∈ slot,
      e.key = .series name labels → Alike D buckets e.buckets) :
    Right D (after D limit workers calls) (.series name labels) ↔
      ∀ o ∈ all_observed (after D limit workers calls) (.series name labels), Thin D buckets o := by
  have h := after_ok D limit workers calls
  constructor
  · intro hright o ho
    exact thin_of_bucket_lines h rfl hsame (hright.bucket _ (Perm.refl _)) ho
  · intro hthin
    refine ⟨fun order hp b n hmem => (bucket_line h rfl hsame hthin hp hmem).2, ?_,
      fun order hp n hmem => total_line h rfl hsame hp (.inl hmem),
      fun order hp n hmem => total_line h rfl hsame hp (.inr hmem),
      fun order hp => counted_lines_perm h rfl hsame hthin hp⟩
    intro order hp b n c m hb hc hle
    obtain ⟨hbin, rfl⟩ := bucket_line h rfl hsame hthin hp hb
    obtain ⟨hcin, rfl⟩ := bucket_line h rfl hsame hthin hp hc
    rw [expected_eq h hsame hbin, expected_eq h hsame hcin]
    exact countP_mono_left fun x _ hx => D.le_trans hx hle

def milliseconds : Doubles ℕ where
  le a b := decide (a ≤ b)
  add a b := a + b
  zero := 0
  default_buckets := [5, 10, 25, 50, 100, 250, 500, 1000, 2500, 5000, 10000, 30000, 60000]
  default_room := by decide
  le_trans h₁ h₂ := by
    rw [decide_eq_true_eq] at *
    exact Nat.le_trans h₁ h₂
  le_self _ := by simp

/-- Two workers that time the same thing, with the boundaries in two orders, each observation
between the boundaries or above them. -/
theorem histogram_right_iff_two_workers :
    Right milliseconds (after milliseconds 16 2
        [.register 0 (str "job") .histogram [20, 10], .observe 0 (str "job") (str "pool=www") 15,
          .register 1 (str "job") .histogram [10, 20], .observe 1 (str "job") (str "pool=www") 18,
          .observe 1 (str "job") (str "pool=www") 30]) (.series (str "job") (str "pool=www")) :=
  (histogram_right_iff milliseconds 16 2 _ (str "job") (str "pool=www") [20, 10]
    (by decide)).mpr (by decide)

/-- **The boundary lines are not cumulative**, and cells of one boundary end up
under another. One observation of 3 ms shows in the line of 5 ms and not in the
next. And where one worker has the boundary 10 and the other 1 and 2, the 5 ms of
the first show as at most 1. -/
theorem boundary_lines_not_cumulative :
    (Line.bucket 10 0 ∈ series_lines milliseconds
        (after milliseconds 16 1 [.observe 0 (str "job") (str "pool=www") 3]).slots
        (.series (str "job") (str "pool=www")) ∧
      ¬Right milliseconds (after milliseconds 16 1 [.observe 0 (str "job") (str "pool=www") 3])
        (.series (str "job") (str "pool=www"))) ∧ (Line.bucket 1 1 ∈ series_lines milliseconds
        (after milliseconds 16 2
          [.register 0 (str "job") .histogram [10], .observe 0 (str "job") (str "pool=www") 5,
            .register 1 (str "job") .histogram [1, 2],
            .observe 1 (str "job") (str "pool=www") 2]).slots
        (.series (str "job") (str "pool=www")) ∧ ¬Right milliseconds (after milliseconds 16 2
          [.register 0 (str "job") .histogram [10], .observe 0 (str "job") (str "pool=www") 5,
            .register 1 (str "job") .histogram [1, 2], .observe 1 (str "job") (str "pool=www") 2])
        (.series (str "job") (str "pool=www"))) := by
  have hlow : Line.bucket 10 0 ∈ series_lines milliseconds
      (after milliseconds 16 1 [.observe 0 (str "job") (str "pool=www") 3]).slots
      (.series (str "job") (str "pool=www")) := by decide
  have hmoved : Line.bucket 1 1 ∈ series_lines milliseconds
      (after milliseconds 16 2
        [.register 0 (str "job") .histogram [10], .observe 0 (str "job") (str "pool=www") 5,
          .register 1 (str "job") .histogram [1, 2],
          .observe 1 (str "job") (str "pool=www") 2]).slots
      (.series (str "job") (str "pool=www")) := by decide
  refine ⟨⟨hlow, fun hright => ?_⟩, ⟨hmoved, fun hright => ?_⟩⟩
  · exact absurd (hright.bucket _ (Perm.refl _) 10 0 hlow) (by decide)
  · exact absurd (hright.bucket _ (Perm.refl _) 1 1 hmoved) (by decide)

end FpmNg.Metrics
