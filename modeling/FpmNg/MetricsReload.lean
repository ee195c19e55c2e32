/-
The slots of the metrics region over a chain of reloads.

A generation's workers are bound to slots of its region. At a selective reload the
children of an unchanged pool stay where they are, one child of a replaced pool may
stay behind as a survivor, and the region is handed on with records of all ranges
(`ReloadRecords`), from which the next generation makes its own layout
(`MetricsSlots`). A run is any order of workers coming and going, time passing and
reloads; the question is whether two live processes ever write to one slot.

A survivor is dead by the expiry that is computed for its range at the exec, as the
supervisor arranges it. Which pools are unchanged, which children stay behind, how
long a reload takes and whether the inherited region can be used are arguments of
the reload.
-/
import FpmNg.MetricsSlots
import FpmNg.ReloadSelective
import FpmNg.Lib.Runs
import Mathlib.Data.List.Nodup

open List Runs Function

namespace FpmNg.MetricsReload

open ReloadRecords MetricsSlots

/-! ## The world -/

/-- The pools of a configuration. `fpm_conf_ini_parser_section` brings the pool
back when a section is opened again, so no two have the same name. -/
structure Config where
  pools : List Pool
  names : (pools.map Pool.name).Nodup

/-- What a process is to the present generation. The index of a worker is its row
in the scoreboard. -/
inductive Owner where
  | worker (pool : Bytes) (index : ℕ)
  | survivor (expiry : ℕ)
  deriving DecidableEq

structure Proc where
  region : ℕ
  slot : ℕ
  owner : Owner
  deriving DecidableEq

/-- A generation, its region and the live processes. `fd` is `own_mx_fd`: there is
none if the region cannot be handed on. -/
structure World where
  config : Config
  ranges : List Range
  region : ℕ
  slots : ℕ
  limit : Fin 4294967296
  fd : Option ℕ
  now : ℕ
  procs : List Proc

/-- A reload: the next configuration, the pools whose section did not change, the
children that stay behind, the seconds until the next generation lays out its
region, its `fpmng_metrics.series_limit`, whether the inherited region has its size
and can be mapped, and the descriptor of a new one. -/
structure Reload where
  config : Config
  unchanged : List Bytes
  survivors : List (Bytes × ℕ)
  delay : ℕ
  limit : Fin 4294967296
  size_ok : Bool
  map_ok : Bool
  fd : Option (Fin 2147483648)

/-- `fpmng_metrics_shm_size`: a `size_t`. -/
structure ShmSize where
  bytes : ℕ → ℕ → ℕ
  bytes_le : ∀ slots limit, bytes slots limit ≤ ULLONG_MAX

variable (P : ShmSize)

/-! ## The old master -/

/-- `fpm_pool_supervisor_slot_reserve_until` -/
def fpm_pool_supervisor_slot_reserve_until (p : Pool) (exec_at : ℕ) : ℕ :=
  exec_at + SURVIVOR_TIMEOUT + p.stop_timeout + 3

def is_worker (name : Bytes) (q : Proc) : Bool :=
  match q.owner with
  | .worker pool _ => pool == name
  | .survivor _ => false

def spared (w : World) (r : Reload) (p : Pool) : Bool :=
  r.unchanged.contains p.name && r.config.pools.contains p &&
    ReloadSelective.fpm_reload_selective_name_ok p.name && w.procs.any (is_worker p.name)

def ranged_pools (w : World) : List (Pool × Range) :=
  w.config.pools.filterMap fun p => (fpm_metrics_pool_range w.ranges p.name).map fun r => (p, r)

/-- The `B` records of `fpm_reload_shm_spare_pool`. -/
def spare_records (w : World) (r : Reload) : List Record :=
  ((ranged_pools w).filter fun pr => spared w r pr.1).map fun pr =>
    .B pr.1.name pr.2.base pr.2.count

/-- `!strpbrk(name, ":;")` -/
def recordable (name : Bytes) : Bool := name.all fun b => b != COLON && b != SEMICOLON

/-- The `X` records of `fpm_reload_shm_exec_records`. -/
def exec_records (w : World) : List Record :=
  ((ranged_pools w).filter fun pr => recordable pr.1.name).map fun pr =>
    .X pr.1.name pr.2.base pr.2.count (fpm_pool_supervisor_slot_reserve_until pr.1 w.now)

/-- Its `Y` records, of `fpm_reload_shm_carry_range`. -/
def carry_records (w : World) : List Record :=
  (w.ranges.filter fun s => s.name.isNone && decide (w.now < s.expiry)).map fun s =>
    .Y s.base s.count s.expiry

def records (w : World) (r : Reload) : List Record :=
  match w.fd with
  | none => []
  | some fd =>
    if (spare_records w r).isEmpty then []
    else
      .M fd (P.bytes w.slots w.limit) w.slots w.limit :: spare_records w r ++ exec_records w
        ++ carry_records w

/-- The child stays behind: `fpm_pool_supervisor_reload_spare_child` refuses a name
with `:` or `,`. -/
def stays_behind (r : Reload) (pool : Bytes) (index : ℕ) : Bool :=
  r.survivors.contains (pool, index) &&
    !pool.contains COLON && !pool.contains COMMA

def over_exec (w : World) (r : Reload) (q : Proc) : Option Proc :=
  match q.owner with
  | .survivor _ => some q
  | .worker pool index =>
    (w.config.pools.find? fun p => p.name = pool).bind fun p =>
      if spared w r p then some q
      else if stays_behind r pool index then
        some { q with owner := .survivor (fpm_pool_supervisor_slot_reserve_until p w.now) }
      else none

def alive (now : ℕ) (q : Proc) : Bool :=
  match q.owner with
  | .worker _ _ => true
  | .survivor expiry => decide (now < expiry)

/-! ## The new master -/

/-- `fpm_reload_shm_inherited_metrics` -/
def inherited_metrics (inherited : List Record) : Option (Int × ℕ × ℕ × ℕ) :=
  inherited.findSome? fun
    | .M fd size slots limit => some (fd, size, slots, limit)
    | _ => none

def usable_region (r : Reload) (inherited : List Record) : Option (ℕ × ℕ) :=
  (inherited_metrics inherited).bind fun m =>
    if r.size_ok ∧ m.2.2.2 = r.limit ∧ P.bytes m.2.2.1 r.limit ≤ m.2.1 then
      some (m.1.toNat, m.2.2.1)
    else none

def fresh (w : World) (r : Reload) (slots : ℕ) (procs : List Proc) : World :=
  ⟨r.config, fresh_layout r.config.pools, w.region + 1, slots, r.limit, r.fd.map Fin.val,
    w.now + r.delay, procs⟩

/-- `fpm_metrics_init_main` after the reload. -/
def reload (w : World) (r : Reload) : World :=
  let now := w.now + r.delay
  let inherited := fpm_reload_shm_load now (environment (records P w r))
  let procs := (w.procs.filterMap (over_exec w r)).filter (alive now)
  if r.config.pools.any fun p => decide (0 < p.max_children) then
    match usable_region P r inherited with
    | some (fd, slots) =>
      let ranges := inherited_layout now inherited slots r.config.pools
      if r.map_ok then ⟨r.config, ranges, w.region, total ranges, r.limit, some fd, now, procs⟩
      else fresh w r (children r.config.pools) procs
    | none => fresh w r (total (fresh_layout r.config.pools)) procs
  else ⟨r.config, [], w.region + 1, 0, r.limit, none, now, procs⟩

/-! ## Runs -/

inductive Event where
  /-- a worker comes up in a free row of the scoreboard -/
  | spawn (pool : Bytes) (index : ℕ)
  /-- a process exits -/
  | quit (q : Proc)
  | pass (seconds : ℕ)
  | reload (r : Reload)

/-- `fpm_metrics_child_init` and `fpmng_metrics_child_attach`. -/
def spawn (w : World) (pool : Bytes) (index : ℕ) : World :=
  match fpm_metrics_pool_range w.ranges pool with
  | none => w
  | some r =>
    if (w.config.pools.any fun p => p.name == pool && decide (index < p.max_children)) ∧
        (w.procs.all fun q => q.owner != .worker pool index) ∧ add32 r.base index < w.slots then
      { w with procs := ⟨w.region, add32 r.base index, .worker pool index⟩ :: w.procs }
    else w

def step (w : World) : Event → World
  | .spawn pool index => spawn w pool index
  | .quit q => { w with procs := w.procs.erase q }
  | .pass seconds =>
    { w with now := w.now + seconds, procs := w.procs.filter (alive (w.now + seconds)) }
  | .reload r => reload P w r

def start (config : Config) (limit : Fin 4294967296) (fd : Option (Fin 2147483648)) (now : ℕ) :
    World :=
  ⟨config, fresh_layout config.pools, 0, total (fresh_layout config.pools), limit, fd.map Fin.val,
    now, []⟩

/-- No two live processes write to one slot of one region, no two ranges have a
slot in common, and every range lies inside the region. -/
structure Separate (w : World) : Prop where
  writers : w.procs.Pairwise fun a b => a.region = b.region → a.slot ≠ b.slot
  ranges : w.ranges.Pairwise Range.Apart
  inside : ∀ r ∈ w.ranges, r.base + r.count ≤ w.slots

/-- **What a reload has to meet.** The name of a pool that is spared or leaves a
survivor has 1 to 255 bytes and no `;`, the slots of the old region and those of
the new pools are together below 2 ^ 32, and the clock is in range. -/
structure Fine (w : World) (r : Reload) : Prop where
  names : ∀ p ∈ w.config.pools,
    (spared w r p = true ∨ ∃ index, stays_behind r p.name index = true) →
      NameFits p.name ∧ SEMICOLON ∉ p.name
  room : w.slots + children r.config.pools < UINT32
  clock : ∀ p ∈ w.config.pools, fpm_pool_supervisor_slot_reserve_until p w.now ≤ LONG_MAX

/-- The region can be handed on: it has a descriptor, the next generation has the same limit,
and finds it of the right size and mappable. -/
structure HandedOn (w : World) (r : Reload) : Prop where
  fd : w.fd.isSome = true
  limit : r.limit = w.limit
  size_ok : r.size_ok = true
  map_ok : r.map_ok = true

def FineEvent (w : World) : Event → Prop
  | .reload r => Fine w r
  | _ => True

/-! ## What is written -/

structure Good (w : World) : Prop where
  laid : Laid w.ranges w.slots
  room : w.slots < UINT32
  fd_le : ∀ fd ∈ w.fd, fd ≤ 2147483647
  named : ∀ r ∈ w.ranges, ∀ name, r.name = some name → ∃ p ∈ w.config.pools, OfPool p r
  expiries : ∀ r ∈ w.ranges, r.expiry ≤ LONG_MAX
  regions : ∀ q ∈ w.procs, q.region ≤ w.region
  workers : ∀ q ∈ w.procs, q.region = w.region → ∀ pool index, q.owner = .worker pool index →
    ∃ r, fpm_metrics_pool_range w.ranges pool = some r ∧ index < r.count ∧ q.slot = r.base + index
  survivors : ∀ q ∈ w.procs, q.region = w.region → ∀ expiry, q.owner = .survivor expiry →
    ∃ r ∈ w.ranges, r.name = none ∧ r.base ≤ q.slot ∧ q.slot < r.base + r.count ∧
      expiry ≤ r.expiry
  writers : w.procs.Pairwise fun a b => a.region = b.region → a.slot ≠ b.slot

variable {w : World} {p : Pool}

lemma mem_ranged_pools {r : Range} :
    (p, r) ∈ ranged_pools w ↔ p ∈ w.config.pools ∧ fpm_metrics_pool_range w.ranges p.name = some r := by
  unfold ranged_pools
  rw [mem_filterMap]
  constructor
  · rintro ⟨q, hq, hqr⟩
    obtain ⟨s, hs, heq⟩ := Option.map_eq_some_iff.mp hqr
    obtain ⟨rfl, rfl⟩ := heq
    exact ⟨hq, hs⟩
  · rintro ⟨hp, hr⟩
    exact ⟨p, hp, by rw [hr]; rfl⟩

lemma Config.pool_eq (c : Config) {p q : Pool} (hp : p ∈ c.pools) (hq : q ∈ c.pools)
    (h : p.name = q.name) : p = q :=
  inj_on_of_nodup_map c.names hp hq h

lemma Good.apart (h : Good w) {r s : Range} (hr : r ∈ w.ranges) (hs : s ∈ w.ranges)
    (hne : r.name ≠ s.name) : r.Apart s :=
  h.laid.apart.forall hr hs fun heq => hne (congrArg Range.name heq)

lemma ranged_pools_pairwise (h : Good w) :
    (ranged_pools w).Pairwise fun a b => a.2.Apart b.2 := by
  unfold ranged_pools
  have hnames := pairwise_map.mp w.config.names
  rw [pairwise_filterMap]
  refine hnames.imp ?_
  intro p q hne a ha b hb
  obtain ⟨r, hr, rfl⟩ := Option.map_eq_some_iff.mp ha
  obtain ⟨s, hs, rfl⟩ := Option.map_eq_some_iff.mp hb
  obtain ⟨hrin, hrname⟩ := pool_range_some hr
  obtain ⟨hsin, hsname⟩ := pool_range_some hs
  refine h.apart hrin hsin fun heq => hne ?_
  rw [hrname, hsname] at heq
  exact Option.some.inj heq

lemma Good.range_lt (h : Good w) {r : Range} (hr : r ∈ w.ranges) :
    r.base < UINT32 ∧ r.count < UINT32 := by
  have hin := h.laid.inside r hr
  have hroom := h.room
  omega

variable {name : Bytes}

lemma recordable_bytes (h : recordable name = true) : COLON ∉ name ∧ SEMICOLON ∉ name := by
  unfold recordable at h
  rw [all_eq_true] at h
  exact ⟨fun hin => absurd (h _ hin) (by decide), fun hin => absurd (h _ hin) (by decide)⟩

variable {r : Reload}

lemma spared_spec (h : spared w r p = true) :
    p ∈ r.config.pools ∧ COLON ∉ p.name ∧ SEMICOLON ∉ p.name := by
  unfold spared at h
  simp only [Bool.and_eq_true, contains_iff_mem] at h
  exact ⟨h.1.1.2, ReloadSelective.name_ok_bytes h.1.2⟩

def reserve_record (w : World) (pr : Pool × Range) : Record :=
  .X pr.1.name pr.2.base pr.2.count (fpm_pool_supervisor_slot_reserve_until pr.1 w.now)

/-- The ranges whose `X` record can be read. -/
def readable_pools (w : World) : List (Pool × Range) :=
  (ranged_pools w).filter fun pr => decide (NameFits pr.1.name) && recordable pr.1.name

lemma filterMap_ite {α β : Type} (p : α → Bool) (f : α → β) (l : List α) :
    (l.filterMap fun a => if p a then some (f a) else none) = (l.filter p).map f := by
  induction l with
  | nil => rfl
  | cons a l ih =>
    cases hp : p a with
    | true | false => simp [hp, ih]

variable {s : Range} {record : Record} {fd : ℕ}

section Records

variable {w : World} (h : Good w) {r : Reload} (hfine : Fine w r) (now : ℕ)

include h

lemma ranged_lt (hps : (p, s) ∈ ranged_pools w) : s.base < UINT32 ∧ s.count < UINT32 :=
  h.range_lt (pool_range_some (mem_ranged_pools.mp hps).2).1

lemma carry_fits (hr : record ∈ carry_records w) : record.Fits := by
  obtain ⟨s, hs, rfl⟩ := mem_map.mp hr
  obtain ⟨hs, _⟩ := mem_filter.mp hs
  obtain ⟨hbase, hcount⟩ := h.range_lt hs
  exact ⟨hbase, hcount, h.expiries s hs⟩

include hfine

lemma spare_fits (hr : record ∈ spare_records w r) : record.Fits := by
  obtain ⟨⟨p, s⟩, hps, rfl⟩ := mem_map.mp hr
  obtain ⟨hps, hspared⟩ := mem_filter.mp hps
  obtain ⟨hbase, hcount⟩ := ranged_lt h hps
  obtain ⟨hname, _⟩ := hfine.names p (mem_ranged_pools.mp hps).1 (.inl hspared)
  exact ⟨hname, (spared_spec hspared).2.1, hbase, hcount⟩

lemma read_exec_records :
    ((exec_records w).filterMap fun record => read_record now (print record)) =
      (readable_pools w).map (reserve_record w) := by
  unfold exec_records readable_pools
  rw [filterMap_map, ← filter_filter, ← filterMap_ite]
  refine filterMap_congr fun pr hpr => ?_
  obtain ⟨p, s⟩ := pr
  obtain ⟨hps, hrec⟩ := mem_filter.mp hpr
  obtain ⟨hbase, hcount⟩ := ranged_lt h hps
  have hclock := hfine.clock p (mem_ranged_pools.mp hps).1
  by_cases hfits : NameFits p.name
  · rw [if_pos (by simpa using hfits)]
    exact read_print now ⟨hfits, (recordable_bytes hrec).1, hbase, hcount, hclock⟩
  · rw [if_neg (by simpa using hfits)]
    exact read_print_X_none now hfits (recordable_bytes hrec).1 _ _ _

theorem load_records (hfd : w.fd = some fd) (hspare : spare_records w r ≠ []) :
    fpm_reload_shm_load now (environment (records P w r)) =
      (.M fd (P.bytes w.slots w.limit) w.slots w.limit :: spare_records w r ++
        (readable_pools w).map (reserve_record w) ++ carry_records w).reverse := by
  have hrecords : records P w r = .M fd (P.bytes w.slots w.limit) w.slots w.limit ::
      spare_records w r ++ exec_records w ++ carry_records w := by
    unfold records
    rw [hfd]
    dsimp only
    rw [if_neg (by simpa using hspare)]
  have hM : (Record.M fd (P.bytes w.slots w.limit) w.slots w.limit).Fits := by
    have := h.fd_le fd (by rw [hfd]; rfl)
    exact ⟨by omega, by omega, P.bytes_le _ _, h.room, w.limit.isLt⟩
  have hread : ∀ {l : List Record}, (∀ record ∈ l, record.Fits) →
      (l.filterMap fun record => read_record now (print record)) = l := by
    intro l hl
    rw [filterMap_congr fun record hr => read_print now (hl record hr), filterMap_some]
  rw [load_environment, hrecords, filterMap_append, filterMap_append,
    hread (forall_mem_cons.mpr ⟨hM, fun record hr => spare_fits h hfine hr⟩),
    read_exec_records h hfine, hread fun record hr => carry_fits h hr]
  intro record hr
  rw [hrecords, mem_append, mem_append, mem_cons] at hr
  rcases hr with ((rfl | hr) | hr) | hr
  · exact not_mem_nil
  · obtain ⟨pr, hpr, rfl⟩ := mem_map.mp hr
    exact (spared_spec (mem_filter.mp hpr).2).2.2
  · obtain ⟨pr, hpr, rfl⟩ := mem_map.mp hr
    exact (recordable_bytes (mem_filter.mp hpr).2).2
  · obtain ⟨s, _, rfl⟩ := mem_map.mp hr
    exact not_mem_nil

end Records

/-! ## What is held -/

def kept_range (w : World) (r : Reload) (p : Pool) : Option Range :=
  if p ∈ w.config.pools ∧ spared w r p = true then fpm_metrics_pool_range w.ranges p.name else none

def handed (w : World) (r : Reload) (fd : ℕ) : List Record :=
  (.M fd (P.bytes w.slots w.limit) w.slots w.limit :: spare_records w r ++
    (readable_pools w).map (reserve_record w) ++ carry_records w).reverse

lemma mem_handed :
    record ∈ handed P w r fd ↔
      record = .M fd (P.bytes w.slots w.limit) w.slots w.limit ∨ record ∈ spare_records w r ∨
        record ∈ (readable_pools w).map (reserve_record w) ∨ record ∈ carry_records w := by
  unfold handed
  rw [mem_reverse, mem_append, mem_append, mem_cons, or_assoc, or_assoc]

lemma mem_spare_records :
    record ∈ spare_records w r ↔ ∃ p s, p ∈ w.config.pools ∧ spared w r p = true ∧
      fpm_metrics_pool_range w.ranges p.name = some s ∧ record = .B p.name s.base s.count := by
  constructor
  · intro hrec
    obtain ⟨⟨p, s⟩, hps, rfl⟩ := mem_map.mp hrec
    obtain ⟨hps, hspared⟩ := mem_filter.mp hps
    obtain ⟨hp, hs⟩ := mem_ranged_pools.mp hps
    exact ⟨p, s, hp, hspared, hs, rfl⟩
  · rintro ⟨p, s, hp, hspared, hs, rfl⟩
    exact mem_map.mpr ⟨(p, s), mem_filter.mpr ⟨mem_ranged_pools.mpr ⟨hp, hs⟩, hspared⟩, rfl⟩

variable {pools : List Pool}

section Held

variable {w : World} {r : Reload} {fd : ℕ}

lemma inherited_range_eq (hp : p ∈ w.config.pools ∨ p ∈ r.config.pools) :
    fpm_reload_shm_inherited_range (handed P w r fd) p.name =
      (kept_range w r p).map fun s => (s.base, s.count) := by
  unfold fpm_reload_shm_inherited_range
  cases hfind : (handed P w r fd).findSome? (spared_range p.name) with
  | none =>
    rw [findSome?_eq_none_iff] at hfind
    unfold kept_range
    split
    · rename_i hk
      cases hs : fpm_metrics_pool_range w.ranges p.name with
      | none => rfl
      | some s =>
        have := hfind _ (mem_handed P |>.mpr (.inr (Or.inl
          (mem_spare_records.mpr ⟨p, s, hk.1, hk.2, hs, rfl⟩))))
        simp [spared_range] at this
    · rfl
  | some bc =>
    obtain ⟨record, hrec, hbc⟩ := exists_of_findSome?_eq_some hfind
    rcases (mem_handed P).mp hrec with rfl | hrec | hrec | hrec
    · simp [spared_range] at hbc
    · obtain ⟨q, s, hq, hspared, hs, rfl⟩ := mem_spare_records.mp hrec
      rw [spared_range] at hbc
      split at hbc
      · rename_i hname
        -- the pool of the record is the one asked for
        have hpq : q = p := by
          rcases hp with hp | hp
          · exact w.config.pool_eq hq hp hname
          · exact r.config.pool_eq (spared_spec hspared).1 hp hname
        subst hpq
        unfold kept_range
        rw [if_pos ⟨hq, hspared⟩, hs, ← Option.some.inj hbc]
        rfl
      · simp at hbc
    · obtain ⟨pr, _, rfl⟩ := mem_map.mp hrec
      simp [reserve_record, spared_range] at hbc
    · obtain ⟨s, _, rfl⟩ := mem_map.mp hrec
      simp [spared_range] at hbc

lemma inherited_metrics_eq :
    inherited_metrics (handed P w r fd) =
      some ((fd : Int), P.bytes w.slots w.limit, w.slots, (w.limit : ℕ)) := by
  have hothers : ∀ record ∈ spare_records w r ++ (readable_pools w).map (reserve_record w) ++
      carry_records w, ∀ fd size slots limit, record ≠ .M fd size slots limit := by
    rintro record hrec fd size slots limit rfl
    rcases mem_append.mp hrec with hrec | hrec
    · rcases mem_append.mp hrec with hrec | hrec
      · obtain ⟨p, s, _, _, _, heq⟩ := mem_spare_records.mp hrec
        simp at heq
      · obtain ⟨pr, _, heq⟩ := mem_map.mp hrec
        simp [reserve_record] at heq
    · obtain ⟨s, _, heq⟩ := mem_map.mp hrec
      simp at heq
  unfold inherited_metrics handed
  rw [cons_append, cons_append, reverse_cons, findSome?_append,
    findSome?_eq_none_iff.mpr ?_]
  · rfl
  · intro record hrec
    have hne := hothers record (mem_reverse.mp hrec)
    cases record with
    | M fd size slots limit => exact absurd rfl (hne fd size slots limit)
    | _ => rfl

def replaced (w : World) (r : Reload) : List (Pool × Range) :=
  (readable_pools w).filter fun pr => !spared w r pr.1

def reservation (w : World) (pr : Pool × Range) : Range :=
  ⟨none, pr.2.base, pr.2.count, fpm_pool_supervisor_slot_reserve_until pr.1 w.now⟩

lemma mem_readable_pools :
    (p, s) ∈ readable_pools w ↔ (p ∈ w.config.pools ∧ fpm_metrics_pool_range w.ranges p.name = some s) ∧
      NameFits p.name ∧ recordable p.name = true := by
  unfold readable_pools
  rw [mem_filter, mem_ranged_pools, Bool.and_eq_true, decide_eq_true_eq]

lemma unspared_ranges_eq :
    unspared_ranges (handed P w r fd) = ((replaced w r).map (reservation w)).reverse := by
  unfold unspared_ranges
  generalize hin : handed P w r fd = inherited
  rw [show inherited.filterMap (unspared_range inherited) =
    (handed P w r fd).filterMap (unspared_range inherited) by rw [hin]]
  unfold handed
  -- only the `X` records say anything
  have hspare : (Record.M fd (P.bytes w.slots w.limit) w.slots w.limit ::
      spare_records w r).filterMap (unspared_range inherited) = [] := by
    rw [filterMap_eq_nil_iff]
    intro record hrec
    rcases mem_cons.mp hrec with rfl | hrec
    · rfl
    · obtain ⟨p, s, _, _, _, rfl⟩ := mem_spare_records.mp hrec
      rfl
  have hcarry : (carry_records w).filterMap (unspared_range inherited) = [] := by
    rw [filterMap_eq_nil_iff]
    intro record hrec
    obtain ⟨s, _, rfl⟩ := mem_map.mp hrec
    rfl
  rw [filterMap_reverse, filterMap_append, filterMap_append, hspare, hcarry,
    nil_append, append_nil, filterMap_map, replaced, ← filterMap_ite]
  congr 1
  refine filterMap_congr fun pr hpr => ?_
  obtain ⟨p, s⟩ := pr
  obtain ⟨⟨hp, hs⟩, _⟩ := mem_readable_pools.mp hpr
  rw [comp_apply, reserve_record, unspared_range, ← hin,
    inherited_range_eq P (.inl hp), kept_range]
  cases hspared : spared w r p with
  | true => simp [hp, hs]
  | false => simp [reservation]

/-- The reservations that have not expired at `now`, of those that were written. -/
def carried (w : World) (now : ℕ) : List Range :=
  (w.ranges.filter fun s => s.name.isNone && decide (w.now < s.expiry)).filter fun s =>
    decide (now < s.expiry)

lemma carried_ranges_eq (now : ℕ) :
    carried_ranges now (handed P w r fd) = (carried w now).reverse := by
  unfold carried_ranges handed
  -- only the `Y` records say anything
  rw [filterMap_reverse, filterMap_append, filterMap_append,
    filterMap_eq_nil_iff.mpr, filterMap_eq_nil_iff.mpr, nil_append, nil_append]
  · unfold carried carry_records
    rw [filterMap_map, ← map_id (filter _ (filter _ _)), ← filterMap_ite]
    congr 1
    refine filterMap_congr fun s hs => ?_
    obtain ⟨_, hs⟩ := mem_filter.mp hs
    rw [Bool.and_eq_true, Option.isNone_iff_eq_none] at hs
    obtain ⟨name, base, count, expiry⟩ := s
    obtain rfl : name = none := hs.1
    simp
  · intro record hrec
    obtain ⟨pr, _, rfl⟩ := mem_map.mp hrec
    rfl
  · intro record hrec
    rcases mem_cons.mp hrec with rfl | hrec
    · rfl
    · obtain ⟨p, s, _, _, _, rfl⟩ := mem_spare_records.mp hrec
      rfl

lemma kept_range_spec (h : Good w) (hs : kept_range w r p = some s) :
    s ∈ w.ranges ∧ OfPool p s := by
  unfold kept_range at hs
  split at hs
  · rename_i hk
    obtain ⟨hin, hname⟩ := pool_range_some hs
    obtain ⟨q, hq, hof⟩ := h.named s hin p.name hname
    have hqp : q = p := w.config.pool_eq hq hk.1 (Option.some.inj (hof.name.symm.trans hname))
    exact ⟨hin, hqp ▸ hof⟩
  · simp at hs

/-- The guard of the loop lets a spared pool's range through: it is where it was,
and so are the ones kept before it. -/
lemma keep_spared_eq (h : Good w) (hp : p ∈ r.config.pools) {acc : List Range}
    (hacc : ∀ s ∈ acc, s ∈ w.ranges ∧ s.name ≠ some p.name) :
    keep_spared (handed P w r fd) w.slots acc p = (kept_range w r p).toList ++ acc := by
  unfold keep_spared
  rw [inherited_range_eq P (.inr hp)]
  cases hk : kept_range w r p with
  | none => rfl
  | some s =>
    obtain ⟨hin, hof⟩ := kept_range_spec h hk
    have hinside := h.laid.inside s hin
    have hroom := h.room
    have hfree : fpm_metrics_overlaps acc s.base s.count = false := by
      unfold fpm_metrics_overlaps
      rw [any_eq_false]
      intro t ht
      obtain ⟨htin, hne⟩ := hacc t ht
      have htinside := h.laid.inside t htin
      rw [Bool.not_eq_true, in_the_way_eq_false (by omega) (by omega)]
      exact h.apart htin hin fun heq => hne (heq.trans hof.name)
    have hguard : 0 < p.max_children ∧ s.count = p.max_children ∧ add32 s.base s.count ≤ w.slots ∧
        fpm_metrics_overlaps acc s.base s.count = false :=
      ⟨hof.pos, hof.count, by rw [add32_eq (by omega)]; exact hinside, hfree⟩
    rw [Option.map_some]
    dsimp only
    rw [if_pos hguard, ← hof.name, ← hof.expiry]
    rfl

lemma keep_foldl_eq (h : Good w) (hpools : ∀ p ∈ pools, p ∈ r.config.pools)
    (hnames : (pools.map Pool.name).Nodup) {acc : List Range}
    (hacc : ∀ s ∈ acc, s ∈ w.ranges ∧ ∀ p ∈ pools, s.name ≠ some p.name) :
    pools.foldl (keep_spared (handed P w r fd) w.slots) acc =
      (pools.filterMap (kept_range w r)).reverse ++ acc := by
  induction pools generalizing acc with
  | nil => rfl
  | cons p pools ih =>
    rw [map_cons, nodup_cons] at hnames
    rw [foldl_cons, keep_spared_eq P h (hpools p mem_cons_self) fun s hs =>
      ⟨(hacc s hs).1, (hacc s hs).2 p mem_cons_self⟩]
    rw [ih (fun q hq => hpools q (.tail _ hq)) hnames.2 ?_]
    · cases hk : kept_range w r p with
      | none | some s => simp [hk]
    · intro s hs
      rcases mem_append.mp hs with hs | hs
      · obtain ⟨hin, hof⟩ := kept_range_spec h (Option.mem_toList.mp hs)
        refine ⟨hin, fun q hq heq => hnames.1 ?_⟩
        have hname : p.name = q.name := Option.some.inj (hof.name.symm.trans heq)
        exact mem_map.mpr ⟨q, hq, hname.symm⟩
      · exact ⟨(hacc s hs).1, fun q hq => (hacc s hs).2 q (.tail _ hq)⟩

/-- **What is held**: the reservations that go on, those of the replaced pools, and
the ranges of the spared ones. -/
theorem held_ranges_eq (h : Good w) (now : ℕ) :
    held_ranges now (handed P w r fd) w.slots r.config.pools =
      carried w now ++ (replaced w r).map (reservation w) ++
        (r.config.pools.filterMap (kept_range w r)).reverse := by
  unfold held_ranges
  rw [unspared_ranges_eq, carried_ranges_eq, keep_foldl_eq P h (fun p hp => hp) r.config.names
    (fun s hs => absurd hs not_mem_nil), append_nil, reverse_append,
    reverse_reverse, reverse_reverse]

lemma mem_carried {now : ℕ} :
    s ∈ carried w now ↔ s ∈ w.ranges ∧ s.name = none ∧ w.now < s.expiry ∧ now < s.expiry := by
  unfold carried
  simp only [mem_filter, Bool.and_eq_true, Option.isNone_iff_eq_none, decide_eq_true_eq,
    and_assoc]

lemma mem_replaced :
    (p, s) ∈ replaced w r ↔ (p, s) ∈ readable_pools w ∧ spared w r p = false := by
  unfold replaced
  rw [mem_filter, Bool.not_eq_true']

lemma mem_kept :
    s ∈ (r.config.pools.filterMap (kept_range w r)).reverse ↔
      ∃ p ∈ r.config.pools, kept_range w r p = some s := by
  rw [mem_reverse, mem_filterMap]

lemma held_source (h : Good w) {now : ℕ}
    (hs : s ∈ carried w now ++ (replaced w r).map (reservation w) ++ (r.config.pools.filterMap (kept_range w r)).reverse)
    :
    ∃ t ∈ w.ranges, t.base = s.base ∧ t.count = s.count := by
  rcases mem_append.mp hs with hs | hs
  · rcases mem_append.mp hs with hs | hs
    · exact ⟨s, (mem_carried.mp hs).1, rfl, rfl⟩
    · obtain ⟨⟨p, t⟩, hpt, rfl⟩ := mem_map.mp hs
      have ht := (mem_readable_pools.mp (mem_replaced.mp hpt).1).1.2
      exact ⟨t, (pool_range_some ht).1, rfl, rfl⟩
  · obtain ⟨p, _, hk⟩ := mem_kept.mp hs
    exact ⟨s, (kept_range_spec h hk).1, rfl, rfl⟩

/-- **The held ranges are laid out as before.** Each stands for a different range of
the old generation. -/
theorem held_laid (h : Good w) (now : ℕ) :
    Laid (carried w now ++ (replaced w r).map (reservation w) ++
      (r.config.pools.filterMap (kept_range w r)).reverse) w.slots := by
  have hnames := pairwise_map.mp r.config.names
  refine ⟨?_, ?_, ?_⟩
  · rw [pairwise_append, pairwise_append, pairwise_map, pairwise_reverse,
      pairwise_filterMap]
    refine ⟨⟨?_, ?_, ?_⟩, ?_, ?_⟩
    · exact (h.laid.apart.filter _).filter _
    · exact ((ranged_pools_pairwise h).filter _).filter _
    · rintro s hs t ht
      obtain ⟨hin, hnone, _⟩ := mem_carried.mp hs
      obtain ⟨⟨p, u⟩, hpu, rfl⟩ := mem_map.mp ht
      obtain ⟨huin, huname⟩ := pool_range_some (mem_readable_pools.mp (mem_replaced.mp hpu).1).1.2
      have hapart : s.Apart u := h.apart hin huin (by rw [hnone, huname]; simp)
      exact hapart
    · refine hnames.imp ?_
      intro p q hne s hs t ht
      obtain ⟨hsin, hsof⟩ := kept_range_spec h hs
      obtain ⟨htin, htof⟩ := kept_range_spec h ht
      refine h.apart htin hsin fun heq => hne ?_
      rw [hsof.name, htof.name] at heq
      exact (Option.some.inj heq).symm
    · rintro s hs t ht
      obtain ⟨q, hq, hk⟩ := mem_kept.mp ht
      obtain ⟨htin, htof⟩ := kept_range_spec h hk
      rcases mem_append.mp hs with hs | hs
      · obtain ⟨hin, hnone, _⟩ := mem_carried.mp hs
        exact h.apart hin htin (by rw [hnone, htof.name]; simp)
      · obtain ⟨⟨p, u⟩, hpu, rfl⟩ := mem_map.mp hs
        obtain ⟨hread, hspared⟩ := mem_replaced.mp hpu
        obtain ⟨⟨hp, hu⟩, _⟩ := mem_readable_pools.mp hread
        obtain ⟨huin, huname⟩ := pool_range_some hu
        have hapart : u.Apart t := by
          refine h.apart huin htin fun heq => ?_
          rw [huname, htof.name] at heq
          -- a pool is not both spared and replaced
          unfold kept_range at hk
          split at hk
          · rename_i hkept
            have hpq := w.config.pool_eq hp hkept.1 (Option.some.inj heq)
            rw [hpq, hkept.2] at hspared
            simp at hspared
          · simp at hk
        exact hapart
  · intro s hs
    obtain ⟨t, ht, hbase, hcount⟩ := held_source h hs
    rw [← hbase, ← hcount]
    exact h.laid.inside t ht
  · have hcarried : (carried w now).filterMap Range.name = [] :=
      filterMap_eq_nil_iff.mpr fun s hs => (mem_carried.mp hs).2.1
    have hreplaced : ((replaced w r).map (reservation w)).filterMap Range.name = [] := by
      rw [filterMap_eq_nil_iff]
      intro s hs
      obtain ⟨pr, _, rfl⟩ := mem_map.mp hs
      rfl
    rw [filterMap_append, filterMap_append, hcarried, hreplaced, nil_append,
      nil_append, filterMap_reverse, nodup_reverse, Nodup,
      pairwise_filterMap, pairwise_filterMap]
    refine hnames.imp ?_
    intro p q hne s hs t ht a ha b hb
    rw [(kept_range_spec h hs).2.name] at ha
    rw [(kept_range_spec h ht).2.name] at hb
    rw [← Option.some.inj ha, ← Option.some.inj hb]
    exact hne

end Held

/-! ## One step -/

lemma over_exec_spec {q q' : Proc} (h : over_exec w r q = some q') :
    q'.region = q.region ∧ q'.slot = q.slot ∧
      ((∃ expiry, q.owner = .survivor expiry ∧ q'.owner = .survivor expiry) ∨
        ∃ p ∈ w.config.pools, ∃ index, q.owner = .worker p.name index ∧
          (spared w r p = true ∧ q'.owner = .worker p.name index ∨
            spared w r p = false ∧ stays_behind r p.name index = true ∧
              q'.owner = .survivor (fpm_pool_supervisor_slot_reserve_until p w.now))) := by
  unfold over_exec at h
  cases hq : q.owner with
  | survivor expiry =>
    rw [hq] at h
    cases h
    exact ⟨rfl, rfl, .inl ⟨expiry, rfl, hq⟩⟩
  | worker pool index =>
    rw [hq] at h
    obtain ⟨p, hp, h⟩ := Option.bind_eq_some_iff.mp h
    have hin : p ∈ w.config.pools := mem_of_find?_eq_some hp
    have hname : p.name = pool := by
      have := find?_some hp
      simpa using this
    subst hname
    split at h
    · rename_i hspared
      cases h
      exact ⟨rfl, rfl, .inr ⟨p, hin, index, rfl, .inl ⟨hspared, hq⟩⟩⟩
    · rename_i hspared
      split at h
      · rename_i hstays
        cases h
        exact ⟨rfl, rfl, .inr ⟨p, hin, index, rfl, .inr ⟨by simpa using hspared, hstays, rfl⟩⟩⟩
      · simp at h

def remaining (w : World) (r : Reload) : List Proc :=
  (w.procs.filterMap (over_exec w r)).filter (alive (w.now + r.delay))

lemma mem_remaining {q' : Proc} (h : q' ∈ remaining w r) :
    alive (w.now + r.delay) q' = true ∧ ∃ q ∈ w.procs, over_exec w r q = some q' := by
  obtain ⟨hin, halive⟩ := mem_filter.mp h
  obtain ⟨q, hq, hover⟩ := mem_filterMap.mp hin
  exact ⟨halive, q, hq, hover⟩

lemma remaining_writers (h : Good w) (r : Reload) :
    (remaining w r).Pairwise fun a b => a.region = b.region → a.slot ≠ b.slot := by
  refine Pairwise.filter _ ?_
  rw [pairwise_filterMap]
  refine h.writers.imp ?_
  intro a b hab a' ha b' hb hregion
  obtain ⟨hra, hsa, _⟩ := over_exec_spec ha
  obtain ⟨hrb, hsb, _⟩ := over_exec_spec hb
  rw [hsa, hsb]
  exact hab (by rw [← hra, ← hrb]; exact hregion)

lemma remaining_regions (h : Good w) {q : Proc} (hq : q ∈ remaining w r) :
    q.region ≤ w.region := by
  obtain ⟨_, q0, hq0, hover⟩ := mem_remaining hq
  rw [(over_exec_spec hover).1]
  exact h.regions q0 hq0

lemma good_of_new_region (h : Good w) {ranges : List Range} {slots : ℕ} {fd : Option ℕ}
    (hlaid : Laid ranges slots) (hroom : slots < UINT32) (hfd : ∀ n ∈ fd, n ≤ 2147483647)
    (hnamed : ∀ s ∈ ranges, ∃ p ∈ r.config.pools, OfPool p s) :
    Good ⟨r.config, ranges, w.region + 1, slots, r.limit, fd, w.now + r.delay, remaining w r⟩ := by
  have hold : ∀ q ∈ remaining w r, q.region ≠ w.region + 1 := fun q hq heq => by
    have := remaining_regions h hq
    omega
  refine ⟨hlaid, hroom, hfd, fun s hs _ _ => hnamed s hs, ?_, ?_, ?_, ?_, remaining_writers h r⟩
  · intro s hs
    obtain ⟨p, _, hof⟩ := hnamed s hs
    rw [hof.expiry]
    exact Nat.zero_le _
  · intro q hq
    exact Nat.le_succ_of_le (remaining_regions h hq)
  · intro q hq hregion
    exact absurd hregion (hold q hq)
  · intro q hq hregion
    exact absurd hregion (hold q hq)

lemma fresh_named (hroom : children pools < UINT32) :
    ∀ s ∈ fresh_layout pools, ∃ p ∈ pools, OfPool p s := by
  intro s hs
  rcases (fresh_spec hroom).added s hs with hs | hs
  · exact absurd hs not_mem_nil
  · exact hs

lemma fresh_laid (hroom : children pools < UINT32) :
    Laid (fresh_layout pools) (total (fresh_layout pools)) ∧
      total (fresh_layout pools) < UINT32 := by
  have hlaid := (fresh_spec hroom).laid
  obtain ⟨hle, hinside⟩ := total_spec hroom hlaid.inside
  exact ⟨⟨hlaid.apart, hinside, hlaid.names⟩, by omega⟩

lemma fd_le (fd : Option (Fin 2147483648)) : ∀ n ∈ fd.map Fin.val, n ≤ 2147483647 := by
  intro n hn
  obtain ⟨m, _, rfl⟩ := Option.map_eq_some_iff.mp hn
  omega

section Inherited

variable {w : World} {r : Reload}

lemma stays_behind_colon {index : ℕ} (h : stays_behind r name index = true) : COLON ∉ name := by
  unfold stays_behind at h
  simp only [Bool.and_eq_true, Bool.not_eq_true', contains_eq_mem, decide_eq_false_iff_not] at h
  exact h.1.2

lemma recordable_of (hcolon : COLON ∉ name) (hsemi : SEMICOLON ∉ name) :
    recordable name = true := by
  unfold recordable
  rw [all_eq_true]
  intro b hb
  have hc : b ≠ COLON := fun heq => hcolon (heq ▸ hb)
  have hs : b ≠ SEMICOLON := fun heq => hsemi (heq ▸ hb)
  simp [hc, hs]

lemma usable_region_some (h : Good w) (hfine : Fine w r) {now fd slots : ℕ}
    (huse : usable_region P r (fpm_reload_shm_load now (environment (records P w r))) =
      some (fd, slots)) :
    w.fd = some fd ∧ slots = w.slots ∧
      fpm_reload_shm_load now (environment (records P w r)) = handed P w r fd := by
  have hnone : records P w r ≠ [] := by
    intro hnil
    rw [hnil] at huse
    exact absurd huse (by simp [environment, Separated.join, fpm_reload_shm_load, Separated.tokens,
      usable_region, inherited_metrics])
  cases hfd : w.fd with
  | none => exact absurd (by unfold records; rw [hfd]) hnone
  | some n =>
    have hspare : spare_records w r ≠ [] := by
      intro hnil
      refine hnone ?_
      unfold records
      rw [hfd, hnil]
      rfl
    have hload := load_records P h hfine now hfd hspare
    rw [hload] at huse ⊢
    change usable_region P r (handed P w r n) = _ at huse
    unfold usable_region at huse
    rw [inherited_metrics_eq, Option.bind_some] at huse
    split at huse
    · rw [Option.some.injEq, Prod.mk.injEq, Int.toNat_natCast] at huse
      obtain ⟨rfl, rfl⟩ := huse
      exact ⟨rfl, rfl, rfl⟩
    · simp at huse

/-- **A generation on the inherited region.** The spared workers and the survivors
are on ranges that are held, so the placed ranges keep off them. -/
theorem inherited_layout_spec (h : Good w) (hfine : Fine w r) (fd now : ℕ) :
    Placed (held_ranges now (handed P w r fd) w.slots r.config.pools)
      (inherited_layout now (handed P w r fd) w.slots r.config.pools) r.config.pools
      (w.slots + children r.config.pools) := by
  refine places_spec r.config.pools ?_ hfine.room
  rw [held_ranges_eq P h]
  exact held_laid h now

lemma kept_pool_range (h : Good w) (hfine : Fine w r) (fd now : ℕ)
    (hk : kept_range w r p = some s) (hp : p ∈ r.config.pools) :
    fpm_metrics_pool_range (inherited_layout now (handed P w r fd) w.slots r.config.pools) p.name =
      some s := by
  have hplaced := inherited_layout_spec P h hfine fd now
  refine pool_range_of_mem hplaced.laid.names (hplaced.kept s ?_) (kept_range_spec h hk).2.name
  rw [held_ranges_eq P h]
  exact mem_append_right _ (mem_kept.mpr ⟨p, hp, hk⟩)

lemma good_of_inherited (h : Good w) (hfine : Fine w r) (hfd : w.fd = some fd) :
    Good ⟨r.config,
      inherited_layout (w.now + r.delay) (handed P w r fd) w.slots r.config.pools, w.region,
      total (inherited_layout (w.now + r.delay) (handed P w r fd) w.slots r.config.pools), r.limit,
      some fd, w.now + r.delay, remaining w r⟩ := by
  have hplaced := inherited_layout_spec P h hfine fd (w.now + r.delay)
  have hkeptrange := fun {p : Pool} {s : Range} => kept_pool_range P h hfine fd (w.now + r.delay)
    (p := p) (s := s)
  rw [held_ranges_eq P h] at hplaced
  generalize inherited_layout (w.now + r.delay) (handed P w r fd) w.slots r.config.pools = ranges
    at hplaced hkeptrange ⊢
  obtain ⟨hle, hinside⟩ := total_spec hfine.room hplaced.laid.inside
  have hroom := hfine.room
  refine ⟨⟨hplaced.laid.apart, hinside, hplaced.laid.names⟩, by dsimp only; omega, ?_, ?_, ?_,
    fun q hq => remaining_regions h hq, ?_, ?_, remaining_writers h r⟩
  · intro n hn
    exact h.fd_le n (hfd ▸ hn)
  · -- a named range is that of a pool of the new configuration
    intro s hs name hname
    rcases hplaced.added s hs with hs | hof
    · -- of the held ranges only the kept ones have a name
      rcases mem_append.mp hs with hs | hs
      · rcases mem_append.mp hs with hs | hs
        · rw [(mem_carried.mp hs).2.1] at hname
          simp at hname
        · obtain ⟨pr, _, rfl⟩ := mem_map.mp hs
          simp [reservation] at hname
      · obtain ⟨p, hp, hk⟩ := mem_kept.mp hs
        exact ⟨p, hp, (kept_range_spec h hk).2⟩
    · exact hof
  · intro s hs
    rcases hplaced.added s hs with hs | ⟨p, _, hof⟩
    · rcases mem_append.mp hs with hs | hs
      · rcases mem_append.mp hs with hs | hs
        · exact h.expiries s (mem_carried.mp hs).1
        · obtain ⟨⟨p, t⟩, hpt, rfl⟩ := mem_map.mp hs
          exact hfine.clock p (mem_readable_pools.mp (mem_replaced.mp hpt).1).1.1
      · obtain ⟨p, _, hk⟩ := mem_kept.mp hs
        rw [(kept_range_spec h hk).2.expiry]
        exact Nat.zero_le _
    · rw [hof.expiry]
      exact Nat.zero_le _
  · -- the workers that are left are those of the spared pools
    intro q' hq' hregion pool index howner
    obtain ⟨_, q, hq, hover⟩ := mem_remaining hq'
    obtain ⟨hr, hslot, hcases⟩ := over_exec_spec hover
    rcases hcases with ⟨expiry, _, hsurvivor⟩ | ⟨p, hp, i, hworker, ⟨hspared, hsame⟩ | ⟨_, _, hsurvivor⟩⟩
    · rw [howner] at hsurvivor
      simp at hsurvivor
    · rw [howner, Owner.worker.injEq] at hsame
      obtain ⟨rfl, rfl⟩ := hsame
      obtain ⟨s, hs, hi, hqs⟩ := h.workers q hq (hr.symm.trans hregion) _ _ hworker
      have hk : kept_range w r p = some s := by
        unfold kept_range
        rw [if_pos ⟨hp, hspared⟩, hs]
      exact ⟨s, hkeptrange hk (spared_spec hspared).1, hi, hslot.trans hqs⟩
    · rw [howner] at hsurvivor
      simp at hsurvivor
  · intro q' hq' hregion expiry howner
    obtain ⟨halive, q, hq, hover⟩ := mem_remaining hq'
    -- only survivors whose time has not come are left
    have hlive : w.now + r.delay < expiry := by
      unfold alive at halive
      rw [howner] at halive
      exact of_decide_eq_true halive
    obtain ⟨hr, hslot, hcases⟩ := over_exec_spec hover
    rcases hcases with ⟨e, hold, hsame⟩ | ⟨p, hp, i, hworker, ⟨_, hsame⟩ | ⟨hspared, hstays, hsame⟩⟩
    · -- a survivor of an earlier reload: its reservation goes on
      rw [howner, Owner.survivor.injEq] at hsame
      subst hsame
      obtain ⟨s, hs, hnone, hlo, hhi, hexp⟩ := h.survivors q hq (hr.symm.trans hregion) _ hold
      refine ⟨s, hplaced.kept s ?_, hnone, by rw [hslot]; exact hlo, by rw [hslot]; exact hhi, hexp⟩
      exact mem_append_left _ (mem_append_left _
        (mem_carried.mpr ⟨hs, hnone, by omega, by omega⟩))
    · rw [howner] at hsame
      simp at hsame
    · -- a survivor of this one: the range of its pool is reserved
      rw [howner, Owner.survivor.injEq] at hsame
      subst hsame
      obtain ⟨s, hs, hi, hqs⟩ := h.workers q hq (hr.symm.trans hregion) _ _ hworker
      obtain ⟨hfits, hsemi⟩ := hfine.names p hp (.inr ⟨i, hstays⟩)
      have hread : (p, s) ∈ readable_pools w := mem_readable_pools.mpr
        ⟨⟨hp, hs⟩, hfits, recordable_of (stays_behind_colon hstays) hsemi⟩
      refine ⟨reservation w (p, s), hplaced.kept _ ?_, rfl, ?_, ?_, le_rfl⟩
      · exact mem_append_left _ (mem_append_right _
          (mem_map_of_mem (mem_replaced.mpr ⟨hread, hspared⟩)))
      · show s.base ≤ q'.slot
        omega
      · show q'.slot < s.base + s.count
        omega

end Inherited

lemma reload_good (h : Good w) (hfine : Fine w r) : Good (reload P w r) := by
  have hroom : children r.config.pools < UINT32 := by
    have := hfine.room
    omega
  have hfresh := fresh_laid hroom
  have hplaced := fresh_spec hroom
  unfold reload
  dsimp only
  split
  · cases huse : usable_region P r
        (fpm_reload_shm_load (w.now + r.delay) (environment (records P w r))) with
    | none =>
      exact good_of_new_region h hfresh.1 hfresh.2 (fd_le r.fd) (fresh_named hroom)
    | some m =>
      obtain ⟨fd, slots⟩ := m
      obtain ⟨hfd, rfl, hload⟩ := usable_region_some P h hfine huse
      dsimp only
      split
      · rw [hload]
        exact good_of_inherited P h hfine hfd
      · exact good_of_new_region h hplaced.laid hroom (fd_le r.fd) (fresh_named hroom)
  · have hempty : Laid [] 0 :=
      ⟨Pairwise.nil, fun s hs => absurd hs not_mem_nil, nodup_nil⟩
    exact good_of_new_region h hempty (by decide) nofun
      fun s hs => absurd hs not_mem_nil

/-- A slot of a pool's range is taken by no other process: a worker of the pool has
another row, and every other process of the region is in another range. -/
lemma slot_free (h : Good w) {pool : Bytes} {r : Range} {index : ℕ}
    (hr : fpm_metrics_pool_range w.ranges pool = some r) (hindex : index < r.count)
    (hfree : ∀ q ∈ w.procs, q.owner ≠ .worker pool index) {q : Proc} (hq : q ∈ w.procs)
    (hregion : q.region = w.region) : q.slot ≠ r.base + index := by
  obtain ⟨hrin, hrname⟩ := pool_range_some hr
  intro hslot
  -- a range that has the slot and is another one cannot be
  have hother : ∀ s ∈ w.ranges, s.name ≠ some pool → s.base ≤ q.slot → ¬q.slot < s.base + s.count := by
    intro s hs hne hlo hhi
    have hapart := h.apart hrin hs fun heq => hne (heq ▸ hrname)
    unfold Range.Apart at hapart
    omega
  cases howner : q.owner with
  | worker name i =>
    obtain ⟨s, hs, hi, hqs⟩ := h.workers q hq hregion name i howner
    by_cases hname : name = pool
    · subst hname
      rw [hr, Option.some.injEq] at hs
      subst hs
      have hii : i = index := by omega
      exact hfree q hq (hii ▸ howner)
    · obtain ⟨hsin, hsname⟩ := pool_range_some hs
      refine hother s hsin ?_ (by omega) (by omega)
      rw [hsname, ne_eq, Option.some.injEq]
      exact hname
  | survivor expiry =>
    obtain ⟨s, hs, hnone, hlo, hhi, _⟩ := h.survivors q hq hregion expiry howner
    exact hother s hs (by rw [hnone]; simp) hlo hhi

lemma spawn_good (h : Good w) (pool : Bytes) (index : ℕ) : Good (spawn w pool index) := by
  unfold spawn
  split
  · exact h
  · rename_i r hr
    split
    · rename_i hguard
      obtain ⟨hconf, hfree, _⟩ := hguard
      obtain ⟨hrin, hrname⟩ := pool_range_some hr
      have hinside := h.laid.inside r hrin
      have hroom := h.room
      -- the row is one of the pool's, so the slot is in its range
      have hindex : index < r.count := by
        obtain ⟨p, hp, hpi⟩ := any_eq_true.mp hconf
        rw [Bool.and_eq_true, beq_iff_eq, decide_eq_true_eq] at hpi
        obtain ⟨q, hq, hof⟩ := h.named r hrin pool hrname
        have hqp : q = p := w.config.pool_eq hq hp
          ((Option.some.inj (hof.name.symm.trans hrname)).trans hpi.1.symm)
        rw [hof.count, hqp]
        exact hpi.2
      have hslot : add32 r.base index = r.base + index := add32_eq (by omega)
      rw [hslot]
      have hnew : ∀ q ∈ w.procs, q.owner ≠ .worker pool index := fun q hq => by
        simpa using all_eq_true.mp hfree q hq
      refine ⟨h.laid, h.room, h.fd_le, h.named, h.expiries, ?_, ?_, ?_, ?_⟩
      · exact forall_mem_cons.mpr ⟨le_rfl, h.regions⟩
      · refine forall_mem_cons.mpr ⟨?_, h.workers⟩
        intro _ name i howner
        obtain ⟨rfl, rfl⟩ := howner
        exact ⟨r, hr, hindex, rfl⟩
      · refine forall_mem_cons.mpr ⟨?_, h.survivors⟩
        intro _ expiry howner
        simp at howner
      · refine pairwise_cons.mpr ⟨fun q hq hregion heq => ?_, h.writers⟩
        exact slot_free h hr hindex hnew hq hregion.symm heq.symm
    · exact h

lemma good_of_sublist (h : Good w) {procs : List Proc} (hsub : procs.Sublist w.procs) (now : ℕ) :
    Good { w with now := now, procs := procs } :=
  ⟨h.laid, h.room, h.fd_le, h.named, h.expiries, fun q hq => h.regions q (hsub.subset hq),
    fun q hq => h.workers q (hsub.subset hq), fun q hq => h.survivors q (hsub.subset hq),
    h.writers.sublist hsub⟩

lemma step_good (e : Event) (hfine : FineEvent w e) (h : Good w) : Good (step P w e) := by
  cases e with
  | spawn pool index => exact spawn_good h pool index
  | quit q => exact good_of_sublist h erase_sublist w.now
  | pass seconds => exact good_of_sublist h filter_sublist _
  | reload r => exact reload_good P h hfine

lemma start_good {config : Config} (hroom : children config.pools < UINT32)
    (limit : Fin 4294967296) (fd : Option (Fin 2147483648)) (now : ℕ) :
    Good (start config limit fd now) := by
  obtain ⟨hlaid, htotal⟩ := fresh_laid hroom
  refine ⟨hlaid, htotal, fd_le fd, fun s hs _ _ => fresh_named hroom s hs, ?_, ?_, ?_, ?_,
    Pairwise.nil⟩
  · intro s hs
    obtain ⟨p, _, hof⟩ := fresh_named hroom s hs
    rw [hof.expiry]
    exact Nat.zero_le _
  · exact fun q hq => absurd hq not_mem_nil
  · exact fun q hq => absurd hq not_mem_nil
  · exact fun q hq => absurd hq not_mem_nil

theorem reload_keeps (h : Good w) (hfine : Fine w r) (hp : p ∈ w.config.pools)
    (hspared : spared w r p = true) (hs : fpm_metrics_pool_range w.ranges p.name = some s) :
    ((reload P w r).region = w.region ↔ HandedOn w r) ∧
      (HandedOn w r → fpm_metrics_pool_range (reload P w r).ranges p.name = some s) := by
  have hk : kept_range w r p = some s := by
    unfold kept_range
    rw [if_pos ⟨hp, hspared⟩, hs]
  have hnext := (spared_spec hspared).1
  have hany : (r.config.pools.any fun p => decide (0 < p.max_children)) = true :=
    any_eq_true.mpr ⟨p, hnext, decide_eq_true (kept_range_spec h hk).2.pos⟩
  have hnew : w.region + 1 ≠ w.region := Nat.succ_ne_self _
  unfold reload
  dsimp only
  rw [if_pos hany]
  -- the region is taken over, or a new one is mapped in its place
  cases huse : usable_region P r
      (fpm_reload_shm_load (w.now + r.delay) (environment (records P w r))) with
  | none =>
    have hnot : ¬ HandedOn w r := by
      intro hon
      obtain ⟨fd, hfd⟩ := Option.isSome_iff_exists.mp hon.fd
      have hspare : spare_records w r ≠ [] :=
        ne_nil_of_mem (mem_spare_records.mpr ⟨p, s, hp, hspared, hs, rfl⟩)
      rw [load_records P h hfine _ hfd hspare] at huse
      change usable_region P r (handed P w r fd) = none at huse
      unfold usable_region at huse
      rw [inherited_metrics_eq, Option.bind_some, if_pos ⟨hon.size_ok, by rw [hon.limit],
        by rw [hon.limit]⟩] at huse
      exact nomatch huse
    exact ⟨iff_of_false hnew hnot, fun hon => absurd hon hnot⟩
  | some m =>
    obtain ⟨fd, slots⟩ := m
    obtain ⟨hfd, rfl, hload⟩ := usable_region_some P h hfine huse
    rw [hload] at huse ⊢
    dsimp only
    by_cases hmap : r.map_ok = true
    · rw [if_pos hmap]
      unfold usable_region at huse
      rw [inherited_metrics_eq, Option.bind_some, Option.ite_none_right_eq_some] at huse
      have hon : HandedOn w r :=
        ⟨by rw [hfd]; rfl, Fin.ext huse.1.2.1.symm, huse.1.1, hmap⟩
      exact ⟨iff_of_true rfl hon, fun _ => kept_pool_range P h hfine fd _ hk hnext⟩
    · rw [if_neg hmap]
      exact ⟨iff_of_false hnew fun hon => hmap hon.map_ok, fun hon => absurd hon.map_ok hmap⟩

/-! ## Every run -/

def shm_size : ShmSize where
  bytes slots limit := (16 + slots * (8 + limit * 1048)) % 18446744073709551616
  bytes_le slots limit := Nat.le_of_lt_succ (Nat.mod_lt _ (by decide))

def two_pools (name : Bytes) (stop_timeout : ℕ) (h : [name, str "web"].Nodup) : Config :=
  ⟨[⟨name, 2, stop_timeout⟩, ⟨str "web", 1, 0⟩], h⟩

/-- A reload that changes the first pool, with one of its children left behind, and
spares the other. -/
def change_first (config : Config) (name : Bytes) : Reload :=
  ⟨config, [str "web"], [(name, 0)], 1, 256, true, true, none⟩

def one_change (name : Bytes) (h : [name, str "web"].Nodup) : List Event :=
  [.spawn name 0, .spawn name 1, .spawn (str "web") 0,
    .reload (change_first (two_pools name 20 h) name), .spawn name 0]

/-- The pools after that change, which another reload would leave alone. -/
def changed_once : World :=
  run (step shm_size) (start (two_pools (str "jobs") 10 (by decide +kernel)) 256 (some 7) 100)
    (one_change (str "jobs") (by decide +kernel))

end FpmNg.MetricsReload
