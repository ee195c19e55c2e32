/-
The shared memory of the TLS reload, `fpm_tls_reload.c`: the master publishes
certificates in two slots and a generation counter, and the children copy the slot in
effect (`fpm_tls_reload_snapshot()`) and build their context from the copy.

There is no lock. The master writes the slot that is not in effect, a location at a
time, then bumps the generation; a child latches the generation, copies the slot it
names, a location at a time, and reads the generation again. A copy that straddled a
bump is redone, at most three times. Every access is a step of its own here, and the
steps of the master and of any number of children fall in any order; children are
forked and die at any time. Whether OpenSSL makes a context of a copy is an input.

The bytes are numbers, and so is the generation: an `atomic_t` that comes round to the
same value between two reads of a child is left out. What a slot holds beyond the lengths
of its texts is left over from earlier texts, and nobody may rely on it.
-/
import FpmNg.Lib.SharedProgram
import FpmNg.TlsReload

open List Function Option Runs Prod

namespace FpmNg.TlsSnapshot

open SharedProgram SharedProgram.Prog
open FpmNg.TlsReload (FPM_TLS_RELOAD_MAX_CERT FPM_TLS_RELOAD_MAX_KEY)

abbrev TICKET_KEY : ℕ := 80
abbrev FPM_TLS_RELOAD_SNAPSHOT_TRIES : ℕ := 4

/-! ## The shared memory -/

/-- The locations of a slot, `struct fpm_tls_reload_slot_s`. -/
inductive Field where
  | cert_len
  | key_len
  | min_version
  | ticket_key (i : ℕ)
  | cert_pem (i : ℕ)
  | key_pem (i : ℕ)
  deriving DecidableEq

/-- The locations of the block, `struct fpm_tls_reload_shared_s`. -/
inductive Loc where
  | generation
  | slot (t : ℕ) (f : Field)
  deriving DecidableEq

abbrev Code (α : Type) := Prog Loc ℕ α

/-- What the master publishes: the part of `struct fpm_tls_http_s` that goes into a
slot. A text that does not fit the buffers is not published. -/
structure Material where
  cert_pem : List ℕ
  key_pem : List ℕ
  min_version : ℕ
  ticket_key : List ℕ
  cert_fits : cert_pem.length ≤ FPM_TLS_RELOAD_MAX_CERT
  key_fits : key_pem.length ≤ FPM_TLS_RELOAD_MAX_KEY
  ticket_fits : ticket_key.length = TICKET_KEY

def Material.zero : Material :=
  ⟨[], [], 0, replicate TICKET_KEY 0, by simp, by simp, length_replicate ..⟩

/-- What a child copied: the part of `struct fpm_tls_http_s` that the snapshot fills. -/
structure Copied where
  cert_len : ℕ
  key_len : ℕ
  min_version : ℕ
  cert_pem : List ℕ
  key_pem : List ℕ
  ticket_key : List ℕ
  deriving DecidableEq

def Copied.of (m : Material) : Copied :=
  ⟨m.cert_pem.length, m.key_pem.length, m.min_version, m.cert_pem, m.key_pem, m.ticket_key⟩

/-! ## The programs -/

/-- The writes of `fpm_tls_reload_master_tick()` into slot `t`. -/
def write_slot (t : ℕ) (fresh : Material) : Code Unit :=
  .write (.slot t .cert_len) fresh.cert_pem.length <|
  .write (.slot t .key_len) fresh.key_pem.length <|
  .write (.slot t .min_version) fresh.min_version <|
  (store (fun i => .slot t (.cert_pem i)) fresh.cert_pem 0).bind fun _ =>
  (store (fun i => .slot t (.key_pem i)) fresh.key_pem 0).bind fun _ =>
  store (fun i => .slot t (.ticket_key i)) fresh.ticket_key 0

def bump (gen : ℕ) (_ : Unit) : Code Unit := .cas .generation gen (gen + 1) fun _ => ret ()

/-- The part of `fpm_tls_reload_master_tick()` that publishes. The length in the slot in
effect only decides on a line of the log. -/
def publish (fresh : Material) : Code Unit :=
  .read .generation fun gen => .read (.slot (gen % 2) .cert_len) fun _ =>
    (write_slot ((gen + 1) % 2) fresh).bind (bump gen)

/-- The body of the loop of `fpm_tls_reload_snapshot()` on slot `t`. The lengths are
clamped to the buffers of the child. -/
def copy_slot (t : ℕ) : Code Copied :=
  .read (.slot t .cert_len) fun cert_len =>
  .read (.slot t .key_len) fun key_len =>
  .read (.slot t .min_version) fun min_version =>
    let cert_len := if cert_len > FPM_TLS_RELOAD_MAX_CERT then FPM_TLS_RELOAD_MAX_CERT else cert_len
    let key_len := if key_len > FPM_TLS_RELOAD_MAX_KEY then FPM_TLS_RELOAD_MAX_KEY else key_len
    (load (fun i => .slot t (.cert_pem i)) cert_len 0).bind fun cert_pem =>
    (load (fun i => .slot t (.key_pem i)) key_len 0).bind fun key_pem =>
    (load (fun i => .slot t (.ticket_key i)) TICKET_KEY 0).bind fun ticket_key =>
    ret ⟨cert_len, key_len, min_version, cert_pem, key_pem, ticket_key⟩

/-- The condition of the loop: the generation is read again, and `again` is what there
is to do if it has moved. -/
def recheck (again : Copied → Code (ℕ × Copied)) (gen : ℕ) (tmp : Copied) : Code (ℕ × Copied) :=
  .read .generation fun now => if gen ≠ now then again tmp else ret (gen, tmp)

/-- The loop of `fpm_tls_reload_snapshot()` with `k` further tries behind this one. -/
def snapshot_loop : ℕ → Code (ℕ × Copied)
  | 0 => .read .generation fun gen =>
    (copy_slot (gen % 2)).bind (recheck (fun tmp => ret (gen, tmp)) gen)
  | k + 1 => .read .generation fun gen =>
    (copy_slot (gen % 2)).bind (recheck (fun _ => snapshot_loop k) gen)

def fpm_tls_reload_snapshot : Code (ℕ × Copied) := snapshot_loop (FPM_TLS_RELOAD_SNAPSHOT_TRIES - 1)

def fpm_tls_reload_has_cert : Code Bool :=
  .read .generation fun gen => .read (.slot (gen % 2) .cert_len) fun cert_len =>
    ret (decide (cert_len > 0))

/-! ## The children -/

/-- Where a child stands. `starting` is whether it is in
`fpm_tls_reload_child_ctx_new()`, and not in a tick; `since` is the generation when the
snapshot was called. -/
inductive Phase where
  | has_cert (code : Code Bool)
  | ticking
  | calling (starting : Bool)
  | snapshot (starting : Bool) (since : ℕ) (code : Code (ℕ × Copied))
  | building (starting : Bool) (gen : ℕ) (tmp : Copied)
  | fallback
  | idle
  | exited

/-- A child: where it stands, the bytes its context was built from, and
`last_seen_generation`. -/
structure Child where
  phase : Phase
  ctx : Option Copied
  last_seen_generation : ℕ

/-- Out of `fork()`. -/
def Child.born : Child := ⟨.has_cert fpm_tls_reload_has_cert, none, 0⟩

/-- What the pool was started with: `gw->tls`, and `http.tls_wait_for_cert`. -/
structure Config where
  initial : Option Material
  tls_wait_for_cert : Bool

def Child.without (cfg : Config) (c : Child) : Child :=
  { c with phase := if cfg.tls_wait_for_cert then .idle else .exited }

/-- One step of a child; `ok` is whether `fpm_tls_http_ctx_new()` succeeds in it. -/
def Child.step (cfg : Config) (mem : Loc → ℕ) (ok : Bool) (c : Child) : Child :=
  match c.phase with
  | .has_cert (.ret found) => { c with phase := if found then .calling true else .fallback }
  | .has_cert code => { c with phase := .has_cert (code.access mem).1 }
  | .ticking =>
    { c with phase := if mem .generation = c.last_seen_generation then .idle else .calling false }
  | .calling starting =>
    { c with phase := .snapshot starting (mem .generation) fpm_tls_reload_snapshot }
  | .snapshot starting _ (.ret (gen, tmp)) =>
    { c with
      phase := if !starting && tmp.cert_len = 0 then .idle else .building starting gen tmp }
  | .snapshot starting since code =>
    { c with phase := .snapshot starting since (code.access mem).1 }
  | .building starting gen tmp =>
    if ok then ⟨.idle, some tmp, gen⟩
    else { c with phase := if starting then .fallback else .idle }
  | .fallback =>
    match cfg.initial with
    | none => c.without cfg
    | some tls => if ok then { c with phase := .idle, ctx := some (.of tls) } else c.without cfg
  | .idle => c
  | .exited => c

/-! ## The pool -/

structure Block where
  mem : Loc → ℕ
  wrote : ℕ → Material

def Block.gen (b : Block) : ℕ := b.mem .generation

structure State (ι : Type) where
  block : Block
  master : Option (Material × Code Unit)
  child : ι → Option Child

/-- `fpm_tls_reload_master_init()`: the slot of generation 0 holds the startup pair, if
there is one. Nobody else is there yet. -/
def fpm_tls_reload_master_init (cfg : Config) : Block where
  mem := match cfg.initial with
    | none => fun _ => 0
    | some initial => (run (write_slot 0 initial) fun _ => 0).2
  wrote := fun _ => cfg.initial.getD .zero

def init (ι : Type) (cfg : Config) : State ι := ⟨fpm_tls_reload_master_init cfg, none, fun _ => none⟩

inductive Event (ι : Type) where
  /-- A tick of the master has loaded a new pair. -/
  | publish (fresh : Material)
  /-- The next access of the master. -/
  | master
  | fork (i : ι)
  | child (i : ι) (ok : Bool)
  | tick (i : ι)
  | die (i : ι)

/-- The block after an access of the master that left it `mem`. -/
def Block.after (b : Block) (fresh : Material) (mem : Loc → ℕ) : Block where
  mem := mem
  wrote := if mem .generation = b.gen then b.wrote
    else update b.wrote (mem .generation) fresh

def rest_of (fresh : Material) : Code Unit → Option (Material × Code Unit)
  | .ret _ => none
  | rest => some (fresh, rest)

variable {ι : Type}

def State.set_child [DecidableEq ι] (s : State ι) (i : ι) (c : Option Child) : State ι :=
  { s with child := update s.child i c }

def step [DecidableEq ι] (cfg : Config) (s : State ι) : Event ι → State ι
  | .publish fresh => if s.master.isNone then { s with master := some (fresh, publish fresh) } else s
  | .master =>
    match s.master with
    | none => s
    | some (fresh, code) =>
      { s with
        block := s.block.after fresh (code.access s.block.mem).2
        master := rest_of fresh (code.access s.block.mem).1 }
  | .fork i => if (s.child i).isNone then s.set_child i (some .born) else s
  | .child i ok => s.set_child i ((s.child i).map (Child.step cfg s.block.mem ok))
  | .tick i =>
    match s.child i with
    | some ⟨.idle, ctx, last⟩ => s.set_child i (some ⟨.ticking, ctx, last⟩)
    | _ => s
  | .die i => s.set_child i none

def run [DecidableEq ι] (cfg : Config) (events : List (Event ι)) : State ι :=
  Runs.run (step cfg) (init ι cfg) events

/-! ## What a slot holds -/

/-- `l` is a location of slot `t`. -/
def InSlot (t : ℕ) (l : Loc) : Prop := ∃ f, l = .slot t f

/-- Slot `t` holds the pair. -/
structure Holds (mem : Loc → ℕ) (t : ℕ) (m : Material) : Prop where
  cert_len : mem (.slot t .cert_len) = m.cert_pem.length
  key_len : mem (.slot t .key_len) = m.key_pem.length
  min_version : mem (.slot t .min_version) = m.min_version
  cert_pem : ∀ i v, m.cert_pem[i]? = some v → mem (.slot t (.cert_pem i)) = v
  key_pem : ∀ i v, m.key_pem[i]? = some v → mem (.slot t (.key_pem i)) = v
  ticket_key : ∀ i v, m.ticket_key[i]? = some v → mem (.slot t (.ticket_key i)) = v

variable {m : Material}

lemma Holds.congr {mem mem' : Loc → ℕ} {t : ℕ} (hmem : ∀ f, mem' (.slot t f) = mem (.slot t f))
    (h : Holds mem t m) : Holds mem' t m := by
  obtain ⟨h1, h2, h3, h4, h5, h6⟩ := h
  constructor <;> simpa only [hmem]

lemma write_slot_writes (t : ℕ) (m : Material) : (write_slot t m).Writes (InSlot t) := by
  refine ⟨⟨_, rfl⟩, ⟨_, rfl⟩, ⟨_, rfl⟩, ?_⟩
  refine (store_writes _ _ fun i _ => ⟨.cert_pem i, rfl⟩).bind fun _ => ?_
  refine (store_writes _ _ fun i _ => ⟨.key_pem i, rfl⟩).bind fun _ => ?_
  exact store_writes _ _ fun i _ => ⟨.ticket_key i, rfl⟩

lemma store_holds (field : ℕ → Field) (hinj : ∀ i j, field i = field j → i = j) (t : ℕ)
    (vs : List ℕ) (mem : Loc → ℕ) :
    (∀ i v, vs[i]? = some v →
      (Prog.run (store (fun i => .slot t (field i)) vs 0) mem).2 (.slot t (field i)) = v) ∧
    ∀ l, (∀ i, l ≠ .slot t (field i)) →
      (Prog.run (store (fun i => .slot t (field i)) vs 0) mem).2 l = mem l := by
  constructor
  · intro i v hv
    have hrow := store_run (fun i => Loc.slot t (field i))
      (fun i j h => hinj i j (Loc.slot.inj h).2) vs 0 mem hv
    rwa [Nat.zero_add] at hrow
  · intro l hl
    refine (store_writes (W := fun l => ∃ i, l = .slot t (field i)) vs 0
      fun i _ => ⟨i, rfl⟩).run_other mem ?_
    rintro ⟨i, rfl⟩
    exact hl i rfl

lemma write_slot_holds (t : ℕ) (m : Material) (mem : Loc → ℕ) :
    Holds (Prog.run (write_slot t m) mem).2 t m := by
  unfold write_slot
  simp only [run_write, run_bind]
  set mem1 := update (update (update mem (.slot t .cert_len)
    m.cert_pem.length) (.slot t .key_len) m.key_pem.length) (.slot t .min_version) m.min_version
    with hmem1
  obtain ⟨hcert, hcert'⟩ := store_holds .cert_pem (fun _ _ => Field.cert_pem.inj) t
    m.cert_pem mem1
  set mem2 := (Prog.run (store (fun i => Loc.slot t (.cert_pem i)) m.cert_pem 0) mem1).2
  obtain ⟨hkey, hkey'⟩ := store_holds .key_pem (fun _ _ => Field.key_pem.inj) t
    m.key_pem mem2
  set mem3 := (Prog.run (store (fun i => Loc.slot t (.key_pem i)) m.key_pem 0) mem2).2
  obtain ⟨hticket, hticket'⟩ := store_holds .ticket_key
    (fun _ _ => Field.ticket_key.inj) t m.ticket_key mem3
  -- what the rows do not touch is what the three single writes left
  have hfield : ∀ f : Field, (∀ i, f ≠ .cert_pem i) → (∀ i, f ≠ .key_pem i) →
      (∀ i, f ≠ .ticket_key i) →
      (Prog.run (store (fun i => Loc.slot t (.ticket_key i)) m.ticket_key 0) mem3).2 (.slot t f)
        = mem1 (.slot t f) := by
    intro f h1 h2 h3
    rw [hticket' _ fun i h => h3 i (Loc.slot.inj h).2, hkey' _ fun i h => h2 i (Loc.slot.inj h).2,
      hcert' _ fun i h => h1 i (Loc.slot.inj h).2]
  refine ⟨?_, ?_, ?_, ?_, ?_, hticket⟩
  iterate 3
    · rw [hfield _ (by simp) (by simp) (by simp), hmem1]
      simp
  · intro i v hv
    rw [hticket' _ (by simp), hkey' _ (by simp)]
    exact hcert i v hv
  · intro i v hv
    rw [hticket' _ (by simp)]
    exact hkey i v hv

lemma copy_slot_reads (t : ℕ) : (copy_slot t).Reads (InSlot t) := by
  refine ⟨⟨_, rfl⟩, fun _ => ⟨⟨_, rfl⟩, fun _ => ⟨⟨_, rfl⟩, fun _ => ?_⟩⟩⟩
  refine (load_reads _ _ fun i => ⟨.cert_pem i, rfl⟩).bind fun _ => ?_
  refine (load_reads _ _ fun i => ⟨.key_pem i, rfl⟩).bind fun _ => ?_
  exact (load_reads _ _ fun i => ⟨.ticket_key i, rfl⟩).bind fun _ => trivial

variable {mem : Loc → ℕ}

lemma load_text {at_ : ℕ → Loc} {text : List ℕ} (h : ∀ i v, text[i]? = some v → mem (at_ i) = v) :
    (Prog.run (load at_ text.length 0) mem).1 = text := by
  rw [load_run]
  refine ext_getElem? fun i => ?_
  rw [getElem?_map]
  by_cases hi : i < text.length
  · have hv : text[i]? = some text[i] := getElem?_eq_getElem hi
    rw [getElem?_range hi, hv, map_some, Nat.zero_add, h i _ hv]
  · rw [getElem?_eq_none (by simpa using hi), getElem?_eq_none (by simpa using hi)]
    rfl

theorem copy_slot_run {t : ℕ} (h : Holds mem t m) :
    (Prog.run (copy_slot t) mem).1 = Copied.of m := by
  have hcert : ¬ m.cert_pem.length > FPM_TLS_RELOAD_MAX_CERT := Nat.not_lt.mpr m.cert_fits
  have hkey : ¬ m.key_pem.length > FPM_TLS_RELOAD_MAX_KEY := Nat.not_lt.mpr m.key_fits
  have hmem : ∀ (at_ : ℕ → Loc) (n : ℕ), (Prog.run (load at_ n 0) mem).2 = mem := fun at_ n =>
    (load_reads (R := fun _ => True) n 0 fun _ => trivial).run_mem mem
  unfold copy_slot
  simp only [run_read, run_bind, run_ret, hmem, h.cert_len, h.key_len, h.min_version,
    if_neg hcert, if_neg hkey, load_text h.cert_pem, load_text h.key_pem]
  rw [← m.ticket_fits, load_text h.ticket_key]
  rfl

/-! ## What a copy may assume -/

/-- **What a step of the master can do to the block**, seen by the children:
generations only go up, the slot in effect stands still while its generation is, and
what was published stays published. -/
structure Effect (b b' : Block) : Prop where
  gen_le : b.gen ≤ b'.gen
  slot : b'.gen = b.gen → ∀ f, b'.mem (.slot (b.gen % 2) f) = b.mem (.slot (b.gen % 2) f)
  wrote : ∀ g, g ≤ b.gen → b'.wrote g = b.wrote g

/-- A copy of the slot of generation `g` is under way: if the generation has not moved,
the rest `q` ends with what was published. -/
structure Copying (b : Block) (g : ℕ) (q : Code Copied) : Prop where
  le : g ≤ b.gen
  reads : q.Reads (InSlot (g % 2))
  same : b.gen = g → (Prog.run q b.mem).1 = Copied.of (b.wrote g)

lemma Copying.stable {b b' : Block} {g : ℕ} {q : Code Copied} (he : Effect b b')
    (h : Copying b g q) : Copying b' g q where
  le := Nat.le_trans h.le he.gen_le
  reads := h.reads
  same := by
    intro hg
    -- the generation has not moved at all, so the slot has not either
    have hb : b.gen = g := Nat.le_antisymm (Nat.le_trans he.gen_le (Nat.le_of_eq hg)) h.le
    have hslot : ∀ l, InSlot (g % 2) l → b'.mem l = b.mem l := by
      rintro l ⟨f, rfl⟩
      have := he.slot (hg.trans hb.symm) f
      rwa [hb] at this
    rw [h.reads.run_congr hslot, he.wrote g h.le]
    exact h.same hb

/-- What the loop does when the generation has moved, with `k` further tries. -/
def again (k g : ℕ) (tmp : Copied) : Code (ℕ × Copied) :=
  match k with
  | 0 => ret (g, tmp)
  | k + 1 => snapshot_loop k

lemma snapshot_loop_eq (k : ℕ) : snapshot_loop k = .read .generation fun gen =>
    (copy_slot (gen % 2)).bind (recheck (again k gen) gen) := by
  cases k <;> rfl

/-- Where a snapshot stands. A try that failed has seen the generation move, so there
are as many bumps since the call as tries are gone. -/
inductive SnapshotAt (b : Block) (since : ℕ) : Code (ℕ × Copied) → Prop
  | attempt (k : ℕ) (h : since + 3 ≤ b.gen + k) : SnapshotAt b since (snapshot_loop k)
  | copying (k g : ℕ) (l : Loc) (f : ℕ → Code Copied) (hk : since + 3 ≤ g + k)
    (h : Copying b g (.read l f)) :
    SnapshotAt b since (.read l fun v => (f v).bind (recheck (again k g) g))
  | copied (k g : ℕ) (tmp : Copied) (hk : since + 3 ≤ g + k) (h : Copying b g (.ret tmp)) :
    SnapshotAt b since (recheck (again k g) g tmp)
  | returns (g : ℕ) (tmp : Copied) (hg : g ≤ b.gen) (h : tmp = Copied.of (b.wrote g)) :
    SnapshotAt b since (.ret (g, tmp))

variable {code : Code (ℕ × Copied)}

lemma SnapshotAt.stable {b b' : Block} {since : ℕ} (he : Effect b b')
    (h : SnapshotAt b since code) : SnapshotAt b' since code := by
  have hle := he.gen_le
  cases h with
  | attempt k h => exact .attempt k (by omega)
  | copying k g l f hk h => exact .copying k g l f hk (h.stable he)
  | copied k g tmp hk h => exact .copied k g tmp hk (h.stable he)
  | returns g tmp hg h => exact .returns g tmp (by omega) (by rw [h, he.wrote g hg])

variable {b : Block}

lemma SnapshotAt.of_copying {since k g : ℕ} {q : Code Copied} (hk : since + 3 ≤ g + k)
    (h : Copying b g q) :
    SnapshotAt b since (q.bind (recheck (again k g) g)) := by
  cases q with
  | ret tmp => exact .copied k g tmp hk h
  | read l f => exact .copying k g l f hk h
  | write l v p | cas l old new f => exact h.reads.elim

theorem SnapshotAt.step {since : ℕ} (hholds : Holds b.mem (b.gen % 2) (b.wrote b.gen))
    (hcalm : b.gen ≤ since + 3) (h : SnapshotAt b since code) :
    SnapshotAt b since (code.access b.mem).1 := by
  cases h with
  | attempt k h =>
    rw [snapshot_loop_eq]
    exact .of_copying h ⟨Nat.le_refl _, copy_slot_reads _, fun _ => copy_slot_run hholds⟩
  | copying k g l f hk h => exact .of_copying hk ⟨h.le, h.reads.2 _, h.same⟩
  | copied k g tmp hk h =>
    show SnapshotAt b since (if g ≠ b.gen then again k g tmp else ret (g, tmp))
    split
    · rename_i hmoved
      have hlt : g < b.gen := Nat.lt_of_le_of_ne h.le hmoved
      cases k with
      | zero => omega
      | succ k => exact .attempt k (by omega)
    · rename_i hsame
      have hg : b.gen = g := (not_not.mp hsame).symm
      exact .returns g tmp h.le (h.same hg)
  | returns g tmp hg h => exact .returns g tmp hg h

lemma SnapshotAt.result {since g : ℕ} {tmp : Copied} (h : SnapshotAt b since code)
    (hret : code = .ret (g, tmp)) :
    g ≤ b.gen ∧ tmp = Copied.of (b.wrote g) := by
  cases h with
  | attempt k _ =>
    rw [snapshot_loop_eq] at hret
    simp at hret
  | copying k g' l f _ _ => simp at hret
  | copied k g' tmp' _ _ => simp [recheck] at hret
  | returns g' tmp' hg h =>
    obtain ⟨rfl, rfl⟩ := mk.inj (Prog.ret.inj hret)
    exact ⟨hg, h⟩

/-! ## What a child may assume -/

/-- The child is still in `fpm_tls_reload_child_ctx_new()`, or about to fall back. -/
def Phase.starting : Phase → Bool
  | .has_cert _ | .fallback => true
  | .calling starting | .snapshot starting _ _ | .building starting _ _ => starting
  | .ticking | .idle | .exited => false

structure ChildAt (b : Block) (c : Child) : Prop where
  seen : c.last_seen_generation ≤ b.gen
  ctx : ∀ tmp, c.ctx = some tmp → tmp = Copied.of (b.wrote c.last_seen_generation)
  fresh : c.phase.starting = true → c.ctx = none ∧ c.last_seen_generation = 0
  snapshot : ∀ starting since code, c.phase = .snapshot starting since code →
    SnapshotAt b since code
  building : ∀ starting g tmp, c.phase = .building starting g tmp →
    g ≤ b.gen ∧ tmp = Copied.of (b.wrote g)

variable {c : Child}

lemma ChildAt.stable {b b' : Block} (he : Effect b b') (h : ChildAt b c) :
    ChildAt b' c where
  seen := Nat.le_trans h.seen he.gen_le
  ctx := fun tmp htmp => by
    rw [he.wrote _ h.seen]
    exact h.ctx tmp htmp
  fresh := h.fresh
  snapshot := fun starting since code hphase => (h.snapshot starting since code hphase).stable he
  building := fun starting g tmp hphase => by
    obtain ⟨hg, htmp⟩ := h.building starting g tmp hphase
    exact ⟨Nat.le_trans hg he.gen_le, by rw [he.wrote g hg, htmp]⟩

lemma ChildAt.move (h : ChildAt b c) {phase : Phase}
    (hfresh : phase.starting = true → c.phase.starting = true)
    (hsnapshot : ∀ starting since code, phase ≠ .snapshot starting since code)
    (hbuilding : ∀ starting g tmp, phase ≠ .building starting g tmp) :
    ChildAt b { c with phase := phase } where
  seen := h.seen
  ctx := h.ctx
  fresh := fun hs => h.fresh (hfresh hs)
  snapshot := fun _ _ _ hp => absurd hp (hsnapshot _ _ _)
  building := fun _ _ _ hp => absurd hp (hbuilding _ _ _)

lemma ChildAt.without (cfg : Config) (h : ChildAt b c) : ChildAt b (c.without cfg) := by
  refine h.move ?_ ?_ ?_ <;> split <;> simp [Phase.starting]

def Child.Calm (b : Block) (c : Child) : Prop :=
  ∀ starting since code, c.phase = .snapshot starting since code → b.gen ≤ since + 3

theorem ChildAt.step (cfg : Config) (ok : Bool) (hholds : Holds b.mem (b.gen % 2) (b.wrote b.gen))
    (hinitial : ∀ tls, cfg.initial = some tls → b.wrote 0 = tls) (hcalm : c.Calm b)
    (h : ChildAt b c) : ChildAt b (c.step cfg b.mem ok) := by
  unfold Child.step
  split
  · rename_i found hphase
    refine h.move ?_ ?_ ?_
    · exact fun _ => by rw [hphase]; rfl
    · split <;> simp
    · split <;> simp
  · rename_i code _ hphase
    exact h.move (fun _ => by rw [hphase]; rfl) (by simp) (by simp)
  · refine h.move ?_ ?_ ?_ <;> split <;> simp [Phase.starting]
  · -- a snapshot begins with all its tries
    rename_i starting hphase
    refine ⟨h.seen, h.ctx, fun hs => h.fresh (by rw [hphase]; exact hs), ?_, by simp⟩
    intro _ _ _ hp
    obtain ⟨rfl, rfl, rfl⟩ := Phase.snapshot.inj hp
    exact .attempt 3 (Nat.le_refl _)
  · rename_i starting since gen tmp hphase
    have hat := h.snapshot _ _ _ hphase
    split
    · exact h.move (by simp [Phase.starting]) (by simp) (by simp)
    · refine ⟨h.seen, h.ctx, fun hs => h.fresh (by rw [hphase]; exact hs), by simp, ?_⟩
      intro _ _ _ hp
      obtain ⟨rfl, rfl, rfl⟩ := Phase.building.inj hp
      exact hat.result rfl
  · rename_i starting since code _ hphase
    refine ⟨h.seen, h.ctx, fun hs => h.fresh (by rw [hphase]; exact hs), ?_, by simp⟩
    intro _ _ _ hp
    obtain ⟨rfl, rfl, rfl⟩ := Phase.snapshot.inj hp
    exact (h.snapshot _ _ _ hphase).step hholds (hcalm _ _ _ hphase)
  · -- a context built from the copy is adopted with the copy's generation
    rename_i starting gen tmp hphase
    obtain ⟨hgen, htmp⟩ := h.building _ _ _ hphase
    split
    · refine ⟨hgen, ?_, by simp [Phase.starting], by simp, by simp⟩
      intro adopted hadopted
      rw [← some.inj hadopted]
      exact htmp
    · refine h.move ?_ ?_ ?_
      · split
        · rename_i hstarting
          exact fun _ => by rw [hphase]; exact hstarting
        · simp [Phase.starting]
      · split <;> simp
      · split <;> simp
  · -- the child starts with what the master loaded, if it loaded anything
    rename_i hphase
    obtain ⟨_, hzero⟩ := h.fresh (by rw [hphase]; rfl)
    split
    · exact h.without cfg
    · rename_i tls htls
      split
      · refine ⟨h.seen, ?_, by simp [Phase.starting], by simp, by simp⟩
        intro adopted hadopted
        rw [← some.inj hadopted]
        rw [hzero, hinitial tls htls]
      · exact h.without cfg
  · exact h
  · exact h

/-! ## The master -/

inductive MasterAt (b : Block) (m : Material) : Code Unit → Prop
  | start : MasterAt b m (publish m)
  | look : MasterAt b m (.read (.slot (b.gen % 2) .cert_len) fun _ =>
      (write_slot ((b.gen + 1) % 2) m).bind (bump b.gen))
  | writing (q : Code Unit) (hw : q.Writes (InSlot ((b.gen + 1) % 2)))
    (h : Holds (Prog.run q b.mem).2 ((b.gen + 1) % 2) m) : MasterAt b m (q.bind (bump b.gen))

lemma Block.after_same (m : Material) (h : mem .generation = b.gen) :
    b.after m mem = ⟨mem, b.wrote⟩ := by
  rw [Block.after, if_pos h]

structure BlockAt (cfg : Config) (b : Block) : Prop where
  holds : Holds b.mem (b.gen % 2) (b.wrote b.gen)
  initial : ∀ tls, cfg.initial = some tls → b.wrote 0 = tls

lemma MasterAt.rest_of {rest : Code Unit} (h : MasterAt b m rest) (m' : Material)
    (rest' : Code Unit) (heq : rest_of m rest = some (m', rest')) :
    MasterAt b m' rest' := by
  cases rest with
  | ret u => simp [TlsSnapshot.rest_of] at heq
  | read l f | write l v p | cas l old new f =>
    obtain ⟨rfl, rfl⟩ := mk.inj (some.inj heq)
    exact h

/-- The master came from `b` to `b'`, and has `rest` to do. -/
structure Advances (cfg : Config) (b : Block) (m : Material) (rest : Code Unit) (b' : Block) :
    Prop where
  effect : Effect b b'
  block : BlockAt cfg b'
  master : ∀ m' rest', rest_of m rest = some (m', rest') → MasterAt b' m' rest'

theorem MasterAt.step {cfg : Config} {code : Code Unit} (hb : BlockAt cfg b) (h : MasterAt b m code)
    :
    Advances cfg b m (code.access b.mem).1 (b.after m (code.access b.mem).2) := by
  -- an access that only reads
  have hread : ∀ rest : Code Unit, MasterAt b m rest →
      Advances cfg b m rest (b.after m b.mem) := by
    intro rest hrest
    rw [Block.after_same m rfl]
    exact ⟨⟨Nat.le_refl _, fun _ _ => rfl, fun _ _ => rfl⟩, hb, hrest.rest_of⟩
  cases h with
  | start => exact hread _ .look
  | look => exact hread _ (.writing _ (write_slot_writes _ _) (write_slot_holds _ _ _))
  | writing q hw h =>
    cases q with
    | ret u =>
      -- the bump: the slot that was written is now in effect
      set mem := update b.mem .generation (b.gen + 1) with hmem
      have hcas : ((ret u : Code Unit).bind (bump b.gen)).access b.mem = (ret (), mem) :=
        if_pos rfl
      have hgen : mem .generation = b.gen + 1 := update_self ..
      have hslot : ∀ t f, mem (.slot t f) = b.mem (.slot t f) :=
        fun _ _ => update_of_ne (by simp) ..
      have hafter : b.after m mem = ⟨mem, update b.wrote (b.gen + 1) m⟩ := by
        rw [Block.after, if_neg (by omega), hgen]
      have hgen' : (Block.mk mem (update b.wrote (b.gen + 1) m)).gen = b.gen + 1 := hgen
      rw [hcas, hafter]
      refine ⟨⟨by omega, by omega, fun g hg => update_of_ne (by omega) ..⟩, ⟨?_, ?_⟩, ?_⟩
      · rw [hgen']
        show Holds mem _ (update b.wrote (b.gen + 1) m (b.gen + 1))
        rw [update_self]
        exact h.congr (hslot _)
      · intro tls htls
        show update b.wrote (b.gen + 1) m 0 = tls
        rw [update_of_ne (by omega)]
        exact hb.initial tls htls
      · exact by simp [TlsSnapshot.rest_of]
    | read l f => exact hread _ (.writing _ (hw _) h)
    | write l v p =>
      -- a write into the slot that is not in effect
      obtain ⟨⟨f, rfl⟩, hp⟩ := hw
      set mem := update b.mem (.slot ((b.gen + 1) % 2) f) v with hmem
      have haccess : ((write (.slot ((b.gen + 1) % 2) f) v p).bind (bump b.gen)).access b.mem
          = (p.bind (bump b.gen), mem) := rfl
      have hgen : mem .generation = b.gen := update_of_ne (by simp) ..
      have hslot : ∀ f', mem (.slot (b.gen % 2) f') = b.mem (.slot (b.gen % 2) f') := by
        intro f'
        refine update_of_ne (fun heq => ?_) ..
        have := (Loc.slot.inj heq).1
        omega
      have hgen' : (Block.mk mem b.wrote).gen = b.gen := hgen
      rw [haccess, Block.after_same m hgen]
      refine ⟨⟨Nat.le_of_eq hgen'.symm, fun _ => hslot, fun _ _ => rfl⟩, ⟨?_, hb.initial⟩, ?_⟩
      · rw [hgen']
        exact hb.holds.congr hslot
      · refine MasterAt.rest_of ?_
        rw [← hgen']
        exact .writing p (hgen'.symm ▸ hp) (hgen'.symm ▸ h)
    | cas l old new f => exact hw.elim

/-! ## Runs -/

structure Inv (cfg : Config) (s : State ι) : Prop where
  block : BlockAt cfg s.block
  master : ∀ m code, s.master = some (m, code) → MasterAt s.block m code
  child : ∀ i c, s.child i = some c → ChildAt s.block c

/-- No snapshot that is under way has seen more than three publications. -/
def State.Calm (s : State ι) : Prop := ∀ i c, s.child i = some c → c.Calm s.block

variable {s : State ι}

lemma Inv.set_child [DecidableEq ι] {cfg : Config} (h : Inv cfg s) (i : ι) {c : Option Child}
    (hc : ∀ c', c = some c' → ChildAt s.block c') :
    Inv cfg (s.set_child i c) where
  block := h.block
  master := h.master
  child := by
    intro j c' hj
    rcases eq_or_ne j i with rfl | hji
    · exact hc c' (by rwa [show (s.set_child j c).child j = c from update_self ..] at hj)
    · exact h.child j c' (by
        rwa [show (s.set_child i c).child j = s.child j from update_of_ne hji ..] at hj)

lemma ChildAt.born (b : Block) : ChildAt b .born where
  seen := Nat.zero_le _
  ctx := by simp [Child.born]
  fresh := fun _ => ⟨rfl, rfl⟩
  snapshot := by simp [Child.born]
  building := by simp [Child.born]

lemma init_inv (ι : Type) (cfg : Config) : Inv cfg (init ι cfg) where
  block := by
    have hgen : (fpm_tls_reload_master_init cfg).gen = 0 := by
      unfold fpm_tls_reload_master_init Block.gen
      cases cfg.initial with
      | none => rfl
      | some tls => exact (write_slot_writes 0 tls).run_other _ (by rintro ⟨f, hf⟩; simp at hf)
    refine ⟨?_, fun tls htls => by simp [init, fpm_tls_reload_master_init, htls]⟩
    show Holds (fpm_tls_reload_master_init cfg).mem ((fpm_tls_reload_master_init cfg).gen % 2) _
    rw [hgen]
    cases hinit : cfg.initial with
    | some tls => simpa [init, fpm_tls_reload_master_init, hinit] using write_slot_holds 0 tls _
    | none =>
      -- a block of zeroes holds the empty texts
      simp only [init, fpm_tls_reload_master_init, hinit, getD_none]
      refine ⟨rfl, rfl, rfl, ?_, ?_, ?_⟩
      · exact by simp [Material.zero]
      · exact by simp [Material.zero]
      · exact fun i v hv => (eq_of_mem_replicate (mem_of_getElem? hv)).symm
  master := by simp [init]
  child := by simp [init]

lemma step_inv [DecidableEq ι] (cfg : Config) (e : Event ι) (hcalm : s.Calm) (h : Inv cfg s) :
    Inv cfg (step cfg s e) := by
  cases e with
  | publish fresh =>
    rw [step]
    split
    · refine ⟨h.block, fun m code heq => ?_, h.child⟩
      obtain ⟨rfl, rfl⟩ := mk.inj (some.inj heq)
      exact .start
    · exact h
  | master =>
    rw [step]
    split
    · exact h
    · rename_i fresh code hmaster
      have hadv := (h.master fresh code hmaster).step h.block
      -- an access of the master leaves alone what a child has taken from an older slot
      exact ⟨hadv.block, hadv.master, fun i c hc => (h.child i c hc).stable hadv.effect⟩
  | fork i =>
    rw [step]
    split
    · exact h.set_child i fun c' hc' => some.inj hc' ▸ .born _
    · exact h
  | child i ok =>
    refine h.set_child i fun c' hc' => ?_
    obtain ⟨c, hc, rfl⟩ := map_eq_some_iff.mp hc'
    exact (h.child i c hc).step cfg ok h.block.holds h.block.initial (hcalm i c hc)
  | tick i =>
    rw [step]
    split
    · rename_i ctx last hi
      refine h.set_child i fun c' hc' => ?_
      rw [← some.inj hc']
      have hticking : ChildAt s.block { (⟨.idle, ctx, last⟩ : Child) with phase := .ticking } :=
        (h.child i _ hi).move (by simp [Phase.starting]) (by simp) (by simp)
      exact hticking
    · exact h
  | die i => exact h.set_child i fun _ hc' => absurd hc' (by simp)

/-- A context that is being built, and a context in use, are those of a generation. -/
structure State.Consistent (s : State ι) : Prop where
  building : ∀ i c starting g tmp, s.child i = some c → c.phase = .building starting g tmp →
    g ≤ s.block.gen ∧ tmp = Copied.of (s.block.wrote g)
  in_use : ∀ i c tmp, s.child i = some c → c.ctx = some tmp →
    tmp = Copied.of (s.block.wrote c.last_seen_generation)

/-- **Snapshots are consistent.** In every run in which no snapshot meets more than
three publications, a child that builds a context has copied exactly what the master
wrote for the generation it takes the copy for, and `last_seen_generation` names the
generation of the context in use. -/
theorem snapshots_consistent [DecidableEq ι] (cfg : Config) (events : List (Event ι))
    (hcalm : Along (step cfg) (fun s _ => s.Calm) (init ι cfg) events) :
    (run cfg events).Consistent := by
  have hinv : Inv cfg (run cfg events) :=
    run_invariant_along (fun s e hc h => step_inv cfg e hc h) _ events hcalm (init_inv ι cfg)
  refine ⟨?_, ?_⟩
  · intro i c starting g tmp hc hphase
    exact (hinv.child i c hc).building starting g tmp hphase
  · intro i c tmp hc hctx
    exact (hinv.child i c hc).ctx tmp hctx

lemma calm_of_gen (h : s.block.gen ≤ 3) : s.Calm :=
  fun _ _ _ _ _ _ _ => Nat.le_trans h (Nat.le_add_left ..)

def short (n : ℕ) : Material :=
  ⟨[n, n + 1], [n + 2], 771, replicate TICKET_KEY n, by show 2 ≤ 65536; omega,
    by show 1 ≤ 16384; omega, length_replicate ..⟩

/-- A child starts, the master publishes a second pair, and the child adopts it. -/
def adoption : List (Event ℕ) :=
  .fork 0 :: replicate 96 (.child 0 true) ++ .publish (short 5) :: replicate 89 .master
    ++ .tick 0 :: replicate 94 (.child 0 true)

theorem snapshots_consistent_adoption : (run ⟨some (short 1), false⟩ adoption).Consistent ∧
    ((run ⟨some (short 1), false⟩ adoption).child 0).map
      (fun c => (c.ctx, c.last_seen_generation)) = some (some (.of (short 5)), 1) := by
  have hcalm : Along (step ⟨some (short 1), false⟩) (fun s _ => s.block.gen ≤ 3)
      (init ℕ ⟨some (short 1), false⟩) adoption := by decide +kernel
  exact ⟨snapshots_consistent _ _ (hcalm.imp fun _ _ => calm_of_gen), by decide +kernel⟩

end FpmNg.TlsSnapshot
