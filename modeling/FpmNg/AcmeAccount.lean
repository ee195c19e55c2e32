/-
The ACME account of a state directory: `loadOrCreateKey()` and
`loadOrRegisterAccount()` of `state.php`, as the constructor and `ensureAccount()` of
`client.php` call them.

`account.key` and `account.json` belong to the directory, the renewal lock of `lock.php`
to one domain below it. Clients for different domains each hold a lock of their own, so
nothing orders their steps here: each looks for the key, makes one if there is none,
looks for the account record, registers if there is none, and writes the record. A
write is a rename and therefore one step; a client may throw or be killed anywhere.

A key is known by the client that made it and by how many it had made. The CA answers a
registration with the URL of the key's account; different keys have different accounts.
-/
import FpmNg.Lib.Interleave
import FpmNg.Lib.Runs

open Interleave Function Option Runs

namespace FpmNg.AcmeAccount

open World

/-! ## The directory and the clients -/

abbrev Key (ι : Type) := ι × ℕ

structure CA (ι υ : Type) where
  account : Key ι → υ
  injective : ∀ k k', account k = account k' → k = k'

/-- The two files, and which accounts the CA has registered. `made` counts the keys
each client has made, `installed` are those that were ever in `account.key`. -/
structure Dir (ι υ : Type) where
  key : Option (Key ι)
  json : Option υ
  registered : Key ι → Bool
  made : ι → ℕ
  installed : Key ι → Bool

inductive Phase (ι υ : Type) where
  /-- In front of `is_file()` in `loadOrCreateKey()`. -/
  | looking_for_key
  | reading_key
  | making_key
  | installing_key (k : Key ι)
  /-- In front of `is_file()` in `loadOrRegisterAccount()`. -/
  | looking_for_account (k : Key ι)
  | reading_account (k : Key ι)
  | registering (k : Key ι)
  | recording (k : Key ι) (url : υ)
  /-- Behind `ensureAccount()`: every request is signed with `k` for `url`. -/
  | ready (k : Key ι) (url : υ)
  deriving DecidableEq

variable {ι υ : Type} [DecidableEq ι]

abbrev Clients (ι υ : Type) := World (Dir ι υ) ι (Phase ι υ)

/-- The next step of a client that does not throw in it; `none` is a client that did. -/
def advance (ca : CA ι υ) (i : ι) (d : Dir ι υ) : Phase ι υ → Dir ι υ × Option (Phase ι υ)
  | .looking_for_key => (d, some (if d.key.isSome then .reading_key else .making_key))
  | .reading_key =>
    match d.key with
    | none => (d, none)
    | some k => (d, some (.looking_for_account k))
  | .making_key =>
    ({ d with made := update d.made i (d.made i + 1) }, some (.installing_key (i, d.made i)))
  | .installing_key k =>
    ({ d with key := some k, installed := update d.installed k true },
      some (.looking_for_account k))
  | .looking_for_account k => (d, some (if d.json.isSome then .reading_account k else .registering k))
  | .reading_account k =>
    match d.json with
    | none => (d, none)
    | some url => (d, some (.ready k url))
  | .registering k =>
    ({ d with registered := update d.registered k true }, some (.recording k (ca.account k)))
  | .recording k url => ({ d with json := some url }, some (.ready k url))
  | .ready k url => (d, some (.ready k url))

inductive Event (ι : Type) where
  | start (i : ι)
  | step (i : ι)
  /-- The client throws, ends or is killed. -/
  | leave (i : ι)
  deriving DecidableEq

def init (ι υ : Type) : Clients ι υ where
  shared := ⟨none, none, fun _ => false, fun _ => 0, fun _ => false⟩
  procs := fun _ => none

def step (ca : CA ι υ) (w : Clients ι υ) : Event ι → Clients ι υ
  | .start i =>
    match w.procs i with
    | none => w.put i w.shared (some .looking_for_key)
    | some _ => w
  | .step i =>
    match w.procs i with
    | none => w
    | some p => w.put i (advance ca i w.shared p).1 (advance ca i w.shared p).2
  | .leave i => w.put i w.shared none

def run (ca : CA ι υ) (events : List (Event ι)) : Clients ι υ :=
  Runs.run (step ca) (init ι υ) events

/-! ## What is wanted -/

/-- The CA accepts a request that is signed with `k` for the account `url`. -/
def Accepted (ca : CA ι υ) (d : Dir ι υ) (k : Key ι) (url : υ) : Prop :=
  d.registered k = true ∧ url = ca.account k

def Dir.Matches (ca : CA ι υ) (d : Dir ι υ) : Prop :=
  ∀ k url, d.key = some k → d.json = some url → Accepted ca d k url

def Phase.will_record : Phase ι υ → Bool
  | .looking_for_account _ | .registering _ | .recording _ _ => true
  | _ => false

/-- A client that has made a key installs it only while there is no record yet, and
nobody else is on the way to write one for the key that was there. -/
def Undisturbed (w : Clients ι υ) (e : Event ι) : Prop :=
  ∀ i k, e = .step i → w.procs i = some (.installing_key k) →
    w.shared.json = none ∧ ∀ j p, j ≠ i → w.procs j = some p → p.will_record = false

/-! ## The invariant -/

/-- Of the directory: a record is that of the installed key, and a registered key was
installed. -/
structure Global (ca : CA ι υ) (d : Dir ι υ) : Prop where
  json : ∀ url, d.json = some url → ∃ k, d.key = some k ∧ Accepted ca d k url
  key : ∀ k, d.key = some k → d.installed k = true
  registered : ∀ k, d.registered k = true → d.installed k = true
  made : ∀ k, d.installed k = true → k.2 < d.made k.1

def Local (ca : CA ι υ) (d : Dir ι υ) (i : ι) : Phase ι υ → Prop
  | .looking_for_key | .making_key => True
  | .reading_key => d.key ≠ none
  | .installing_key k => k.1 = i ∧ d.installed k = false ∧ k.2 < d.made i
  | .looking_for_account k | .registering k => d.key = some k
  | .reading_account k => d.key = some k ∧ d.json ≠ none
  | .recording k url => d.key = some k ∧ Accepted ca d k url
  | .ready k url => Accepted ca d k url

variable {ca : CA ι υ} {p : Phase ι υ}

omit [DecidableEq ι] in
lemma Accepted.mono {d d' : Dir ι υ} {k : Key ι} {url : υ}
    (hreg : ∀ k, d.registered k = true → d'.registered k = true) (h : Accepted ca d k url) :
    Accepted ca d' k url := ⟨hreg k h.1, h.2⟩

omit [DecidableEq ι] in
lemma Local.stable {d d' : Dir ι υ} {i : ι}
    (hkey : d'.key = d.key) (hreg : ∀ k, d.registered k = true → d'.registered k = true)
    (hjson : d.json ≠ none → d'.json ≠ none) (hinst : d'.installed = d.installed)
    (hmade : d'.made i = d.made i) (h : Local ca d i p) : Local ca d' i p := by
  cases p with
  | looking_for_key => trivial
  | making_key => trivial
  | reading_key => exact fun hn => h (hkey ▸ hn)
  | installing_key k => exact ⟨h.1, hinst ▸ h.2.1, hmade ▸ h.2.2⟩
  | looking_for_account k | registering k => exact hkey.trans h
  | reading_account k => exact ⟨hkey.trans h.1, hjson h.2⟩
  | recording k url => exact ⟨hkey.trans h.1, h.2.mono hreg⟩
  | ready k url => exact h.mono hreg

variable {w : Clients ι υ}

lemma Holds.same {i : ι} {p : Option (Phase ι υ)}
    (h : Holds (Global ca) (Local ca) w) (hown : ∀ q, p = some q → Local ca w.shared i q) :
    Holds (Global ca) (Local ca) (w.put i w.shared p) :=
  h.put h.shared hown fun _ _ _ _ hq => hq

omit [DecidableEq ι] in
lemma init_holds (ca : CA ι υ) : Holds (Global ca) (Local ca) (init ι υ) where
  shared := ⟨by simp [init], by simp [init],
    by simp [init], by simp [init]⟩
  here := by simp [init]

lemma update_true_iff {f : Key ι → Bool} {k k' : Key ι} :
    update f k true k' = true ↔ k' = k ∨ f k' = true := by
  rcases eq_or_ne k' k with rfl | hne
  · rw [update_self]
    exact ⟨fun _ => .inl rfl, fun _ => rfl⟩
  · rw [update_of_ne hne, or_iff_right hne]

lemma install_holds {i : ι} {k : Key ι} (h : Holds (Global ca) (Local ca) w)
    (hp : w.procs i = some (.installing_key k)) (hjson : w.shared.json = none)
    (hothers : ∀ j p, j ≠ i → w.procs j = some p → p.will_record = false) :
    Holds (Global ca) (Local ca) (w.put i
      { w.shared with key := some k, installed := update w.shared.installed k true }
      (some (.looking_for_account k))) := by
  obtain ⟨howner, hnew, hmade⟩ := h.here i _ hp
  refine h.put ⟨?_, ?_, ?_, ?_⟩ ?_ ?_
  · intro url hurl
    exact nomatch hjson.symm.trans hurl
  · rintro k' hk'
    obtain rfl := some.inj hk'
    exact update_self ..
  · exact fun k' hk' => update_true_iff.mpr (.inr (h.shared.registered k' hk'))
  · intro k' hk'
    rcases update_true_iff.mp hk' with rfl | hk'
    · exact howner ▸ hmade
    · exact h.shared.made k' hk'
  · intro q hq
    cases hq
    exact rfl
  · -- nobody else is between the key and a record
    intro j q hji hq hlocal
    have hidle := hothers j q hji hq
    cases q with
    | looking_for_key | making_key => trivial
    | reading_key => exact fun hn => absurd hn (by simp)
    | installing_key k' =>
      have hne : k' ≠ k := by
        rintro rfl
        exact hji (hlocal.1.symm.trans howner)
      exact ⟨hlocal.1, (update_of_ne hne ..).trans hlocal.2.1, hlocal.2.2⟩
    | reading_account k' => exact absurd hjson hlocal.2
    | ready k' url => exact hlocal
    | _ => simp [Phase.will_record] at hidle

lemma make_holds {i : ι} (h : Holds (Global ca) (Local ca) w) :
    Holds (Global ca) (Local ca) (w.put i
      { w.shared with made := update w.shared.made i (w.shared.made i + 1) }
      (some (.installing_key (i, w.shared.made i)))) := by
  refine h.put ⟨h.shared.json, h.shared.key, h.shared.registered, ?_⟩ ?_ ?_
  · intro k hk
    refine Nat.lt_of_lt_of_le (h.shared.made k hk) ?_
    rcases eq_or_ne k.1 i with hki | hki
    · rw [hki]
      dsimp only
      rw [update_self]
      exact Nat.le_succ _
    · exact Nat.le_of_eq (update_of_ne hki ..).symm
  · rintro q ⟨⟩
    refine ⟨rfl, ?_, ?_⟩
    · by_contra hinst
      exact Nat.lt_irrefl _ (h.shared.made (i, w.shared.made i) (eq_true_of_ne_false hinst))
    · show w.shared.made i < update w.shared.made i (w.shared.made i + 1) i
      rw [update_self]
      exact Nat.lt_succ_self _
  · intro j q hji _ hlocal
    exact Local.stable (d := w.shared) rfl (fun _ hk => hk) id rfl (update_of_ne hji ..) hlocal

lemma register_holds {i : ι} {k : Key ι} (h : Holds (Global ca) (Local ca) w)
    (hkey : w.shared.key = some k) :
    Holds (Global ca) (Local ca) (w.put i
      { w.shared with registered := update w.shared.registered k true }
      (some (.recording k (ca.account k)))) := by
  have hreg : ∀ k', w.shared.registered k' = true → update w.shared.registered k true k' = true :=
    fun k' hk' => update_true_iff.mpr (.inr hk')
  refine h.put ⟨?_, h.shared.key, ?_, h.shared.made⟩ ?_ ?_
  · intro url hurl
    obtain ⟨k', hk', haccepted⟩ := h.shared.json url hurl
    exact ⟨k', hk', haccepted.mono hreg⟩
  · intro k' hk'
    rcases update_true_iff.mp hk' with rfl | hk'
    · exact h.shared.key k' hkey
    · exact h.shared.registered k' hk'
  · rintro q ⟨⟩
    exact ⟨hkey, update_self .., rfl⟩
  · exact fun j q _ _ hlocal => Local.stable (d := w.shared) rfl hreg id rfl rfl hlocal

theorem advance_holds {i : ι} (h : Holds (Global ca) (Local ca) w)
    (hp : w.procs i = some p) (hu : Undisturbed w (.step i)) :
    Holds (Global ca) (Local ca)
      (w.put i (advance ca i w.shared p).1 (advance ca i w.shared p).2) := by
  have hown := h.here i p hp
  cases p with
  | looking_for_key =>
    refine Holds.same h fun q hq => ?_
    cases hq
    split
    · rename_i hsome
      exact isSome_iff_ne_none.mp hsome
    · trivial
  | reading_key =>
    rw [advance]
    split
    · exact Holds.same h fun q hq => absurd hq (by simp)
    · rename_i k hk
      refine Holds.same h fun q hq => ?_
      cases hq
      exact hk
  | making_key => exact make_holds h
  | installing_key k =>
    -- the one step that could part the record from its key
    obtain ⟨hjson, hothers⟩ := hu i k rfl hp
    exact install_holds h hp hjson hothers
  | looking_for_account k =>
    refine Holds.same h fun q hq => ?_
    cases hq
    split
    · rename_i hsome
      exact ⟨hown, isSome_iff_ne_none.mp hsome⟩
    · exact hown
  | reading_account k =>
    rw [advance]
    split
    · exact Holds.same h fun q hq => absurd hq (by simp)
    · rename_i url hurl
      refine Holds.same h fun q hq => ?_
      cases hq
      -- the record is that of the key in the directory, which is this client's
      obtain ⟨k', hk', haccepted⟩ := h.shared.json url hurl
      obtain rfl := some.inj (hown.1.symm.trans hk')
      exact haccepted
  | registering k => exact register_holds h hown
  | recording k url =>
    refine h.put ⟨?_, h.shared.key, h.shared.registered, h.shared.made⟩ ?_ ?_
    · intro url' hurl
      cases hurl
      exact ⟨k, hown⟩
    · intro q hq
      cases hq
      exact hown.2
    · exact fun j q _ _ hlocal => Local.stable (d := w.shared) rfl (fun _ hk => hk)
        (fun _ => some_ne_none url) rfl rfl hlocal
  | ready k url =>
    refine Holds.same h fun q hq => ?_
    cases hq
    exact hown

lemma step_holds {e : Event ι} (h : Holds (Global ca) (Local ca) w)
    (hu : Undisturbed w e) :
    Holds (Global ca) (Local ca) (step ca w e) := by
  cases e with
  | start i =>
    rw [step]
    split
    · refine Holds.same h fun q hq => ?_
      cases hq
      trivial
    · exact h
  | step i =>
    rw [step]
    split
    · exact h
    · rename_i p hp
      exact advance_holds h hp hu
  | leave i => exact Holds.same h fun q hq => absurd hq (by simp)

/-! ## The record and the key -/

/-- Somebody is on the way to write a record, and the installed key has no account. -/
structure Astray (w : Clients ι υ) (j : ι) (k : Key ι) (p : Phase ι υ) : Prop where
  key : w.shared.key = some k
  json : w.shared.json = none
  registered : w.shared.registered k = false
  here : w.procs j = some p

variable {k k' : Key ι} {j : ι}

lemma Astray.recording {url : υ} (h : Astray w j k (.recording k' url)) :
    ¬ (step ca w (.step j)).shared.Matches ca := by
  intro hmatches
  simp only [step, h.here, advance, put_shared] at hmatches
  have := (hmatches k url h.key rfl).1
  exact nomatch h.registered.symm.trans this

lemma Astray.registering (hne : k ≠ k') (h : Astray w j k (.registering k')) :
    Astray (step ca w (.step j)) j k (.recording k' (ca.account k')) := by
  simp only [step, h.here, advance]
  exact ⟨h.key, h.json, (update_of_ne hne ..).trans h.registered,
    put_procs_self ..⟩

lemma Astray.looking (h : Astray w j k (.looking_for_account k')) :
    Astray (step ca w (.step j)) j k (.registering k') := by
  simp only [step, h.here, advance, h.json, isSome_none, Bool.false_eq_true, if_false]
  exact ⟨h.key, h.json, h.registered, put_procs_self ..⟩

lemma Astray.mismatch {k : Key ι} (h : Astray w j k p)
    (hp : p.will_record = true)
    (hne : ∀ k', p = .looking_for_account k' ∨ p = .registering k' → k ≠ k') :
    ∃ more, ¬ (Runs.run (step ca) w more).shared.Matches ca := by
  cases p with
  | looking_for_account k' =>
    exact ⟨[.step j, .step j, .step j],
      (h.looking.registering (hne k' (.inl rfl))).recording⟩
  | registering k' => exact ⟨[.step j, .step j], (h.registering (hne k' (.inr rfl))).recording⟩
  | recording k' url => exact ⟨[.step j], h.recording⟩
  | _ => simp [Phase.will_record] at hp

lemma disturbed_mismatch {e : Event ι} (h : Holds (Global ca) (Local ca) w)
    (hu : ¬ Undisturbed w e) :
    ∃ more, ¬ (Runs.run (step ca) w (e :: more)).shared.Matches ca := by
  unfold Undisturbed at hu
  push Not at hu
  obtain ⟨i, k, rfl, hp, hu⟩ := hu
  obtain ⟨_, hnew, _⟩ := h.here i _ hp
  have hregistered : w.shared.registered k = false := by
    by_contra hreg
    have := h.shared.registered k (by simpa using hreg)
    exact nomatch hnew.symm.trans this
  have hstep : step ca w (.step i) = w.put i { w.shared with
      key := some k
      installed := update w.shared.installed k true } (some (.looking_for_account k)) := by
    simp [step, hp, advance]
  cases hjson : w.shared.json with
  | some url =>
    refine ⟨[], fun hmatches => ?_⟩
    rw [run_cons, run_nil, hstep] at hmatches
    exact absurd (hregistered.symm.trans (hmatches k url rfl hjson).1) (by simp)
  | none =>
    obtain ⟨j, p, hji, hj, hrecord⟩ := hu hjson
    have hastray : Astray (step ca w (.step i)) j k p := by
      rw [hstep]
      exact ⟨rfl, hjson, hregistered, (put_procs_other _ _ _ hji).trans hj⟩
    refine hastray.mismatch (by simpa using hrecord) ?_
    -- the key of the other one was in the directory
    rintro k' (rfl | rfl) rfl <;>
      exact absurd (hnew.symm.trans (h.shared.key k (h.here j _ hj))) (by simp)

/-- **The account record matches the account key** in every run in which no client installs a key
while there is a record, or one on its way; and every ready client is accepted. After the first
step that installs one so, the run can go on to a record that does not match. -/
theorem account_matches_iff_undisturbed (ca : CA ι υ) (events : List (Event ι)) :
    (Along (step ca) Undisturbed (init ι υ) events → (run ca events).shared.Matches ca ∧
      ∀ i k url, (run ca events).procs i = some (.ready k url) →
        Accepted ca (run ca events).shared k url) ∧
    ∀ e, Along (step ca) Undisturbed (init ι υ) events → ¬ Undisturbed (run ca events) e →
      ∃ more, ¬ (run ca (events ++ e :: more)).shared.Matches ca := by
  have hrun : Along (step ca) Undisturbed (init ι υ) events →
      Holds (Global ca) (Local ca) (run ca events) := fun hclean =>
    run_invariant_along (I := Holds (Global ca) (Local ca))
      (fun w e hu hw => step_holds hw hu) _ events hclean (init_holds ca)
  refine ⟨fun hclean => ⟨?_, ?_⟩, fun e hclean hu => ?_⟩
  · intro k url hk hurl
    obtain ⟨k', hk', haccepted⟩ := (hrun hclean).shared.json url hurl
    obtain rfl := some.inj (hk.symm.trans hk')
    exact haccepted
  · exact fun i k url hi => (hrun hclean).here i _ hi
  · obtain ⟨more, hmore⟩ := disturbed_mismatch (hrun hclean) hu
    refine ⟨more, ?_⟩
    rw [run, Runs.run, List.foldl_append]
    exact hmore

instance {n : ℕ} (w : Clients (Fin n) υ) : ∀ e, Decidable (Undisturbed w e)
  | .start _ | .leave _ => isTrue fun _ _ he => nomatch he
  | .step i =>
    match hp : w.procs i with
    | some (.installing_key k) =>
      decidable_of_iff (w.shared.json.isNone = true ∧
          ∀ j, j ≠ i → (w.procs j).all fun p => !p.will_record) <| by
        constructor
        · rintro ⟨hjson, hothers⟩ j k' he -
          cases he
          refine ⟨isNone_iff_eq_none.mp hjson, fun j p hji hj => ?_⟩
          simpa [hj] using hothers j hji
        · intro h
          obtain ⟨hjson, hothers⟩ := h i k rfl hp
          refine ⟨isNone_iff_eq_none.mpr hjson, fun j hji => ?_⟩
          cases hj : w.procs j with
          | none => rfl
          | some p => simpa using hothers j p hji hj
    | none | some .looking_for_key | some .reading_key | some .making_key
    | some (.looking_for_account _) | some (.reading_account _) | some (.registering _)
    | some (.recording _ _) | some (.ready _ _) => isTrue fun j k he hj => by
      cases he
      exact nomatch hp.symm.trans hj

/-- Two clients side by side. The second comes upon the key of the first before there is a
record; both register it, and both write the record. -/
def side_by_side : List (Event (Fin 2)) :=
  [.start 0, .start 1, .step 0, .step 0, .step 0, .step 1, .step 0, .step 1, .step 0, .step 1,
    .step 0, .step 1, .step 1]

theorem account_matches_iff_undisturbed_two :
    let w : Clients (Fin 2) (Fin 2 × ℕ) := run ⟨id, fun _ _ h => h⟩ side_by_side
    w.procs 0 = some (.ready (0, 0) (0, 0)) ∧ w.procs 1 = some (.ready (0, 0) (0, 0))
      ∧ w.shared.Matches ⟨id, fun _ _ h => h⟩ ∧ ∀ i k url, w.procs i = some (.ready k url) →
        Accepted ⟨id, fun _ _ h => h⟩ w.shared k url :=
  ⟨by decide, by decide,
    (account_matches_iff_undisturbed ⟨id, fun _ _ h => h⟩ side_by_side).1 (by decide)⟩

/-- Two clients find no key; both make one, the second replaces that of the first, and
the first registers and writes its record. -/
theorem account_record_of_replaced_key :
    ¬ (run ⟨id, fun _ _ h => h⟩ [.start 0, .start 1, .step 0, .step 1, .step 0, .step 1, .step 0,
      .step 1, .step 0, .step 0, .step 0] : Clients ℕ (ℕ × ℕ)).shared.Matches
        ⟨id, fun _ _ h => h⟩ := by
  intro h
  have := (h (1, 0) (0, 0) rfl rfl).2
  cases this

end FpmNg.AcmeAccount
