/-
The proof that the ACME challenge table linearizes: one lemma for each step of a
reader and of a writer, and from them what holds after every interleaving.

A reader's step is a read, and what it may assume behind it follows from what it
could assume before (`LookupAt.next`, `TokensAt.next`). A writer's step is one of
four: it takes the lock, writes into its draft, publishes, or gives the lock
back; `observe` says what each does to the block and `Effect` what the others see
of it.

The listing has an end the lookup does not have to excuse: after four attempts
under each of which the generation moved it returns no token at all, although
there were some at any time. The last section runs the machine into it.
-/
import FpmNg.AcmeChallenge

open List Function Option Runs

namespace FpmNg.AcmeChallenge

open SharedProgram SharedProgram.Prog Interleave AcmeTable AcmeSlot World Prog Table

variable {ι : Type}

/-! ## The steps of a reader -/

variable {k : ℕ → Code Result} {r : Result} {code : Code Result} {since out_len : ℕ} {l : Loc}
variable {t : CStr}

section Readers

variable {s : Shared ι}

lemma lookup_go {since out_len k g : ℕ} {q : Code Seen} (hsince : since ≤ g)
    (h : Scanning s g (lookup_scan (g % 2) t out_len) q) :
    LookupAt s since t out_len (q.bind (lookup_after (lookup_attempts t out_len k) g)) := by
  cases q with
  | ret c =>
    cases c with
    | torn => exact .attempt k
    | hit data => exact .seen k g (.hit data) (by simp) hsince h
    | miss => exact .seen k g .miss (by simp) hsince h
  | read l f => exact .scanning k g l f hsince h
  | write l v f | cas l old new f => exact h.reads.elim

theorem confirmed_hit (hG : Global s) {out_len : ℕ} {data : List ℕ}
    (h : Scanning s s.gen (lookup_scan (s.gen % 2) t out_len) (.ret (.hit data))) :
    ((s.states s.gen).find t).map (·.bytes) = some data := by
  have hrun := (h.same rfl).symm
  obtain ⟨e, he, htok, hdata⟩ := lookup_scan_hit hG.encodes t out_len data hrun
  have hfind := ((s.states s.gen).find_eq_some_iff t e.keyauth).mpr ⟨e, he, htok, rfl⟩
  rw [hfind, ← hdata]
  rfl

lemma LookupAt.next (hG : Global s) (hsince : since ≤ s.gen)
    (h : LookupAt s since t out_len (.read l k)) :
    LookupAt s since t out_len (k (s.mem l)) := by
  generalize hcode : read l k = code at h
  -- the place in the program says which access this was
  cases h with
  | attempt n =>
    cases n with
    | zero => simp [lookup_attempts] at hcode
    | succ n =>
      injection hcode with hl hk
      subst hl hk
      exact lookup_go hsince ⟨Nat.le_refl _, lookup_full_reads s.gen t out_len, fun _ => rfl⟩
  | again n =>
    injection hcode with hl hk
    subst hl hk
    exact .attempt n
  | scanning n g l' f hg h =>
    injection hcode with hl hk
    subst hl hk
    exact lookup_go hg ⟨h.le, h.reads.2 _, h.same⟩
  | seen n g c hc hg h =>
    cases c with
    | torn => exact absurd rfl hc
    | hit data =>
      injection hcode with hl hk
      subst hl hk
      dsimp only
      split
      · next hnow =>
        refine .returns _ ?_
        intro data' hdata
        -- the generation has not moved, so the entry is of the state it names
        have hsame : s.gen = g := hnow
        subst hsame
        injection hdata with hdata
        exact ⟨s.gen, hsince, Nat.le_refl _, hdata ▸ confirmed_hit hG h⟩
      · exact .again n
    | miss =>
      injection hcode with hl hk
      subst hl hk
      dsimp only
      split
      · exact .returns _ nofun
      · exact .attempt n
  | returns r h => simp at hcode

lemma LookupAt.reads (h : LookupAt s since t out_len code) :
    (∃ r, code = .ret r) ∨ ∃ l k, code = .read l k := by
  cases h with
  | attempt n =>
    cases n with
    | zero => exact .inl ⟨_, rfl⟩
    | succ n => exact .inr ⟨_, _, rfl⟩
  | again n | scanning n g l f hg h => exact .inr ⟨_, _, rfl⟩
  | seen n g c hc hg h =>
    cases c with
    | torn => exact absurd rfl hc
    | hit data | miss => exact .inr ⟨_, _, rfl⟩
  | returns r h => exact .inl ⟨_, rfl⟩

lemma LookupAt.answer (h : LookupAt s since t out_len (.ret r)) :
    Answer s.states since s.gen 0 r (.lookup t out_len) := by
  generalize hcode : ret r = code at h
  cases h with
  | attempt n =>
    cases n with
    | zero =>
      injection hcode with hr
      intro data hdata
      exact nomatch hr.symm.trans hdata
    | succ n => simp [lookup_attempts] at hcode
  | again n | scanning n g l f hg h => simp at hcode
  | seen n g c hc hg h =>
    cases c with
    | torn => exact absurd rfl hc
    | hit data | miss => simp [lookup_after] at hcode
  | returns r' h =>
    injection hcode with hr
    exact hr ▸ h

/-- What is left of a scan, and what the listing does behind it. A slot in effect
is not torn, so an attempt that found one torn has seen the generation move. -/
lemma tokens_go (hG : Global s) {since max k g : ℕ} {q : Code (Option (List (List ℕ)))}
    (hsince : since ≤ g) (hk : since + 4 ≤ g + (k + 1))
    (h : Scanning s g (tokens_scan (g % 2) max) q) :
    TokensAt s since max (q.bind (tokens_after (tokens_attempts max k) g)) := by
  cases q with
  | ret c =>
    cases c with
    | none =>
      have hmoved : s.gen ≠ g := by
        intro hg
        have hrun := h.same hg
        subst hg
        rw [tokens_scan_run hG.encodes (s.states s.gen).bounded] at hrun
        simp at hrun
      have hle := h.le
      exact .attempt k (by omega)
    | some l => exact .seen k g l hsince hk h
  | read l f => exact .scanning k g l f hsince hk h
  | write l v f => exact h.reads.elim
  | cas l old new f => exact h.reads.elim

lemma TokensAt.next (hG : Global s) {since max : ℕ} (hsince : since ≤ s.gen)
    (h : TokensAt s since max (.read l k)) :
    TokensAt s since max (k (s.mem l)) := by
  generalize hcode : read l k = code at h
  cases h with
  | attempt n hn =>
    cases n with
    | zero => simp [tokens_attempts] at hcode
    | succ n =>
      injection hcode with hl hk
      subst hl hk
      exact tokens_go hG hsince hn ⟨Nat.le_refl _, tokens_full_reads s.gen max, fun _ => rfl⟩
  | scanning n g l' f hg hn h =>
    injection hcode with hl hk
    subst hl hk
    exact tokens_go hG hg hn ⟨h.le, h.reads.2 _, h.same⟩
  | seen n g tokens hg hn h =>
    injection hcode with hl hk
    subst hl hk
    dsimp only
    split
    · next hnow =>
      have hsame : s.gen = g := hnow
      subst hsame
      have hrun := h.same rfl
      rw [tokens_scan_run hG.encodes (s.states s.gen).bounded] at hrun
      exact .returns _ ⟨tokens, rfl, .inl ⟨s.gen, hg, Nat.le_refl _, some.inj hrun⟩⟩
    · next hnow =>
      have hne : s.gen ≠ g := hnow
      have hle := h.le
      exact .attempt n (by omega)
  | returns r h => simp at hcode

lemma TokensAt.reads {since max : ℕ} (h : TokensAt s since max code) :
    (∃ r, code = .ret r) ∨ ∃ l k, code = .read l k := by
  cases h with
  | attempt n hn =>
    cases n with
    | zero => exact .inl ⟨_, rfl⟩
    | succ n => exact .inr ⟨_, _, rfl⟩
  | scanning n g l f hg hn h | seen n g l hg hn h => exact .inr ⟨_, _, rfl⟩
  | returns r h => exact .inl ⟨_, rfl⟩

lemma TokensAt.answer {since max : ℕ} (h : TokensAt s since max (.ret r)) :
    Answer s.states since s.gen 0 r (.tokens max) := by
  generalize hcode : ret r = code at h
  cases h with
  | attempt n hn =>
    cases n with
    | zero =>
      injection hcode with hr
      exact ⟨[], hr, .inr ⟨rfl, hn⟩⟩
    | succ n => simp [tokens_attempts] at hcode
  | scanning n g l f hg hn h => simp at hcode
  | seen n g l hg hn h => simp [tokens_after] at hcode
  | returns r' h =>
    injection hcode with hr
    exact hr ▸ h

end Readers

/-! ## The steps of a writer -/

lemma set_sound {token keyauth : CStr} (h : fits token keyauth = true) :
    Sound (.set token keyauth) (fun d => set_draft d token keyauth) where
  writes := fun d => set_draft_writes d token keyauth
  result := by
    intro m d T henc htrue
    obtain ⟨hval, hdraft⟩ := set_draft_run henc T.bounded
      ⟨token, keyauth, (of_decide_eq_true h).1, (of_decide_eq_true h).2⟩
    have hroom : ¬ (position T.entries token = T.entries.length
        ∧ T.entries.length = CHALLENGE_MAX) := by
      rintro ⟨h1, h2⟩
      rw [htrue, decide_eq_true h1, decide_eq_true h2] at hval
      simp at hval
    obtain ⟨T', hins, hentries⟩ := insert_room
      (e := ⟨token, keyauth, (of_decide_eq_true h).1, (of_decide_eq_true h).2⟩) hroom
    refine ⟨T', ?_, ?_⟩
    · simp only [Op.apply]
      rw [dif_pos h, hins]
    · rw [hentries]
      exact hdraft htrue

lemma clear_sound (token : CStr) : Sound (.clear token) (fun d => clear_draft d token) where
  writes := fun d => clear_draft_writes d token
  result := by
    intro m d T henc _
    exact ⟨T.remove token, rfl, (clear_draft_run henc T.bounded token).2⟩

variable {job : Job} {edit : ℕ → Code Bool}

section Writers

variable {i : ι} {s : Shared ι} {op : Op}

lemma update_apart (m : Loc → ℕ) (v d : ℕ) (f : Field) :
    update m (.slot d f) v .generation = m .generation
      ∧ update m (.slot d f) v .writer_lock = m .writer_lock
      ∧ update m .writer_lock v .generation = m .generation
      ∧ update m .writer_lock v (.slot d f) = m (.slot d f)
      ∧ update m .generation v .writer_lock = m .writer_lock
      ∧ update m .generation v (.slot d f) = m (.slot d f) := by
  refine ⟨?_, ?_, ?_, ?_, ?_, ?_⟩ <;> exact update_of_ne (by simp) ..

def Shared.draft (s : Shared ι) (f : Field) (v : ℕ) : Shared ι :=
  { s with mem := update s.mem (.slot ((s.gen + 1) % 2) f) v }

def Shared.relock (s : Shared ι) (v : ℕ) (h : Option ι) : Shared ι :=
  { s with mem := update s.mem .writer_lock v, holder := h }

def Shared.publish (s : Shared ι) (op : Op) (T : Table) : Shared ι :=
  { s with mem := update s.mem .generation (s.gen + 1)
           states := update s.states (s.gen + 1) T
           log := .published s.gen op :: s.log }

lemma gen_draft (s : Shared ι) (f : Field) (v : ℕ) : (s.draft f v).gen = s.gen :=
  (update_apart s.mem v ((s.gen + 1) % 2) f).1

lemma gen_relock (s : Shared ι) (v : ℕ) (h : Option ι) : (s.relock v h).gen = s.gen :=
  (update_apart s.mem v 0 .count).2.2.1

lemma gen_publish (s : Shared ι) (op : Op) (T : Table) : (s.publish op T).gen = s.gen + 1 :=
  show update s.mem .generation (s.gen + 1) .generation = s.gen + 1 from
    update_self ..

lemma observe_same : observe s i op s.mem = s := by
  unfold observe
  rw [if_pos (by rfl), if_pos rfl, if_pos (by rfl)]

lemma observe_draft (d v : ℕ) (f : Field) :
    observe s i op (update s.mem (.slot d f) v)
      = { s with mem := update s.mem (.slot d f) v } := by
  obtain ⟨hgen, hlock, _⟩ := update_apart s.mem v d f
  unfold observe Shared.gen
  rw [if_pos hgen, if_pos hlock, if_pos hgen]

lemma observe_lock (v : ℕ) (hv : v ≠ s.mem .writer_lock) :
    observe s i op (update s.mem .writer_lock v)
      = s.relock v (if v = 0 then none else some i) := by
  obtain ⟨_, _, hgen, _⟩ := update_apart s.mem v 0 .count
  unfold observe Shared.gen
  rw [if_pos hgen, update_self, if_neg hv, if_pos hgen]
  rfl

lemma observe_publish :
    observe s i op (update s.mem .generation (s.gen + 1))
      = s.publish op ((op.apply (s.states s.gen)).getD (s.states s.gen)) := by
  obtain ⟨_, _, _, _, hlock, _⟩ := update_apart s.mem (s.gen + 1) 0 .count
  unfold observe
  rw [update_self, if_neg (Nat.succ_ne_self _), if_pos hlock, if_neg (Nat.succ_ne_self _)]
  rfl

lemma Effect.refl (i : ι) (s : Shared ι) : Effect i s s :=
  ⟨Nat.le_refl _, fun _ _ => rfl, fun _ _ => rfl, fun _ _ _ => ⟨rfl, rfl, rfl⟩⟩

lemma not_held {P : Prop} (hi : s.holder = some i) (j : ι) (hj : s.holder = some j)
    (hne : j ≠ i) : P :=
  absurd (some.inj (hj.symm.trans hi)) hne

lemma draft_apart (s : Shared ι) (v : ℕ) (f f' : Field) :
    update s.mem (.slot ((s.gen + 1) % 2) f) v (.slot (s.gen % 2) f')
      = s.mem (.slot (s.gen % 2) f') := by
  refine update_of_ne ?_ ..
  intro heq
  injection heq with hs _
  omega

lemma Effect.draft (hi : s.holder = some i) (v : ℕ) (f : Field) :
    Effect i s (s.draft f v) where
  gen_le := Nat.le_of_eq (gen_draft s f v).symm
  slot := fun _ f' => draft_apart s v f f'
  states := fun _ _ => rfl
  held := not_held hi

lemma Effect.relock (hi : s.holder = none ∨ s.holder = some i) (v : ℕ) (h : Option ι) :
    Effect i s (s.relock v h) where
  gen_le := Nat.le_of_eq (gen_relock s v h).symm
  slot := fun _ f' => (update_apart s.mem v (s.gen % 2) f').2.2.2.1
  states := fun _ _ => rfl
  held := by
    intro j hj hne
    rcases hi with hfree | hi
    · exact nomatch hfree.symm.trans hj
    · exact not_held hi j hj hne

lemma Effect.publish (hi : s.holder = some i) (op : Op) (T : Table) :
    Effect i s (s.publish op T) where
  gen_le := by
    exact Nat.le_succ _
  slot := by
    intro heq
    rw [gen_publish] at heq
    exact absurd heq (Nat.succ_ne_self _)
  states := fun g hg => update_of_ne (by omega) ..
  held := not_held hi

lemma Global.draft (hG : Global s) (v : ℕ) (f : Field) : Global (s.draft f v) := by
  have hgen := gen_draft s f v
  have hslot : content (s.draft f v).mem (s.gen % 2) = content s.mem (s.gen % 2) :=
    funext (draft_apart s v f)
  refine ⟨?_, (update_apart s.mem v ((s.gen + 1) % 2) f).2.1.trans hG.lock, ?_, hG.first, ?_⟩
  · rw [hgen, hslot]
    exact hG.encodes
  · rw [hgen]
    exact hG.log
  · rw [hgen]
    exact hG.history

lemma Global.relock (hG : Global s) (h : Option ι) (v : ℕ) (hv : v = if h = none then 0 else 1) :
    Global (s.relock v h) := by
  have hgen := gen_relock s v h
  have hslot : content (s.relock v h).mem (s.gen % 2) = content s.mem (s.gen % 2) :=
    funext fun f => (update_apart s.mem v (s.gen % 2) f).2.2.2.1
  have hlock : update s.mem .writer_lock v .writer_lock = v := update_self ..
  refine ⟨?_, hlock.trans hv, ?_, hG.first, ?_⟩
  · rw [hgen, hslot]
    exact hG.encodes
  · rw [hgen]
    exact hG.log
  · rw [hgen]
    exact hG.history

lemma Global.publish (hG : Global s) {T : Table} (happ : op.apply (s.states s.gen) = some T)
    (henc : Encodes (content s.mem ((s.gen + 1) % 2)) T.entries) :
    Global (s.publish op T) := by
  have hkept : ∀ g, g ≤ s.gen → update s.states (s.gen + 1) T g = s.states g :=
    fun g hg => update_of_ne (by omega) ..
  have hnew : update s.states (s.gen + 1) T (s.gen + 1) = T := update_self ..
  have hslot : content (s.publish op T).mem ((s.gen + 1) % 2) = content s.mem ((s.gen + 1) % 2) :=
    funext fun f => (update_apart s.mem (s.gen + 1) ((s.gen + 1) % 2) f).2.2.2.2.2
  refine ⟨?_, (update_apart s.mem (s.gen + 1) 0 .count).2.2.2.2.1.trans hG.lock, ?_, ?_, ?_⟩
  · rw [gen_publish, hslot]
    show Encodes _ (update s.states (s.gen + 1) T (s.gen + 1)).entries
    rw [hnew]
    exact henc
  · rw [gen_publish]
    refine forall_mem_cons.mpr ⟨⟨Nat.lt_succ_self _, ?_⟩, ?_⟩
    · show op.apply (update s.states (s.gen + 1) T s.gen) = some _
      rw [hkept _ (Nat.le_refl _), happ]
      exact congrArg some hnew.symm
    · intro note hnote
      exact (hG.log note hnote).congr (Nat.le_succ _) hkept
  · exact (hkept 0 (Nat.zero_le _)).trans hG.first
  · rw [gen_publish]
    intro g hg
    rcases Nat.lt_succ_iff_lt_or_eq.mp hg with hlt | heq
    · obtain ⟨op', hop'⟩ := hG.history g hlt
      exact ⟨op', mem_cons_of_mem _ hop'⟩
    · exact ⟨op, heq ▸ .head _⟩

lemma writer_go (op : Op) {pubs : ℕ} {q : Code Bool} (hp : pubs = 0) (hi : s.holder = some i)
    (hw : q.Writes (InSlot ((s.gen + 1) % 2))) (h : Outcome op s (Prog.run q s.mem)) :
    WriterAt s i op pubs (q.bind (publish s.gen)) := by
  cases q with
  | ret b =>
    cases b with
    | true => exact .publishing hp hi h
    | false => exact .unlocking .failed (.inr ⟨rfl, hp⟩) hi
  | read l k | write l v k => exact .editing _ hp hi (fun b => by simp) hw h
  | cas l old new k => exact hw.elim

lemma locked_go (hG : Global s) {pubs : ℕ} (he : Sound op edit) (hp : pubs = 0)
    (hi : s.holder = some i) :
    WriterAt s i op pubs
      (((draft_copy s.gen).bind fun _ => edit ((s.gen + 1) % 2)).bind (publish s.gen)) := by
  refine writer_go op hp hi ?_ ?_
  · refine Writes.bind ?_ (fun _ => he.writes _)
    exact copy_writes _ (fun f _ => ⟨f, rfl⟩)
  · intro htrue
    rw [run_bind] at htrue ⊢
    exact he.result _ _ _ (draft_copy_run hG.encodes (s.states s.gen).bounded) htrue

/-! ## One step -/

structure Moved (i : ι) (s : Shared ι) (r : Shared ι × Option Job) : Prop where
  effect : Effect i s r.1
  shared : Global r.1
  here : ∀ job, r.2 = some job → Local r.1 i job

lemma tick_ret (h : job.code = .ret r) :
    tick s i job
      = ({ s with log := .returned job.op job.since s.gen job.published r :: s.log }, none) := by
  unfold tick
  rw [h]

lemma tick_access (h : job.code = code) (hne : ∀ r, code ≠ .ret r) :
    tick s i job = resume s i job (code.access s.mem) := by
  unfold tick
  rw [h]
  cases code with
  | ret r => exact absurd rfl (hne r)
  | _ => rfl

lemma resume_same (job : Job) (code : Code Result) :
    resume s i job (code, s.mem) = (s, some { job with code := code }) := by
  unfold resume
  rw [observe_same, if_pos (by rfl)]

lemma tick_read (h : job.code = .read l k) :
    tick s i job = (s, some { job with code := k (s.mem l) }) := by
  rw [tick_access h (by simp), access, resume_same]

lemma resume_update (v : ℕ) (code : Code Result) (hl : l ≠ .generation) :
    resume s i job (code, update s.mem l v)
      = (observe s i job.op (update s.mem l v), some { job with code := code }) := by
  have hgen : update s.mem l v .generation = s.gen := update_of_ne hl.symm ..
  unfold resume
  rw [if_pos hgen]

lemma tick_write {v : ℕ} {k : Code Result} (h : job.code = .write l v k) (hl : l ≠ .generation) :
    tick s i job
      = (observe s i job.op (update s.mem l v), some { job with code := k }) := by
  rw [tick_access h (by simp), access, resume_update v k hl]

lemma resume_publish (code : Code Result) :
    resume s i job (code, update s.mem .generation (s.gen + 1))
      = (s.publish job.op ((job.op.apply (s.states s.gen)).getD (s.states s.gen)),
          some { job with code := code, published := job.published + 1 }) := by
  have hne : ¬ update s.mem .generation (s.gen + 1) .generation = s.gen := by
    exact Nat.succ_ne_self _
  unfold resume
  rw [if_neg hne, observe_publish]

lemma tick_lock {k : Bool → Code Result} (h : job.code = .cas .writer_lock 0 1 k)
    (hfree : s.mem .writer_lock = 0) :
    tick s i job
      = (s.relock 1 (some i), some { job with code := k true }) := by
  rw [tick_access h (by simp), access, if_pos hfree, resume_update 1 _ (by simp),
    observe_lock 1 (by rw [hfree]; simp), if_neg (by simp)]

lemma tick_publish (h : job.code = publish s.gen true) :
    tick s i job
      = (s.publish job.op ((job.op.apply (s.states s.gen)).getD (s.states s.gen)),
          some { job with code := unlock .done, published := job.published + 1 }) := by
  have hgen : s.mem .generation = s.gen := rfl
  rw [tick_access h (by simp [publish]), publish, access, if_pos hgen, resume_publish, if_pos rfl]

lemma tick_unlock (h : job.code = unlock r) (hheld : s.mem .writer_lock = 1) :
    tick s i job
      = (s.relock 0 none, some { job with code := .ret r }) := by
  rw [tick_write h (by simp), observe_lock 0 (by rw [hheld]; simp), if_pos rfl]

lemma moved_ret (hG : Global s) (h : job.code = .ret r)
    (hans : Answer s.states job.since s.gen job.published r job.op) :
    Moved i s (tick s i job) := by
  rw [tick_ret h]
  refine ⟨⟨Nat.le_refl _, fun _ _ => rfl, fun _ _ => rfl, fun _ _ _ => ⟨rfl, rfl, rfl⟩⟩,
    ⟨hG.encodes, hG.lock, ?_, hG.first, ?_⟩, by simp⟩
  · exact forall_mem_cons.mpr ⟨⟨Nat.le_refl _, hans⟩, hG.log⟩
  · intro g hg
    obtain ⟨op', hop'⟩ := hG.history g hg
    exact ⟨op', mem_cons_of_mem _ hop'⟩

lemma moved_read (hG : Global s) (h : job.code = .read l k)
    (hnext : Local s i { job with code := k (s.mem l) }) :
    Moved i s (tick s i job) := by
  rw [tick_read h]
  refine ⟨Effect.refl i s, hG, ?_⟩
  intro job' hjob
  rw [← some.inj hjob]
  exact hnext

def Op.writes : Op → Bool
  | .lookup _ _ | .tokens _ => false
  | .set _ _ | .clear _ => true

lemma local_writer (job : Job) (hop : job.op.writes = true) :
    Local s i job ↔ job.since ≤ s.gen ∧ WriterAt s i job.op job.published job.code := by
  unfold Local
  split
  · next heq => rw [heq] at hop; simp [Op.writes] at hop
  · next heq => rw [heq] at hop; simp [Op.writes] at hop
  · next heq => rw [heq]
  · next heq => rw [heq]

lemma local_of_writer {since pubs : ℕ} (hop : op.writes = true) (hsince : since ≤ s.gen)
    (h : WriterAt s i op pubs code) : Local s i ⟨op, code, since, pubs⟩ :=
  (local_writer ⟨op, code, since, pubs⟩ hop).mpr ⟨hsince, h⟩

lemma answer_writer {states : ℕ → Table} {since now : ℕ} (hop : job.op.writes = true)
    (h : Wrote job.published r) :
    Answer states since now job.published r job.op := by
  generalize job.op = op at hop
  cases op with
  | lookup => simp [Op.writes] at hop
  | tokens => simp [Op.writes] at hop
  | set => exact h
  | clear => exact h

lemma moved_spin (hG : Global s) (hop : job.op.writes = true) (hsince : job.since ≤ s.gen)
    (hp : job.published = 0) (he : Sound job.op edit) {rest : Code Result}
    (hrest : WriterAt s i job.op job.published rest)
    (h : job.code = .cas .writer_lock 0 1 fun ok => if ok then locked edit else rest) :
    Moved i s (tick s i job) := by
  by_cases hfree : s.mem .writer_lock = 0
  · -- the lock was free: it is now held by this process
    have hnone : s.holder = none := by
      by_contra hne
      rw [hG.lock, if_neg hne] at hfree
      simp at hfree
    rw [tick_lock h hfree, if_pos rfl]
    refine ⟨Effect.relock (.inl hnone) 1 (some i), hG.relock (some i) 1 (by simp), ?_⟩
    intro job' hjob
    rw [← some.inj hjob]
    exact local_of_writer hop (by rwa [gen_relock]) (.entered edit he hp rfl)
  · rw [tick_access h (by simp), access, if_neg hfree, resume_same, if_neg (by simp)]
    refine ⟨Effect.refl i s, hG, ?_⟩
    intro job' hjob
    rw [← some.inj hjob]
    exact local_of_writer hop hsince hrest

lemma moved_draft (hG : Global s) (hop : job.op.writes = true) (hsince : job.since ≤ s.gen)
    (hp : job.published = 0) (hi : s.holder = some i) {f : Field} {v : ℕ} {k : Code Bool}
    (hw : k.Writes (InSlot ((s.gen + 1) % 2)))
    (hout : Outcome job.op s (Prog.run k (update s.mem (.slot ((s.gen + 1) % 2) f) v)))
    (h : job.code = .write (.slot ((s.gen + 1) % 2) f) v (k.bind (publish s.gen))) :
    Moved i s (tick s i job) := by
  have hgen := gen_draft s f v
  rw [tick_write h (by simp), observe_draft]
  refine ⟨Effect.draft hi v f, hG.draft v f, ?_⟩
  intro job' hjob
  rw [← some.inj hjob]
  refine local_of_writer hop (hgen.symm ▸ hsince) ?_
  have hgo := writer_go (s := s.draft f v) job.op (q := k) hp hi (by rw [hgen]; exact hw) (by
      exact hout)
  exact hgo

lemma moved_publish (hG : Global s) (hop : job.op.writes = true) (hsince : job.since ≤ s.gen)
    (hp : job.published = 0) (hi : s.holder = some i) (hout : Outcome job.op s (true, s.mem))
    (h : job.code = publish s.gen true) :
    Moved i s (tick s i job) := by
  obtain ⟨T, happ, henc⟩ := hout rfl
  rw [tick_publish h, happ, getD_some]
  refine ⟨Effect.publish hi _ T, hG.publish happ henc, ?_⟩
  intro job' hjob
  rw [← some.inj hjob]
  refine local_of_writer hop ?_ (.unlocking .done (.inl ⟨rfl, by rw [hp]⟩) hi)
  exact Nat.le_succ_of_le hsince

lemma moved_unlock (hG : Global s) (hop : job.op.writes = true) (hsince : job.since ≤ s.gen)
    (hr : Wrote job.published r) (hi : s.holder = some i) (h : job.code = unlock r) :
    Moved i s (tick s i job) := by
  have hheld : s.mem .writer_lock = 1 := by
    rw [hG.lock, if_neg (by rw [hi]; simp)]
  rw [tick_unlock h hheld]
  refine ⟨Effect.relock (.inr hi) 0 none, hG.relock none 0 (by simp), ?_⟩
  intro job' hjob
  rw [← some.inj hjob]
  refine local_of_writer hop ?_ (.returns r hr)
  rwa [gen_relock]

lemma moved_writer (hG : Global s) (hop : job.op.writes = true) (hsince : job.since ≤ s.gen)
    (h : WriterAt s i job.op job.published job.code) :
    Moved i s (tick s i job) := by
  generalize hcode : job.code = code at h
  cases h with
  | waiting edit n he hp =>
    cases n with
    | zero => exact moved_spin hG hop hsince hp he (.returns .failed (.inr ⟨rfl, hp⟩)) hcode
    | succ n => exact moved_spin hG hop hsince hp he (.waiting edit n he hp) hcode
  | entered edit he hp hi =>
    exact moved_read hG hcode (local_of_writer hop hsince (locked_go hG he hp hi))
  | editing q hp hi hq hw hout =>
    cases q with
    | ret b => exact absurd rfl (hq b)
    | read l k =>
      exact moved_read hG hcode
        (local_of_writer hop hsince (writer_go _ hp hi (hw (s.mem l)) hout))
    | write l v k =>
      obtain ⟨⟨f, rfl⟩, hk⟩ := hw
      exact moved_draft hG hop hsince hp hi hk hout hcode
    | cas l old new k => exact hw.elim
  | publishing hp hi hout => exact moved_publish hG hop hsince hp hi hout hcode
  | unlocking r hr hi => exact moved_unlock hG hop hsince hr hi hcode
  | returns r hr => exact moved_ret hG hcode (answer_writer hop hr)

theorem tick_moved (hG : Global s) (h : Local s i job) : Moved i s (tick s i job) := by
  obtain ⟨hsince, hat⟩ := h
  cases hop : job.op with
  | lookup t out_len | tokens max =>
    rw [hop] at hat
    rcases hat.reads with ⟨r, hr⟩ | ⟨l, k, hk⟩
    · refine moved_ret hG hr ?_
      rw [hr] at hat
      rw [hop]
      exact hat.answer
    · refine moved_read hG hk ⟨hsince, ?_⟩
      rw [hk] at hat
      simp only [hop]
      exact hat.next hG hsince
  | set token keyauth | clear token =>
    have hw : job.op.writes = true := by rw [hop]; rfl
    exact moved_writer hG hw hsince ((local_writer _ hw).mp ⟨hsince, hat⟩).2

end Writers

/-! ## Every interleaving -/

lemma local_call (s : Shared ι) (i : ι) (op : Op) : Local s i ⟨op, op.code, s.gen, 0⟩ := by
  refine ⟨Nat.le_refl _, ?_⟩
  cases op with
  | lookup t out_len =>
    show LookupAt s s.gen t out_len (lookup t out_len)
    unfold lookup
    split
    · exact .returns _ nofun
    · exact .attempt 4
  | tokens max =>
    show TokensAt s s.gen max (tokens max)
    unfold tokens
    split
    · next hmax =>
      refine .returns _ ⟨[], rfl, .inl ⟨s.gen, Nat.le_refl _, Nat.le_refl _, ?_⟩⟩
      rw [hmax, take_zero]
    · exact .attempt 4 (Nat.le_refl _)
  | set token keyauth =>
    show WriterAt s i (.set token keyauth) 0 (set token keyauth)
    unfold set
    split
    · next h =>
      have hfits := (Bool.and_eq_true_iff.mp h).1
      exact .waiting _ LOCK_RETRIES (set_sound hfits) rfl
    · exact .returns .failed (.inr ⟨rfl, rfl⟩)
  | clear token =>
    show WriterAt s i (.clear token) 0 (clear token)
    unfold clear
    split
    · exact .returns .failed (.inr ⟨rfl, rfl⟩)
    · exact .waiting _ LOCK_RETRIES (clear_sound token) rfl

abbrev Inv (w : Machine ι) : Prop := Holds Global Local w

lemma init_inv : Inv (init ι) where
  shared := by
    refine ⟨⟨rfl, ?_⟩, rfl, by simp [init], rfl, ?_⟩
    · intro k e he
      simp [init, empty] at he
    · intro g hg
      exact absurd hg (Nat.not_lt_zero g)
  here := by simp [init]

def MapStep (T T' : Table) : Op → Prop
  | .lookup _ _ | .tokens _ => False
  | .set token keyauth => ∀ t, T'.find t = if t = token then some keyauth else T.find t
  | .clear token => ∀ t, T'.find t = if t = token then none else T.find t

variable {op : Op}

lemma apply_mapStep {T T' : Table} (h : op.apply T = some T') : MapStep T T' op := by
  cases op with
  | lookup | tokens => simp [Op.apply] at h
  | set token keyauth =>
    intro t
    simp only [Op.apply] at h
    split at h
    · exact find_insert h t
    · simp at h
  | clear token =>
    intro t
    simp only [Op.apply, some.injEq] at h
    rw [← h]
    exact find_remove T token t

lemma published_by_set {s : Shared ι} (hG : Global s) (g : ℕ) (hg : g ≤ s.gen) (t k : CStr)
    (h : (s.states g).find t = some k) :
    ∃ g', g' < g ∧ Note.published g' (.set t k) ∈ s.log := by
  induction g with
  | zero =>
    rw [hG.first] at h
    simp [find, empty] at h
  | succ g ih =>
    obtain ⟨op, hop⟩ := hG.history g (by omega)
    have hmap := apply_mapStep (hG.log _ hop).2
    -- either this publication put it there, or it was there before
    have hold : (s.states g).find t = some k →
        ∃ g', g' < g + 1 ∧ Note.published g' (.set t k) ∈ s.log := by
      intro hbefore
      obtain ⟨g', hlt, hnote⟩ := ih (by omega) hbefore
      exact ⟨g', by omega, hnote⟩
    cases op with
    | lookup | tokens => exact hmap.elim
    | set token keyauth =>
      rw [hmap t] at h
      split at h
      · next ht =>
        rw [← ht, some.inj h] at hop
        exact ⟨g, Nat.lt_succ_self g, hop⟩
      · exact hold h
    | clear token =>
      rw [hmap t] at h
      split at h
      · simp at h
      · exact hold h

variable [DecidableEq ι]

lemma step_inv (w : Machine ι) (event : Event ι) (h : Inv w) : Inv (step w event) := by
  cases event with
  | call i op =>
    simp only [step]
    split
    · refine h.put h.shared ?_ (fun _ _ _ _ hl => hl)
      intro job hjob
      rw [← some.inj hjob]
      exact local_call w.shared i op
    · exact h
  | tick i =>
    simp only [step]
    split
    · exact h
    · next job hjob =>
      have hm := tick_moved h.shared (h.here i job hjob)
      exact h.put hm.shared hm.here (fun j q hj _ hl => hl.stable hm.effect hj)

variable {w : Machine ι}

lemma inv_run (h : Inv w) (events : List (Event ι)) : Inv (Runs.run step w events) :=
  run_invariant step_inv w events h

lemma run_inv (events : List (Event ι)) : Inv (run events) :=
  inv_run init_inv events

/-- **The challenge table under every interleaving.** A lookup that returns data returns the whole
key authorization a `set` published for exactly that token, and the table of a generation in
effect during the call held it. A listing is that of one such table, cut off at `max`, or the
generation moved under each of the call's four attempts and it is empty. Every publication is the
step of a finite map (with unique tokens, at most eight, by the type `Table`) that its operation
names, and the slot in effect holds the table published last. A `set` or `clear` that succeeds has
published once, one that fails has not. -/
theorem challenges_linearize (events : List (Event ι)) :
    (∀ t out_len since now pubs data,
        Note.returned (.lookup t out_len) since now pubs (.found data) ∈ (run events).shared.log →
        ∃ g k, since ≤ g ∧ g ≤ now ∧ now ≤ (run events).shared.gen
          ∧ ((run events).shared.states g).find t = some k ∧ k.bytes = data
          ∧ ∃ g', g' < g ∧ Note.published g' (.set t k) ∈ (run events).shared.log)
      ∧ (∀ max since now pubs r,
        Note.returned (.tokens max) since now pubs r ∈ (run events).shared.log →
        ∃ l, r = .listed l ∧ ((∃ g, since ≤ g ∧ g ≤ now
              ∧ l = (((run events).shared.states g).entries.map (·.token.bytes)).take max)
            ∨ (l = [] ∧ since + 4 ≤ now)))
      ∧ (∀ g op, Note.published g op ∈ (run events).shared.log → g < (run events).shared.gen
          ∧ MapStep ((run events).shared.states g) ((run events).shared.states (g + 1)) op)
      ∧ Encodes (content (run events).shared.mem ((run events).shared.gen % 2))
          ((run events).shared.states (run events).shared.gen).entries
      ∧ ∀ op since now pubs r, op.writes = true →
        Note.returned op since now pubs r ∈ (run events).shared.log →
        (r = .done ∧ pubs = 1) ∨ (r = .failed ∧ pubs = 0) := by
  have hG := (run_inv events).shared
  refine ⟨?_, ?_, ?_, hG.encodes, ?_⟩
  · intro t out_len since now pubs data hnote
    obtain ⟨hnow, hans⟩ := hG.log _ hnote
    obtain ⟨g, hsince, hg, hfind⟩ := hans data rfl
    obtain ⟨k, hk, hdata⟩ := map_eq_some_iff.mp hfind
    exact ⟨g, k, hsince, hg, hnow, hk, hdata, published_by_set hG g (by omega) t k hk⟩
  · intro max since now pubs r hnote
    exact (hG.log _ hnote).2
  · intro g op hnote
    obtain ⟨hlt, happ⟩ := hG.log _ hnote
    exact ⟨hlt, apply_mapStep happ⟩
  · intro op since now pubs r hop hnote
    have hans := (hG.log _ hnote).2
    cases op with
    | lookup | tokens => simp [Op.writes] at hop
    | set | clear => exact hans

/-! ## A listing that gives up -/

variable {i : ι}

lemma step_tick (h : w.procs i = some job) :
    step w (.tick i) = w.put i (tick w.shared i job).1 (tick w.shared i job).2 := by
  simp [step, h]

lemma run_append (w : Machine ι) (first second : List (Event ι)) :
    Runs.run step w (first ++ second) = Runs.run step (Runs.run step w first) second := by
  exact foldl_append ..

/-- A process runs a part of its program that writes only in a slot, nobody else
moving: the part ends as `run` says. -/
lemma run_part {β : Type} {d since pubs : ℕ} (q : Code β) (f : β → Code Result)
    (hw : q.Writes (InSlot d)) (i : ι) (w : Machine ι)
    (h : w.procs i = some ⟨op, q.bind f, since, pubs⟩) :
    ∃ n, Runs.run step w (replicate n (.tick i))
      = w.put i { w.shared with mem := (Prog.run q w.shared.mem).2 }
          (some ⟨op, f (Prog.run q w.shared.mem).1, since, pubs⟩) := by
  induction q generalizing w with
  | ret b => exact ⟨0, (put_eq_self w i h).symm⟩
  | read l k ih =>
    have hstep := (step_tick h).trans (by rw [tick_read rfl])
    obtain ⟨n, hn⟩ := ih (w.shared.mem l) (hw _)
      (w.put i w.shared (some ⟨op, (k (w.shared.mem l)).bind f, since, pubs⟩))
      (put_procs_self ..)
    refine ⟨n + 1, ?_⟩
    rw [replicate_succ, run_cons, hstep]
    exact hn.trans (put_put ..)
  | write l v k ih =>
    obtain ⟨⟨fld, rfl⟩, hk⟩ := hw
    have hstep := (step_tick h).trans (by rw [tick_write rfl (by simp), observe_draft])
    obtain ⟨n, hn⟩ := ih hk (w.put i { w.shared with
        mem := update w.shared.mem (.slot d fld) v } (some ⟨op, k.bind f, since, pubs⟩))
      (put_procs_self ..)
    refine ⟨n + 1, ?_⟩
    rw [replicate_succ, run_cons, hstep]
    exact hn.trans (put_put ..)
  | cas l old new k ih => exact hw.elim

lemma run_enter (hidle : w.procs i = none) (hfree : w.shared.mem .writer_lock = 0) {k : ℕ}
    (hcode : op.code = spinlock (locked edit) k) :
    Runs.run step w [.call i op, .tick i, .tick i]
      = w.put i (w.shared.relock 1 (some i)) (some ⟨op, ((draft_copy w.shared.gen).bind fun _ =>
            edit ((w.shared.gen + 1) % 2)).bind (publish w.shared.gen), w.shared.gen, 0⟩) := by
  have hgen : (w.shared.relock 1 (some i)).mem .generation = w.shared.gen := gen_relock ..
  have hcas : ∃ f : Bool → Code Result, op.code = .cas .writer_lock 0 1 f ∧ f true = locked edit := by
    cases k with
    | zero | succ k => exact ⟨_, hcode, rfl⟩
  obtain ⟨f, hf, hlocked⟩ := hcas
  have hcall : step w (.call i op) = w.put i w.shared (some ⟨op, op.code, w.shared.gen, 0⟩) := by
    simp [step, hidle]
  rw [run_cons, run_cons, run_cons, run_nil, hcall,
    step_tick (put_procs_self ..), put_shared, tick_lock hf hfree, put_put,
    step_tick (put_procs_self ..), put_shared, tick_read hlocked, put_put]
  rw [hgen]

lemma run_leave {since : ℕ} (h : w.procs i = some ⟨op, publish w.shared.gen true, since, 0⟩)
    (hheld : w.shared.mem .writer_lock = 1) {T : Table}
    (happ : op.apply (w.shared.states w.shared.gen) = some T) :
    ∃ s, Runs.run step w [.tick i, .tick i, .tick i] = w.put i s none
      ∧ s.holder = none ∧ s.gen = w.shared.gen + 1
      ∧ s.states = update w.shared.states (w.shared.gen + 1) T := by
  rw [run_cons, run_cons, run_cons, run_nil, step_tick h, tick_publish rfl,
    happ, getD_some, step_tick (put_procs_self ..), put_shared, put_put]
  rw [tick_unlock rfl, step_tick (put_procs_self ..), put_shared, tick_ret rfl,
    put_put]
  · exact ⟨_, rfl, rfl, (gen_relock _ 0 none).trans (gen_publish w.shared op T), rfl⟩
  · exact (update_apart w.shared.mem (w.shared.gen + 1) 0 .count).2.2.2.2.1.trans hheld

/-- **A writer that finds the lock free and runs alone**: its table is published,
and everything else is as it was. -/
theorem run_writer (hinv : Inv w) (hidle : w.procs i = none) (hfree : w.shared.holder = none)
    {k : ℕ} (he : Sound op edit) (hcode : op.code = spinlock (locked edit) k)
    (hgo : ∀ m d, Encodes (content m d) (w.shared.states w.shared.gen).entries → (Prog.run (edit d) m).1 = true)
    :
    ∃ events T, op.apply (w.shared.states w.shared.gen) = some T
      ∧ (Runs.run step w events).procs = w.procs ∧ (Runs.run step w events).shared.holder = none
      ∧ (Runs.run step w events).shared.gen = w.shared.gen + 1
      ∧ (Runs.run step w events).shared.states
        = update w.shared.states (w.shared.gen + 1) T := by
  have hunlocked : w.shared.mem .writer_lock = 0 := by
    rw [hinv.shared.lock, if_pos hfree]
  have hentered := run_enter hidle hunlocked hcode
  generalize hs1 : w.shared.relock 1 (some i) = s1 at hentered
  have hG1 : Global s1 := by
    rw [← hs1]
    exact hinv.shared.relock (some i) 1 (by simp)
  have hgen1 : s1.gen = w.shared.gen := by
    rw [← hs1, gen_relock]
  have hstates1 : s1.states = w.shared.states := by rw [← hs1]; rfl
  have hholder1 : s1.holder = some i := by rw [← hs1]; rfl
  -- the draft and the edit
  have hwrites : ((draft_copy w.shared.gen).bind fun _ =>
      edit ((w.shared.gen + 1) % 2)).Writes (InSlot ((w.shared.gen + 1) % 2)) := by
    refine Writes.bind ?_ (fun _ => he.writes _)
    exact copy_writes _ (fun f _ => ⟨f, rfl⟩)
  obtain ⟨n, hn⟩ := run_part _ (publish w.shared.gen) hwrites i
    (w.put i s1 (some ⟨op, _, w.shared.gen, 0⟩)) (put_procs_self ..)
  have henc := hG1.encodes
  rw [hgen1, hstates1] at henc
  have hdraft := draft_copy_run henc (w.shared.states w.shared.gen).bounded
  have htrue := hgo _ _ hdraft
  obtain ⟨T, happ, _⟩ := he.result _ _ _ hdraft htrue
  have hmem : ∀ l, ¬ InSlot ((w.shared.gen + 1) % 2) l →
      (Prog.run ((draft_copy w.shared.gen).bind fun _ => edit ((w.shared.gen + 1) % 2)) s1.mem).2 l
        = s1.mem l := fun l hl => hwrites.run_other s1.mem hl
  rw [put_shared, put_put, run_bind, htrue] at hn
  rw [run_bind] at hmem
  generalize (Prog.run (edit ((w.shared.gen + 1) % 2)) (Prog.run (draft_copy w.shared.gen)
    s1.mem).2).2 = m2 at hn hmem
  -- the publication
  have hgen2 : m2 .generation = w.shared.gen :=
    (hmem _ (by rintro ⟨f, hf⟩; exact absurd hf (by simp))).trans hgen1
  have hlock2 : m2 .writer_lock = 1 := by
    rw [hmem _ (by rintro ⟨f, hf⟩; exact absurd hf (by simp)), hG1.lock,
      if_neg (by rw [hholder1]; simp)]
  obtain ⟨s3, hleave, hholder3, hgen3, hstates3⟩ := run_leave
    (w := w.put i { s1 with mem := m2 } (some ⟨op, publish w.shared.gen true, w.shared.gen, 0⟩))
    (by rw [put_procs_self, put_shared]
        show _ = some (Job.mk op (publish (m2 .generation) true) _ 0)
        rw [hgen2])
    hlock2 (by
      show op.apply (s1.states (m2 .generation)) = some T
      rw [hgen2, hstates1]
      exact happ)
  refine ⟨[.call i op, .tick i, .tick i] ++ (replicate n (.tick i) ++ [.tick i, .tick i, .tick i]),
    T, happ, ?_⟩
  rw [run_append, run_append, hentered, hn, hleave, put_put]
  refine ⟨?_, hholder3, ?_, ?_⟩
  · show update w.procs i none = w.procs
    rw [← hidle, update_eq_self]
  · rw [put_shared, hgen3]
    show m2 .generation + 1 = _
    rw [hgen2]
  · rw [put_shared, hstates3]
    show update s1.states (m2 .generation + 1) T = _
    rw [hgen2, hstates1]

/-- Process `true` is listing, with `k` attempts left, since generation `base`;
every table published since then has the token `a`, and process `false` is in no call. -/
structure Listing (a : CStr) (base k : ℕ) (w : Machine Bool) : Prop where
  inv : Inv w
  idle : w.procs false = none
  free : w.shared.holder = none
  job : w.procs true = some ⟨.tokens CHALLENGE_MAX, tokens_attempts CHALLENGE_MAX k, base, 0⟩
  kept : ∀ g, base ≤ g → g ≤ w.shared.gen → ∃ key, (w.shared.states g).find a = some key
  since : base ≤ w.shared.gen

lemma run_scan {w : Machine Bool} {g base k : ℕ} (hg : w.shared.gen = g + 1)
    (h : w.procs true = some ⟨.tokens CHALLENGE_MAX, (tokens_scan (g % 2) CHALLENGE_MAX).bind
      (tokens_after (tokens_attempts CHALLENGE_MAX k) g), base, 0⟩) :
    ∃ events, Runs.run step w events = w.put true w.shared
      (some ⟨.tokens CHALLENGE_MAX, tokens_attempts CHALLENGE_MAX k, base, 0⟩) := by
  have hreads := tokens_full_reads g CHALLENGE_MAX
  obtain ⟨n, hn⟩ := run_part _ _ (hreads.writes (W := InSlot 0)) true w h
  rw [hreads.run_mem] at hn
  cases hscan : (Prog.run (tokens_scan (g % 2) CHALLENGE_MAX) w.shared.mem).1 with
  | none =>
    rw [hscan] at hn
    exact ⟨_, hn⟩
  | some l =>
    rw [hscan] at hn
    refine ⟨replicate n (.tick true) ++ [.tick true], ?_⟩
    have hmoved : w.shared.mem .generation ≠ g := by
      show w.shared.gen ≠ g
      omega
    rw [run_append, hn, run_cons, run_nil, step_tick (put_procs_self ..),
      put_shared, tick_read rfl, put_put]
    rw [if_neg hmoved]

/-- **One lost attempt**: a `clear` of another token between the reader's two looks
at the generation. -/
theorem Listing.round {a b : CStr} (hab : a ≠ b) (hb : b.strlen ≠ 0) {base k : ℕ}
    {w : Machine Bool} (h : Listing a base (k + 1) w) :
    ∃ events, Listing a base k (Runs.run step w events) := by
  -- the first look
  have hlook : Runs.run step w [.tick true] = w.put true w.shared
      (some ⟨.tokens CHALLENGE_MAX, (tokens_scan (w.shared.gen % 2) CHALLENGE_MAX).bind
        (tokens_after (tokens_attempts CHALLENGE_MAX k) w.shared.gen), base, 0⟩) := by
    rw [run_cons, run_nil, step_tick h.job, tick_read rfl]
    rfl
  have hinv1 := inv_run h.inv [.tick true]
  rw [hlook] at hinv1
  -- the publication
  obtain ⟨clearing, T, happ, hprocs, hfree, hgen, hstates⟩ := run_writer hinv1
    ((put_procs_other _ _ _ (by decide)).trans h.idle) h.free (clear_sound b)
    (if_neg hb) (fun m d henc => (clear_draft_run henc (bounded _) b).1)
  have hinv2 := inv_run hinv1 clearing
  rw [put_shared] at happ hgen hstates
  -- the second look
  obtain ⟨scanning, hscan⟩ := run_scan hgen
    ((congrFun hprocs true).trans (put_procs_self ..))
  have hinv3 := inv_run hinv2 scanning
  refine ⟨[.tick true] ++ (clearing ++ scanning), ?_⟩
  rw [run_append, run_append, hlook]
  refine ⟨hinv3, ?_, ?_, ?_, ?_, ?_⟩
  · rw [hscan, put_procs_other _ _ _ (by decide), hprocs,
      put_procs_other _ _ _ (by decide), h.idle]
  · rw [hscan, put_shared, hfree]
  · rw [hscan, put_procs_self]
  · intro g hg hnow
    rw [hscan, put_shared, hgen] at hnow
    rw [hscan, put_shared, hstates]
    by_cases hlast : g = w.shared.gen + 1
    · subst hlast
      obtain ⟨key, hkey⟩ := h.kept _ h.since (Nat.le_refl _)
      have hT : T = (w.shared.states w.shared.gen).remove b := (some.inj happ).symm
      rw [update_self, hT, find_remove, if_neg hab, hkey]
      exact ⟨key, rfl⟩
    · rw [update_of_ne hlast]
      exact h.kept g hg (by omega)
  · rw [hscan, put_shared, hgen]
    exact Nat.le_succ_of_le h.since

lemma Listing.rounds {a b : CStr} (hab : a ≠ b) (hb : b.strlen ≠ 0) {base : ℕ} (k : ℕ)
    {w : Machine Bool} (h : Listing a base k w) :
    ∃ events, Listing a base 0 (Runs.run step w events) := by
  induction k generalizing w with
  | zero => exact ⟨[], h⟩
  | succ k ih =>
    obtain ⟨first, hfirst⟩ := h.round hab hb
    obtain ⟨rest, hrest⟩ := ih hfirst
    exact ⟨first ++ rest, by rwa [run_append]⟩

lemma listing_begins (a key : CStr) (hfits : fits a key = true) (hflat : flat a = true) :
    ∃ events, Listing a 1 4 (run events) := by
  have hcode : (Op.set a key).code
      = spinlock (locked fun d => set_draft d a key) LOCK_RETRIES := by
    show AcmeChallenge.set a key = _
    unfold AcmeChallenge.set
    rw [hfits, hflat]
    rfl
  -- one process publishes the token alone, before the other calls
  obtain ⟨setting, T, happ, hprocs, hfree, hgen, hstates⟩ := run_writer (i := false)
    (init_inv : Inv (init Bool)) rfl rfl (set_sound hfits) hcode (fun m d henc => by
      have hrun := set_draft_run henc (Nat.zero_le _)
        ⟨a, key, (of_decide_eq_true hfits).1, (of_decide_eq_true hfits).2⟩
      rw [hrun.1]
      rfl)
  have hinv := inv_run init_inv setting
  have hidle : (Runs.run step (init Bool) setting).procs true = none := congrFun hprocs true
  have hcall : Runs.run step (Runs.run step (init Bool) setting)
      [.call true (.tokens CHALLENGE_MAX)]
      = (Runs.run step (init Bool) setting).put true (Runs.run step (init Bool) setting).shared
        (some ⟨.tokens CHALLENGE_MAX, tokens_attempts CHALLENGE_MAX 4, 1, 0⟩) := by
    rw [run_cons, run_nil]
    simp only [step, hidle, hgen]
    rfl
  refine ⟨setting ++ [.call true (.tokens CHALLENGE_MAX)], ?_⟩
  unfold run
  have hinv' := inv_run hinv [.call true (.tokens CHALLENGE_MAX)]
  rw [run_append]
  refine ⟨hinv', ?_, ?_, ?_, ?_, ?_⟩
  · rw [hcall, put_procs_other _ _ _ (by decide), hprocs]
    rfl
  · rw [hcall, put_shared, hfree]
  · rw [hcall, put_procs_self]
  · -- the only generation since the call is the one that was published
    intro g hg hnow
    rw [hcall, put_shared, hgen] at hnow
    have hone : g = (init Bool).shared.gen + 1 := Nat.le_antisymm hnow hg
    rw [hcall, put_shared, hstates, hone]
    refine ⟨key, ?_⟩
    have hT : T.find a = _ := apply_mapStep happ a
    rw [update_self, hT, if_pos rfl]
  · rw [hcall, put_shared, hgen]
    exact Nat.le_refl _

def some_token : CStr := ⟨[97], by decide⟩

def other_token : CStr := ⟨[98], by decide⟩

/-- **An empty listing of tables that are not empty**: a token is set, and while another process
lists, `clear` of a second token is published between the two looks of each attempt. Every table
published from the listing's start to its end has the token. -/
theorem listing_gives_up :
    ∃ (events : List (Event Bool)) (since now pubs : ℕ),
      Note.returned (.tokens CHALLENGE_MAX) since now pubs (.listed []) ∈ (run events).shared.log
      ∧ ∀ g, since ≤ g → g ≤ now → ((run events).shared.states g).entries ≠ [] := by
  obtain ⟨first, hfirst⟩ := listing_begins some_token some_token (by decide)
    (by decide)
  obtain ⟨rest, hlost⟩ := hfirst.rounds (b := other_token) (by decide) (by decide)
  refine ⟨first ++ (rest ++ [.tick true]), 1, (Runs.run step (run first) rest).shared.gen, 0, ?_⟩
  have hrun : run (first ++ (rest ++ [.tick true]))
      = step (Runs.run step (run first) rest) (.tick true) := by
    unfold run
    rw [run_append, run_append, run_cons, run_nil]
  rw [hrun, step_tick hlost.job, tick_ret rfl]
  refine ⟨.head _, ?_⟩
  intro g hg hnow hnil
  obtain ⟨key, hkey⟩ := hlost.kept g hg hnow
  obtain ⟨e, he, _⟩ := (find_eq_some_iff _ _ _).mp hkey
  rw [show ((Runs.run step (run first) rest).shared.states g).entries = [] from hnil] at he
  simp at he

end FpmNg.AcmeChallenge
