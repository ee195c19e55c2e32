/-
The shared HTTP-01 challenge state, `fpm_acme_challenge.c`, under every
interleaving of its writers and readers.

A writer takes a spinlock, copies the published slot into the other one, edits
the copy and bumps the generation. A reader takes no lock: it reads the
generation, looks at the slot that belongs to it, and takes what it saw only if
the generation has not moved. The second publication behind a slow reader
overwrites the slot it is still copying; what it copied then is worth nothing,
and the generation tells it so.

The model runs any number of processes, each at a place of one call, one access
of the shared memory at a time. The words of the counter and of the lock are
unbounded here: a generation of 64 bits does not come round within a call.

The proof keeps a history that is not the program's: the table published under
each generation. A publication adds the table its operation makes of the one
before, and the invariant says that the slot in effect always holds the last
one. What a reader may assume while it scans is that, if the generation has not
moved, the rest of its scan will end as if it were run now; `run` and the
footprints of `Lib.SharedProgram` are all that is needed for it.
-/
import FpmNg.Lib.Runs
import FpmNg.Lib.Interleave
import FpmNg.AcmeSlot

namespace FpmNg.AcmeChallenge

open SharedProgram SharedProgram.Prog Interleave AcmeTable AcmeSlot

/-! ## The calls -/

/-- What a call returns: the key authorization, no such token, the tokens, and
the two results of a writer. -/
inductive Result where
  | found (data : List ℕ)
  | missing
  | listed (tokens : List (List ℕ))
  | done
  | failed
  deriving DecidableEq

/-- What `fpm_acme_challenge_lookup()` does behind a look at the slot of
generation `gen`; `next` is its next attempt. -/
def lookup_after (next : Code Result) (gen : ℕ) : Seen → Code Result
  | .torn => next
  | .hit data => .read .generation fun now =>
    if now = gen then ret (.found data) else .read .generation fun _ => next
  | .miss => .read .generation fun now => if now = gen then ret .missing else next

/-- The attempts of `fpm_acme_challenge_lookup()` that are left. -/
def lookup_attempts (t : CStr) (out_len : ℕ) : ℕ → Code Result
  | 0 => ret .missing
  | n + 1 => .read .generation fun gen =>
    (lookup_scan (gen % 2) t out_len).bind (lookup_after (lookup_attempts t out_len n) gen)

/-- `fpm_acme_challenge_lookup()`. -/
def lookup (t : CStr) (out_len : ℕ) : Code Result :=
  if t.strlen = 0 ∨ out_len = 0 then ret .missing else lookup_attempts t out_len 4

/-- What `fpm_acme_challenge_tokens()` does behind a look at the slot of
generation `gen`. -/
def tokens_after (next : Code Result) (gen : ℕ) : Option (List (List ℕ)) → Code Result
  | none => next
  | some l => .read .generation fun now => if now = gen then ret (.listed l) else next

/-- The attempts of `fpm_acme_challenge_tokens()` that are left. -/
def tokens_attempts (max : ℕ) : ℕ → Code Result
  | 0 => ret (.listed [])
  | n + 1 => .read .generation fun gen =>
    (tokens_scan (gen % 2) max).bind (tokens_after (tokens_attempts max n) gen)

/-- `fpm_acme_challenge_tokens()`. -/
def tokens (max : ℕ) : Code Result :=
  if max = 0 then ret (.listed []) else tokens_attempts max 4

/-- `FPM_ACME_CHALLENGE_LOCK_RETRIES`. -/
abbrev LOCK_RETRIES : ℕ := 10000

/-- `fpm_spinlock_with_max_retries()` on the writer lock, and what follows it. -/
def spinlock (locked : Code Result) : ℕ → Code Result
  | 0 => .cas .writer_lock 0 1 fun ok => if ok then locked else ret .failed
  | retries + 1 => .cas .writer_lock 0 1 fun ok => if ok then locked else spinlock locked retries

/-- `fpm_acme_challenge_unlock()`, and the result. -/
def unlock (r : Result) : Code Result := .write .writer_lock 0 (ret r)

/-- `fpm_acme_challenge_publish()`, if there is something to publish, and the end
of the call. -/
def publish (gen : ℕ) : Bool → Code Result
  | true => .cas .generation gen (gen + 1) fun ok => unlock (if ok then .done else .failed)
  | false => unlock .failed

/-- The writers between their lock and their result; `edit` works on the copied
slot. -/
def locked (edit : ℕ → Code Bool) : Code Result :=
  .read .generation fun gen =>
    ((draft_copy gen).bind fun _ => edit ((gen + 1) % 2)).bind (publish gen)

def flat (t : CStr) : Bool :=
  t.bytes.all fun b => b ≠ '/'.toNat ∧ b ≠ '%'.toNat ∧ b ≠ '?'.toNat ∧ b ≠ '#'.toNat

/-- The lengths `fpm_acme_challenge_set()` lets in. -/
def fits (token keyauth : CStr) : Bool :=
  decide ((0 < token.strlen ∧ token.strlen < TOKEN_MAX)
    ∧ (0 < keyauth.strlen ∧ keyauth.strlen < KEYAUTH_MAX))

/-- `fpm_acme_challenge_set()`. -/
def set (token keyauth : CStr) : Code Result :=
  if fits token keyauth && flat token then
    spinlock (locked fun d => set_draft d token keyauth) LOCK_RETRIES
  else ret .failed

/-- `fpm_acme_challenge_clear()`. -/
def clear (token : CStr) : Code Result :=
  if token.strlen = 0 then ret .failed
  else spinlock (locked fun d => clear_draft d token) LOCK_RETRIES

inductive Op where
  | lookup (token : CStr) (out_len : ℕ)
  | tokens (max : ℕ)
  | set (token keyauth : CStr)
  | clear (token : CStr)
  deriving DecidableEq

def Op.code : Op → Code Result
  | .lookup t out_len => AcmeChallenge.lookup t out_len
  | .tokens max => AcmeChallenge.tokens max
  | .set token keyauth => AcmeChallenge.set token keyauth
  | .clear token => AcmeChallenge.clear token

def Op.apply : Op → Table → Option Table
  | .lookup _ _, _ => none
  | .tokens _, _ => none
  | .set token keyauth, T =>
    if h : fits token keyauth then
      T.insert ⟨token, keyauth, (of_decide_eq_true h).1, (of_decide_eq_true h).2⟩
    else none
  | .clear token, T => some (T.remove token)

/-! ## The machine -/

/-- What a run leaves behind: an operation published the generation after `gen`;
a call returned, with the generations at its start and its end and the number of
its publications. -/
inductive Note where
  | published (gen : ℕ) (op : Op)
  | returned (op : Op) (since now published : ℕ) (r : Result)

/-- The shared memory, and what is not the program's: the table published under
each generation, who holds the lock, and the notes. -/
structure Shared (ι : Type) where
  mem : Loc → ℕ
  states : ℕ → Table
  holder : Option ι
  log : List Note

def Shared.gen {ι : Type} (s : Shared ι) : ℕ := s.mem .generation

/-- A call under way: what is left of its program, the generation at its start,
and the number of its publications. -/
structure Job where
  op : Op
  code : Code Result
  since : ℕ
  published : ℕ

variable {ι : Type}

/-- The memory is now `m`, by an access of process `i` in a call of `op`. -/
def observe (s : Shared ι) (i : ι) (op : Op) (m : Loc → ℕ) : Shared ι where
  mem := m
  states := if m .generation = s.gen then s.states
    else Function.update s.states (m .generation) ((op.apply (s.states s.gen)).getD (s.states s.gen))
  holder := if m .writer_lock = s.mem .writer_lock then s.holder
    else if m .writer_lock = 0 then none else some i
  log := if m .generation = s.gen then s.log else .published s.gen op :: s.log

def resume (s : Shared ι) (i : ι) (job : Job) (next : Code Result × (Loc → ℕ)) :
    Shared ι × Option Job :=
  (observe s i job.op next.2,
    some { job with
      code := next.1
      published := if next.2 .generation = s.gen then job.published else job.published + 1 })

def tick (s : Shared ι) (i : ι) (job : Job) : Shared ι × Option Job :=
  match job.code with
  | .ret r =>
    ({ s with log := .returned job.op job.since s.gen job.published r :: s.log }, none)
  | code => resume s i job (code.access s.mem)

abbrev Machine (ι : Type) := World (Shared ι) ι Job

/-- What `fpm_acme_challenge_init_main()` leaves: a zeroed block, so generation 0
is published and empty. -/
def init (ι : Type) : Machine ι where
  shared := ⟨fun _ => 0, fun _ => Table.empty, none, []⟩
  procs := fun _ => none

inductive Event (ι : Type) where
  | call (i : ι) (op : Op)
  | tick (i : ι)

def step [DecidableEq ι] (w : Machine ι) : Event ι → Machine ι
  | .call i op =>
    match w.procs i with
    | none => w.put i w.shared (some ⟨op, op.code, w.shared.gen, 0⟩)
    | some _ => w
  | .tick i =>
    match w.procs i with
    | none => w
    | some job => w.put i (tick w.shared i job).1 (tick w.shared i job).2

def run [DecidableEq ι] (events : List (Event ι)) : Machine ι := Runs.run step (init ι) events

/-! ## What a note must say -/

/-- **What a call may return.** A key authorization was the table's for exactly that token under a
generation in effect during the call. A listing is that of one such table, up to `max`; or the
call gave up, and the generation moved under each of its four attempts. A writer that succeeded
has published once, one that failed has not. -/
def Answer (states : ℕ → Table) (since now published : ℕ) (r : Result) : Op → Prop
  | .lookup t _ => ∀ data, r = .found data →
    ∃ g, since ≤ g ∧ g ≤ now ∧ ((states g).find t).map (·.bytes) = some data
  | .tokens max => ∃ l, r = .listed l ∧
    ((∃ g, since ≤ g ∧ g ≤ now ∧ l = ((states g).entries.map (·.token.bytes)).take max)
      ∨ (l = [] ∧ since + 4 ≤ now))
  | .set _ _ | .clear _ => (r = .done ∧ published = 1) ∨ (r = .failed ∧ published = 0)

def Note.Right (states : ℕ → Table) (gen : ℕ) : Note → Prop
  | .published g op => g < gen ∧ op.apply (states g) = some (states (g + 1))
  | .returned op since now pubs r => now ≤ gen ∧ Answer states since now pubs r op

variable {op : Op}

lemma Answer.congr {states states' : ℕ → Table} {since now published : ℕ} {r : Result}
    (hs : ∀ g, g ≤ now → states' g = states g) (h : Answer states since now published r op) :
    Answer states' since now published r op := by
  cases op with
  | lookup t out_len =>
    intro data hr
    obtain ⟨g, h1, h2, h3⟩ := h data hr
    exact ⟨g, h1, h2, by rw [hs g h2]; exact h3⟩
  | tokens max =>
    obtain ⟨l, hr, ⟨g, h1, h2, h3⟩ | hgave⟩ := h
    · exact ⟨l, hr, .inl ⟨g, h1, h2, by rw [hs g h2]; exact h3⟩⟩
    · exact ⟨l, hr, .inr hgave⟩
  | set token keyauth => exact h
  | clear token => exact h

lemma Note.Right.congr {states states' : ℕ → Table} {gen gen' : ℕ} {note : Note}
    (hgen : gen ≤ gen') (hs : ∀ g, g ≤ gen → states' g = states g)
    (h : note.Right states gen) : note.Right states' gen' := by
  cases note with
  | published g op =>
    obtain ⟨hlt, happ⟩ := h
    refine ⟨by omega, ?_⟩
    rw [hs g (by omega), hs (g + 1) (by omega)]
    exact happ
  | returned op since now published r =>
    obtain ⟨hle, hans⟩ := h
    exact ⟨by omega, hans.congr (fun g hg => hs g (by omega))⟩

/-! ## The invariant -/

/-- **What holds of the block at any moment**: the slot in effect holds the table published last,
the lock word says whether the lock is held, the first table is empty and every further one has
its publication. -/
structure Global (s : Shared ι) : Prop where
  encodes : Encodes (content s.mem (s.gen % 2)) (s.states s.gen).entries
  lock : s.mem .writer_lock = if s.holder = none then 0 else 1
  log : ∀ note ∈ s.log, note.Right s.states s.gen
  first : s.states 0 = Table.empty
  history : ∀ g, g < s.gen → ∃ op, Note.published g op ∈ s.log

/-- **What a step of `i` can do to the block**, seen by the others: generations only go up, the
slot in effect stands still while its generation is, published tables stay, and nothing moves
while another process holds the lock. -/
structure Effect (i : ι) (s s' : Shared ι) : Prop where
  gen_le : s.gen ≤ s'.gen
  slot : s'.gen = s.gen → ∀ f, s'.mem (.slot (s.gen % 2) f) = s.mem (.slot (s.gen % 2) f)
  states : ∀ g, g ≤ s.gen → s'.states g = s.states g
  held : ∀ j, s.holder = some j → j ≠ i →
    s'.mem = s.mem ∧ s'.states = s.states ∧ s'.holder = s.holder

/-- A scan of the slot of generation `g` is under way: if the generation has not
moved, the rest `q` ends as the whole scan would. -/
structure Scanning {β : Type} (s : Shared ι) (g : ℕ) (full q : Code β) : Prop where
  le : g ≤ s.gen
  reads : q.Reads (InSlot (g % 2))
  same : s.gen = g → (Prog.run q s.mem).1 = (Prog.run full s.mem).1

inductive LookupAt (s : Shared ι) (since : ℕ) (t : CStr) (out_len : ℕ) : Code Result → Prop
  | attempt (k : ℕ) : LookupAt s since t out_len (lookup_attempts t out_len k)
  | again (k : ℕ) :
    LookupAt s since t out_len (.read .generation fun _ => lookup_attempts t out_len k)
  | scanning (k g : ℕ) (l : Loc) (f : ℕ → Code Seen) (hsince : since ≤ g)
    (h : Scanning s g (lookup_scan (g % 2) t out_len) (.read l f)) :
    LookupAt s since t out_len
      (.read l fun v => (f v).bind (lookup_after (lookup_attempts t out_len k) g))
  | seen (k g : ℕ) (c : Seen) (hc : c ≠ .torn) (hsince : since ≤ g)
    (h : Scanning s g (lookup_scan (g % 2) t out_len) (.ret c)) :
    LookupAt s since t out_len (lookup_after (lookup_attempts t out_len k) g c)
  | returns (r : Result) (h : Answer s.states since s.gen 0 r (.lookup t out_len)) :
    LookupAt s since t out_len (.ret r)

/-- Where a listing stands; an attempt that failed has seen the generation move. -/
inductive TokensAt (s : Shared ι) (since max : ℕ) : Code Result → Prop
  | attempt (k : ℕ) (h : since + 4 ≤ s.gen + k) : TokensAt s since max (tokens_attempts max k)
  | scanning (k g : ℕ) (l : Loc) (f : ℕ → Code (Option (List (List ℕ)))) (hsince : since ≤ g)
    (hk : since + 4 ≤ g + (k + 1)) (h : Scanning s g (tokens_scan (g % 2) max) (.read l f)) :
    TokensAt s since max (.read l fun v => (f v).bind (tokens_after (tokens_attempts max k) g))
  | seen (k g : ℕ) (l : List (List ℕ)) (hsince : since ≤ g) (hk : since + 4 ≤ g + (k + 1))
    (h : Scanning s g (tokens_scan (g % 2) max) (.ret (some l))) :
    TokensAt s since max (tokens_after (tokens_attempts max k) g (some l))
  | returns (r : Result) (h : Answer s.states since s.gen 0 r (.tokens max)) :
    TokensAt s since max (.ret r)

structure Sound (op : Op) (edit : ℕ → Code Bool) : Prop where
  writes : ∀ d, (edit d).Writes (InSlot d)
  result : ∀ (m : Loc → ℕ) (d : ℕ) (T : Table), Encodes (content m d) T.entries →
    (Prog.run (edit d) m).1 = true →
    ∃ T', op.apply T = some T' ∧ Encodes (content (Prog.run (edit d) m).2 d) T'.entries

def Outcome (op : Op) (s : Shared ι) (r : Bool × (Loc → ℕ)) : Prop :=
  r.1 = true → ∃ T, op.apply (s.states s.gen) = some T
    ∧ Encodes (content r.2 ((s.gen + 1) % 2)) T.entries

def Wrote (pubs : ℕ) (r : Result) : Prop :=
  (r = .done ∧ pubs = 1) ∨ (r = .failed ∧ pubs = 0)

/-- Where a writer stands. From its lock on nobody else moves the block. -/
inductive WriterAt (s : Shared ι) (i : ι) (op : Op) (pubs : ℕ) : Code Result → Prop
  | waiting (edit : ℕ → Code Bool) (k : ℕ) (he : Sound op edit) (hp : pubs = 0) :
    WriterAt s i op pubs (spinlock (locked edit) k)
  | entered (edit : ℕ → Code Bool) (he : Sound op edit) (hp : pubs = 0) (hi : s.holder = some i) :
    WriterAt s i op pubs (locked edit)
  | editing (q : Code Bool) (hp : pubs = 0) (hi : s.holder = some i) (hq : ∀ b, q ≠ .ret b)
    (hw : q.Writes (InSlot ((s.gen + 1) % 2))) (h : Outcome op s (Prog.run q s.mem)) :
    WriterAt s i op pubs (q.bind (publish s.gen))
  | publishing (hp : pubs = 0) (hi : s.holder = some i) (h : Outcome op s (true, s.mem)) :
    WriterAt s i op pubs (publish s.gen true)
  | unlocking (r : Result) (hr : Wrote pubs r) (hi : s.holder = some i) :
    WriterAt s i op pubs (unlock r)
  | returns (r : Result) (hr : Wrote pubs r) : WriterAt s i op pubs (.ret r)

def Local (s : Shared ι) (i : ι) (job : Job) : Prop :=
  job.since ≤ s.gen ∧
    match job.op with
    | .lookup t out_len => LookupAt s job.since t out_len job.code
    | .tokens max => TokensAt s job.since max job.code
    | .set _ _ | .clear _ => WriterAt s i job.op job.published job.code

/-! ## What a process assumes survives the others -/

section Stability

variable {i j : ι} {s s' : Shared ι}

lemma Scanning.stable {β : Type} {g : ℕ} {full q : Code β} (he : Effect i s s')
    (hfull : full.Reads (InSlot (g % 2))) (h : Scanning s g full q) : Scanning s' g full q where
  le := Nat.le_trans h.le he.gen_le
  reads := h.reads
  same := by
    intro hg
    -- the generation has not moved at all, so the slot has not either
    have hs : s.gen = g := Nat.le_antisymm (Nat.le_trans he.gen_le (Nat.le_of_eq hg)) h.le
    have hslot : ∀ l, InSlot (g % 2) l → s'.mem l = s.mem l := by
      rintro l ⟨f, rfl⟩
      have := he.slot (hg.trans hs.symm) f
      rwa [hs] at this
    rw [h.reads.run_congr hslot, hfull.run_congr hslot]
    exact h.same hs

lemma Answer.later {since pubs : ℕ} {r : Result} (he : Effect i s s')
    (h : Answer s.states since s.gen pubs r op) : Answer s'.states since s'.gen pubs r op := by
  have hc := h.congr he.states
  have hle := he.gen_le
  cases op with
  | lookup t out_len =>
    intro data hr
    obtain ⟨g, h1, h2, h3⟩ := hc data hr
    exact ⟨g, h1, by omega, h3⟩
  | tokens max =>
    obtain ⟨l, hr, ⟨g, h1, h2, h3⟩ | ⟨hl, h4⟩⟩ := hc
    · exact ⟨l, hr, .inl ⟨g, h1, by omega, h3⟩⟩
    · exact ⟨l, hr, .inr ⟨hl, by omega⟩⟩
  | set token keyauth | clear token => exact hc

lemma lookup_full_reads (g : ℕ) (t : CStr) (out_len : ℕ) :
    (lookup_scan (g % 2) t out_len).Reads (InSlot (g % 2)) :=
  lookup_scan_reads (fun f => ⟨f, rfl⟩) t out_len

lemma tokens_full_reads (g max : ℕ) : (tokens_scan (g % 2) max).Reads (InSlot (g % 2)) :=
  tokens_scan_reads (fun f => ⟨f, rfl⟩) max

variable {code : Code Result}

lemma LookupAt.stable {since out_len : ℕ} {t : CStr} (he : Effect i s s')
    (h : LookupAt s since t out_len code) : LookupAt s' since t out_len code := by
  cases h with
  | attempt k => exact .attempt k
  | again k => exact .again k
  | scanning k g l f hsince h =>
    exact .scanning k g l f hsince (h.stable he (lookup_full_reads g t out_len))
  | seen k g c hc hsince h =>
    exact .seen k g c hc hsince (h.stable he (lookup_full_reads g t out_len))
  | returns r h => exact .returns r (h.later he)

lemma TokensAt.stable {since max : ℕ} (he : Effect i s s')
    (h : TokensAt s since max code) : TokensAt s' since max code := by
  cases h with
  | attempt k h => exact .attempt k (Nat.le_trans h (Nat.add_le_add_right he.gen_le k))
  | scanning k g l f hsince hk h =>
    exact .scanning k g l f hsince hk (h.stable he (tokens_full_reads g max))
  | seen k g l hsince hk h => exact .seen k g l hsince hk (h.stable he (tokens_full_reads g max))
  | returns r h => exact .returns r (h.later he)

lemma WriterAt.stable {pubs : ℕ} (he : Effect i s s') (hij : j ≠ i)
    (h : WriterAt s j op pubs code) : WriterAt s' j op pubs code := by
  -- whoever holds the lock finds the block as it left it
  have hsame : s.holder = some j →
      s'.mem = s.mem ∧ s'.states = s.states ∧ s'.holder = s.holder ∧ s'.gen = s.gen := by
    intro hj
    obtain ⟨hm, hst, hh⟩ := he.held j hj hij
    exact ⟨hm, hst, hh, by rw [Shared.gen, hm]; rfl⟩
  cases h with
  | waiting edit k hs hp => exact .waiting edit k hs hp
  | entered edit hs hp hi => exact .entered edit hs hp ((hsame hi).2.2.1.trans hi)
  | editing q hp hi hq hw h =>
    obtain ⟨hm, hst, hh, hg⟩ := hsame hi
    have hnew : WriterAt s' j op pubs _ := .editing q hp (hh.trans hi) hq
      (by rw [hg]; exact hw) (by unfold Outcome at h ⊢; rw [hm, hst, hg]; exact h)
    rwa [hg] at hnew
  | publishing hp hi h =>
    obtain ⟨hm, hst, hh, hg⟩ := hsame hi
    have hnew : WriterAt s' j op pubs _ := .publishing hp (hh.trans hi)
      (by unfold Outcome at h ⊢; rw [hm, hst, hg]; exact h)
    rwa [hg] at hnew
  | unlocking r hr hi => exact .unlocking r hr ((hsame hi).2.2.1.trans hi)
  | returns r hr => exact .returns r hr

lemma Local.stable {job : Job} (he : Effect i s s') (hij : j ≠ i) (h : Local s j job) :
    Local s' j job := by
  obtain ⟨hsince, hat⟩ := h
  refine ⟨Nat.le_trans hsince he.gen_le, ?_⟩
  split at hat
  · exact hat.stable he
  · exact hat.stable he
  · exact hat.stable he hij
  · exact hat.stable he hij

end Stability

end FpmNg.AcmeChallenge
