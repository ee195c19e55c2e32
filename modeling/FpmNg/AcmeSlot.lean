/-
The slots of the ACME challenge table, `fpm_acme_challenge.c`: what a slot of the
shared memory holds, and what the writer and the readers compute on one when
nobody interferes. How they interfere is the subject of `AcmeChallenge`.

The shared block is two slots and a generation counter. A slot is a count and
eight entries of a length, a token buffer and a key authorization buffer. The
programs below are the source's, one access of shared memory after the other: a
`memcpy()` is a read and a write a location, a `strcmp()` reads its buffer byte
by byte, and a counter in shared memory is read again wherever the source names
it.

What a slot means is a list of entries (`Encodes`), and every program has a
lemma that says what it computes from a slot that encodes one.
-/
import FpmNg.Lib.SharedProgram
import FpmNg.AcmeTable

open List Function Option

namespace FpmNg.AcmeSlot

open SharedProgram SharedProgram.Prog AcmeTable

/-! ## The shared block -/

/-- The locations of a slot, `struct fpm_acme_challenge_slot_s`. -/
inductive Field where
  | count
  | keyauth_len (i : ℕ)
  | token (i j : ℕ)
  | keyauth (i j : ℕ)
  deriving DecidableEq

/-- The locations of the block, `struct fpm_acme_challenge_shared_s`. -/
inductive Loc where
  | generation
  | writer_lock
  | slot (s : ℕ) (f : Field)
  deriving DecidableEq

/-- The locations of entry `i`, `struct fpm_acme_challenge_entry_s`. -/
def entry_fields (i : ℕ) : List Field :=
  .keyauth_len i :: ((range TOKEN_MAX).map (.token i) ++ (range KEYAUTH_MAX).map (.keyauth i))

def slot_fields : List Field :=
  .count :: (range CHALLENGE_MAX).flatMap entry_fields

/-- A field of entry `i`, moved to entry `k`. -/
def Field.moved (k : ℕ) : Field → Field
  | .count => .count
  | .keyauth_len _ => .keyauth_len k
  | .token _ j => .token k j
  | .keyauth _ j => .keyauth k j

abbrev Code (α : Type) := Prog Loc ℕ α

/-! ## The programs -/

/-- `strcmp(entry[i].token, t)`, on slot `s`: no difference. -/
def strcmp (s i : ℕ) (t : CStr) : Code Bool :=
  compare (fun j => .slot s (.token i j)) t.bytes (t.strlen + 1) 0

/-- `strncmp(entry[i].token, t, TOKEN_MAX)`, on slot `s`: no difference. -/
def strncmp (s i : ℕ) (t : CStr) : Code Bool :=
  compare (fun j => .slot s (.token i j)) t.bytes TOKEN_MAX 0

/-- What the look at a slot brought: the count was torn, the key authorization,
or no entry with that token. -/
inductive Seen where
  | torn
  | hit (data : List ℕ)
  | miss
  deriving DecidableEq

/-- The loop of `fpm_acme_challenge_lookup()` over the entries; the first
argument is the number of entries left. -/
def lookup_loop (s : ℕ) (t : CStr) (out_len : ℕ) : ℕ → ℕ → Code Seen
  | 0, _ => ret .miss
  | left + 1, i => .read (.slot s (.keyauth_len i)) fun len =>
    if len = 0 ∨ len ≥ KEYAUTH_MAX ∨ len ≥ out_len then lookup_loop s t out_len left (i + 1)
    else (strncmp s i t).bind fun same =>
      if same then
        (load (fun j => .slot s (.keyauth i j)) len 0).bind fun data => ret (.hit data)
      else lookup_loop s t out_len left (i + 1)

/-- One look of `fpm_acme_challenge_lookup()` at slot `s`, up to where it reads
the generation again. -/
def lookup_scan (s : ℕ) (t : CStr) (out_len : ℕ) : Code Seen :=
  .read (.slot s .count) fun count =>
    if count > CHALLENGE_MAX then ret .torn else lookup_loop s t out_len count 0

/-- The string a buffer of `TOKEN_MAX` bytes holds, its last byte forced to zero. -/
def buffer_string (buf : List ℕ) : List ℕ := (buf.set (TOKEN_MAX - 1) 0).takeWhile (· ≠ 0)

/-- The copying loop of `fpm_acme_challenge_tokens()`. -/
def tokens_loop (s : ℕ) : ℕ → ℕ → Code (List (List ℕ))
  | 0, _ => ret []
  | left + 1, i =>
    (load (fun j => .slot s (.token i j)) TOKEN_MAX 0).bind fun buf =>
      (tokens_loop s left (i + 1)).bind fun rest => ret (buffer_string buf :: rest)

/-- One look of `fpm_acme_challenge_tokens()` at slot `s`; nothing if the count
was torn. -/
def tokens_scan (s max : ℕ) : Code (Option (List (List ℕ))) :=
  .read (.slot s .count) fun count =>
    if count > CHALLENGE_MAX then ret none
    else (tokens_loop s (if count > max then max else count) 0).bind fun l => ret (some l)

/-- `fpm_acme_challenge_draft()` behind its read of the generation. -/
def draft_copy (gen : ℕ) : Code Unit :=
  copy (.slot ((gen + 1) % 2)) (.slot (gen % 2)) slot_fields

/-- The search loop of the writers on slot `d`: where it stopped, and whether it
stopped at an entry with the token. `fuel` bounds the turns; a count never
exceeds `CHALLENGE_MAX`. -/
def find_entry (d : ℕ) (t : CStr) : ℕ → ℕ → Code (ℕ × Bool)
  | 0, i => ret (i, false)
  | fuel + 1, i => .read (.slot d .count) fun count =>
    if i < count then
      (strcmp d i t).bind fun same =>
        if same then ret (i, true) else find_entry d t fuel (i + 1)
    else ret (i, false)

def put_entry (d i : ℕ) (token keyauth : CStr) : Code Bool :=
  (fill (.slot d) 0 (entry_fields i)).bind fun _ =>
    (store (fun j => .slot d (.token i j)) (token.bytes ++ [0]) 0).bind fun _ =>
      (store (fun j => .slot d (.keyauth i j)) (keyauth.bytes ++ [0]) 0).bind fun _ =>
        .write (.slot d (.keyauth_len i)) keyauth.strlen (ret true)

/-- `fpm_acme_challenge_set()` behind its search, which stopped at `i`; whether
there is something to publish. -/
def set_at (d i : ℕ) (token keyauth : CStr) : Code Bool :=
  .read (.slot d .count) fun count =>
    if i = count then
      .read (.slot d .count) fun count' =>
        if count' = CHALLENGE_MAX then ret false
        else .read (.slot d .count) fun c =>
          .write (.slot d .count) (c + 1) (put_entry d i token keyauth)
    else put_entry d i token keyauth

/-- `fpm_acme_challenge_set()` on the copied slot `d`. -/
def set_draft (d : ℕ) (token keyauth : CStr) : Code Bool :=
  (find_entry d token (CHALLENGE_MAX + 1) 0).bind fun r => set_at d r.1 token keyauth

/-- Entry `i` of slot `d` goes: the last entry is moved into the hole, its place
is zeroed and the count goes down. -/
def drop_entry (d i : ℕ) : Code Bool :=
  .read (.slot d .count) fun c =>
    (copy (fun f => .slot d (f.moved i)) (fun f => .slot d (f.moved (c - 1))) (entry_fields i)).bind
      fun _ => .read (.slot d .count) fun c' =>
        (fill (.slot d) 0 (entry_fields (c' - 1))).bind fun _ =>
          .read (.slot d .count) fun c'' => .write (.slot d .count) (c'' - 1) (ret true)

/-- `fpm_acme_challenge_clear()` on the copied slot `d`. -/
def clear_draft (d : ℕ) (token : CStr) : Code Bool :=
  (find_entry d token (CHALLENGE_MAX + 1) 0).bind fun r =>
    if r.2 then drop_entry d r.1 else ret true

/-! ## What a slot means -/

/-- Entry `i` of the slot content `c` is `e`. -/
structure EntryAt (c : Field → ℕ) (i : ℕ) (e : Entry) : Prop where
  len : c (.keyauth_len i) = e.keyauth.strlen
  token : ∀ j, j ≤ e.token.strlen → c (.token i j) = e.token.bytes.getD j 0
  keyauth : ∀ j, j < e.keyauth.strlen → c (.keyauth i j) = e.keyauth.bytes.getD j 0

/-- **The slot content `c` holds the entries `l`.** -/
structure Encodes (c : Field → ℕ) (l : List Entry) : Prop where
  count : c .count = l.length
  entry : ∀ i e, l[i]? = some e → EntryAt c i e

/-- The content of slot `s`. -/
def content (m : Loc → ℕ) (s : ℕ) : Field → ℕ := fun f => m (.slot s f)

variable {e : Entry} {i : ℕ}

lemma EntryAt.congr {c c' : Field → ℕ} (h : EntryAt c i e) (hc : ∀ f ∈ entry_fields i, c' f = c f) :
    EntryAt c' i e where
  len := by rw [hc _ (by simp [entry_fields]), h.len]
  token := by
    intro j hj
    have := e.token_fits.2
    rw [hc _ (by simp [entry_fields]; omega), h.token j hj]
  keyauth := by
    intro j hj
    have := e.keyauth_fits.2
    rw [hc _ (by simp [entry_fields]; omega), h.keyauth j hj]

/-! ## What the programs touch -/

variable {R : Loc → Prop} {s : ℕ}

lemma lookup_loop_reads (hR : ∀ f, R (.slot s f)) (t : CStr) (out_len left i : ℕ) :
    (lookup_loop s t out_len left i).Reads R := by
  induction left generalizing i with
  | zero => trivial
  | succ left ih =>
    refine ⟨hR _, fun len => ?_⟩
    dsimp only
    split
    · exact ih (i + 1)
    · refine (compare_reads _ _ (fun _ => hR _)).bind fun same => ?_
      split
      · exact (load_reads _ _ (fun _ => hR _)).bind fun _ => trivial
      · exact ih (i + 1)

lemma lookup_scan_reads (hR : ∀ f, R (.slot s f)) (t : CStr) (out_len : ℕ) :
    (lookup_scan s t out_len).Reads R := by
  refine ⟨hR _, fun count => ?_⟩
  dsimp only
  split
  · trivial
  · exact lookup_loop_reads hR t out_len _ _

lemma tokens_loop_reads (hR : ∀ f, R (.slot s f)) (left i : ℕ) :
    (tokens_loop s left i).Reads R := by
  induction left generalizing i with
  | zero => trivial
  | succ left ih =>
    exact (load_reads _ _ (fun _ => hR _)).bind fun _ => (ih (i + 1)).bind fun _ => trivial

lemma tokens_scan_reads (hR : ∀ f, R (.slot s f)) (max : ℕ) : (tokens_scan s max).Reads R := by
  refine ⟨hR _, fun count => ?_⟩
  dsimp only
  split
  · trivial
  · exact (tokens_loop_reads hR _ _).bind fun _ => trivial

lemma find_entry_reads {d : ℕ} (hR : ∀ f, R (.slot d f)) (t : CStr) (fuel i : ℕ) :
    (find_entry d t fuel i).Reads R := by
  induction fuel generalizing i with
  | zero => trivial
  | succ fuel ih =>
    refine ⟨hR _, fun count => ?_⟩
    dsimp only
    split
    · refine (compare_reads _ _ (fun _ => hR _)).bind fun same => ?_
      split
      · trivial
      · exact ih (i + 1)
    · trivial

/-- The locations of slot `d`. -/
def InSlot (d : ℕ) (l : Loc) : Prop := ∃ f, l = .slot d f

def Field.index : Field → Option ℕ
  | .count => none
  | .keyauth_len i | .token i _ | .keyauth i _ => some i

/-- The locations of entry `i` of slot `d`. -/
def InEntry (d i : ℕ) (l : Loc) : Prop := ∃ f : Field, f.index = some i ∧ l = .slot d f

variable {f : Field}

lemma entry_fields_index (h : f ∈ entry_fields i) : f.index = some i := by
  simp only [entry_fields, mem_cons, mem_append, List.mem_map] at h
  rcases h with rfl | ⟨j, _, rfl⟩ | ⟨j, _, rfl⟩ <;> rfl

lemma InEntry.inSlot {d i : ℕ} (l : Loc) (h : InEntry d i l) : InSlot d l := by
  obtain ⟨f, _, hl⟩ := h
  exact ⟨f, hl⟩

lemma not_inEntry {d i : ℕ} (h : f.index ≠ some i) : ¬ InEntry d i (.slot d f) := by
  rintro ⟨f', hi, heq⟩
  injection heq with _ hf
  exact h (hf ▸ hi)

lemma put_entry_writes (d i : ℕ) (token keyauth : CStr) :
    (put_entry d i token keyauth).Writes (InEntry d i) := by
  refine (fill_writes _ (fun f hf => ⟨f, entry_fields_index hf, rfl⟩)).bind fun _ => ?_
  refine (store_writes _ _ (fun _ _ => ⟨_, rfl, rfl⟩)).bind fun _ => ?_
  refine (store_writes _ _ (fun _ _ => ⟨_, rfl, rfl⟩)).bind fun _ => ?_
  exact ⟨⟨_, rfl, rfl⟩, trivial⟩

lemma set_draft_writes (d : ℕ) (token keyauth : CStr) :
    (set_draft d token keyauth).Writes (InSlot d) := by
  refine (find_entry_reads (R := InSlot d) (fun f => ⟨f, rfl⟩) _ _ _).writes.bind fun r => ?_
  have hput := (put_entry_writes d r.1 token keyauth).mono InEntry.inSlot
  intro count
  dsimp only
  split
  · intro count'
    dsimp only
    split
    · trivial
    · exact fun c => ⟨⟨_, rfl⟩, hput⟩
  · exact hput

lemma clear_draft_writes (d : ℕ) (token : CStr) : (clear_draft d token).Writes (InSlot d) := by
  refine (find_entry_reads (R := InSlot d) (fun f => ⟨f, rfl⟩) _ _ _).writes.bind fun r => ?_
  split
  · intro c
    refine (copy_writes _ (fun f _ => ⟨_, rfl⟩)).bind fun _ => ?_
    intro c'
    refine (fill_writes _ (fun f _ => ⟨f, rfl⟩)).bind fun _ => ?_
    exact fun c'' => ⟨⟨_, rfl⟩, trivial⟩
  · trivial

/-! ## What the readers compute -/

section Readers

variable {m : Loc → ℕ} {s : ℕ} {l : List Entry}

lemma strcmp_run (h : EntryAt (content m s) i e) (t : CStr) :
    (run (strcmp s i t) m).1 = decide (e.token = t) := by
  have hrun := compare_run (fun j => Loc.slot s (.token i j)) [] e.token.bytes
    t.bytes (t.strlen + 1) e.token.nonzero t.nonzero (fun j hj => h.token j hj)
    (.inr (Nat.lt_succ_self _))
  refine hrun.trans ?_
  exact decide_eq_decide.mpr ⟨CStr.ext, fun heq => congrArg CStr.bytes heq⟩

lemma strncmp_run (h : EntryAt (content m s) i e) (t : CStr) :
    (run (strncmp s i t) m).1 = decide (e.token = t) := by
  have hrun := compare_run (fun j => Loc.slot s (.token i j)) [] e.token.bytes
    t.bytes TOKEN_MAX e.token.nonzero t.nonzero (fun j hj => h.token j hj)
    (.inl e.token_fits.2)
  refine hrun.trans ?_
  exact decide_eq_decide.mpr ⟨CStr.ext, fun heq => congrArg CStr.bytes heq⟩

lemma map_range_getD (u : List ℕ) : (range u.length).map (fun j => u.getD j 0) = u := by
  apply ext_getElem
  · simp
  · intro j h1 h2
    simp [h2]

lemma load_keyauth_run (h : EntryAt (content m s) i e) :
    (run (load (fun j => .slot s (.keyauth i j)) e.keyauth.strlen 0) m).1 = e.keyauth.bytes := by
  rw [load_run]
  refine Eq.trans ?_ (map_range_getD e.keyauth.bytes)
  apply map_congr_left
  intro j hj
  rw [Nat.zero_add]
  exact h.keyauth j (mem_range.mp hj)

theorem lookup_loop_hit (henc : Encodes (content m s) l) (t : CStr) (out_len left i : ℕ)
    (hi : i + left = l.length) (data : List ℕ)
    (h : (run (lookup_loop s t out_len left i) m).1 = .hit data) :
    ∃ e ∈ l, e.token = t ∧ e.keyauth.bytes = data := by
  induction left generalizing i with
  | zero => simp [lookup_loop] at h
  | succ left ih =>
    have hlt : i < l.length := by omega
    have he := henc.entry i l[i] (getElem?_eq_getElem hlt)
    rw [lookup_loop, run_read] at h
    split at h
    · exact ih (i + 1) (by omega) h
    · rw [run_bind, strncmp_run he] at h
      have hmem : (run (strncmp s i t) m).2 = m :=
        (compare_reads (R := fun _ => True) _ _ (fun _ => trivial)).run_mem m
      rw [hmem] at h
      split at h
      · next hsame =>
        rw [run_bind, run_ret] at h
        have hlen : m (.slot s (.keyauth_len i)) = (l[i]).keyauth.strlen := he.len
        rw [hlen, load_keyauth_run he] at h
        injection h with hdata
        exact ⟨l[i], getElem_mem hlt, of_decide_eq_true hsame, hdata⟩
      · exact ih (i + 1) (by omega) h

lemma lookup_scan_hit (henc : Encodes (content m s) l) (t : CStr) (out_len : ℕ)
    (data : List ℕ) (h : (run (lookup_scan s t out_len) m).1 = .hit data) :
    ∃ e ∈ l, e.token = t ∧ e.keyauth.bytes = data := by
  have hcount : m (.slot s .count) = l.length := henc.count
  rw [lookup_scan, run_read, hcount] at h
  split at h
  · simp at h
  · exact lookup_loop_hit henc t out_len l.length 0 (by omega) data h

lemma takeWhile_row (u buf : List ℕ) (hu : ∀ b ∈ u, b ≠ 0)
    (hrow : ∀ j, j ≤ u.length → buf[j]? = some (u.getD j 0)) :
    buf.takeWhile (· ≠ 0) = u := by
  induction u generalizing buf with
  | nil =>
    have h0 := hrow 0 (Nat.le_refl _)
    cases buf with
    | nil => rfl
    | cons b buf =>
      have hb : b = 0 := by simpa using h0
      simp [hb]
  | cons c u ih =>
    have h0 := hrow 0 (Nat.zero_le _)
    cases buf with
    | nil => simp at h0
    | cons b buf =>
      have hb : b = c := by simpa using h0
      have hc := hu c mem_cons_self
      have hrest := ih buf (fun b hb => hu b (mem_cons_of_mem c hb)) (fun j hj => by
        have := hrow (j + 1) (by simp only [length_cons]; omega)
        simpa using this)
      rw [hb, takeWhile_cons, if_pos (by simpa using hc), hrest]

lemma buffer_string_run (h : EntryAt (content m s) i e) :
    buffer_string (run (load (fun j => .slot s (.token i j)) TOKEN_MAX 0) m).1 = e.token.bytes := by
  rw [load_run]
  apply takeWhile_row _ _ e.token.nonzero
  intro j hj
  have hfit := e.token_fits.2
  have hj' : j < TOKEN_MAX := Nat.lt_of_le_of_lt hj hfit
  have hrow := h.token j hj
  rw [getElem?_set]
  by_cases hlast : TOKEN_MAX - 1 = j
  · -- a token of 127 bytes ends at the forced zero
    have hend : e.token.bytes.length ≤ j := by
      have : e.token.bytes.length < TOKEN_MAX := hfit
      omega
    rw [if_pos hlast, if_pos (by simp), getD_eq_getElem?_getD,
      getElem?_eq_none hend, getD_none]
  · rw [if_neg hlast, getElem?_map, getElem?_range hj', map_some, Nat.zero_add]
    exact congrArg some hrow

theorem tokens_loop_run (henc : Encodes (content m s) l) (left i : ℕ) (hi : i + left ≤ l.length) :
    (run (tokens_loop s left i) m).1 = ((l.drop i).take left).map (·.token.bytes) := by
  induction left generalizing i with
  | zero => simp [tokens_loop]
  | succ left ih =>
    have hlt : i < l.length := by omega
    have he := henc.entry i l[i] (getElem?_eq_getElem hlt)
    have hmem : ∀ n, (run (load (fun j => Loc.slot s (.token i j)) n 0) m).2 = m := fun n =>
      (load_reads (R := fun _ => True) _ _ (fun _ => trivial)).run_mem m
    rw [tokens_loop, run_bind, run_bind, run_ret, hmem, ih (i + 1) (by omega), buffer_string_run he,
      drop_eq_getElem_cons hlt, take_succ_cons, map_cons]

lemma tokens_scan_run (henc : Encodes (content m s) l) (hl : l.length ≤ CHALLENGE_MAX) (max : ℕ) :
    (run (tokens_scan s max) m).1 = some ((l.map (·.token.bytes)).take max) := by
  have hcount : m (.slot s .count) = l.length := henc.count
  rw [tokens_scan, run_read, hcount, if_neg (by omega), run_bind, run_ret,
    tokens_loop_run henc _ 0 (by split <;> omega), drop_zero, ← map_take]
  by_cases hmax : l.length > max
  · rw [if_pos hmax]
  · rw [if_neg hmax, take_of_length_le (Nat.le_refl _), take_of_length_le (by omega)]

end Readers

/-! ## What the writers compute -/

section Writers

variable {m : Loc → ℕ} {d : ℕ} {l : List Entry}

lemma find_entry_run (henc : Encodes (content m d) l) (t : CStr) (fuel i : ℕ)
    (hi : i ≤ l.length) (hfuel : l.length < i + fuel) :
    (run (find_entry d t fuel i) m).1
      = (i + position (l.drop i) t, decide (i + position (l.drop i) t < l.length)) := by
  have hcount : m (.slot d .count) = l.length := henc.count
  induction fuel generalizing i with
  | zero => omega
  | succ fuel ih =>
    rw [find_entry, run_read, hcount]
    by_cases hlt : i < l.length
    · have he := henc.entry i l[i] (getElem?_eq_getElem hlt)
      have hmem : (run (strcmp d i t) m).2 = m :=
        (compare_reads (R := fun _ => True) _ _ (fun _ => trivial)).run_mem m
      rw [if_pos hlt, run_bind, strcmp_run he, hmem, drop_eq_getElem_cons hlt, position,
        findIdx_cons]
      by_cases hsame : l[i].token = t
      · rw [decide_eq_true hsame]
        simp [hlt]
      · rw [decide_eq_false hsame]
        have hrest := ih (i + 1) (by omega) (by omega)
        have hpos : i + ((l.drop (i + 1)).findIdx (fun e => e.token = t) + 1)
            = i + 1 + position (l.drop (i + 1)) t := by
          unfold position
          omega
        simp only [cond_false, Bool.false_eq_true, if_false, hpos]
        exact hrest
    · have hend : i = l.length := by omega
      rw [if_neg hlt, run_ret, hend, drop_length]
      simp [position]

lemma find_entry_start (henc : Encodes (content m d) l) (hl : l.length ≤ CHALLENGE_MAX)
    (t : CStr) :
    run (find_entry d t (CHALLENGE_MAX + 1) 0) m
      = ((position l t, decide (position l t < l.length)), m) := by
  have hval := find_entry_run henc t (CHALLENGE_MAX + 1) 0 (Nat.zero_le _) (by omega)
  have hmem := (find_entry_reads (R := fun _ => True) (d := d) (fun _ => trivial) t
    (CHALLENGE_MAX + 1) 0).run_mem m
  rw [drop_zero, Nat.zero_add] at hval
  exact Prod.ext hval hmem

lemma getElem?_terminated (u : CStr) (j : ℕ) (hj : j ≤ u.strlen) :
    (u.bytes ++ [0])[j]? = some (u.bytes.getD j 0) := by
  have hj' : j ≤ u.bytes.length := hj
  rcases Nat.lt_or_ge j u.bytes.length with hlt | hge
  · rw [getElem?_append_left hlt, getD_eq_getElem?_getD, getElem?_eq_getElem hlt]
    rfl
  · have heq : j = u.bytes.length := Nat.le_antisymm hj' hge
    rw [heq, getElem?_append_right (Nat.le_refl _)]
    simp

lemma put_entry_run (i : ℕ) (e : Entry) :
    (run (put_entry d i e.token e.keyauth) m).1 = true
      ∧ EntryAt (content (run (put_entry d i e.token e.keyauth) m).2 d) i e := by
  unfold put_entry
  simp only [run_bind, run_write, run_ret, true_and]
  generalize (run (fill (Loc.slot d) 0 (entry_fields i)) m).2 = m1
  have htoken : ∀ j, j ≤ e.token.strlen →
      (run (store (fun j => Loc.slot d (.token i j)) (e.token.bytes ++ [0]) 0) m1).2
        (.slot d (.token i j)) = e.token.bytes.getD j 0 := by
    intro j hj
    have hrun := store_run (fun j => Loc.slot d (.token i j)) (fun a b h => by simpa using h)
      (e.token.bytes ++ [0]) 0 m1 (getElem?_terminated e.token j hj)
    rwa [Nat.zero_add] at hrun
  generalize (run (store (fun j => Loc.slot d (.token i j)) (e.token.bytes ++ [0]) 0) m1).2 = m2
    at htoken ⊢
  have hkeyauth : ∀ j, j < e.keyauth.strlen →
      (run (store (fun j => Loc.slot d (.keyauth i j)) (e.keyauth.bytes ++ [0]) 0) m2).2
        (.slot d (.keyauth i j)) = e.keyauth.bytes.getD j 0 := by
    intro j hj
    have hrun := store_run (fun j => Loc.slot d (.keyauth i j))
      (fun a b h => by simpa using h) (e.keyauth.bytes ++ [0]) 0 m2
      (getElem?_terminated e.keyauth j (Nat.le_of_lt hj))
    rwa [Nat.zero_add] at hrun
  -- the key authorization is not stored over the token
  have hkept : ∀ j, (run (store (fun j => Loc.slot d (.keyauth i j)) (e.keyauth.bytes ++ [0]) 0) m2).2
      (.slot d (.token i j)) = m2 (.slot d (.token i j)) := by
    intro j
    refine (store_writes (W := fun l => ∃ k, l = Loc.slot d (.keyauth i k)) _ _
      (fun k _ => ⟨k, rfl⟩)).run_other m2 ?_
    rintro ⟨k, hk⟩
    simp at hk
  refine ⟨update_self .., ?_, ?_⟩
  · intro j hj
    exact (update_of_ne (by simp) ..).trans ((hkept j).trans (htoken j hj))
  · intro j hj
    exact (update_of_ne (by simp) ..).trans (hkeyauth j hj)

lemma put_entry_other (i : ℕ) (token keyauth : CStr) (h : f.index ≠ some i) :
    content (run (put_entry d i token keyauth) m).2 d f = content m d f :=
  (put_entry_writes d i token keyauth).run_other m (not_inEntry h)

lemma put_over (henc : Encodes (content m d) l) (e : Entry) (hi : i < l.length) :
    Encodes (content (run (put_entry d i e.token e.keyauth) m).2 d) (l.set i e) where
  count := by
    rw [put_entry_other _ _ _ (by simp [Field.index]), length_set]
    exact henc.count
  entry := by
    intro k e' he'
    by_cases hk : i = k
    · rw [← hk, getElem?_set_self hi] at he'
      rw [← hk, ← some.inj he']
      exact (put_entry_run i e).2
    · rw [getElem?_set_ne hk] at he'
      refine (henc.entry k e' he').congr ?_
      intro f hf
      refine put_entry_other _ _ _ ?_
      rw [entry_fields_index hf]
      simpa using fun h => hk h.symm

lemma put_behind (henc : Encodes (content m d) l) (e : Entry) :
    Encodes (content (run (put_entry d l.length e.token e.keyauth)
      (update m (.slot d .count) (l.length + 1))).2 d) (l ++ [e]) where
  count := by
    rw [put_entry_other _ _ _ (by simp [Field.index]), length_append]
    exact update_self ..
  entry := by
    intro k e' he'
    rcases Nat.lt_or_ge k l.length with hlt | hge
    · rw [getElem?_append_left hlt] at he'
      refine (henc.entry k e' he').congr ?_
      intro f hf
      have hfk := entry_fields_index hf
      rw [put_entry_other _ _ _ (by rw [hfk]; simp only [ne_eq, some.injEq]; omega)]
      refine update_of_ne ?_ ..
      intro heq
      injection heq with _ hf'
      rw [hf'] at hfk
      simp [Field.index] at hfk
    · rw [getElem?_append_right hge] at he'
      have hk : k - l.length = 0 := by
        have hb := (List.getElem?_eq_some_iff.mp he').1
        simpa using hb
      rw [hk, getElem?_cons_zero] at he'
      rw [show k = l.length by omega, ← some.inj he']
      exact (put_entry_run l.length e).2

lemma set_at_run {n : ℕ} (hcount : m (.slot d .count) = n) (i : ℕ) (token keyauth : CStr) :
    run (set_at d i token keyauth) m = if i = n then if n = CHALLENGE_MAX then (false, m)
          else run (put_entry d i token keyauth) (update m (.slot d .count) (n + 1))
        else run (put_entry d i token keyauth) m := by
  subst hcount
  rw [set_at, run_read]
  by_cases hnew : i = m (.slot d .count)
  · rw [if_pos hnew, if_pos hnew, run_read]
    by_cases hfull : m (.slot d .count) = CHALLENGE_MAX
    · rw [if_pos hfull, if_pos hfull, run_ret]
    · rw [if_neg hfull, if_neg hfull, run_read, run_write]
  · rw [if_neg hnew, if_neg hnew]

lemma set_draft_eq (henc : Encodes (content m d) l) (hl : l.length ≤ CHALLENGE_MAX)
    (token keyauth : CStr) :
    run (set_draft d token keyauth) m = run (set_at d (position l token) token keyauth) m := by
  rw [set_draft, run_bind, find_entry_start henc hl]

/-- **`fpm_acme_challenge_set()` on a copied slot.** It refuses a new token when
the table is full, and otherwise leaves the slot with the entry in it. -/
theorem set_draft_run (henc : Encodes (content m d) l) (hl : l.length ≤ CHALLENGE_MAX) (e : Entry) :
    (run (set_draft d e.token e.keyauth) m).1
        = !(decide (position l e.token = l.length) && decide (l.length = CHALLENGE_MAX))
      ∧ ((run (set_draft d e.token e.keyauth) m).1 = true →
          Encodes (content (run (set_draft d e.token e.keyauth) m).2 d) (inserted l e)) := by
  have hpos : position l e.token ≤ l.length := findIdx_le_length
  rw [set_draft_eq henc hl, set_at_run henc.count, inserted]
  by_cases hnew : position l e.token = l.length
  · have hnot : ¬ position l e.token < l.length := by omega
    rw [if_pos hnew, if_neg hnot, decide_eq_true hnew, hnew]
    by_cases hfull : l.length = CHALLENGE_MAX
    · rw [if_pos hfull, decide_eq_true hfull]
      exact ⟨rfl, by simp⟩
    · rw [if_neg hfull, decide_eq_false hfull]
      exact ⟨(put_entry_run l.length e).1, fun _ => put_behind henc e⟩
  · have hlt : position l e.token < l.length := by omega
    rw [if_neg hnew, if_pos hlt, decide_eq_false hnew]
    exact ⟨(put_entry_run _ e).1, fun _ => put_over henc e hlt⟩

lemma moved_index {i k : ℕ} (h : f ∈ entry_fields i) : (f.moved k).index = some k := by
  have hf := entry_fields_index h
  cases f with
  | count => simp [Field.index] at hf
  | _ => rfl

lemma moved_self (h : f ∈ entry_fields i) : f.moved i = f := by
  have hf := entry_fields_index h
  cases f with
  | count => rfl
  | _ => rw [Field.moved, some.inj hf]

/-- Entry `k` of slot `d` assigned to entry `i`. -/
def assign (d i k : ℕ) : Code Unit :=
  copy (fun f => .slot d (f.moved i)) (fun f => .slot d (f.moved k)) (entry_fields i)

lemma assign_other {i k : ℕ} (hf : f.index ≠ some i) :
    content (run (assign d i k) m).2 d f = content m d f := by
  have hwrites : (assign d i k).Writes (InEntry d i) := by
    apply copy_writes
    intro f' hf'
    exact ⟨_, moved_index hf', rfl⟩
  exact hwrites.run_other m (not_inEntry hf)

lemma assign_run {i k : ℕ} (hik : i ≠ k) (h : EntryAt (content m d) k e) :
    EntryAt (content (run (assign d i k) m).2 d) i e := by
  have hcopy : ∀ f ∈ entry_fields i,
      content (run (assign d i k) m).2 d f = content m d (f.moved k) := by
    intro f hf
    have hrun := copy_run (fun f => Loc.slot d (f.moved i))
      (fun f => Loc.slot d (f.moved k)) (entry_fields i)
      (by
        intro x hx y hy hxy
        injection hxy with _ hxy'
        rwa [moved_self hx, moved_self hy] at hxy')
      (by
        intro x hx y hy hxy
        injection hxy with _ hxy'
        have hidx := congrArg Field.index hxy'
        rw [moved_index hx, moved_index hy] at hidx
        exact hik (some.inj hidx)) m hf
    simp only [moved_self hf] at hrun
    unfold assign content
    exact hrun
  refine ⟨?_, ?_, ?_⟩
  · rw [hcopy _ (by simp [entry_fields])]
    exact h.len
  · intro j hj
    have hfit := e.token_fits.2
    rw [hcopy _ (by simp [entry_fields]; omega)]
    exact h.token j hj
  · intro j hj
    have hfit := e.keyauth_fits.2
    rw [hcopy _ (by simp [entry_fields]; omega)]
    exact h.keyauth j hj

lemma shrink_run {n : ℕ} (henc : ∀ k e, k ≠ n → l[k]? = some e → EntryAt (content m d) k e)
    (hn : n + 1 = l.length) :
    Encodes (content (update (run (fill (Loc.slot d) 0 (entry_fields n)) m).2
      (.slot d .count) n) d) l.dropLast where
  count := by
    rw [length_dropLast, ← hn]
    exact update_self ..
  entry := by
    intro k e he
    rw [getElem?_dropLast] at he
    split at he
    · next hk =>
      refine (henc k e (by omega) he).congr ?_
      intro f hf
      have hfk := entry_fields_index hf
      have hcount : Loc.slot d f ≠ .slot d .count := by
        intro heq
        injection heq with _ hf'
        rw [hf'] at hfk
        simp [Field.index] at hfk
      refine (update_of_ne hcount ..).trans ?_
      refine (fill_writes _ (fun f' hf' => ⟨f', entry_fields_index hf', rfl⟩)).run_other
        m (not_inEntry ?_)
      rw [hfk]
      simp only [ne_eq, some.injEq]
      omega
    · simp at he

lemma drop_entry_run (henc : Encodes (content m d) l) {last : Entry}
    (hlast : l.getLast? = some last) (hi : i < l.length) :
    (run (drop_entry d i) m).1 = true
      ∧ Encodes (content (run (drop_entry d i) m).2 d) (l.set i last).dropLast := by
  have hcount : m (.slot d .count) = l.length := henc.count
  have hlast' : l[l.length - 1]? = some last := by
    rw [← hlast, getLast?_eq_getElem?]
  have hcount1 : (run (assign d i (l.length - 1)) m).2 (.slot d .count) = l.length :=
    (assign_other (by simp [Field.index])).trans hcount
  have hcount2 : ∀ m' : Loc → ℕ, (run (fill (Loc.slot d) 0 (entry_fields (l.length - 1))) m').2
      (.slot d .count) = m' (.slot d .count) := fun m' =>
    (fill_writes _
      (fun f' hf' => ⟨f', entry_fields_index hf', rfl⟩)).run_other m'
      (not_inEntry (by simp [Field.index]))
  have hrun : run (drop_entry d i) m
      = (true, update (run (fill (Loc.slot d) 0 (entry_fields (l.length - 1)))
          (run (assign d i (l.length - 1)) m).2).2 (.slot d .count) (l.length - 1)) := by
    unfold drop_entry
    rw [run_read, hcount, run_bind]
    change run _ (run (assign d i (l.length - 1)) m).2 = _
    rw [run_read, hcount1, run_bind, run_read, hcount2, hcount1, run_write, run_ret]
  rw [hrun]
  refine ⟨rfl, shrink_run ?_ (by rw [length_set]; omega)⟩
  intro k e hk he
  by_cases hki : i = k
  · -- the hole: the last entry was assigned to it
    rw [← hki, getElem?_set_self hi] at he
    rw [← hki, ← some.inj he]
    exact assign_run (by rw [hki]; exact hk) (henc.entry _ _ hlast')
  · rw [getElem?_set_ne hki] at he
    refine (henc.entry k e he).congr ?_
    intro f hf
    refine assign_other ?_
    rw [entry_fields_index hf]
    simpa using fun h => hki h.symm

theorem clear_draft_run (henc : Encodes (content m d) l) (hl : l.length ≤ CHALLENGE_MAX)
    (t : CStr) :
    (run (clear_draft d t) m).1 = true
      ∧ Encodes (content (run (clear_draft d t) m).2 d) (removed l t) := by
  unfold clear_draft removed
  rw [run_bind, find_entry_start henc hl]
  cases hlast : l.getLast? with
  | none =>
    have hnil : l = [] := getLast?_eq_none_iff.mp hlast
    subst hnil
    exact ⟨rfl, henc⟩
  | some last =>
    by_cases hlt : position l t < l.length
    · simp only [decide_eq_true hlt, if_true, if_pos hlt]
      exact drop_entry_run henc hlast hlt
    · simp only [decide_eq_false hlt, Bool.false_eq_true, if_false, if_neg hlt]
      exact ⟨rfl, henc⟩

lemma draft_copy_run {g : ℕ} (henc : Encodes (content m (g % 2)) l)
    (hl : l.length ≤ CHALLENGE_MAX) :
    Encodes (content (run (draft_copy g) m).2 ((g + 1) % 2)) l := by
  have hcopy : ∀ f ∈ slot_fields,
      content (run (draft_copy g) m).2 ((g + 1) % 2) f = content m (g % 2) f := by
    intro f hf
    have hrun := copy_run (Loc.slot ((g + 1) % 2)) (Loc.slot (g % 2)) slot_fields
      (by
        intro x _ y _ h
        injection h)
      (by
        intro x _ y _ h
        injection h with hs _
        omega) m hf
    unfold draft_copy content
    exact hrun
  have hcount : Field.count ∈ slot_fields := by
    exact .head _
  refine ⟨?_, ?_⟩
  · rw [hcopy _ hcount]
    exact henc.count
  · intro i e he
    refine (henc.entry i e he).congr ?_
    intro f hf
    refine hcopy f ?_
    have hi : i < l.length := (List.getElem?_eq_some_iff.mp he).1
    refine mem_cons_of_mem _ (mem_flatMap.mpr ⟨i, mem_range.mpr ?_, hf⟩)
    omega

end Writers

end FpmNg.AcmeSlot
