/-
The master's side of the TLS reload: `fpm_tls_reload_master_init` and
`fpm_tls_reload_master_tick` of `fpm_tls_reload.c`, with the two readers of
`fpm_tls_http.c` they call.

A tick reads each file up to three times: for its digest, for the validation and
for the load. Other programs write the files whenever they like, so the model
takes one read a step and lets any writes fall between two steps. A read is
whole: it sees the file as one write left it. `sha256` and the judgement of
OpenSSL on a pair are parameters, and `RAND_bytes` does not fail. The ticket key
and the log are left out. The generation is a natural number for an `atomic_t`;
only its parity is used, which survives the wrap of a word.

The tick remembers the digests it took first, also when what it validated
afterwards was something else. So a pair can be remembered without having been
published; `Misses` says, read by read, when this happens.
-/
import FpmNg.Bytes
import FpmNg.Lib.Runs
import Mathlib.Logic.Function.Iterate

open Runs Function

namespace FpmNg.TlsReload

abbrev FPM_TLS_RELOAD_MAX_CERT : ℕ := 65536
abbrev FPM_TLS_RELOAD_MAX_KEY : ℕ := 16384

/-! ## Files and digests -/

/-- What stands at a path; `none` if it cannot be read as a regular file. -/
abbrev File := Option Bytes

/-- OpenSSL: SHA-256, the all-zero digest, and `fpm_tls_http_check` of a
certificate and a key. -/
structure OpenSsl (δ : Type) where
  sha256 : Bytes → δ
  zero : δ
  check : Bytes → Bytes → Bool

/-- `size_le`: the low eight bytes of a size, little end first. -/
def size_le (size : ℕ) : Bytes := (List.range 8).map fun n => (size >>> (8 * n)).toUInt8

def fpm_tls_reload_file_digest {δ : Type} (ssl : OpenSsl δ) (max_bytes : ℕ) (content : Bytes) : δ :=
  ssl.sha256 (size_le content.length ++ content.take max_bytes)

def cert_digest_of {δ : Type} (ssl : OpenSsl δ) (content : Bytes) : δ :=
  fpm_tls_reload_file_digest ssl FPM_TLS_RELOAD_MAX_CERT content

def key_digest_of {δ : Type} (ssl : OpenSsl δ) (content : Bytes) : δ :=
  fpm_tls_reload_file_digest ssl FPM_TLS_RELOAD_MAX_KEY content

/-! ## State -/

/-- `struct fpm_tls_reload_slot_s`; the lengths are those of the two texts. -/
structure Slot where
  cert_pem : Bytes
  key_pem : Bytes
  deriving DecidableEq

inductive Phase (δ : Type) where
  /-- The baseline of `fpm_tls_reload_master_init`. -/
  | baseline_cert
  | baseline_key
  /-- Between two ticks. -/
  | idle
  | digest_key (cert_digest : δ)
  | validate_cert (cert_digest key_digest : δ)
  | validate_key (cert_digest key_digest : δ) (cert_pem : Bytes)
  | load_cert (cert_digest key_digest : δ)
  | load_key (cert_digest key_digest : δ) (cert_pem : Bytes)
  deriving DecidableEq

/-- The two files, the master's memory and the shared slots. `ticks` counts the
ticks that have ended. -/
structure State (δ : Type) where
  cert : File
  key : File
  cert_digest : δ
  key_digest : δ
  generation : ℕ
  slot : Slot × Slot
  phase : Phase δ
  ticks : ℕ
  deriving DecidableEq

variable {δ : Type}

/-- The slot in effect, `slot[generation % 2]`. -/
def State.published (s : State δ) : Slot := if s.generation % 2 = 0 then s.slot.1 else s.slot.2

/-! ## The functions of the source -/

/-- `fpm_tls_reload_master_init`, up to its first read. A startup pair larger
than the buffers disables the reload. -/
def fpm_tls_reload_master_init (ssl : OpenSsl δ) (initial : Option Slot) (cert key : File) :
    Option (State δ) :=
  match initial with
  | none => some ⟨cert, key, ssl.zero, ssl.zero, 0, (⟨[], []⟩, ⟨[], []⟩), .idle, 0⟩
  | some slot =>
    if FPM_TLS_RELOAD_MAX_CERT < slot.cert_pem.length ∨ FPM_TLS_RELOAD_MAX_KEY < slot.key_pem.length
    then none
    else some ⟨cert, key, ssl.zero, ssl.zero, 0, (slot, ⟨[], []⟩), .baseline_cert, 0⟩

def State.end_tick (s : State δ) : State δ := { s with phase := .idle, ticks := s.ticks + 1 }

/-- The two `memcpy` that remember the digests, and the return. -/
def State.remember (s : State δ) (cert_digest key_digest : δ) : State δ :=
  { s with cert_digest := cert_digest, key_digest := key_digest }.end_tick

def State.publish (s : State δ) (fresh : Slot) : State δ :=
  { s with
    slot := if (s.generation + 1) % 2 = 0 then (fresh, s.slot.2) else (s.slot.1, fresh)
    generation := s.generation + 1 }

def master [DecidableEq δ] (ssl : OpenSsl δ) (s : State δ) : State δ :=
  match s.phase with
  | .baseline_cert =>
    { s with cert_digest := (s.cert.map (cert_digest_of ssl)).getD ssl.zero, phase := .baseline_key }
  | .baseline_key =>
    { s with key_digest := (s.key.map (key_digest_of ssl)).getD ssl.zero, phase := .idle }
  | .idle =>
    match s.cert with
    | none => s.end_tick
    | some cert => { s with phase := .digest_key (cert_digest_of ssl cert) }
  | .digest_key cert_digest =>
    match s.key with
    | none => s.end_tick
    | some key =>
      let key_digest := key_digest_of ssl key
      if cert_digest = s.cert_digest ∧ key_digest = s.key_digest then s.end_tick
      else { s with phase := .validate_cert cert_digest key_digest }
  | .validate_cert cert_digest key_digest =>
    match s.cert with
    | none => s.remember cert_digest key_digest
    | some cert_pem => { s with phase := .validate_key cert_digest key_digest cert_pem }
  | .validate_key cert_digest key_digest cert_pem =>
    match s.key with
    | none => s.remember cert_digest key_digest
    | some key_pem =>
      if ssl.check cert_pem key_pem then { s with phase := .load_cert cert_digest key_digest }
      else s.remember cert_digest key_digest
  | .load_cert cert_digest key_digest =>
    match s.cert with
    | none => s.end_tick
    | some cert_pem => { s with phase := .load_key cert_digest key_digest cert_pem }
  | .load_key cert_digest key_digest cert_pem =>
    match s.key with
    | none => s.end_tick
    | some key_pem =>
      if !ssl.check cert_pem key_pem then s.end_tick
      else if FPM_TLS_RELOAD_MAX_CERT < cert_pem.length ∨ FPM_TLS_RELOAD_MAX_KEY < key_pem.length then
        s.remember cert_digest key_digest
      else (s.publish ⟨cert_pem, key_pem⟩).remember cert_digest key_digest

/-- What happens next: somebody writes a file, or the master goes on. -/
inductive Event where
  | write_cert (content : File)
  | write_key (content : File)
  | master
  deriving DecidableEq

def react [DecidableEq δ] (ssl : OpenSsl δ) (s : State δ) : Event → State δ
  | .write_cert content => { s with cert := content }
  | .write_key content => { s with key := content }
  | .master => master ssl s

/-! ## Convergence -/

structure Publishable (ssl : OpenSsl δ) (pair : Slot) : Prop where
  valid : ssl.check pair.cert_pem pair.key_pem = true
  cert_fits : pair.cert_pem.length ≤ FPM_TLS_RELOAD_MAX_CERT
  key_fits : pair.key_pem.length ≤ FPM_TLS_RELOAD_MAX_KEY

def Holds (s : State δ) (pair : Slot) : Prop :=
  s.cert = some pair.cert_pem ∧ s.key = some pair.key_pem

/-- With nobody writing any more, two further ticks end, and from then on the
published slot is that pair. -/
def Converges [DecidableEq δ] (ssl : OpenSsl δ) (s : State δ) (pair : Slot) : Prop :=
  (∃ m, s.ticks + 2 ≤ ((master ssl)^[m] s).ticks) ∧
    ∀ m, s.ticks + 2 ≤ ((master ssl)^[m] s).ticks → ((master ssl)^[m] s).published = pair

def Phase.left : Phase δ → ℕ
  | .baseline_cert => 8
  | .baseline_key => 7
  | .idle => 6
  | .digest_key _ => 5
  | .validate_cert _ _ => 4
  | .validate_key _ _ _ => 3
  | .load_cert _ _ => 2
  | .load_key _ _ _ => 1

def Missed (ssl : OpenSsl δ) (s : State δ) (pair : Slot) : Prop :=
  s.cert_digest = cert_digest_of ssl pair.cert_pem ∧
    s.key_digest = key_digest_of ssl pair.key_pem ∧ s.published ≠ pair

def Misses (ssl : OpenSsl δ) (s : State δ) (pair : Slot) : Prop :=
  match s.phase with
  -- the baseline takes the digests of a pair that is not the one it started with
  | .baseline_cert => s.published ≠ pair
  | .baseline_key => s.cert_digest = cert_digest_of ssl pair.cert_pem ∧ s.published ≠ pair
  | .idle => Missed ssl s pair
  | .digest_key cert_digest => Missed ssl s pair ∧ cert_digest = s.cert_digest
  -- whatever the digests were, the pair itself is validated and loaded
  | .validate_cert _ _ | .load_cert _ _ => False
  -- the certificate was read before: the validation fails, and the digests are remembered
  | .validate_key cert_digest key_digest cert_pem =>
    ssl.check cert_pem pair.key_pem = false ∧ cert_digest = cert_digest_of ssl pair.cert_pem ∧
      key_digest = key_digest_of ssl pair.key_pem ∧ s.published ≠ pair
  -- the load fails, or it is too large, or it publishes that certificate
  | .load_key cert_digest key_digest cert_pem =>
    if ssl.check cert_pem pair.key_pem = false then Missed ssl s pair
    else cert_digest = cert_digest_of ssl pair.cert_pem ∧
      key_digest = key_digest_of ssl pair.key_pem ∧
      (if FPM_TLS_RELOAD_MAX_CERT < cert_pem.length then s.published ≠ pair
        else cert_pem ≠ pair.cert_pem)

/-! ## One read -/

variable {t : ℕ}

section

variable [DecidableEq δ] {ssl : OpenSsl δ} {s : State δ} {pair : Slot}

lemma holds_master (h : Holds s pair) : Holds (master ssl s) pair := by
  have hfiles : (master ssl s).cert = s.cert ∧ (master ssl s).key = s.key := by
    unfold master
    cases s.phase <;> dsimp only <;> repeat' split
    all_goals exact ⟨rfl, rfl⟩
  exact ⟨hfiles.1.trans h.1, hfiles.2.trans h.2⟩

lemma master_left (ssl : OpenSsl δ) (s : State δ) :
    ((master ssl s).ticks = s.ticks ∧ (master ssl s).phase.left < s.phase.left) ∨
      ((master ssl s).ticks = s.ticks + 1 ∧ (master ssl s).phase = .idle) := by
  unfold master
  cases hp : s.phase <;> dsimp only <;> repeat' split
  all_goals first
    | exact .inr ⟨rfl, rfl⟩
    | exact .inl ⟨rfl, by simp [Phase.left]⟩

lemma next_tick (ssl : OpenSsl δ) (s : State δ) :
    ∃ m, ((master ssl)^[m] s).ticks = s.ticks + 1 ∧ ((master ssl)^[m] s).phase = .idle := by
  induction hn : s.phase.left using Nat.strongRecOn generalizing s with
  | ind n ih =>
    rcases master_left ssl s with ⟨hticks, hleft⟩ | hend
    · obtain ⟨m, hm, hidle⟩ := ih _ (hn ▸ hleft) (master ssl s) rfl
      exact ⟨m + 1, hm.trans (by rw [hticks]), hidle⟩
    · exact ⟨1, hend⟩

lemma two_ticks (ssl : OpenSsl δ) (s : State δ) :
    ∃ m, s.ticks + 2 ≤ ((master ssl)^[m] s).ticks ∧ ((master ssl)^[m] s).phase = .idle := by
  obtain ⟨m, hm, -⟩ := next_tick ssl s
  obtain ⟨k, hk, hidle⟩ := next_tick ssl ((master ssl)^[m] s)
  rw [← iterate_add_apply] at hk hidle
  exact ⟨k + m, by omega, hidle⟩

/-! ## A pair that is published -/

omit [DecidableEq δ] in
lemma publish_published (s : State δ) (fresh : Slot) : (s.publish fresh).published = fresh := by
  unfold State.publish State.published
  split <;> rfl

def Settled (s : State δ) (pair : Slot) : Prop :=
  s.published = pair ∧ ∀ cd kd cert_pem, s.phase = .load_key cd kd cert_pem → cert_pem = pair.cert_pem

theorem settled_master (hs : Holds s pair) (h : Settled s pair) : Settled (master ssl s) pair := by
  obtain ⟨hpub, hload⟩ := h
  unfold master
  rw [hs.1, hs.2]
  cases hp : s.phase with
  | load_key cd kd cert_pem =>
    have hcert := hload cd kd cert_pem hp
    dsimp only
    split
    · exact ⟨hpub, by simp [State.end_tick]⟩
    · split
      · exact ⟨hpub, by simp [State.remember, State.end_tick]⟩
      · refine ⟨?_, by simp [State.remember, State.end_tick]⟩
        rw [hcert]
        exact publish_published s pair
  | load_cert cd kd =>
    refine ⟨hpub, ?_⟩
    intro cd' kd' cert_pem hphase
    rw [Phase.load_key.injEq] at hphase
    exact hphase.2.2.symm
  | _ =>
    dsimp only
    repeat' split
    all_goals exact ⟨hpub, fun _ _ _ hphase =>
      absurd hphase (by simp [State.remember, State.end_tick])⟩

/-! ## A tick that reads the pair -/

/-- A tick that will publish the pair: its digests are not those remembered, and
what it has read since is the pair. -/
def Loading (ssl : OpenSsl δ) (s : State δ) (pair : Slot) : Prop :=
  match s.phase with
  | .digest_key cd => ¬ (cd = s.cert_digest ∧ key_digest_of ssl pair.key_pem = s.key_digest)
  | .validate_cert _ _ => True
  | .validate_key _ _ cert_pem => cert_pem = pair.cert_pem
  | .load_cert _ _ => True
  | .load_key _ _ cert_pem => cert_pem = pair.cert_pem
  | _ => False

lemma loading_master (hpair : Publishable ssl pair) (hs : Holds s pair) (h : Loading ssl s pair) :
    (Loading ssl (master ssl s) pair ∧ (master ssl s).ticks = s.ticks) ∨
      Settled (master ssl s) pair := by
  unfold Loading at h
  unfold master
  rw [hs.1, hs.2]
  cases hp : s.phase <;> rw [hp] at h <;> dsimp only at h ⊢
  case digest_key cd =>
    rw [if_neg h]
    exact .inl ⟨trivial, rfl⟩
  case validate_cert cd kd => exact .inl ⟨rfl, rfl⟩
  case validate_key cd kd cert_pem =>
    rw [h, if_pos hpair.valid]
    exact .inl ⟨trivial, rfl⟩
  case load_cert cd kd => exact .inl ⟨rfl, rfl⟩
  case load_key cd kd cert_pem =>
    right
    have hfits : ¬ (FPM_TLS_RELOAD_MAX_CERT < pair.cert_pem.length ∨
        FPM_TLS_RELOAD_MAX_KEY < pair.key_pem.length) := by
      have := hpair.cert_fits
      have := hpair.key_fits
      omega
    rw [h, if_neg (by simp [hpair.valid]), if_neg hfits]
    exact ⟨publish_published s pair,
      by simp [State.remember, State.end_tick]⟩

/-! ## A pair that is missed -/

/-- **A read decides nothing**: whether the pair is missed is settled when the files are left
alone. -/
theorem misses_master (hpair : Publishable ssl pair) (hs : Holds s pair) :
    Misses ssl (master ssl s) pair ↔ Misses ssl s pair := by
  have hcert := Nat.not_lt.mpr hpair.cert_fits
  have hkey := Nat.not_lt.mpr hpair.key_fits
  unfold Misses master
  rw [hs.1, hs.2]
  -- each read of the pair itself leaves the verdict where it was
  cases hp : s.phase with
  | baseline_cert => exact ⟨fun h => h.2, fun h => ⟨rfl, h⟩⟩
  | baseline_key => exact ⟨fun h => ⟨h.1, h.2.2⟩, fun h => ⟨h.1, rfl, h.2⟩⟩
  | idle => exact ⟨fun h => h.1, fun h => ⟨h, h.1.symm⟩⟩
  | digest_key cd =>
    dsimp only
    by_cases hsame : cd = s.cert_digest ∧ key_digest_of ssl pair.key_pem = s.key_digest
    · rw [if_pos hsame]
      exact ⟨fun h => ⟨h, hsame.1⟩, fun h => h.1⟩
    · rw [if_neg hsame]
      exact iff_of_false id fun h => hsame ⟨h.2, h.1.2.1.symm⟩
  | validate_cert cd kd => simp [hpair.valid]
  | validate_key cd kd cert_pem =>
    dsimp only
    cases hvalid : ssl.check cert_pem pair.key_pem with
    | false => exact ⟨fun h => ⟨rfl, h⟩, fun h => h.2⟩
    | true => exact iff_of_false id fun h => nomatch h.1
  | load_cert cd kd => simp [hpair.valid, hcert]
  | load_key cd kd cert_pem =>
    dsimp only
    cases hvalid : ssl.check cert_pem pair.key_pem with
    | false => exact Iff.rfl
    | true =>
      rw [if_neg (show ¬ (!true) = true by decide), if_neg (show ¬ true = false by decide)]
      by_cases hlarge : FPM_TLS_RELOAD_MAX_CERT < cert_pem.length
      · rw [if_pos (.inl hlarge), if_pos hlarge]
        exact Iff.rfl
      · -- what is published is this certificate with the key of the pair
        rw [if_neg (not_or.mpr ⟨hlarge, hkey⟩), if_neg hlarge]
        show cd = _ ∧ kd = _ ∧ (s.publish ⟨cert_pem, pair.key_pem⟩).published ≠ pair ↔ _
        rw [publish_published]
        refine and_congr_right fun _ => and_congr_right fun _ => not_congr ⟨fun h => ?_, fun h => ?_⟩
        · rw [← h]
        · rw [h]

lemma misses_iterate (hpair : Publishable ssl pair) (hs : Holds s pair) (m : ℕ) :
    Misses ssl ((master ssl)^[m] s) pair ↔ Misses ssl s pair := by
  induction m generalizing s with
  | zero => exact Iff.rfl
  | succ m ih => exact (ih (holds_master hs)).trans (misses_master hpair hs)

omit [DecidableEq δ] in
lemma misses_idle (h : s.phase = .idle) : Misses ssl s pair ↔ Missed ssl s pair := by
  unfold Misses
  rw [h]

def Stuck (ssl : OpenSsl δ) (s : State δ) (pair : Slot) : Prop :=
  Missed ssl s pair ∧
    (s.phase = .idle ∨ s.phase = .digest_key (cert_digest_of ssl pair.cert_pem))

lemma stuck_master (hs : Holds s pair) (h : Stuck ssl s pair) : Stuck ssl (master ssl s) pair := by
  obtain ⟨hmissed, hphase | hphase⟩ := h
  · have hstep : master ssl s =
        { s with phase := .digest_key (cert_digest_of ssl pair.cert_pem) } := by
      unfold master
      rw [hphase, hs.1]
    rw [hstep]
    exact ⟨hmissed, .inr rfl⟩
  · have hstep : master ssl s = s.end_tick := by
      unfold master
      rw [hphase, hs.2]
      dsimp only
      rw [if_pos ⟨hmissed.1.symm, hmissed.2.1.symm⟩]
    rw [hstep]
    exact ⟨hmissed, .inl rfl⟩

lemma stuck_iterate (hs : Holds s pair) (h : Stuck ssl s pair) (m : ℕ) :
    Stuck ssl ((master ssl)^[m] s) pair := by
  induction m generalizing s with
  | zero => exact h
  | succ m ih => exact ih (holds_master hs) (stuck_master hs h)

/-! ## The whole run -/

/-- Where the master can be, counted from a state with `t` ticks: before the end
of the tick it was in, in the tick behind it, or done. -/
def Ahead (ssl : OpenSsl δ) (t : ℕ) (pair : Slot) (s : State δ) : Prop :=
  (¬ Misses ssl s pair ∧ (s.ticks = t ∨ s.phase = .idle ∧ s.ticks = t + 1)) ∨
    (Loading ssl s pair ∧ s.ticks ≤ t + 1) ∨ Settled s pair

lemma ahead_master (hpair : Publishable ssl pair) (hs : Holds s pair) (h : Ahead ssl t pair s) :
    Ahead ssl t pair (master ssl s) := by
  rcases h with ⟨hmissed, hticks⟩ | ⟨hload, hticks⟩ | hsettled
  · by_cases hidle : s.phase = .idle
    · -- the tick that begins here is the one that publishes the pair
      rw [misses_idle hidle] at hmissed
      by_cases hpub : s.published = pair
      · refine .inr (.inr (settled_master hs ⟨hpub, ?_⟩))
        intro cd kd cert_pem hphase
        exact nomatch hidle.symm.trans hphase
      · have hstep : master ssl s =
            { s with phase := .digest_key (cert_digest_of ssl pair.cert_pem) } := by
          unfold master
          rw [hidle, hs.1]
        rw [hstep]
        refine .inr (.inl ⟨?_, ?_⟩)
        · intro hsame
          exact hmissed ⟨hsame.1.symm, hsame.2.symm, hpub⟩
        · show s.ticks ≤ t + 1
          rcases hticks with hticks | ⟨-, hticks⟩ <;> omega
    · have hat : s.ticks = t := hticks.resolve_right fun h => hidle h.1
      refine .inl ⟨mt (misses_master hpair hs).mp hmissed, ?_⟩
      rcases master_left ssl s with ⟨heq, -⟩ | ⟨heq, hend⟩
      · exact .inl (heq.trans hat)
      · exact .inr ⟨hend, by rw [heq, hat]⟩
  · rcases loading_master hpair hs hload with ⟨hload, heq⟩ | hsettled
    · exact .inr (.inl ⟨hload, heq ▸ hticks⟩)
    · exact .inr (.inr hsettled)
  · exact .inr (.inr (settled_master hs hsettled))

lemma ahead_iterate (hpair : Publishable ssl pair) (hs : Holds s pair) (h : Ahead ssl t pair s)
    (m : ℕ) : Ahead ssl t pair ((master ssl)^[m] s) := by
  induction m generalizing s with
  | zero => exact h
  | succ m ih => exact ih (holds_master hs) (ahead_master hpair hs h)

omit [DecidableEq δ] in
lemma ahead_published (h : Ahead ssl t pair s) (hticks : t + 2 ≤ s.ticks) :
    s.published = pair := by
  rcases h with ⟨-, hat⟩ | ⟨-, hat⟩ | hsettled
  · rcases hat with hat | ⟨-, hat⟩ <;> omega
  · omega
  · exact hsettled.1

lemma converges_iff (hpair : Publishable ssl pair) (hs : Holds s pair) :
    Converges ssl s pair ↔ ¬ Misses ssl s pair := by
  obtain ⟨m, hm, hidle⟩ := two_ticks ssl s
  constructor
  · rintro ⟨-, hall⟩ hmisses
    rw [← misses_iterate hpair hs m, misses_idle hidle] at hmisses
    exact hmisses.2.2 (hall m hm)
  · intro hmissed
    refine ⟨⟨m, hm⟩, fun m hm => ?_⟩
    exact ahead_published (ahead_iterate hpair hs (.inl ⟨hmissed, .inl rfl⟩) m) hm

end

/-! ## The reload -/

/-- **When the reload converges.** From any state of the master and for every
interleaving of writes with its reads: once the files hold a pair that can be published and are left
alone, two further ticks publish it for good if and only if the master, in front of the read
it has come to, does not miss it. -/
theorem reload_converges_iff [DecidableEq δ] (ssl : OpenSsl δ) (s₀ : State δ) (events : List Event)
    {pair : Slot} (hpair : Publishable ssl pair) (hfiles : Holds (run (react ssl) s₀ events) pair) :
    Converges ssl (run (react ssl) s₀ events) pair ↔
      ¬ Misses ssl (run (react ssl) s₀ events) pair :=
  converges_iff hpair hfiles

/-- A stand-in for OpenSSL: the digest is the text, and a key belongs to the
certificate of the same text. -/
def plain_ssl : OpenSsl Bytes := ⟨id, [], fun cert key => cert == key⟩

def old_pair : Slot := ⟨str "A", str "A"⟩
def new_pair : Slot := ⟨str "B", str "B"⟩

def renewal : List Event :=
  [.master, .master, .write_cert (some (str "B")), .write_key (some (str "B")), .master, .master]

theorem reload_converges_iff_renewal :
    Converges plain_ssl (run (react plain_ssl)
        ⟨some (str "A"), some (str "A"), [], [], 0, (old_pair, ⟨[], []⟩), .baseline_cert, 0⟩ renewal)
        new_pair :=
  (reload_converges_iff plain_ssl _ renewal
    ⟨by decide, by decide, by decide⟩ ⟨by decide, by decide⟩).mpr id

/-- Behind the digest reads the key file is truncated and written again with the
same text. The validation in between fails, the digests of the finished pair are
remembered, and the pair is never published. -/
theorem rewritten_pair_missed :
    ∃ s₀, fpm_tls_reload_master_init plain_ssl (some old_pair) (some (str "A")) (some (str "A")) =
        some s₀ ∧
      Publishable plain_ssl new_pair ∧
      let s := run (react plain_ssl) s₀ (renewal ++
        [.write_key (some []), .master, .master, .write_key (some (str "B"))])
      Holds s new_pair ∧ (∀ m, ((master plain_ssl)^[m] s).published ≠ new_pair) ∧
        ¬ Converges plain_ssl s new_pair := by
  have hpair : Publishable plain_ssl new_pair :=
    ⟨by decide, by decide, by decide⟩
  refine ⟨⟨some (str "A"), some (str "A"), [], [], 0, (old_pair, ⟨[], []⟩), .baseline_cert, 0⟩,
    by decide, hpair, ?_⟩
  intro s
  have hholds : Holds s new_pair := ⟨by decide, by decide⟩
  have hmissed : Missed plain_ssl s new_pair := ⟨by decide, by decide, by decide⟩
  have hnever : ∀ m, ((master plain_ssl)^[m] s).published ≠ new_pair :=
    fun m => (stuck_iterate hholds ⟨hmissed, .inl (by decide)⟩ m).1.2.2
  exact ⟨hholds, hnever, fun hconverges => (converges_iff hpair hholds).mp hconverges hmissed⟩

end FpmNg.TlsReload
