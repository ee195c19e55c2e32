/-
An ACME order: `Client::order()` of `client.php` with the files of a domain,
`loadOrMakeCertKey()` and `installCertificate()` of `state.php`.

The order is a machine that takes the answers of the CA one after the other, and in
between steps of its own that may fail. It may die anywhere: what a run leaves after
any of its prefixes is what it leaves if it dies there. The answers are not trusted in
any way: any status, any list of challenges, any text where a chain should be.

A file is replaced by a rename, so a write is one step. Whether a chain belongs to a key
is OpenSSL's business and a parameter. Nothing here ever asks it.
-/
import FpmNg.Bytes
import FpmNg.Lib.Runs

open Option Runs

namespace FpmNg.AcmeOrder

/-! ## Answers -/

/-- The statuses the client knows; any other, or none, is `other`. -/
inductive Status where
  | ready
  | valid
  | invalid
  | other
  deriving DecidableEq

structure Challenge where
  http_01 : Bool
  token : Bytes
  deriving DecidableEq

/-- An answer: whether it passes `ensureOk()`, its `Location` header, what the client
reads of its JSON, and its text. -/
structure Response where
  ok : Bool
  location : Bool
  status : Status
  authorizations : ℕ
  challenges : List Challenge
  certificate : Bool
  body : Bytes
  deriving DecidableEq

/-- `str_contains($chain, '-----BEGIN CERTIFICATE-----')`. -/
def has_certificate (body : Bytes) : Bool :=
  body.tails.any fun rest => (str "-----BEGIN CERTIFICATE-----").isPrefixOf rest

/-! ## The files -/

/-- `privkey.pem`: a key, or a text that is none. -/
inductive KeyFile (κ : Type) where
  | key (k : κ)
  | unusable
  deriving DecidableEq

structure Files (κ : Type) where
  privkey : Option (KeyFile κ)
  fullchain : Option Bytes
  deriving DecidableEq

/-! ## The order -/

/-- The key of the order, and whether `loadOrMakeCertKey()` has made it. -/
structure CertKey (κ : Type) where
  key : κ
  fresh : Bool
  deriving DecidableEq

/-- What `order()` waits for, or does next. -/
inductive Phase (κ : Type) where
  /-- `ensureAccount()`. -/
  | account
  /-- The answer to `newOrder`. -/
  | new_order
  /-- `authorize()`: the authorization, the challenge, and its result; `left` further
  authorizations follow. -/
  | authorization (left : ℕ)
  | challenge (left : ℕ)
  | await_authorization (left : ℕ)
  /-- `loadOrMakeCertKey()`. -/
  | cert_key
  | await_ready (k : CertKey κ)
  | finalize (k : CertKey κ)
  | await_valid (k : CertKey κ)
  | download (k : CertKey κ)
  /-- `installCertificate()`. -/
  | install_key (k : κ) (chain : Bytes)
  | install_chain (k : κ) (chain : Bytes)
  | finished
  | failed
  deriving DecidableEq

structure State (κ : Type) where
  files : Files κ
  phase : Phase κ
  deriving DecidableEq

inductive Event (κ : Type) where
  /-- The CA answers. -/
  | reply (r : Response)
  /-- The deadline of `awaitStatus()` has passed. -/
  | deadline
  /-- A step without the CA, which may throw; `fresh` is the key OpenSSL would make. -/
  | own (ok : Bool) (fresh : κ)
  deriving DecidableEq

variable {κ : Type}

def next_authorization : ℕ → Phase κ
  | 0 => .cert_key
  | left + 1 => .authorization left

/-- `authorize()` on the answer for the authorization: already valid, or its first
`http-01` challenge is to be published. -/
def on_authorization (left : ℕ) (r : Response) : Phase κ :=
  if r.status = .valid then next_authorization left
  else match r.challenges.find? Challenge.http_01 with
    | none => .failed
    | some c => if c.token = [] then .failed else .challenge left

def on_valid (k : CertKey κ) (r : Response) : Phase κ :=
  if r.certificate then .download k else .failed

/-- What `order()` makes of an answer. -/
def on_reply (r : Response) : Phase κ → Phase κ
  | .new_order => if r.location then next_authorization r.authorizations else .failed
  | .authorization left => on_authorization left r
  | .challenge left => .await_authorization left
  | .await_authorization left =>
    match r.status with
    | .valid => next_authorization left
    | .invalid => .failed
    | _ => .await_authorization left
  | .await_ready k =>
    match r.status with
    | .ready => .finalize k
    | .valid => on_valid k r
    | .invalid => .failed
    | .other => .await_ready k
  | .finalize k => .await_valid k
  | .await_valid k =>
    match r.status with
    | .valid => on_valid k r
    | .invalid => .failed
    | _ => .await_valid k
  | .download k =>
    if !has_certificate r.body then .failed
    else if k.fresh then .install_key k.key r.body else .install_chain k.key r.body
  | phase => phase

def Phase.waits : Phase κ → Bool
  | .new_order | .authorization _ | .challenge _ | .await_authorization _ | .await_ready _
  | .finalize _ | .await_valid _ | .download _ => true
  | _ => false

/-- Is it one of `awaitStatus()`? -/
def Phase.polls : Phase κ → Bool
  | .await_authorization _ | .await_ready _ | .await_valid _ => true
  | _ => false

def State.own (s : State κ) (ok : Bool) (fresh : κ) : State κ :=
  match s.phase with
  | .account => { s with phase := if ok then .new_order else .failed }
  | .cert_key =>
    match s.files.privkey with
    | some (.key k) => { s with phase := .await_ready ⟨k, false⟩ }
    | some .unusable => { s with phase := .failed }
    | none => { s with phase := if ok then .await_ready ⟨fresh, true⟩ else .failed }
  | .install_key k chain =>
    if ok then ⟨{ s.files with privkey := some (.key k) }, .install_chain k chain⟩
    else { s with phase := .failed }
  | .install_chain _ chain =>
    if ok then ⟨{ s.files with fullchain := some chain }, .finished⟩
    else { s with phase := .failed }
  | _ => s

def step (s : State κ) : Event κ → State κ
  | .reply r =>
    if s.phase.waits then { s with phase := if r.ok then on_reply r s.phase else .failed } else s
  | .deadline => if s.phase.polls then { s with phase := .failed } else s
  | .own ok fresh => s.own ok fresh

def run (files : Files κ) (events : List (Event κ)) : State κ :=
  Runs.run step ⟨files, .account⟩ events

/-! ## What is wanted -/

section

variable (belongs : κ → Bytes → Bool)

def Files.Pair (f : Files κ) : Prop :=
  ∃ k chain, f.privkey = some (.key k) ∧ f.fullchain = some chain ∧ belongs k chain = true

def Files.Start (f : Files κ) : Prop := f.privkey = none ∧ f.fullchain = none ∨ f.Pair belongs

def Files.Safe (f : Files κ) : Prop := f.fullchain = none ∨ f.Pair belongs

def Genuine (s : State κ) (e : Event κ) : Prop :=
  ∀ r k, e = .reply r → s.phase = .download k → r.ok = true → has_certificate r.body = true →
    belongs k.key r.body = true

/-! ## The invariant -/

def CertKey.At (f : Files κ) (k : CertKey κ) : Prop :=
  if k.fresh then f.privkey = none ∧ f.fullchain = none else f.privkey = some (.key k.key)

def At (f : Files κ) : Phase κ → Prop
  | .await_ready k | .finalize k | .await_valid k | .download k => k.At f
  | .install_key k chain => f.fullchain = none ∧ belongs k chain = true
  | .install_chain k chain => f.privkey = some (.key k) ∧ belongs k chain = true
  | .finished | .failed => True
  | _ => f.Start belongs

end

variable {belongs : κ → Bytes → Bool}

variable {f : Files κ}

lemma next_authorization_at (h : f.Start belongs) (n : ℕ) :
    At belongs f (next_authorization n) := by
  cases n <;> exact h

lemma on_valid_at {k : CertKey κ} (h : k.At f) (r : Response) : At belongs f (on_valid k r) := by
  unfold on_valid
  split
  · exact h
  · trivial

lemma on_authorization_at (h : f.Start belongs) (left : ℕ) (r : Response) :
    At belongs f (on_authorization left r) := by
  unfold on_authorization
  split
  · exact next_authorization_at h left
  · split
    · trivial
    · split
      · trivial
      · exact h

/-- **An answer** keeps what holds of the files, if it is not another one's chain. -/
theorem on_reply_at {phase : Phase κ} {r : Response}
    (hgenuine : ∀ k, phase = .download k → has_certificate r.body = true → belongs k.key r.body = true)
    (h : At belongs f phase) : At belongs f (on_reply r phase) := by
  cases phase with
  | new_order =>
    rw [on_reply]
    split
    · exact next_authorization_at h _
    · trivial
  | authorization left => exact on_authorization_at h left r
  | await_authorization left =>
    rw [on_reply]
    split
    · exact next_authorization_at h left
    · trivial
    · exact h
  | await_ready k =>
    rw [on_reply]
    split
    · exact h
    · exact on_valid_at h r
    · trivial
    · exact h
  | await_valid k =>
    rw [on_reply]
    split
    · exact on_valid_at h r
    · trivial
    · exact h
  | download k =>
    rw [on_reply]
    split
    · trivial
    · rename_i hhas
      have hbelongs := hgenuine k rfl (by simpa using hhas)
      -- the key was made for this order, or is the one on file
      have hk : k.At f := h
      unfold CertKey.At at hk
      split
      · rename_i hfresh
        rw [if_pos hfresh] at hk
        exact ⟨hk.2, hbelongs⟩
      · rename_i hfresh
        rw [if_neg hfresh] at hk
        exact ⟨hk, hbelongs⟩
  | finished => trivial
  | failed => trivial
  | _ => exact h

structure Inv (belongs : κ → Bytes → Bool) (s : State κ) : Prop where
  safe : s.files.Safe belongs
  here : At belongs s.files s.phase

variable {s : State κ}

theorem own_inv (ok : Bool) (fresh : κ) (h : Inv belongs s) : Inv belongs (s.own ok fresh) := by
  have hhere := h.here
  unfold State.own
  split
  · rename_i hphase
    rw [hphase] at hhere
    refine ⟨h.safe, ?_⟩
    split
    · exact hhere
    · trivial
  · rename_i hphase
    rw [hphase] at hhere
    split
    · rename_i k hk
      exact ⟨h.safe, hk⟩
    · exact ⟨h.safe, trivial⟩
    · rename_i hnone
      refine ⟨h.safe, ?_⟩
      split
      · -- no key, so there was no chain either
        rcases hhere with hnothing | ⟨k, chain, hk, _⟩
        · exact hnothing
        · exact nomatch hnone.symm.trans hk
      · trivial
  · rename_i k chain hphase
    rw [hphase] at hhere
    split
    · exact ⟨.inl hhere.1, rfl, hhere.2⟩
    · exact ⟨h.safe, trivial⟩
  · rename_i k chain hphase
    rw [hphase] at hhere
    split
    · exact ⟨.inr ⟨k, chain, hhere.1, rfl, hhere.2⟩, trivial⟩
    · exact ⟨h.safe, trivial⟩
  · exact h

lemma step_inv {e : Event κ} (hg : Genuine belongs s e) (h : Inv belongs s) :
    Inv belongs (step s e) := by
  cases e with
  | reply r =>
    rw [step]
    split
    · refine ⟨h.safe, ?_⟩
      split
      · rename_i hok
        exact on_reply_at (fun k hk hhas => hg r k rfl hk hok hhas) h.here
      · trivial
    · exact h
  | deadline =>
    rw [step]
    split
    · exact ⟨h.safe, trivial⟩
    · exact h
  | own ok fresh => exact own_inv ok fresh h

/-! ## Pairs -/

lemma foreign_unsafe {e : Event κ} (hg : ¬ Genuine belongs s e) (h : Inv belongs s) :
    ∃ more, ¬ (Runs.run step s (e :: more)).files.Safe belongs := by
  unfold Genuine at hg
  push Not at hg
  obtain ⟨r, k, rfl, hphase, hok, hhas, hforeign⟩ := hg
  have hkey := h.here
  rw [hphase] at hkey
  change CertKey.At s.files k at hkey
  have hreply : step s (.reply r) = ⟨s.files, if k.fresh then .install_key k.key r.body
      else .install_chain k.key r.body⟩ := by
    rw [step, hphase, if_pos (show (Phase.download k).waits = true from rfl), if_pos hok, on_reply,
      if_neg (by simp [hhas])]
  -- the files the installation leaves
  have hpair : ∀ f : Files κ, f.privkey = some (.key k.key) → f.fullchain = some r.body →
      ¬ f.Safe belongs := by
    rintro f hk hc (hnone | ⟨k', chain, hk', hc', hbelongs⟩)
    · exact nomatch hc.symm.trans hnone
    · obtain rfl := KeyFile.key.inj (some.inj (hk.symm.trans hk'))
      obtain rfl := some.inj (hc.symm.trans hc')
      exact hforeign hbelongs
  unfold CertKey.At at hkey
  cases hfresh : k.fresh with
  | true =>
    rw [hfresh, if_pos rfl] at hreply
    refine ⟨[.own true k.key, .own true k.key], ?_⟩
    rw [run_cons, hreply]
    exact hpair _ rfl rfl
  | false =>
    rw [hfresh] at hreply hkey
    refine ⟨[.own true k.key], ?_⟩
    rw [run_cons, hreply]
    exact hpair _ hkey rfl

/-- **An order leaves no mismatched pair**, wherever it ends, as long as the chain the
CA hands out belongs to the key of the order. A chain that does not is installed, and
leaves one. -/
theorem pair_kept_iff_genuine (belongs : κ → Bytes → Bool) (files : Files κ)
    (hstart : files.Start belongs) (events : List (Event κ)) :
    (Along step (Genuine belongs) ⟨files, .account⟩ events →
      (run files events).files.Safe belongs) ∧
    ∀ e, Along step (Genuine belongs) ⟨files, .account⟩ events →
      ¬ Genuine belongs (run files events) e →
      ∃ more, ¬ (run files (events ++ e :: more)).files.Safe belongs := by
  have hinit : Inv belongs ⟨files, .account⟩ := by
    refine ⟨?_, hstart⟩
    rcases hstart with ⟨_, hnone⟩ | hpair
    · exact .inl hnone
    · exact .inr hpair
  have hrun : Along step (Genuine belongs) ⟨files, .account⟩ events →
      Inv belongs (run files events) := fun hgenuine =>
    run_invariant_along (fun s e hg h => step_inv hg h) _ events hgenuine
      hinit
  refine ⟨fun hgenuine => (hrun hgenuine).safe, fun e hgenuine hnot => ?_⟩
  obtain ⟨more, hmore⟩ := foreign_unsafe hnot (hrun hgenuine)
  refine ⟨more, ?_⟩
  rw [run, Runs.run, List.foldl_append]
  exact hmore

def plain : Response := ⟨true, true, .other, 0, [], true, []⟩

/-- A text that begins like a chain, with `who` behind it. -/
def chain_of (who : String) : Bytes := str "-----BEGIN CERTIFICATE-----" ++ str who

/-- The answers to an order that is `valid` from the start, up to the chain. -/
def early_valid (chain : Bytes) : List (Event ℕ) :=
  [.own true 7, .reply plain, .own true 7, .reply { plain with status := .valid },
    .reply { plain with body := chain }]

def owns (k : ℕ) (chain : Bytes) : Bool := chain == chain_of (if k = 7 then "seven" else "other")

theorem pair_kept_iff_genuine_first :
    (run ⟨none, none⟩ (early_valid (chain_of "seven") ++ [.own true 7, .own true 7])).files.Safe
      owns := by
  refine (pair_kept_iff_genuine owns ⟨none, none⟩ (.inl ⟨rfl, rfl⟩) _).1 ?_
  -- only one of the answers is taken for a chain
  have helse : ∀ (s : State ℕ) (e : Event ℕ) (phase : Phase ℕ), s.phase = phase →
      (∀ k, phase ≠ .download k) → Genuine owns s e := by
    intro s e phase hs hne r k _ hk
    exact absurd (hs.symm.trans hk) (hne k)
  refine ⟨helse _ _ .account rfl (by simp), helse _ _ .new_order rfl (by simp),
    helse _ _ .cert_key rfl (by simp), helse _ _ (.await_ready ⟨7, true⟩) rfl (by simp), ?_,
    helse _ _ (.install_key 7 (chain_of "seven")) (by decide) (by simp),
    helse _ _ (.install_chain 7 (chain_of "seven")) (by decide) (by simp), trivial⟩
  intro r k he hk _ _
  obtain rfl := Event.reply.inj he
  obtain rfl : (⟨7, true⟩ : CertKey ℕ) = k := Phase.download.inj hk
  decide

/-- The CA says `valid` before anything was finalized and hands out a chain for another
key; the new key and that chain are installed together. -/
theorem foreign_chain_installed :
    (Files.Start owns ⟨none, none⟩) ∧
    ¬ (run ⟨none, none⟩ (early_valid (chain_of "other") ++ [.own true 7, .own true 7])).files.Safe
      owns := by
  refine ⟨.inl ⟨rfl, rfl⟩, ?_⟩
  have hfiles : (run ⟨none, none⟩ (early_valid (chain_of "other") ++ [.own true 7, .own true 7])).files
      = ⟨some (.key 7), some (chain_of "other")⟩ := by decide
  rw [hfiles]
  rintro (hnone | ⟨k, chain, hk, hc, howns⟩)
  · simp at hnone
  · obtain rfl := KeyFile.key.inj (some.inj hk)
    cases hc
    exact absurd howns (by decide)

end FpmNg.AcmeOrder
