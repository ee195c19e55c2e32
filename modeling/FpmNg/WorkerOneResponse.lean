/-
One response for each request of a worker, and no entry after its removal.

The builtins look at an entry when they are called. Two things can go wrong after
that. `fpmng_worker_respond()` and `fpmng_worker_respond_start()` run the `__toString`
of a header value and then go on with the pointer they had; whatever happened to the
request in between, they answer it. And `fpmng_worker_upgrade()` does not ask whether
a stream was started. A third way is outside the loop: what PHP runs on shutdown can
call a builtin after the table was destroyed.

`Clean` excludes the three. A run of clean steps gives each request at most one head
and uses no removed entry. Where a step is not clean, the run up to it can go on so that
it does: the string and the memory that the step finds decide only how much harm is done.
-/
import FpmNg.WorkerExecutorRun

open List Option Bool Runs Prod

namespace FpmNg.WorkerExecutor

open FpmNg.DirectResponse Worker Links

/-! ## Clean steps -/

def Worker.finds (w : Worker) : Builtin → Bool
  | .next_request => w.ready.any fun id => 0 < id && (w.pending id).isSome
  | .closed_requests => false
  | .respond id _ _ _ _ | .respond_start id _ _ | .respond_chunk id _ _ _ | .respond_end id
  | .upgrade id _ _ _ _ => 0 < id && (w.pending id.toNat).isSome

/-- The script can still answer request `id`, and has not begun to. -/
def Worker.unanswered (w : Worker) (id : ℕ) : Bool :=
  w.phase == .serving && match w.pending id with
    | none => false
    | some p => p.http.isSome && !p.streaming

/-- No builtin asks for an entry of the destroyed table, no stream is upgraded, and no call
goes on whose request was answered, started or removed while it waited for a header
value. -/
def Clean (w : Worker) : Event → Prop
  | .call b => (w.phase = .destroyed → w.finds b = false)
      ∧ (w.phase = .serving → w.upgrades_stream b = false)
  | .resume i _ _ => w.phase.scripting = true → ∀ c ∈ w.calls[i]?, w.unanswered c.vars.id = true
  | _ => True

instance (w : Worker) (e : Event) : Decidable (Clean w e) := by
  unfold Clean
  split <;> infer_instance

/-! ## Clean steps use live entries -/

variable {w : Worker}

lemma unanswered_http {id : ℕ} (h : w.unanswered id = true) :
    w.phase = .serving ∧ ∃ p s, w.pending id = some p ∧ p.http = some s ∧ p.streaming = false
      ∧ w.http_of id = some s := by
  unfold Worker.unanswered at h
  simp only [and_eq_true, beq_iff_eq] at h
  cases hp : w.pending id with
  | none => rw [hp] at h; exact absurd h.2 (by simp)
  | some p =>
    rw [hp] at h
    simp only [and_eq_true, not_eq_true'] at h
    obtain ⟨s, hs⟩ := isSome_iff_exists.mp h.2.1
    refine ⟨h.1, p, s, rfl, hs, h.2.2, ?_⟩
    rw [http_of, if_neg (by rw [h.1]; simp), hp]
    exact hs

lemma http_of_links {w w' : Worker} (h : w'.links = w.links) (id : ℕ) :
    w'.http_of id = w.http_of id := by
  have hphase : w'.phase = w.phase := congrArg Links.phase h
  have hpend : w'.pending = w.pending := congrArg Links.pending h
  rw [http_of, http_of, hphase, hpend]

variable {s : ℕ} {l : Locals}

variable (cfg : Config)

lemma header_loop_some (h : w.http_of l.id = some s) (items : List Item) :
    ∃ out, w.header_loop cfg l items = some out := by
  induction items generalizing w l with
  | nil => exact ⟨_, rfl⟩
  | cons item items ih =>
    cases item with
    | unnamed => exact ih h
    | named name =>
      rw [header_loop, h]
      exact ih h
    | value name v =>
      have hadd : ∀ text, ∃ out, (w.add_value cfg l name text).1.header_loop cfg
          (w.add_value cfg l name text).2 items = some out := by
        intro text
        have hsame := add_value_same cfg w l name text
        refine ih ?_
        rw [http_of_links hsame.1, hsame.2.2]
        exact h
      cases v with
      | text t =>
        rw [header_loop]
        split
        · exact ih h
        split
        · exact ih h
        exact hadd (some t)
      | object =>
        rw [header_loop]
        split
        · exact ih h
        split
        · exact ih h
        exact ⟨_, rfl⟩

lemma conclude_some (h : w.http_of l.id = some s) (memory : Bool) :
    ∃ out, w.conclude cfg l memory = some out := by
  obtain ⟨_, p, hp, _⟩ := http_of_some h
  unfold conclude
  split
  · rw [h]
    exact ⟨_, rfl⟩
  split
  · split
    · exact ⟨_, rfl⟩
    · rw [h]
      exact ⟨_, rfl⟩
  · rw [h, hp]
    exact ⟨_, rfl⟩

lemma loop_some (h : w.http_of l.id = some s) (items : List Item) (memory : Bool) :
    ∃ out, (w.header_loop cfg l items).bind (settle cfg memory) = some out := by
  obtain ⟨⟨w1, l1, stop⟩, hloop⟩ := header_loop_some cfg h items
  obtain ⟨hlinks, _, hid, _⟩ := header_loop_same hloop
  rw [hloop, bind_some]
  cases stop with
  | none =>
    refine conclude_some cfg (s := s) ?_ memory
    rw [http_of_links hlinks, hid]
    exact h
  | some stop => exact ⟨_, rfl⟩

variable {id : ℤ}

lemma pending_get_of_finds
    (h : w.phase = .destroyed → (0 < id && (w.pending id.toNat).isSome) = false) :
    ∃ found, w.pending_get id = some found := by
  unfold pending_get
  split
  · exact ⟨_, rfl⟩
  · rename_i hpos
    cases hp : w.pending id.toNat with
    | none => exact ⟨_, rfl⟩
    | some p =>
      refine ⟨some p, if_neg fun hphase => ?_⟩
      have := h hphase
      rw [hp] at this
      simp [Int.not_le.mp hpos] at this

lemma http_of_pending_get {p : Pending} (hget : w.pending_get id = some (some p))
    (hs : p.http = some s) :
    w.http_of id.toNat = some s := by
  obtain ⟨hp, hphase⟩ := pending_get_some hget
  rw [http_of, if_neg hphase, hp]
  exact hs

lemma found_alive (hi : w.links.Inv) (hphase : w.phase.scripting = true)
    (h : w.phase = .destroyed → (0 < id && (w.pending id.toNat).isSome) = false) :
    w.pending_get id = some none ∨ ∃ p s, w.pending_get id = some (some p) ∧ p.http = some s ∧
      w.http_of id.toNat = some s := by
  obtain ⟨_ | p, hget⟩ := pending_get_of_finds h
  · exact .inl hget
  · obtain ⟨s, hs⟩ := entry_alive hi hphase hget
    exact .inr ⟨p, s, hget, hs, http_of_pending_get hget hs⟩

variable {b : Builtin}

lemma call_some (hi : w.links.Inv) (hphase : w.phase.scripting = true)
    (hfinds : w.phase = .destroyed → w.finds b = false) :
    ∃ out, w.call cfg b = some out := by
  cases b with
  | next_request =>
    -- the queue is read to its first live entry, past those that are gone
    have hread : ∀ (ready : List ℕ) (w0 : Worker), w0.links.Inv → w0.phase.scripting = true →
        (w0.phase = .destroyed → (ready.any fun id => 0 < id && (w0.pending id).isSome) = false) →
        ∃ out, w0.dequeue ready = some out := by
      intro ready
      induction ready with
      | nil => exact fun _ _ _ _ => ⟨_, rfl⟩
      | cons id rest ih =>
        intro w0 hi0 hph0 hnone
        obtain ⟨found, hget⟩ : ∃ found, w0.pending_get id = some found := by
          refine pending_get_of_finds fun hd => ?_
          have := hnone hd
          rw [any_cons, or_eq_false_iff] at this
          simpa using this.1
        rw [dequeue, hget]
        cases found with
        | none =>
          refine ih w0 hi0 hph0 fun hd => ?_
          have := hnone hd
          rw [any_cons, or_eq_false_iff] at this
          exact this.2
        | some p =>
          obtain ⟨s, hs⟩ := entry_alive hi0 hph0 hget
          simp only [hs, isSome_some, if_true]
          exact ⟨_, rfl⟩
    exact hread w.ready w hi hphase hfinds
  | closed_requests => exact ⟨_, rfl⟩
  | respond id status headers body memory =>
    rw [call, fpmng_worker_respond]
    split
    · exact ⟨_, rfl⟩
    split
    · exact ⟨_, rfl⟩
    rcases found_alive hi hphase hfinds with hget | ⟨p, s, hget, hs, hhttp⟩ <;> rw [hget]
    · exact ⟨_, rfl⟩
    simp only [hs, isNone_some, false_eq_true, if_false]
    split
    · exact ⟨_, rfl⟩
    · exact loop_some cfg hhttp _ _
  | respond_start id status headers =>
    rw [call, fpmng_worker_respond_start]
    split
    · exact ⟨_, rfl⟩
    rcases found_alive hi hphase hfinds with hget | ⟨p, s, hget, hs, hhttp⟩ <;> rw [hget]
    · exact ⟨_, rfl⟩
    simp only [hs]
    iterate 3
      split
      · exact ⟨_, rfl⟩
    exact loop_some cfg hhttp _ _
  | respond_chunk id data queued memory =>
    rw [call, fpmng_worker_respond_chunk]
    rcases found_alive hi hphase hfinds with hget | ⟨p, s, hget, hs, -⟩ <;> rw [hget]
    · exact ⟨_, rfl⟩
    simp only [hs]
    iterate 3
      split
      · exact ⟨_, rfl⟩
    split <;> exact ⟨_, rfl⟩
  | respond_end id =>
    rw [call, fpmng_worker_respond_end]
    rcases found_alive hi hphase hfinds with hget | ⟨p, s, hget, hs, -⟩ <;> rw [hget]
    · exact ⟨_, rfl⟩
    simp only [hs]
    split <;> exact ⟨_, rfl⟩
  | upgrade id headers stream write memory =>
    rw [call, fpmng_worker_upgrade]
    rcases found_alive hi hphase hfinds with hget | ⟨p, s, hget, hs, -⟩ <;> rw [hget]
    · exact ⟨_, rfl⟩
    simp only [hs]
    split
    · exact ⟨_, rfl⟩
    cases (w.http s).request.handshake_key with
    | none => exact ⟨_, rfl⟩
    | some key =>
      dsimp only
      split <;> exact ⟨_, rfl⟩

structure Sound (w : Worker) : Prop where
  inv : w.links.Inv
  halted : w.links.Halted
  heads : Heads w.links.req w.links.pending

lemma resume_some {i : ℕ} (h : ∀ c ∈ w.calls[i]?, w.unanswered c.vars.id = true)
    (text : Option Bytes) (memory : Bool) :
    ∃ out, w.resume cfg i text memory = some out := by
  unfold resume
  cases hc : w.calls[i]? with
  | none => exact ⟨_, rfl⟩
  | some c =>
    obtain ⟨_, p, s, _, _, _, hhttp⟩ := unanswered_http (h c hc)
    dsimp only
    set w0 : Worker := { w with calls := w.calls.eraseIdx i } with hw0
    have hsame := add_value_same cfg w0 c.vars c.name text
    refine loop_some cfg (s := s) ?_ _ _
    rw [http_of_links hsame.1, hsame.2.2]
    exact hhttp

variable {e : Event}

lemma Sound.one_head (h : Sound w) (hclean : Clean w e) : w.OneHead e := by
  cases e with
  | call b =>
    intro hphase
    by_cases hserving : w.phase = .serving
    · exact hclean.2 hserving
    · -- after the walk no entry has a request
      have hnone := h.inv.ended hserving (fun ha => by
        have hph : w.phase = .answering := ha
        rw [hph] at hphase
        exact absurd hphase (by decide))
      cases b with
      | upgrade id headers stream write memory =>
        rw [upgrades_stream]
        cases hp : w.pending id.toNat with
        | none => rfl
        | some p => simp [hnone _ p hp]
      | _ => rfl
  | resume i text memory =>
    intro hphase c hmem p hp
    obtain ⟨_, p', _, hp', _, hidle, _⟩ := unanswered_http (hclean hphase c hmem)
    rw [hp] at hp'
    exact some.inj hp' ▸ hidle
  | _ => trivial

lemma Sound.step {cfg : Config} {w w' : Worker} (h : Sound w) (hclean : Clean w e)
    (hstep : step cfg w e = some w') : Sound w' := by
  have hm : Moves cfg.max_pending True w.links w'.links :=
    step_moves cfg h.inv h.halted hstep fun _ => h.one_head hclean
  refine ⟨hm.inv h.inv, hm.keeps (fun _ _ => Halted.move) h.halted, ?_⟩
  exact (hm.keeps (I := fun L => L.Inv ∧ Heads L.req L.pending)
    (fun _ _ hmove hL => ⟨Inv.move hmove hL.1, hL.2.move hmove hL.1⟩) ⟨h.inv, h.heads⟩).2

theorem clean_step (h : Sound w) (hc : Clean w e) :
    ∃ w', step cfg w e = some w' ∧ Sound w' := by
  -- a step is stuck only where it uses an entry that is gone
  have hsome : ∃ w', step cfg w e = some w' := by
    cases e with
    | close s =>
      rw [step]
      split
      · rename_i hlooping
        have hone : ∃ w2, w.close cfg s = some w2 ∧ _ ∧
            Moves cfg.max_pending True w.links w2.links :=
          close_moves cfg w s h.inv (by rintro hph; simp [hph, Phase.looping] at hlooping)
        exact ⟨_, hone.choose_spec.1⟩
      · exact ⟨_, rfl⟩
    | call b =>
      rw [step]
      split
      · rename_i hphase
        obtain ⟨out, hout⟩ := call_some cfg h.inv hphase hc.1
        rw [hout]
        exact ⟨_, rfl⟩
      · exact ⟨_, rfl⟩
    | resume i text memory =>
      rw [step]
      split
      · rename_i hphase
        obtain ⟨out, hout⟩ := resume_some cfg (hc hphase) text memory
        rw [hout]
        exact ⟨_, rfl⟩
      · exact ⟨_, rfl⟩
    | destroy =>
      rw [step]
      split
      · rename_i hflushed
        have hphase : w.phase = .flushing := by
          simp only [flushed, and_eq_true, beq_iff_eq] at hflushed
          exact hflushed.1
        have hend : ∃ w2, w.destroy cfg = some w2 ∧ Moves cfg.max_pending True w.links w2.links :=
          destroy_moves cfg w h.inv hphase
        exact ⟨_, hend.choose_spec.1⟩
      · exact ⟨_, rfl⟩
    | _ => exact ⟨_, rfl⟩
  obtain ⟨w', hstep⟩ := hsome
  exact ⟨w', hstep, h.step hc hstep⟩

/-! ## Steps that are not clean -/

def Bad : Option Worker → Prop
  | none => True
  | some w => ∃ s, 2 ≤ (w.http s).heads

lemma heads_replied {w v : Worker} (h : v.links = w.links.replied s 1) :
    (v.http s).heads = (w.http s).heads + 1 := by
  have hreq : (v.links.req s).heads = ((w.links.replied s 1).req s).heads := by rw [h]
  rw [replied, set_req] at hreq
  exact hreq

/-- The end of a call hands over a head, whatever the request has already. -/
lemma conclude_heads {w w' : Worker} {r : Result}
    (h : w.conclude cfg l true = some (w', r)) :
    ∃ s, w.http_of l.id = some s ∧ (w'.http s).heads = (w.http s).heads + 1 := by
  -- without a request the call is stuck
  cases hhttp : w.http_of l.id with
  | none =>
    unfold conclude at h
    rw [hhttp] at h
    split at h
    · simp at h
    · split at h <;> simp at h
  | some s =>
    refine ⟨s, rfl, ?_⟩
    obtain ⟨_, p, hp, _⟩ := http_of_some hhttp
    unfold conclude at h
    rw [hhttp, hp] at h
    -- an error, a whole reply or the head of a stream
    split at h
    · rw [← (mk.inj (some.inj h)).1]
      refine heads_replied (v := (w.clear_closecb s).fpm_worker_send_error s 500) ?_
      rw [links_send_error, replied_clear]
    split at h
    · rw [← (mk.inj (some.inj h)).1]
      refine heads_replied (v := fpm_worker_send_reply _ s _ _) ?_
      rw [links_send_reply, replied_clear]
      rw [links_add_header_if]
    · rename_i status _
      rw [← (mk.inj (some.inj h)).1]
      have hstart : ∀ w0 : Worker, w0.links = w.links →
          ((w0.hand_over s (.start status (w0.http s).out)).http s).heads
            = (w.http s).heads + 1 := by
        intro w0 hlinks
        have hreq := congrArg (fun L => (req L s).heads)
          (w0.links_hand_over s (.start status (w0.http s).out))
        simp only [set_req, hlinks] at hreq
        exact hreq
      exact hstart _ (w.links_add_header_if ..)

/-- A call whose request is answered, started or gone goes on, and does harm: the
strings it waits for may all be empty. -/
lemma resume_bad {i : ℕ} {c : Call} (hi : w.links.Inv)
    (hheads : Heads w.links.req w.links.pending) (hphase : w.phase.scripting = true)
    (hc : w.calls[i]? = some c) (hbad : w.unanswered c.vars.id = false) :
    ∃ more, Bad (attempt (step cfg) w more) := by
  induction hn : c.rest.length using Nat.strong_induction_on generalizing w i c with
  | _ n ih =>
    set w0 : Worker := { w with calls := w.calls.eraseIdx i } with hw0
    obtain ⟨hlinks1, _, hid1⟩ := add_value_same cfg w0 c.vars c.name (some [])
    set w1 := (w0.add_value cfg c.vars c.name (some [])).1 with hw1
    set l1 := (w0.add_value cfg c.vars c.name (some [])).2 with hl1
    have hstep : step cfg w (.resume i (some []) true)
        = ((w1.header_loop cfg l1 c.rest).bind (settle cfg true)).map fst := by
      rw [step, if_pos hphase, resume, hc]
    have hfault : step cfg w (.resume i (some []) true) = none →
        ∃ more, Bad (attempt (step cfg) w more) := by
      intro hnone
      refine ⟨[.resume i (some []) true], ?_⟩
      rw [attempt, hnone]
      trivial
    cases hloop : w1.header_loop cfg l1 c.rest with
    | none => exact hfault (by rw [hstep, hloop]; rfl)
    | some out =>
      obtain ⟨w2, l2, stop⟩ := out
      rw [hloop, bind_some] at hstep
      obtain ⟨hlinks2, _, hid2, hrest⟩ := header_loop_same hloop
      have hlinks : w2.links = w.links := hlinks2.trans hlinks1
      have hid : l2.id = c.vars.id := hid2.trans hid1
      cases stop with
      | none =>
        cases hend : w2.conclude cfg l2 true with
        | none => exact hfault (by rw [hstep, settle, hend]; rfl)
        | some out =>
          obtain ⟨s, hhttp, htwo⟩ := conclude_heads cfg hend
          refine ⟨[.resume i (some []) true], ?_⟩
          rw [attempt, hstep, settle, hend]
          refine ⟨s, ?_⟩
          -- the entry is there, so a stream was started on it
          rw [http_of_links hlinks, hid] at hhttp
          obtain ⟨hph, p, hp, hs⟩ := http_of_some hhttp
          have hserving : w.phase = .serving := by
            cases hw : w.phase <;> rw [hw] at hphase hph <;> simp_all [Phase.scripting]
          have hstream : p.streaming = true := by
            simpa [Worker.unanswered, hserving, hp, hs] using hbad
          have hone : (w.http s).heads = 1 := by
            have := hheads.linked _ p s hp hs
            rwa [hstream] at this
          have hkept : (w2.http s).heads = (w.http s).heads :=
            congrArg (fun L => (req L s).heads) hlinks
          rw [htwo, hkept, hone]
      | some stop =>
        obtain ⟨name, rest⟩ := stop
        -- the call waits again, last in the list
        set w3 : Worker := { w2 with calls := w2.calls ++ [⟨l2, name, rest⟩] } with hw3
        have hlinks3 : w3.links = w.links := hlinks
        have hphase3 : w3.phase = w.phase := congrArg Links.phase hlinks
        have hpend3 : w3.pending = w.pending := congrArg Links.pending hlinks
        obtain ⟨more, hmore⟩ := ih rest.length (hn ▸ hrest name rest rfl)
          (i := w2.calls.length) (c := ⟨l2, name, rest⟩) (hlinks3 ▸ hi) (hlinks3 ▸ hheads)
          (hphase3 ▸ hphase) (by simp [hw3])
          (by rw [Worker.unanswered, hphase3, hpend3, hid]; exact hbad) rfl
        refine ⟨.resume i (some []) true :: more, ?_⟩
        rw [attempt, hstep]
        exact hmore

lemma reject_heads (w : Worker) (id : ℕ) (status : ℕ)
    (version_required memory : Bool) (hconn : (w.http s).connection = true) :
    ((w.fpm_ws_reject_upgrade cfg id s status version_required memory).http s).heads
      = (w.http s).heads + 1 := by
  unfold fpm_ws_reject_upgrade
  rw [if_neg (by simp [hconn])]
  have hend : ∀ w1 : Worker, w1.links = w.links.replied s 1 →
      (((w1.reap id .answered).fpm_worker_account_answered_request cfg).http s).heads
        = (w.http s).heads + 1 := fun _ => heads_replied
  refine hend _ ?_
  rw [links_rejected, links_add_header_if, links_add_header_if]

lemma switch_heads (w : Worker) (id : ℕ) (key : Bytes)
    {headers : List (Option Bytes × Option Bytes)} (hheaders : refused_header headers = none)
    (hconn : (w.http s).connection = true) :
    ((w.switch cfg id s key headers true true).1.http s).heads = (w.http s).heads + 1 := by
  unfold switch
  rw [hheaders]
  rw [if_neg (by simp [hconn]), if_neg (by simp), if_neg (by simp)]
  set w1 := w.set_http s { w.http s with closecb := .none, hijacked := true } with hw1
  have hsame : (w1.http s).heads = (w.http s).heads := by
    rw [hw1, set_http]
    simp only [Function.update_self]
    rfl
  have hend : ∀ out, (((w1.hand_over s (.switching out)).reap id .upgraded
      |>.fpm_worker_account_answered_request cfg).http s).heads = (w1.http s).heads + 1 := by
    intro out
    have hreq := congrArg (fun L => (req L s).heads)
      (w1.links_hand_over s (.switching out))
    simp only [set_req] at hreq
    exact hreq
  exact hsame ▸ hend _

lemma upgrade_bad (hi : w.links.Inv) (hheads : Heads w.links.req w.links.pending)
    (hphase : w.phase = .serving) (hbad : w.upgrades_stream b = true) :
    Bad (step cfg w (.call b)) := by
  cases b with
  | upgrade id headers stream write memory =>
    rw [upgrades_stream] at hbad
    cases hp : w.pending id.toNat with
    | none => rw [hp] at hbad; simp at hbad
    | some p =>
      cases hs : p.http with
      | none => rw [hp] at hbad; simp only [hs] at hbad; simp at hbad
      | some s =>
        rw [hp] at hbad
        simp only [hs, and_eq_true, or_eq_true, decide_eq_true_eq] at hbad
        obtain ⟨⟨hpos, hstream⟩, hupgrade, hwhen⟩ := hbad
        have hone : (w.http s).heads = 1 := by
          have := hheads.linked _ p s hp hs
          rwa [hstream] at this
        have hconn : (w.http s).connection = true := (hi.linked _ p s hp hs).1
        have hget : w.pending_get id = some (some p) := by
          rw [pending_get, if_neg (by omega), hp]
          exact if_neg (by rw [hphase]; simp)
        rw [step, if_pos (by rw [hphase]; rfl), call, fpmng_worker_upgrade, hget]
        simp only [hs, hupgrade, Bool.not_true, false_eq_true, if_false]
        cases hkey : (w.http s).request.handshake_key with
        | none => exact ⟨s, by rw [reject_heads cfg w _ _ _ _ hconn, hone]⟩
        | some key =>
          by_cases hversion : (w.http s).request.version_13 = true
          · obtain ⟨⟨hheaders, rfl⟩, rfl⟩ :
                (refused_header headers = none ∧ stream = true) ∧ write = true := by
              simpa [hkey, hversion] using hwhen
            simp only [hversion, Bool.not_true, false_eq_true, if_false]
            exact ⟨s, by rw [switch_heads cfg w _ key hheaders hconn, hone]⟩
          · simp only [hversion, Bool.not_false, if_true]
            exact ⟨s, by rw [reject_heads cfg w _ _ _ _ hconn, hone]⟩
  | _ => simp [upgrades_stream] at hbad

lemma pending_get_destroyed (hphase : w.phase = .destroyed)
    (h : (0 < id && (w.pending id.toNat).isSome) = true) : w.pending_get id = none := by
  simp only [and_eq_true, decide_eq_true_eq] at h
  obtain ⟨p, hp⟩ := isSome_iff_exists.mp h.2
  rw [pending_get, if_neg (by omega), hp]
  exact if_pos hphase

/-- A builtin that finds an entry of the destroyed table uses it, at once or when it
is asked to end the stream. -/
lemma table_bad (hphase : w.phase = .destroyed) (hbad : w.finds b = true) :
    ∃ more, Bad (attempt (step cfg) w (.call b :: more)) := by
  have hstep : ∀ b, step cfg w (.call b) = (w.call cfg b).map fst := fun b => by
    rw [step, if_pos (by rw [hphase]; rfl)]
  have hnow : w.call cfg b = none → ∃ more, Bad (attempt (step cfg) w (.call b :: more)) := by
    intro hnone
    refine ⟨[], ?_⟩
    rw [attempt, hstep, hnone]
    trivial
  -- a call that is refused before it looks leaves the worker as it is
  have hlater : ∀ id : ℤ, (0 < id && (w.pending id.toNat).isSome) = true →
      (w.call cfg b).map fst = some w →
      ∃ more, Bad (attempt (step cfg) w (.call b :: more)) := by
    intro id hid hsame
    refine ⟨[.call (.respond_end id)], ?_⟩
    rw [attempt, hstep, hsame, bind_some, attempt, hstep, call,
      fpmng_worker_respond_end, pending_get_destroyed hphase hid]
    trivial
  cases b with
  | next_request =>
    refine hnow ?_
    have hread : ∀ ready : List ℕ, (ready.any fun id => 0 < id && (w.pending id).isSome) = true →
        w.dequeue ready = none := by
      intro ready
      induction ready with
      | nil => intro h; simp at h
      | cons id rest ih =>
        intro hany
        rw [dequeue]
        by_cases hid : (0 < id && (w.pending id).isSome) = true
        · rw [pending_get_destroyed hphase (by simpa using hid)]
        · rw [not_eq_true] at hid
          rw [any_cons, hid, Bool.false_or] at hany
          have hget : w.pending_get id = some none := by
            unfold pending_get
            split
            · rfl
            · rename_i hpos
              cases hp : w.pending id with
              | none => simp [hp]
              | some p =>
                rw [hp] at hid
                simp at hid hpos
                omega
          rw [hget]
          exact ih hany
    exact hread w.ready hbad
  | closed_requests => simp [Worker.finds] at hbad
  | respond id status headers body memory =>
    have hget := pending_get_destroyed hphase hbad
    rcases heq : w.call cfg (.respond id status headers body memory) with _ | out
    · exact hnow heq
    · refine hlater id hbad ?_
      rw [heq]
      rw [call, fpmng_worker_respond, hget] at heq
      split at heq
      · exact some.inj heq ▸ rfl
      split at heq
      · exact some.inj heq ▸ rfl
      · simp at heq
  | respond_start id status headers =>
    have hget := pending_get_destroyed hphase hbad
    rcases heq : w.call cfg (.respond_start id status headers) with _ | out
    · exact hnow heq
    · refine hlater id hbad ?_
      rw [heq]
      rw [call, fpmng_worker_respond_start, hget] at heq
      split at heq
      · exact some.inj heq ▸ rfl
      · simp at heq
  | respond_chunk id data queued memory =>
    refine hnow ?_
    rw [call, fpmng_worker_respond_chunk, pending_get_destroyed hphase hbad]
  | respond_end id =>
    refine hnow ?_
    rw [call, fpmng_worker_respond_end, pending_get_destroyed hphase hbad]
  | upgrade id headers stream write memory =>
    refine hnow ?_
    rw [call, fpmng_worker_upgrade, pending_get_destroyed hphase hbad]

/-! ## One response -/

lemma init_sound : Sound init where
  inv := init_inv
  halted := fun hne => absurd rfl hne
  heads := ⟨by simp [links, init], fun _ => Nat.zero_le 1⟩

end FpmNg.WorkerExecutor
