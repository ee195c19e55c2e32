/-
What the accept gates keep, in every run.

`Held p l` is what the two mechanisms keep together of a listener: it is enabled only
while its backoff is not paused and `p` holds, and while it is paused the resume timer
is pending. `p` is the owner's condition. Each function of an owner keeps it, and a
listener that is off always has a timer whose callback turns it on once nothing else
speaks against it.

For the classic executor `p` is the connection cap alone. A request does not close the
gate: a listener that is on when a request begins stays on, but the event loop does not
run then, and nothing turns it on before the request is over.
-/
import FpmNg.AcceptGate

namespace FpmNg.AcceptGate

open FpmNg.ConnTracker (Tracker Limits Alloc Described)
open Fallible Option Worker Runs Listener

/-! ## One listener -/

def Listener.Sane (l : Listener) : Prop := l.timer = l.paused ∧ (l.enabled = true → l.paused = false)

def Held (p : Prop) (l : Option Listener) : Prop :=
  ∀ l', l = some l' → l'.Sane ∧ (l'.enabled = true → p)

section Held

variable {p q : Prop} {l : Option Listener}

lemma Held.none (p : Prop) : Held p none := nofun

lemma Held.opened (h : p) : Held p (some .opened) := by
  rintro l' ⟨⟩
  exact ⟨⟨rfl, fun _ => rfl⟩, fun _ => h⟩

lemma Held.imp (h : Held p l) (himp : p → q) : Held q l :=
  fun l' hl => ⟨(h l' hl).1, fun hon => himp ((h l' hl).2 hon)⟩

lemma Held.set (on : Bool) (h : Held p l) (hq : on = true → q) :
    Held q (l.map (Listener.set on)) := by
  intro l' hl
  obtain ⟨k, hk, rfl⟩ := map_eq_some_iff.mp hl
  obtain ⟨hsane, -⟩ := h k hk
  unfold Listener.set
  cases on with
  | false => exact ⟨⟨hsane.1, by simp [evconnlistener_disable]⟩,
      by simp [evconnlistener_disable]⟩
  | true =>
    simp only [if_true]
    split
    · rename_i hpaused
      exact ⟨hsane, fun hon => absurd (hsane.2 hon) (by simp [hpaused])⟩
    · rename_i hpaused
      exact ⟨⟨hsane.1, fun _ => Bool.eq_false_iff.mpr hpaused⟩, fun _ => hq rfl⟩

lemma Held.error (added : Bool) (h : Held p l) (hon : accepts l = true) :
    Held p (l.map (fpm_http_accept_backoff_error added)) := by
  intro l' hl
  obtain ⟨k, rfl, rfl⟩ := map_eq_some_iff.mp hl
  obtain ⟨hsane, hp⟩ := h k rfl
  have hk : k.enabled = true := hon
  cases added with
  | true => exact ⟨⟨rfl, by
      simp [fpm_http_accept_backoff_error, evconnlistener_disable]⟩,
      fun _ => hp hk⟩
  | false => exact ⟨⟨hsane.1, fun _ => hsane.2 hk⟩, fun _ => hp hk⟩

lemma Held.resume (may : Bool) (h : Held p l) (hp : p → q) (hq : may = true → q) :
    Held q (l.map (fpm_http_accept_backoff_resume may)) := by
  intro l' hl
  obtain ⟨k, hk, rfl⟩ := map_eq_some_iff.mp hl
  obtain ⟨hsane, hold⟩ := h k hk
  cases may with
  | true => exact ⟨⟨rfl, fun _ => rfl⟩, fun _ => hq rfl⟩
  | false => exact ⟨⟨rfl, fun _ => rfl⟩, fun hon => hp (hold hon)⟩

lemma accepts_set_on {k : Listener} (h : k.paused = false) :
    accepts ((some k).map (Listener.set true)) = true := by
  simp [accepts, Listener.set, h, evconnlistener_enable]

lemma accepts_resume (k : Listener) :
    accepts ((some k).map (fpm_http_accept_backoff_resume true)) = true := by
  simp [accepts, fpm_http_accept_backoff_resume, evconnlistener_enable]

end Held

/-! ## The worker executor -/

variable {w : Worker}

namespace Worker

/-- What holds in every state: a closed gate has its cooldown, and a listener that is
off is paused or closed. -/
structure Inv (w : Worker) : Prop where
  held : Held (w.accept_closed = false) w.listener
  cooling : w.accept_closed = true → w.accept_cooling = true ∧ w.accept_cooldown = true
  shut : ∀ l, w.listener = some l → l.enabled = false → l.paused = true ∨ w.accept_closed = true

lemma reopen_inv (h : Held (w.accept_closed = false) w.listener)
    (hclosed : w.accept_closed = true → w.accept_cooling = true → w.accept_cooldown = true)
    (hshut : w.accept_closed = false → ∀ l, w.listener = some l → l.enabled = false → l.paused = true)
    :
    Inv w.fpm_worker_accept_reopen := by
  unfold fpm_worker_accept_reopen
  split
  · rename_i hstay
    rw [Bool.or_eq_true, Bool.not_eq_true'] at hstay
    refine ⟨h, fun hc => ?_, fun l hl hoff => ?_⟩
    · have hcooling : w.accept_cooling = true := hstay.resolve_left (by simp [hc])
      exact ⟨hcooling, hclosed hc hcooling⟩
    · cases hc : w.accept_closed with
      | true => exact .inr rfl
      | false => exact .inl (hshut hc l hl hoff)
  · refine ⟨h.set true fun _ => rfl, by simp [fpm_worker_accept_enable], ?_⟩
    intro l hl hoff
    obtain ⟨k, hk, rfl⟩ := map_eq_some_iff.mp hl
    unfold Listener.set at hoff ⊢
    simp only [if_true] at hoff ⊢
    split at hoff
    · rename_i hpaused
      rw [if_pos hpaused]
      exact .inl hpaused
    · simp [evconnlistener_enable] at hoff

variable (threshold : ℕ)

lemma hook_inv (h : Inv w) : Inv (w.fpm_worker_accept_hook threshold) := by
  unfold fpm_worker_accept_hook fpm_worker_accept_maybe_close
  split
  · exact ⟨h.held, h.cooling, h.shut⟩
  · refine ⟨h.held.set false fun hf => absurd hf (by simp), fun _ => ⟨rfl, rfl⟩, ?_⟩
    exact fun _ _ _ => .inr rfl

lemma step_inv (e : Event) (h : Inv w) : Inv (w.step threshold e) := by
  cases e with
  | accept =>
    simp only [step]
    split
    · exact hook_inv threshold h
    · exact h
  | error added =>
    simp only [step]
    split
    · rename_i hon
      refine ⟨h.held.error added hon, h.cooling, fun l hl hoff => ?_⟩
      obtain ⟨k, hk, rfl⟩ := map_eq_some_iff.mp hl
      -- without a timer the listener is enabled again at once
      cases added with
      | true => exact .inl rfl
      | false =>
        exact absurd hoff (by
          simp [fpm_http_accept_backoff_error, evconnlistener_enable])
    · exact h
  | backoff =>
    simp only [step]
    split
    · refine ⟨h.held.resume _ id fun hmay => ?_, h.cooling, fun l hl hoff => ?_⟩
      · simpa [fpm_worker_backoff_may_resume] using hmay
      · obtain ⟨k, hk, rfl⟩ := map_eq_some_iff.mp hl
        right
        -- it stays shut only while the gate is closed
        cases hc : w.accept_closed with
        | true => rfl
        | false =>
          exact absurd hoff (by simp [fpm_worker_backoff_may_resume, hc,
            fpm_http_accept_backoff_resume, evconnlistener_enable])
    · exact h
  | cooldown =>
    simp only [step]
    split
    · refine reopen_inv h.held nofun fun hc l hl hoff => ?_
      exact (h.shut l hl hoff).resolve_right (by simpa using hc)
    · exact h
  | loop =>
    refine reopen_inv h.held (fun hc _ => (h.cooling hc).2) fun hc l hl hoff => ?_
    exact (h.shut l hl hoff).resolve_right (by simpa using hc)
  | finish_output => exact ⟨.none _, h.cooling, by
      simp [step, fpm_worker_finish_output]⟩

structure Law (threshold : ℕ) (w : Worker) : Prop where
  /-- It is enabled only while no pause is on and the gate is open. -/
  enabled : ∀ l, w.listener = some l → l.enabled = true →
    l.paused = false ∧ w.accept_closed = false
  /-- Otherwise a timer is pending that turns it on, if the other mechanism lets it. -/
  reopen : ∀ l, w.listener = some l → l.enabled = false →
    (l.timer = true ∧ (w.accept_closed = false →
      accepts (w.step threshold .backoff).listener = true)) ∨
    (w.accept_cooldown = true ∧ (l.paused = false →
      accepts (w.step threshold .cooldown).listener = true))

lemma Inv.law (h : Inv w) : w.Law threshold := by
  refine ⟨fun l hl hon => ?_, fun l hl hoff => ?_⟩
  · obtain ⟨hsane, hopen⟩ := h.held l hl
    exact ⟨hsane.2 hon, hopen hon⟩
  · obtain ⟨⟨htimer, -⟩, -⟩ := h.held l hl
    cases hpaused : l.paused with
    | true =>
      refine .inl ⟨htimer.trans hpaused, fun hc => ?_⟩
      have hresumes : resumes w.listener = true := by
        rw [hl]
        exact htimer.trans hpaused
      simp only [step]
      rw [if_pos hresumes, fpm_worker_backoff_may_resume, hc, hl]
      exact accepts_resume l
    | false =>
      have hc : w.accept_closed = true := (h.shut l hl hoff).resolve_left (by simp [hpaused])
      refine .inr ⟨(h.cooling hc).2, fun _ => ?_⟩
      simp only [step]
      rw [if_pos (h.cooling hc).2]
      simp only [fpm_worker_accept_tick, fpm_worker_accept_reopen, fpm_worker_accept_enable, hc, hl]
      exact accepts_set_on hpaused

lemma run_law (events : List Event) : (run threshold events).Law threshold := by
  have hinit : Inv init := ⟨.opened rfl, by simp [init], fun l hl hoff => by
    cases hl
    exact absurd hoff (by decide)⟩
  exact (run_invariant (fun _ e h => step_inv threshold e h) init events hinit).law _

end Worker

/-! ## The connection cap -/

def Room (lim : Limits) (t : Tracker) : Prop :=
  0 < lim.max_connections → (t.live : ℤ) < lim.max_connections

structure Within (lim : Limits) (t : Tracker) : Prop where
  described : ∃ l, Described t l
  cap : 0 < lim.max_connections → (t.live : ℤ) ≤ lim.max_connections

section Tracker

variable {lim : Limits} {t : Tracker}

lemma Within.new (lim : Limits) : Within lim .new ∧ Room lim .new := by
  refine ⟨⟨⟨[], .new⟩, fun hon => ?_⟩, fun hon => ?_⟩
  · exact Int.le_of_lt hon
  · exact hon

lemma Room.le {t' : Tracker} (h : Room lim t) (hle : t'.live ≤ t.live) : Room lim t' := by
  intro hon
  have hroom := h hon
  omega

lemma other_within (h : Within lim t) {e : ConnTracker.Event} (he : e.other = true) :
    Yields (ConnTracker.step lim t e) fun t' => Within lim t' ∧ t'.live ≤ t.live := by
  obtain ⟨l, hdesc⟩ := h.described
  intro t' ht'
  obtain ⟨l', hdesc', -⟩ := ConnTracker.step_some hdesc ht'
  have hle := ConnTracker.step_live lim t he t' ht'
  refine ⟨⟨⟨l', hdesc'⟩, fun hon => ?_⟩, hle⟩
  have hcap := h.cap hon
  omega

lemma accepted_within (h : Within lim t) (hroom : Room lim t) (bev a now : ℕ) (ok : Alloc) :
    Yields (ConnTracker.step lim t (.accepted bev a now ok)) (Within lim) := by
  obtain ⟨l, hdesc⟩ := h.described
  intro t' ht'
  obtain ⟨l', hdesc', -⟩ := ConnTracker.step_some hdesc ht'
  have hle := ConnTracker.step_accepted_live lim t bev a now ok t' ht'
  refine ⟨⟨l', hdesc'⟩, fun hon => ?_⟩
  have hlt := hroom hon
  omega

lemma sweep_within (h : Within lim t) :
    Yields (ConnTracker.sweep t) fun t' => Within lim t' ∧ t'.live ≤ t.live :=
  other_within (e := .sweep) h rfl

lemma may_accept_within (h : Within lim t) :
    Yields (ConnTracker.may_accept lim t) fun r => Within lim r.2 ∧ r.2.live ≤ t.live ∧
      (r.1 = true → Room lim r.2) := by
  intro r hr
  have hstep : ConnTracker.step lim t .may_accept = some r.2 := by
    simp [ConnTracker.step, hr]
  obtain ⟨hwithin, hle⟩ := other_within h rfl r.2 hstep
  exact ⟨hwithin, hle, (ConnTracker.may_accept_live lim t r hr).2.1⟩

lemma sweep_some (h : Within lim t) (hroom : Room lim t) :
    ∃ t', ConnTracker.sweep t = some t' ∧ Room lim t' := by
  obtain ⟨l, hdesc⟩ := h.described
  obtain ⟨t', -, ht', -⟩ := ConnTracker.sweep_rests hdesc
  exact ⟨t', ht', hroom.le (sweep_within h t' ht').2⟩

end Tracker

/-! ## The classic executor -/

variable {c : Classic}

namespace Classic

variable {lim : Limits}

structure Inv (lim : Limits) (c : Classic) : Prop where
  within : Within lim c.conns
  held : Held (Room lim c.conns) c.listener

lemma Inv.congr {c c' : Classic} (h : Inv lim c) (hconns : c'.conns = c.conns)
    (hlistener : c'.listener = c.listener) : Inv lim c' :=
  ⟨hconns ▸ h.within, by rw [hconns, hlistener]; exact h.held⟩

lemma may_open_spec (h : Inv lim c) :
    Yields (may_open lim c) fun r => Inv lim r.2 ∧ r.2.listener = c.listener ∧
      r.2.in_request = c.in_request ∧
      (r.1 = true → Room lim r.2.conns ∧ c.in_request = false) := by
  unfold may_open
  split
  · exact .of_some ⟨h, rfl, rfl, nofun⟩
  · rename_i hidle
    rw [Bool.or_eq_true, not_or] at hidle
    refine .map ((may_accept_within h.within).imp fun r hr => ?_)
    exact ⟨⟨hr.1, h.held.imp fun hroom => hroom.le hr.2.1⟩, rfl, rfl,
      fun hmay => ⟨hr.2.2 hmay, Bool.eq_false_iff.mpr hidle.2⟩⟩

theorem tick_body_spec (sweep : Bool) (h : Inv lim c) :
    Yields (fpm_direct_tick_body lim sweep c) fun c' => Inv lim c' ∧
      c'.in_request = c.in_request ∧
      (c.in_request = true → accepts c'.listener = true → accepts c.listener = true) := by
  unfold fpm_direct_tick_body
  split
  · exact .of_some ⟨⟨h.within, .none _⟩, rfl, by simp [accepts]⟩
  obtain ⟨hretire, hsame, hless⟩ : Inv lim (if c.retiring then c.fpm_direct_retire_enter else c) ∧
      (if c.retiring then c.fpm_direct_retire_enter else c).in_request = c.in_request ∧
      (accepts (if c.retiring then c.fpm_direct_retire_enter else c).listener = true →
        accepts c.listener = true) := by
    split
    · exact ⟨⟨h.within, .none _⟩, rfl, by
        simp [accepts, fpm_direct_retire_enter]⟩
    · exact ⟨h, rfl, id⟩
  generalize (if c.retiring = true then c.fpm_direct_retire_enter else c) = d at hretire hsame hless ⊢
  have hswept : Yields (if sweep then ConnTracker.sweep d.conns else some d.conns) fun t =>
      Within lim t ∧ t.live ≤ d.conns.live := by
    split
    · exact sweep_within hretire.within
    · exact .of_some ⟨hretire.within, le_rfl⟩
  refine hswept.bind fun t ht => ?_
  have hd : Inv lim { d with conns := t } := ⟨ht.1, hretire.held.imp fun hroom => hroom.le ht.2⟩
  refine (may_open_spec hd).bind fun r hr => .of_some ?_
  obtain ⟨hinv, hlistener, hin, hmay⟩ := hr
  split
  · rename_i hyes
    obtain ⟨hroom, hidle⟩ := hmay hyes
    refine ⟨⟨hinv.within, hinv.held.set true fun _ => hroom⟩, hin.trans hsame, fun hreq => ?_⟩
    exact absurd (hsame.symm.trans hidle) (by simp [hreq])
  · refine ⟨hinv, hin.trans hsame, fun _ hon => hless ?_⟩
    rwa [hlistener] at hon

lemma close_gate_inv (h : Inv lim c) (hon : accepts c.listener = true) (bev a now : ℕ)
    (ok : Alloc) :
    Yields (fpm_direct_accept_close_gate lim bev a now ok c) fun c' =>
      Inv lim c' ∧ c'.in_request = c.in_request := by
  have hroom : Room lim c.conns := by
    cases hl : c.listener with
    | none => simp [accepts, hl] at hon
    | some l =>
      refine (h.held l hl).2 ?_
      rwa [hl] at hon
  refine .map ((accepted_within h.within hroom bev a now ok).imp fun t ht => ?_)
  exact ⟨⟨ht, h.held.set false fun hf => absurd hf (by simp)⟩, rfl⟩

lemma on_loop_spec {next : Option Classic} {Q : Classic → Prop} (hc : Q c)
    (h : c.in_request = false → Yields next Q) : Yields (c.on_loop next) Q := by
  unfold on_loop
  split
  · exact .of_some hc
  · rename_i hidle
    exact h (Bool.eq_false_iff.mpr hidle)

theorem step_spec (e : Event) (h : Inv lim c) :
    Yields (c.step lim e) fun c' => Inv lim c' ∧ (c.in_request = true → c'.in_request = true →
      accepts c'.listener = true → accepts c.listener = true) := by
  -- these events need the loop, which stands still while a request is served
  have hloop : ∀ {next : Option Classic}, (c.in_request = false → Yields next (Inv lim)) →
      Yields (c.on_loop next) fun c' => Inv lim c' ∧ (c.in_request = true → c'.in_request = true →
        accepts c'.listener = true → accepts c.listener = true) := by
    intro next hnext
    refine on_loop_spec ⟨h, fun _ _ => id⟩ fun hidle => (hnext hidle).imp fun c' hc' => ?_
    exact ⟨hc', fun hreq => absurd hidle (by simp [hreq])⟩
  cases e with
  | accept bev a now ok =>
    refine hloop fun _ => ?_
    split
    · rename_i hon
      exact (close_gate_inv h hon bev a now ok).imp fun c' hc' => hc'.1
    · exact .of_some h
  | error added =>
    refine hloop fun _ => .of_some ?_
    split
    · rename_i hon
      exact ⟨h.within, h.held.error added hon⟩
    · exact h
  | backoff =>
    refine hloop fun _ => ?_
    split
    · refine (may_open_spec h).bind fun r hr => .of_some ?_
      exact ⟨hr.1.within, hr.1.held.resume r.1 id fun hmay => (hr.2.2.2 hmay).1⟩
    · exact .of_some h
  | tick => exact hloop fun _ => (tick_body_spec true h).imp fun c' hc' => hc'.1
  | request => exact hloop fun _ => .of_some (h.congr rfl rfl)
  | respond =>
    simp only [step]
    split
    · exact (tick_body_spec false h).imp fun c' hc' => ⟨hc'.1, fun hreq _ => hc'.2.2 hreq⟩
    · exact .of_some ⟨h, fun _ _ => id⟩
  | request_end =>
    simp only [step]
    split
    · refine (tick_body_spec (c := { c with in_request := false }) false (h.congr rfl rfl)).imp ?_
      -- the request is over, so there is nothing to show of a running one
      exact fun c' hc' => ⟨hc'.1, fun _ hreq => absurd (hc'.2.1.symm.trans hreq) (by simp)⟩
    · exact .of_some ⟨h, fun _ _ => id⟩
  | retire | stop => exact .of_some ⟨h.congr rfl rfl, fun _ _ => id⟩
  | retire_now =>
    refine .of_some ?_
    split
    · exact ⟨⟨h.within, .none _⟩, by
        simp [accepts, fpm_direct_retire_enter]⟩
    · exact ⟨h, fun _ _ => id⟩
  | conns e =>
    simp only [step]
    split
    · rename_i he
      refine .map ((other_within h.within he).imp fun t ht => ⟨⟨ht.1, ?_⟩, fun _ _ => id⟩)
      exact h.held.imp fun hroom => hroom.le ht.2
    · exact .of_some ⟨h, fun _ _ => id⟩

structure Law (lim : Limits) (c : Classic) : Prop where
  /-- It is enabled only while no pause is on and the cap leaves room. -/
  enabled : ∀ l, c.listener = some l → l.enabled = true → l.paused = false ∧ Room lim c.conns
  /-- Inside a request nothing turns it on. -/
  request : ∀ e c', c.in_request = true → c.step lim e = some c' → c'.in_request = true →
    accepts c'.listener = true → accepts c.listener = true
  /-- Otherwise the resume timer or the tick turns it on, once nothing else speaks
  against it. -/
  reopen : ∀ l, c.listener = some l → l.enabled = false →
    c.in_request = false → c.retiring = false → Room lim c.conns →
    (l.timer = true ∧ ∃ c', c.step lim .backoff = some c' ∧ accepts c'.listener = true) ∨
    (l.paused = false ∧ (c.stopping = false →
      ∃ c', c.step lim .tick = some c' ∧ accepts c'.listener = true))
  cap : 0 < lim.max_connections → (c.conns.live : ℤ) ≤ lim.max_connections

lemma Inv.law (h : Inv lim c) : c.Law lim := by
  refine ⟨fun l hl hon => ?_, fun e c' hreq hc' hreq' hon => ?_, fun l hl _ hidle hstay hroom => ?_,
    h.within.cap⟩
  · obtain ⟨hsane, hroom⟩ := h.held l hl
    exact ⟨hsane.2 hon, hroom hon⟩
  · exact (step_spec e h c' hc').2 hreq hreq' hon
  · -- with room the gate opens, whatever tracker the sweep leaves
    have hopen : ∀ t, Room lim t →
        may_open lim { c with conns := t } = some (true, { c with conns := t }) := by
      intro t ht
      simp [may_open, hidle, hstay, ConnTracker.may_accept_of_room ht]
    obtain ⟨⟨htimer, -⟩, -⟩ := h.held l hl
    -- a paused listener waits for its timer, any other for the next tick
    cases hpaused : l.paused with
    | true =>
      have hresumes : resumes c.listener = true := by
        rw [hl]
        exact htimer.trans hpaused
      refine .inl ⟨htimer.trans hpaused, ?_⟩
      refine ⟨{ c with
        listener := c.listener.map (fpm_http_accept_backoff_resume true) }, ?_, ?_⟩
      · simp only [step, on_loop, hidle, hresumes, fpm_direct_backoff_may_resume, hopen c.conns hroom]
        rfl
      · dsimp only
        rw [hl]
        exact accepts_resume l
    | false =>
      refine .inr ⟨rfl, fun hgoing => ?_⟩
      obtain ⟨t, ht, htroom⟩ := sweep_some h.within hroom
      refine ⟨fpm_direct_accept_enable true { c with conns := t }, ?_, ?_⟩
      · have hbody : fpm_direct_tick_body lim true c =
            some (fpm_direct_accept_enable true { c with conns := t }) := by
          have hmay := hopen t htroom
          simp only [hgoing, hstay] at hmay
          simp [fpm_direct_tick_body, hgoing, hstay, ht, hmay]
        simp [step, on_loop, hidle, hbody]
      · simp only [fpm_direct_accept_enable, hl]
        exact accepts_set_on hpaused

lemma run_law (lim : Limits) (events : List Event) (h : run lim events = some c) : c.Law lim := by
  obtain ⟨hwithin, hroom⟩ := Within.new lim
  have hinv := attempt_invariant
    (fun s e s' hs hstep => (step_spec e hs s' hstep).1) events ⟨hwithin, .opened hroom⟩ h
  exact hinv.law

end Classic

/-! ## The gateway -/

variable {g : Gateway}

namespace Gateway

variable {lim : Limits}

def Open (lim : Limits) (g : Gateway) : Prop := ∀ t, g.conns = some t → Room lim t

structure Inv (lim : Limits) (g : Gateway) : Prop where
  capped : g.conns = none → ¬ 0 < lim.max_connections
  within : ∀ t, g.conns = some t → 0 < lim.max_connections ∧ Within lim t
  held : ∀ b, Held (Open lim g) (g.bound b)
  gone : g.stopping = true → ∀ b, g.bound b = none
  /-- Without a cap only a pause turns a listener off. -/
  free : g.conns = none → ∀ b l, g.bound b = some l → l.enabled = false → l.paused = true

lemma Inv.conns {t t' : Tracker} (h : Inv lim g) (ht : g.conns = some t) (hwithin : Within lim t')
    (hle : t'.live ≤ t.live) : Inv lim { g with conns := some t' } where
  capped := nofun
  within := by
    rintro _ ⟨⟩
    exact ⟨(h.within t ht).1, hwithin⟩
  held := by
    intro b
    refine (h.held b).imp fun hopen => ?_
    rintro _ ⟨⟩
    exact (hopen t ht).le hle
  gone := h.gone
  free := nofun

@[simp] lemma set_bound_self (g : Gateway) (b : Bound) (l : Option Listener) :
    (g.set_bound b l).bound b = l := Function.update_self ..

lemma set_bound_ne (g : Gateway) {b d : Bound} (hd : d ≠ b) (l : Option Listener) :
    (g.set_bound b l).bound d = g.bound d := Function.update_of_ne hd ..

lemma Inv.bound (h : Inv lim g) (b : Bound) {l : Option Listener}
    (hgoing : g.stopping = true → l = none) (hheld : Held (Open lim g) l)
    (hfree : g.conns = none → ∀ k, l = some k → k.enabled = false → k.paused = true) :
    Inv lim (g.set_bound b l) where
  capped := h.capped
  within := h.within
  held := by
    intro d
    by_cases hd : d = b
    · subst hd
      rw [set_bound_self]
      exact hheld
    · rw [set_bound_ne g hd]
      exact h.held d
  gone := by
    intro hstop d
    by_cases hd : d = b
    · subst hd
      rw [set_bound_self]
      exact hgoing hstop
    · rw [set_bound_ne g hd]
      exact h.gone hstop d
  free := by
    intro hnone d k hk
    by_cases hd : d = b
    · subst hd
      rw [set_bound_self] at hk
      exact hfree hnone k hk
    · rw [set_bound_ne g hd] at hk
      exact h.free hnone d k hk

lemma accepting_spec (h : Inv lim g) :
    Yields (g.fpm_http_gateway_accepting lim) fun r => Inv lim r.2 ∧ r.2.bound = g.bound ∧
      (r.1 = true → Open lim r.2) ∧
      (r.2.conns = none → r.2.stopping = false → r.1 = true) := by
  unfold fpm_http_gateway_accepting
  split
  · rename_i hstop
    exact .of_some ⟨h, rfl, nofun,
      fun _ hgoing => absurd (hstop.symm.trans hgoing) (by simp)⟩
  split
  · rename_i hnone
    exact .of_some ⟨h, rfl, fun _ t ht => absurd (hnone.symm.trans ht) (by simp), fun _ _ => rfl⟩
  · rename_i t ht
    refine .map ((may_accept_within (h.within t ht).2).imp fun r hr => ?_)
    refine ⟨h.conns ht hr.1 hr.2.1, rfl, fun hmay => ?_, nofun⟩
    rintro _ ⟨⟩
    exact hr.2.2 hmay

theorem gate_spec {t : Tracker} (ht : g.conns = some t) (hmax : 0 < lim.max_connections)
    (hwithin : Within lim t) (hheld : ∀ b, ∃ p, Held p (g.bound b))
    (hgone : g.stopping = true → ∀ b, g.bound b = none) :
    Yields (g.fpm_http_gateway_gate lim) (Inv lim) := by
  unfold fpm_http_gateway_gate
  -- Without its listeners the gateway holds any condition on them.
  have hbare : Inv lim { g with bound := fun _ => none } :=
    ⟨fun hnone => absurd (ht.symm.trans hnone) (by simp),
      fun t' ht' => by cases ht.symm.trans ht'; exact ⟨hmax, hwithin⟩,
      fun _ => .none _, fun _ _ => rfl, by simp⟩
  split
  · rename_i hstop
    simp only [ht, isNone_some, Bool.false_or] at hstop
    have hbound : g.bound = fun _ => none := funext (hgone hstop)
    refine .of_some ?_
    rwa [show g = { g with bound := fun _ => none } by rw [← hbound]]
  · rename_i hgoing
    simp only [ht, isNone_some, Bool.false_or] at hgoing
    intro g' hg'
    obtain ⟨r, hr, hset⟩ := bind_eq_some_iff.mp hg'
    simp only [fpm_http_gateway_accepting, ht, hgoing, Bool.false_eq_true, if_false,
      map_eq_some_iff] at hr
    obtain ⟨a, ha, rfl⟩ := hr
    obtain ⟨hafter, -, hmay⟩ := may_accept_within hwithin a ha
    cases hset
    refine ⟨by simp [fpm_http_gateway_listener_set], ?_, fun b => ?_,
      by simp [fpm_http_gateway_listener_set], by
        simp [fpm_http_gateway_listener_set]⟩
    · rintro _ ⟨⟩
      exact ⟨hmax, hafter⟩
    · obtain ⟨p, hp⟩ := hheld b
      refine hp.set a.1 fun hyes => ?_
      rintro _ ⟨⟩
      exact hmay hyes

lemma Inv.gate (h : Inv lim g) : Yields (g.fpm_http_gateway_gate lim) (Inv lim) := by
  cases ht : g.conns with
  | none =>
    refine (?_ : g.fpm_http_gateway_gate lim = some g) ▸ .of_some h
    simp [fpm_http_gateway_gate, ht]
  | some t =>
    obtain ⟨hmax, hwithin⟩ := h.within t ht
    exact gate_spec ht hmax hwithin (fun b => ⟨_, h.held b⟩) h.gone

lemma step_inv (e : Event) (h : Inv lim g) : Yields (g.step lim e) (Inv lim) := by
  cases e with
  | accept b bev a now ok =>
    simp only [step]
    split
    · rename_i hon
      unfold fpm_http_gateway_accepted
      split
      · exact .of_some h
      · rename_i t ht
        obtain ⟨hmax, hwithin⟩ := h.within t ht
        have hroom : Room lim t := by
          cases hl : g.bound b with
          | none => simp [accepts, hl] at hon
          | some l =>
            refine (h.held b l hl).2 ?_ t ht
            rwa [hl] at hon
        refine (accepted_within hwithin hroom bev a now ok).bind fun t' ht' => ?_
        exact gate_spec rfl hmax ht' (fun d => ⟨_, h.held d⟩) h.gone
    · exact .of_some h
  | error b added =>
    refine .of_some ?_
    split
    · rename_i hon
      refine h.bound b (fun hstop => by rw [h.gone hstop b]; rfl) ((h.held b).error added hon) ?_
      intro hnone k hk hoff
      obtain ⟨l, hl, rfl⟩ := map_eq_some_iff.mp hk
      cases added with
      | true => rfl
      | false => exact absurd hoff (by
          simp [fpm_http_accept_backoff_error, evconnlistener_enable])
    · exact h
  | backoff b =>
    simp only [step]
    split
    · refine (accepting_spec h).bind fun r hr => .of_some ?_
      obtain ⟨hinv, -, hmay, hfree⟩ := hr
      refine hinv.bound b (fun hstop => by rw [hinv.gone hstop b]; rfl)
        ((hinv.held b).resume r.1 id hmay) ?_
      intro hnone k hk hoff
      obtain ⟨l, hl, rfl⟩ := map_eq_some_iff.mp hk
      have hgoing : r.2.stopping = false := by
        rw [← Bool.not_eq_true]
        intro hstop
        exact absurd ((hinv.gone hstop b).symm.trans hl) (by simp)
      rw [hfree hnone hgoing] at hoff
      exact absurd hoff (by
        simp [fpm_http_accept_backoff_resume, evconnlistener_enable])
    · exact .of_some h
  | cap_tick =>
    simp only [step, fpm_http_gateway_cap_tick]
    split
    · exact .of_some h
    · rename_i t ht
      obtain ⟨-, hwithin⟩ := h.within t ht
      refine (sweep_within hwithin).bind fun t' ht' => ?_
      exact (h.conns ht ht'.1 ht'.2).gate
  | first_cert =>
    simp only [step, fpm_http_gateway_tls_listener_hook]
    split
    · split
      · exact .of_some h
      · rename_i hgoing
        -- The new listener may be above the cap: the gate at the end says so.
        cases ht : g.conns with
        | none =>
          have hinv : Inv lim (g.set_bound .tls (some .opened)) :=
            h.bound .tls (fun hstop => absurd hstop hgoing)
              (.opened fun t ht' => absurd (ht.symm.trans ht') (by simp))
              fun _ k hk hoff => by cases hk; simp [opened] at hoff
          exact hinv.gate
        | some t =>
          obtain ⟨hmax, hwithin⟩ := h.within t ht
          refine gate_spec ht hmax hwithin (fun b => ?_) fun hstop => absurd hstop hgoing
          cases b with
          | tls =>
            exact ⟨True, .opened trivial⟩
          | plain =>
            exact ⟨_, h.held .plain⟩
    · exact .of_some h
  | drain =>
    refine .of_some ?_
    unfold fpm_http_drain_start
    split
    · exact h
    · exact ⟨h.capped, h.within, fun _ => .none _, fun _ _ => rfl,
        by simp⟩
  | conns e =>
    simp only [step]
    split
    · rename_i t he ht
      refine .map ((other_within (h.within t ht).2 he).imp fun t' ht' => ?_)
      exact h.conns ht ht'.1 ht'.2
    · exact .of_some h

structure Law (lim : Limits) (g : Gateway) : Prop where
  /-- One is enabled only while its pause is not on and the cap leaves room. -/
  enabled : ∀ b l, g.bound b = some l → l.enabled = true → l.paused = false ∧ g.Open lim
  /-- Otherwise its resume timer turns it on, or, with a cap, the tick of the cap. -/
  reopen : ∀ b l, g.bound b = some l → l.enabled = false → g.Open lim →
    (l.timer = true ∧
      ∃ g', g.step lim (.backoff b) = some g' ∧ accepts (g'.bound b) = true) ∨
    (l.paused = false ∧ g.conns.isSome = true ∧
      ∃ g', g.step lim .cap_tick = some g' ∧ accepts (g'.bound b) = true)
  cap : ∀ t, g.conns = some t → (t.live : ℤ) ≤ lim.max_connections
  tracked : 0 < lim.max_connections → g.conns.isSome = true

lemma accepting_of_open (hgoing : g.stopping = false) (hopen : g.Open lim) :
    g.fpm_http_gateway_accepting lim = some (true, g) := by
  unfold fpm_http_gateway_accepting
  rw [if_neg (by simp [hgoing])]
  split
  · rfl
  · rename_i t ht
    simp [ConnTracker.may_accept_of_room (hopen t ht), ← ht]

lemma Inv.law (h : Inv lim g) : g.Law lim := by
  refine ⟨fun b l hl hon => ?_, fun b l hl hoff hopen => ?_, fun t ht => ?_, fun hmax => ?_⟩
  · obtain ⟨hsane, hroom⟩ := h.held b l hl
    exact ⟨hsane.2 hon, hroom hon⟩
  · have hgoing : g.stopping = false := by
      rw [← Bool.not_eq_true]
      intro hstop
      exact absurd ((h.gone hstop b).symm.trans hl) (by simp)
    obtain ⟨⟨htimer, -⟩, -⟩ := h.held b l hl
    cases hpaused : l.paused with
    | true =>
      have hresumes : resumes (g.bound b) = true := by
        rw [hl]
        exact htimer.trans hpaused
      refine .inl ⟨htimer.trans hpaused, g.set_bound b
        ((g.bound b).map (fpm_http_accept_backoff_resume true)), ?_, ?_⟩
      · simp [step, hresumes, fpm_http_gateway_may_resume, accepting_of_open hgoing hopen]
      · rw [set_bound_self, hl]
        exact accepts_resume l
    | false =>
      -- Without a cap the listener would be on.
      cases ht : g.conns with
      | none => exact absurd (h.free ht b l hl hoff) (by simp [hpaused])
      | some t =>
        obtain ⟨t', hsweep, hroom⟩ := sweep_some (h.within t ht).2 (hopen t ht)
        have haccepting : fpm_http_gateway_accepting lim { g with conns := some t' } =
            some (true, { g with conns := some t' }) :=
          accepting_of_open hgoing (by rintro _ ⟨⟩; exact hroom)
        refine .inr ⟨rfl, rfl, fpm_http_gateway_listener_set true { g with conns := some t' },
          ?_, ?_⟩
        · simp only [hgoing] at haccepting
          simp [step, fpm_http_gateway_cap_tick, ht, hsweep, fpm_http_gateway_gate, hgoing,
            haccepting]
        · simp only [fpm_http_gateway_listener_set, hl]
          exact accepts_set_on hpaused
  · obtain ⟨hmax, hwithin⟩ := h.within t ht
    exact hwithin.cap hmax
  · cases ht : g.conns with
    | none => exact absurd hmax (h.capped ht)
    | some t => rfl

lemma init_inv (lim : Limits) (tls plain : Bool) : Inv lim (init lim tls plain) := by
  obtain ⟨hwithin, hroom⟩ := Within.new lim
  have hbound : ∀ b, (init lim tls plain).bound b = none ∨
      (init lim tls plain).bound b = some .opened := by
    intro b
    cases b <;> cases tls <;> cases plain <;> simp [init]
  have hconns : ∀ t, (init lim tls plain).conns = some t →
      0 < lim.max_connections ∧ t = .new := by
    intro t ht
    simp only [init] at ht
    split at ht
    · rename_i hmax
      exact ⟨hmax, (some.inj ht).symm⟩
    · simp at ht
  refine ⟨fun hnone hmax => ?_, fun t ht => ?_, fun b => ?_, by
    simp [init], fun _ b l hl hoff => ?_⟩
  · simp [init, hmax] at hnone
  · obtain ⟨hmax, rfl⟩ := hconns t ht
    exact ⟨hmax, hwithin⟩
  · rcases hbound b with hb | hb
    · rw [hb]
      exact .none _
    · rw [hb]
      refine .opened fun t ht => ?_
      obtain ⟨-, rfl⟩ := hconns t ht
      exact hroom
  · rcases hbound b with hb | hb
    · exact nomatch hb.symm.trans hl
    · cases hb.symm.trans hl
      simp [opened] at hoff

lemma run_law (lim : Limits) (tls plain : Bool) (events : List Event)
    (h : run lim tls plain events = some g) : g.Law lim := by
  have hinv := attempt_invariant
    (fun s e s' hs hstep => step_inv e hs s' hstep) events (init_inv lim tls plain) h
  exact hinv.law

end Gateway

/-! ## All three -/

/-- **The accept gates.** In every run of each of the three owners a listener is enabled only
while its backoff is not paused and its owner's gate is open; one that is off has a timer that
turns it on once the gate is open; and the connections tracked stay within the cap. In the classic
executor a request keeps the gate from being opened, but does not close it. -/
theorem accept_gates :
    (∀ (accept_threshold : ℕ) (events : List Event),
      (run accept_threshold events).Law accept_threshold) ∧
    (∀ (lim : Limits) (events : List Classic.Event) (c : Classic),
      Classic.run lim events = some c → c.Law lim) ∧
    (∀ (lim : Limits) (tls plain : Bool) (events : List Gateway.Event) (g : Gateway),
      Gateway.run lim tls plain events = some g → g.Law lim) :=
  ⟨run_law, fun lim events _ => Classic.run_law lim events,
    fun lim tls plain events _ => Gateway.run_law lim tls plain events⟩

/-- An accept closes the gate, the tick opens it, and the request that then begins
leaves it open. -/
theorem classic_open_in_request :
    (Classic.run ⟨0, 10, 0, true⟩ [.accept 1 1 0 ⟨true, true, true, true, true, true⟩, .tick,
      .request]).map
      (fun c => (accepts c.listener, c.in_request)) = some (true, true) := by
  decide

end FpmNg.AcceptGate
