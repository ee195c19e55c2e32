/-
The burst limit on the respawns of a gateway process: `fpm_http_gateway_on_exit` of
`fpm_http_gw_proc.c`.

The limit is meant as one on every stretch of `FPM_HTTP_RESPAWN_WINDOW_SEC` seconds. The slot
counts in a window that starts anew at the first death after it lapsed, so the two agree as
long as no start of a window falls among six deaths that are that close together.
-/
import Mathlib.Data.List.Induction

open List

namespace FpmNg.GatewayRespawn

abbrev FPM_HTTP_RESPAWN_MAX_BURST : ℕ := 5
abbrev FPM_HTTP_RESPAWN_WINDOW_SEC : ℕ := 10

/-! ## The slot -/

/-- `slot->respawn`. -/
structure Respawn where
  window_start : ℕ
  count : ℕ
  gave_up : Bool

/-- `struct fpm_http_gw_slot_s` with the slot's pid. -/
structure Slot where
  pid : ℕ
  log_follow : Bool
  respawn : Respawn

inductive Status where
  | signaled (signal : ℕ)
  | exited (code : ℕ)
  deriving DecidableEq

inductive Level where
  | notice
  | warning
  deriving DecidableEq

inductive Answer where
  /-- During a stop or reload: logged at this level, and whether the children that were held
  back get their signal. -/
  | left (level : Level) (release_deferred : Bool)
  | silent
  | gave_up (crashes : ℕ)
  | spawn
  deriving DecidableEq

structure Death where
  now : ℕ
  status : Status
  can_spawn_children : Bool
  ready_gateways_alive : Bool

def Respawn.window (r : Respawn) (now : ℕ) : Respawn :=
  if now - r.window_start > FPM_HTTP_RESPAWN_WINDOW_SEC then
    { r with window_start := now, count := 0 }
  else r

/-- `fpm_http_gateway_on_exit`, after the reconciliation of the counters. -/
def fpm_http_gateway_on_exit (d : Death) (slot : Slot) : Slot × Answer :=
  let slot := { slot with log_follow := false, pid := 0 }
  if !d.can_spawn_children then
    (slot, .left (if d.status = .exited 0 then .notice else .warning) (!d.ready_gateways_alive))
  else if slot.respawn.gave_up then (slot, .silent)
  else
    let r := slot.respawn.window d.now
    let r := { r with count := r.count + 1 }
    if r.count > FPM_HTTP_RESPAWN_MAX_BURST then
      ({ slot with respawn := { r with gave_up := true } }, .gave_up r.count)
    else ({ slot with respawn := r }, .spawn)

/-! ## Schedules -/

structure Schedule where
  deaths : List Death
  ordered : deaths.Pairwise (·.now ≤ ·.now)
  normal : ∀ d ∈ deaths, d.can_spawn_children = true

structure Run where
  slot : Slot
  respawns : List Death

def Run.step (x : Run) (d : Death) : Run :=
  let (slot, answer) := fpm_http_gateway_on_exit d x.slot
  ⟨slot, if answer = .spawn then x.respawns ++ [d] else x.respawns⟩

def after (deaths : List Death) : Run := deaths.foldl Run.step ⟨⟨0, false, ⟨0, 0, false⟩⟩, []⟩

/-- The deaths that lie within the window before `now`. -/
def recent (deaths : List Death) (now : ℕ) : ℕ :=
  deaths.countP fun d => now ≤ d.now + FPM_HTTP_RESPAWN_WINDOW_SEC

def Bounded (s : Schedule) : Prop :=
  ∀ t, ((after s.deaths).respawns.countP fun d =>
    t ≤ d.now ∧ d.now ≤ t + FPM_HTTP_RESPAWN_WINDOW_SEC) ≤ FPM_HTTP_RESPAWN_MAX_BURST

/-- The slot is given up exactly at a death that is too many within the window before it. -/
def GivenUpAtBurst (s : Schedule) : Prop :=
  ∀ p d, p ++ [d] <+: s.deaths → (after p).slot.respawn.gave_up = false →
    ((after (p ++ [d])).slot.respawn.gave_up = true ↔
      FPM_HTTP_RESPAWN_MAX_BURST < recent (p ++ [d]) d.now)

/-- The seconds at which a window begins: the slot's first one at zero, any other at the first
death behind the window before it. -/
inductive Begins (deaths : List Death) : ℕ → Prop where
  | zero : Begins deaths 0
  | next {w : ℕ} {d : Death} (h : Begins deaths w) (hd : d ∈ deaths)
      (lapsed : w + FPM_HTTP_RESPAWN_WINDOW_SEC < d.now)
      (first : ∀ e ∈ deaths, w + FPM_HTTP_RESPAWN_WINDOW_SEC < e.now → d.now ≤ e.now) :
      Begins deaths d.now

structure FirstBurst (s : Schedule) (p : List Death) (d : Death) : Prop where
  death : p ++ [d] <+: s.deaths
  before : ∀ q e, q ++ [e] <+: p → recent (q ++ [e]) e.now ≤ FPM_HTTP_RESPAWN_MAX_BURST
  burst : FPM_HTTP_RESPAWN_MAX_BURST < recent (p ++ [d]) d.now

/-- By the first death that is too many no window has begun that holds fewer of them. -/
def Unbroken (s : Schedule) : Prop :=
  ∀ p d, FirstBurst s p d → ∀ w, Begins s.deaths w → w ≤ d.now →
    FPM_HTTP_RESPAWN_MAX_BURST < (p ++ [d]).countP fun e => w ≤ e.now

/-! ## What the slot counts -/

variable {p : List Death} {d : Death}

lemma after_append (p : List Death) (d : Death) : after (p ++ [d]) = (after p).step d := by
  rw [after, foldl_append]
  rfl

structure Counts (p : List Death) (window_start count : ℕ) : Prop where
  count : count = p.countP fun e => window_start ≤ e.now
  begins : Begins p window_start
  window : ∀ e ∈ p, e.now ≤ window_start + FPM_HTTP_RESPAWN_WINDOW_SEC

lemma Begins.append {w : ℕ} (h : Begins p w) {q : List Death} (hle : ∀ e ∈ p, ∀ f ∈ q, e.now ≤ f.now) :
    Begins (p ++ q) w := by
  induction h with
  | zero => exact .zero
  | next h hd lapsed first ih =>
    refine .next ih (mem_append_left _ hd) lapsed fun e he hlapsed => ?_
    rcases mem_append.mp he with he | he
    · exact first e he hlapsed
    · exact hle _ hd e he

lemma Begins.le {w n : ℕ} (h : Begins p w) (hle : ∀ e ∈ p, e.now ≤ n) : w ≤ n := by
  cases h with
  | zero => exact Nat.zero_le _
  | next _ he _ _ => exact hle _ he

lemma Begins.apart {w v : ℕ} (hw : Begins p w) (hv : Begins p v) (hlt : w < v) :
    w + FPM_HTTP_RESPAWN_WINDOW_SEC < v := by
  induction v using Nat.strongRecOn generalizing w with
  | ind v ih =>
    cases hv with
    | zero => omega
    | @next u d hu hd lapsed first =>
      by_cases hle : w ≤ u
      · omega
      -- the window at `w` would have begun at a death behind the one at `u`
      have hbehind := ih w hlt hu hw (by omega)
      cases hw with
      | zero => omega
      | next _ he _ _ => exact absurd (first _ he hbehind) (by omega)

lemma Counts.append {r : Respawn} (h : Counts p r.window_start r.count)
    (hle : ∀ e ∈ p, e.now ≤ d.now) :
    Counts (p ++ [d]) (r.window d.now).window_start ((r.window d.now).count + 1) := by
  have hstart := h.begins.le hle
  have hbegins : Begins (p ++ [d]) r.window_start := h.begins.append (by simpa using hle)
  unfold Respawn.window
  split
  · rename_i hlapsed
    -- every earlier death lies in the window that has lapsed
    have hold : p.countP (fun e => d.now ≤ e.now) = 0 := by
      rw [countP_eq_zero]
      intro e he hde
      have hin := h.window e he
      rw [decide_eq_true_eq] at hde
      omega
    refine ⟨by simp [hold], .next hbegins (by simp) (by omega) fun e he hbehind => ?_, fun e he => ?_⟩
    · rcases mem_append.mp he with he | he
      · exact absurd (h.window e he) (by omega)
      · exact mem_singleton.mp he ▸ Nat.le_refl _
    · refine Nat.le_add_right_of_le ?_
      rcases mem_append.mp he with he | he
      · exact hle e he
      · exact mem_singleton.mp he ▸ Nat.le_refl _
  · rename_i hopen
    refine ⟨by simp [hstart, h.count], hbegins, fun e he => ?_⟩
    · rcases mem_append.mp he with he | he
      · exact h.window e he
      · rw [mem_singleton.mp he]
        omega

lemma step_live (hcan : d.can_spawn_children = true)
    (hlive : (after p).slot.respawn.gave_up = false) :
    (after (p ++ [d])).slot.respawn =
        { (after p).slot.respawn.window d.now with
          count := ((after p).slot.respawn.window d.now).count + 1
          gave_up := decide (FPM_HTTP_RESPAWN_MAX_BURST <
            ((after p).slot.respawn.window d.now).count + 1) } ∧
      (after (p ++ [d])).respawns = (after p).respawns ++
        if (after (p ++ [d])).slot.respawn.gave_up = true then [] else [d] := by
  have hwindow : ((after p).slot.respawn.window d.now).gave_up = false := by
    unfold Respawn.window
    split <;> exact hlive
  rw [after_append, Run.step, fpm_http_gateway_on_exit]
  by_cases hburst : ((after p).slot.respawn.window d.now).count + 1 > FPM_HTTP_RESPAWN_MAX_BURST
  · simp [hcan, hlive, hburst]
  · simp [hcan, hlive, hburst, hwindow]

lemma step_gave_up (hcan : d.can_spawn_children = true)
    (h : (after p).slot.respawn.gave_up = true) :
    (after (p ++ [d])).slot.respawn = (after p).slot.respawn ∧
      (after (p ++ [d])).respawns = (after p).respawns := by
  rw [after_append, Run.step, fpm_http_gateway_on_exit]
  simp [hcan, h]

/-- **The slot counts the deaths since its window began**, until it is given up, and it
respawns at each of them. -/
theorem counts_after (hord : p.Pairwise (·.now ≤ ·.now))
    (hcan : ∀ d ∈ p, d.can_spawn_children = true) :
    (after p).respawns <+ p ∧ ((after p).slot.respawn.gave_up = false →
      Counts p (after p).slot.respawn.window_start (after p).slot.respawn.count) := by
  induction p using reverseRecOn with
  | nil => exact ⟨nil_sublist _, fun _ => ⟨rfl, .zero, nofun⟩⟩
  | append_singleton p d ih =>
    obtain ⟨hp, -, hpd⟩ := pairwise_append.mp hord
    have hd : d.can_spawn_children = true := hcan d (by simp)
    obtain ⟨hsub, hcounts⟩ := ih hp fun e he => hcan e (mem_append_left _ he)
    cases hbefore : (after p).slot.respawn.gave_up with
    | true =>
      obtain ⟨hslot, hresp⟩ := step_gave_up hd hbefore
      rw [hslot, hresp, hbefore]
      exact ⟨hsub.trans (sublist_append_left ..), nofun⟩
    | false =>
      obtain ⟨hslot, hresp⟩ := step_live hd hbefore
      refine ⟨?_, fun _ => ?_⟩
      · rw [hresp]
        split
        · exact hsub.append (nil_sublist _)
        · exact hsub.append (.refl _)
      · rw [hslot]
        exact (hcounts hbefore).append fun e he => hpd e he d (.head _)

lemma Schedule.death {s : Schedule} (hpre : p ++ [d] <+: s.deaths)
    (hlive : (after p).slot.respawn.gave_up = false) :
    ∃ w, Begins s.deaths w ∧ (∀ v, Begins s.deaths v → v ≤ d.now → v ≤ w) ∧
      ((after (p ++ [d])).slot.respawn.gave_up = true ↔
        FPM_HTTP_RESPAWN_MAX_BURST < (p ++ [d]).countP fun e => w ≤ e.now) ∧
      w ≤ d.now ∧ ((p ++ [d]).countP fun e => w ≤ e.now) ≤ recent (p ++ [d]) d.now := by
  have hord := s.ordered.sublist hpre.sublist
  obtain ⟨hp, -, hpd⟩ := pairwise_append.mp hord
  have hcan : ∀ e ∈ p ++ [d], e.can_spawn_children = true := fun e he => s.normal e (hpre.mem he)
  have hstep := (step_live (hcan d (by simp)) hlive).1
  have hcounts := ((counts_after hp fun e he => hcan e (mem_append_left _ he)).2 hlive).append
    fun e he => hpd e he d (.head _)
  have hin := hcounts.window d (by simp)
  obtain ⟨later, hlater⟩ := hpre
  have hbegins := hcounts.begins.append (pairwise_append.mp (hlater ▸ s.ordered)).2.2
  rw [hlater] at hbegins
  refine ⟨_, hbegins, fun v hv hle => ?_, ?_, ?_, ?_⟩
  · by_contra hlt
    have hapart := hbegins.apart hv (by omega)
    omega
  · rw [hstep, ← hcounts.count]
    exact decide_eq_true_iff
  · refine hcounts.begins.le fun e he => ?_
    rcases mem_append.mp he with he | he
    · exact hpd e he d (.head _)
    · exact mem_singleton.mp he ▸ Nat.le_refl _
  · refine countP_mono_left fun e _ he => ?_
    rw [decide_eq_true_eq] at he ⊢
    omega

/-- As long as the limit holds, a slot that lives has seen no death too many. -/
lemma Schedule.none_recent {s : Schedule}
    (h : ∀ p d, FirstBurst s p d → (after p).slot.respawn.gave_up = false →
      (after (p ++ [d])).slot.respawn.gave_up = true)
    (hpre : p <+: s.deaths) (hlive : (after p).slot.respawn.gave_up = false) :
    ∀ q e, q ++ [e] <+: p → recent (q ++ [e]) e.now ≤ FPM_HTTP_RESPAWN_MAX_BURST := by
  induction p using reverseRecOn with
  | nil => exact fun q e hq => absurd (prefix_nil.mp hq) (by simp)
  | append_singleton p d ih =>
    intro q e hq
    have hbefore : (after p).slot.respawn.gave_up = false := by
      by_contra hgave
      rw [(step_gave_up (s.normal d (hpre.mem (by simp))) (Bool.not_eq_false _ ▸ hgave)).1] at hlive
      exact hgave hlive
    have hnone := ih ((prefix_append p [d]).trans hpre) hbefore
    rcases prefix_concat_iff.mp hq with heq | hq
    · obtain ⟨rfl, hd⟩ := append_inj' heq rfl
      obtain rfl := (cons.inj hd).1
      by_contra hburst
      rw [h q e ⟨hpre, hnone, Nat.lt_of_not_le hburst⟩ hbefore] at hlive
      cases hlive
    · exact hnone q e hq

lemma GivenUpAtBurst.live {s : Schedule} (h : GivenUpAtBurst s) {p : List Death} {d : Death}
    (hfirst : FirstBurst s p d) : (after p).slot.respawn.gave_up = false := by
  -- the slot is not given up at an earlier death
  have hall : ∀ q, q <+: p → (after q).slot.respawn.gave_up = false := by
    intro q
    induction q using reverseRecOn with
    | nil => exact fun _ => rfl
    | append_singleton q e ih =>
      intro hq
      have hqs := hq.trans ((prefix_append p [d]).trans hfirst.death)
      rw [← Bool.not_eq_true, h q e hqs (ih ((prefix_append q [e]).trans hq))]
      exact Nat.not_lt.mpr (hfirst.before q e hq)
  exact hall p prefix_rfl

/-- The last respawn of a stretch is the one that would have been too many. -/
lemma GivenUpAtBurst.bounded {s : Schedule} (h : GivenUpAtBurst s) : Bounded s := by
  have hprefix : ∀ p, p <+: s.deaths → ∀ t, ((after p).respawns.countP fun d =>
      t ≤ d.now ∧ d.now ≤ t + FPM_HTTP_RESPAWN_WINDOW_SEC) ≤ FPM_HTTP_RESPAWN_MAX_BURST := by
    intro p
    induction p using reverseRecOn with
    | nil => exact fun _ _ => Nat.zero_le _
    | append_singleton p d ih =>
      intro hpre t
      have hbound := ih ((prefix_append p [d]).trans hpre) t
      have hcan : ∀ e ∈ p ++ [d], e.can_spawn_children = true :=
        fun e he => s.normal e (hpre.mem he)
      have hd := hcan d (by simp)
      cases hbefore : (after p).slot.respawn.gave_up with
      | true =>
        rw [(step_gave_up hd hbefore).2]
        exact hbound
      | false =>
        by_cases hgave : (after (p ++ [d])).slot.respawn.gave_up = true
        · rw [(step_live hd hbefore).2, if_pos hgave, append_nil]
          exact hbound
        by_cases hin : t ≤ d.now ∧ d.now ≤ t + FPM_HTTP_RESPAWN_WINDOW_SEC
        · have hsub := (counts_after (s.ordered.sublist hpre.sublist) hcan).1
          refine Nat.le_trans hsub.countP_le (Nat.le_trans (countP_mono_left fun e _ he => ?_)
            (Nat.le_of_not_lt fun hc => hgave ((h p d hpre hbefore).mpr hc)))
          rw [decide_eq_true_eq] at he ⊢
          omega
        · rw [(step_live hd hbefore).2, if_neg hgave, countP_append]
          simpa [hin] using hbound
  exact hprefix _ prefix_rfl

/-- **The limit holds exactly as long as the window is unbroken.** -/
theorem burst_limit_iff (s : Schedule) : Bounded s ∧ GivenUpAtBurst s ↔ Unbroken s := by
  constructor
  · rintro ⟨-, hgive⟩ p d hfirst w hw hle
    have hlive := hgive.live hfirst
    obtain ⟨v, -, hlast, hiff, -, -⟩ := s.death hfirst.death hlive
    refine Nat.lt_of_lt_of_le
      (hiff.mp ((hgive p d hfirst.death hlive).mpr hfirst.burst)) ?_
    refine countP_mono_left fun e _ he => ?_
    have := hlast w hw hle
    rw [decide_eq_true_eq] at he ⊢
    omega
  intro h
  have hburst : ∀ p d, FirstBurst s p d → (after p).slot.respawn.gave_up = false →
      (after (p ++ [d])).slot.respawn.gave_up = true := by
    intro p d hfirst hlive
    obtain ⟨w, hw, -, hiff, hle, -⟩ := s.death hfirst.death hlive
    exact hiff.mpr (h p d hfirst w hw hle)
  have hgive : GivenUpAtBurst s := by
    intro p d hpre hlive
    obtain ⟨w, -, -, hiff, -, hle⟩ := s.death hpre hlive
    refine ⟨fun hgave => Nat.lt_of_lt_of_le (hiff.mp hgave) hle, fun hrecent => ?_⟩
    have hnone := Schedule.none_recent hburst ((prefix_append p [d]).trans hpre) hlive
    exact hburst p d ⟨hpre, hnone, hrecent⟩ hlive
  exact ⟨hgive.bounded, hgive⟩

/-- Seven crashes, of which six lie within two seconds. -/
def straddling : Schedule where
  deaths := [100, 109, 109, 109, 109, 111, 111].map fun now => ⟨now, .signaled 11, true, true⟩
  ordered := by decide
  normal := by decide

/-- Each of them is followed by a respawn. -/
theorem straddling_respawned :
    (after straddling.deaths).respawns.countP (fun d => 109 ≤ d.now ∧ d.now ≤ 109 + 10) = 6 ∧
      (after straddling.deaths).slot.respawn.gave_up = false ∧
      recent straddling.deaths 111 = 6 := by
  decide

end FpmNg.GatewayRespawn
