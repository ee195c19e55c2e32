/-
The executor makes moves of the table.

For each function of the executor: if it does not use an entry that was removed, what
it does to `Worker.links` is a sequence of moves. The lemmas take `strict` along, the
question whether a head is only ever given to a request without one; where a function
hands over a head without looking again, that is left to its caller.
-/
import FpmNg.WorkerTable

open List Function Option Prod Relation

namespace FpmNg.WorkerExecutor

open FpmNg.DirectResponse Worker Phase Links
open Function (update update_self update_of_ne)

/-! ## What the primitives do to the links -/

namespace Links

variable (L : Links)

@[simp] lemma set_req (s : ℕ) (r : Req) : (L.set s r).req s = r := update_self ..

@[simp] lemma set_set (s : ℕ) (r r' : Req) : (L.set s r).set s r' = L.set s r' := by
  rw [set, set, set, update_idem]

@[simp] lemma set_same (s : ℕ) : L.set s (L.req s) = L := by
  rw [set, update_eq_self]

/-- A counted reply of request `s`, with `n` heads in it. -/
def replied (s n : ℕ) : Links :=
  { L.set s { L.req s with
      closecb := .reply_aborted, counted := true, complete := true
      heads := (L.req s).heads + n } with
    unflushed := L.unflushed + 1 }

end Links

namespace Worker

variable (w : Worker)

variable (s : ℕ)

lemma links_set_http (h : Http) : (w.set_http s h).links = w.links.set s h.view := by
  have hview : (fun t => (update w.http s h t).view) = update (fun t => (w.http t).view) s h.view :=
    funext fun t => apply_update (fun _ h => Http.view h) w.http s h t
  unfold links Links.set set_http
  rw [hview]

@[simp] lemma links_add_header (name value : Bytes) :
    (w.add_header s name value).links = w.links := by
  rw [add_header, links_set_http]
  exact w.links.set_same s

lemma links_add_header_if (c : Prop) [Decidable c] (s : ℕ) (name value : Bytes) :
    (if c then w.add_header s name value else w).links = w.links := by
  split
  · exact w.links_add_header ..
  · rfl

lemma links_hand_over (m : Sent) : (w.hand_over s m).links = w.links.set s
    { w.links.req s with
      heads := (w.links.req s).heads + m.isHead.toNat
      complete := (w.links.req s).complete || m.isEnd
      excused := (w.links.req s).excused || m.isPing } := by
  have hheads : ((w.http s).sent ++ [m]).countP Sent.isHead
      = (w.http s).heads + m.isHead.toNat := by
    rw [countP_append]
    cases hm : m.isHead <;> simp [hm, Http.heads]
  have hend : ((w.http s).sent ++ [m]).any Sent.isEnd = ((w.http s).complete || m.isEnd) := by
    simp [Http.complete]
  have hping : ((w.http s).hijacked || ((w.http s).sent ++ [m]).any Sent.isPing)
      = ((w.http s).hijacked || (w.http s).sent.any Sent.isPing || m.isPing) := by
    simp [Bool.or_assoc]
  rw [hand_over, links_set_http, Http.view, Http.heads, hheads, Http.complete, hend, hping]
  rfl

lemma links_chunk (data : Bytes) : (w.hand_over s (.chunk data)).links = w.links := by
  have hreq : ({ w.links.req s with
      heads := (w.links.req s).heads + (Sent.chunk data).isHead.toNat
      complete := (w.links.req s).complete || (Sent.chunk data).isEnd
      excused := (w.links.req s).excused || (Sent.chunk data).isPing } : Req) = w.links.req s := by
    simp [Sent.isHead, Sent.isEnd, Sent.isPing]
  rw [links_hand_over, hreq, set_same]

lemma links_clear_closecb :
    (w.clear_closecb s).links = w.links.set s { w.links.req s with closecb := .none } := by
  rw [clear_closecb, links_set_http]
  rfl

lemma links_count_reply : (w.fpm_worker_count_reply s).links
    = { w.links.set s { w.links.req s with closecb := .reply_aborted, counted := true } with
        unflushed := w.unflushed + 1 } := by
  show { (w.set_http s _).links with unflushed := w.unflushed + 1 } = _
  rw [links_set_http]
  rfl

lemma links_send_reply (s status : ℕ) (body : Bytes) :
    (w.fpm_worker_send_reply s status body).links = w.links.replied s 1 := by
  rw [fpm_worker_send_reply, links_hand_over, links_count_reply]
  simp [replied, Links.set, Sent.isHead, Sent.isEnd, Sent.isPing, links]

lemma links_send_error (s status : ℕ) :
    (w.fpm_worker_send_error s status).links = w.links.replied s 1 := by
  rw [fpm_worker_send_error, links_hand_over, links_set_http]
  have hout : ∀ out : List (Bytes × Bytes),
      ({ (w.fpm_worker_count_reply s).http s with out := out } : Http).view
        = (w.fpm_worker_count_reply s).links.req s := fun _ => rfl
  rw [hout, set_same, links_count_reply]
  simp [replied, Links.set, Sent.isHead, Sent.isEnd, Sent.isPing, links]

lemma links_send_last :
    ((w.fpm_worker_count_reply s).hand_over s .last).links = w.links.replied s 0 := by
  rw [links_hand_over, links_count_reply]
  simp [replied, Links.set, Sent.isHead, Sent.isEnd, Sent.isPing, links]

lemma replied_clear (s n : ℕ) : (w.clear_closecb s).links.replied s n = w.links.replied s n := by
  rw [links_clear_closecb]
  simp [replied, Links.set]

lemma links_rejected (s status : ℕ) (memory : Bool) :
    (if memory then (w.clear_closecb s).fpm_worker_send_reply s status []
      else (w.clear_closecb s).fpm_worker_send_error s 500).links = w.links.replied s 1 := by
  split
  · rw [links_send_reply, replied_clear]
  · rw [links_send_error, replied_clear]

lemma links_reap (id : ℕ) {how : Leave} (hhow : how ≠ .closed) (cap : ℕ) :
    (w.reap id how).links = (w.links.set_entry id none).left cap id how := by
  unfold left
  rw [if_neg hhow, if_neg hhow]
  rfl

lemma links_lost (cfg : Config) (id : ℕ) (p : Pending) :
    (((w.record_closed cfg id).set_pending id p).reap id .closed).links
      = (w.links.set_entry id none).left cfg.max_pending id .closed := by
  simp [left, set_entry, links, reap, set_pending, record_closed]

lemma links_lost_late (cfg : Config) (id : ℕ) (p : Pending) :
    ({ (w.record_closed cfg id).set_pending id p with
        hist.left := w.hist.left ++ [(id, .closed)] } : Worker).links
      = (w.links.set_entry id (some p)).left cfg.max_pending id .closed := by
  simp [left, set_entry, links, set_pending, record_closed]

lemma links_settled : (w.fpm_worker_reply_settled s).links
    = { w.links.set s { w.links.req s with closecb := .none, counted := false } with
        unflushed := w.unflushed - 1 } := by
  show { (w.set_http s _).links with unflushed := w.unflushed - 1 } = _
  rw [links_set_http]
  rfl

end Worker

/-! ## Moves of the event loop -/

variable {w w' : Worker} {r : Result} {memory : Bool} {p : Pending} {id : ℤ} {l : Locals}

section
variable {cap : ℕ} {strict : Prop}

lemma Moves.single {L L' : Links} (h : Move cap strict L L') : Moves cap strict L L' :=
  ReflTransGen.single h

lemma Move.reply {L : Links} (hi : L.Inv) {id s n : ℕ} {how : Leave} (hp : L.pending id = some p)
    (hs : p.http = some s) (hn : n = 0 ∨ n = 1 ∧ (strict → p.streaming = false)) :
    Move cap strict L (((L.replied s n).set_entry id none).left cap id how) := by
  refine .let_go L id s p none
    { L.req s with
      closecb := .reply_aborted, counted := true, complete := true
      heads := (L.req s).heads + n } how hp hs
    ⟨.inr ⟨rfl, rfl⟩, fun _ => (hi.linked id p s hp hs).1, .inr (.inl rfl), fun _ => rfl⟩
    (.inl rfl) ?_
  rcases hn with rfl | ⟨rfl, hstrict⟩
  · exact .inl rfl
  · exact .inr ⟨rfl, hstrict⟩

lemma accept_moves (cfg : Config) (w : Worker) (r : Request) (v : Admission) (now : ℕ)
    (hh : w.links.Halted) :
    Moves cfg.max_pending strict w.links (w.fpm_worker_accept cfg r v now).links := by
  rw [fpm_worker_accept]
  have hlinks : (w.deliver r).links
      = { w.links.set w.arrived ⟨true, .none, false, false, false, 0, false⟩ with
          arrived := w.arrived + 1 } := by
    show { (w.set_http w.arrived _).links with arrived := w.arrived + 1 } = _
    rw [links_set_http]
    rfl
  have hrest : (w.deliver r).stopping = w.stopping ∧ (w.deliver r).ready = w.ready
      ∧ (w.deliver r).ids = w.ids ∧ (w.deliver r).next_id = w.next_id := ⟨rfl, rfl, rfl, rfl⟩
  generalize w.deliver r = w1 at hlinks hrest
  obtain ⟨hstopping, hready, hids, hnext⟩ := hrest
  -- a refusal, counted
  have hrefuse : ∀ status, Moves cfg.max_pending strict w.links
      (w1.fpm_worker_send_error w.arrived status).links := by
    intro status
    rw [links_send_error, hlinks]
    have hmove : Move cfg.max_pending strict w.links _ :=
      .arrive w.links ⟨true, .reply_aborted, true, false, true, 1, false⟩
        ⟨.inr ⟨rfl, rfl⟩, fun _ => rfl, .inr (.inl rfl), fun _ => rfl⟩ rfl rfl
    refine .single ?_
    convert hmove using 1
    simp [replied, Links.set, links]
  unfold examine
  by_cases hacl : v.acl
  swap
  · rw [if_pos (by simp [hacl])]
    exact hrefuse 403
  rw [if_neg (by simp [hacl])]
  by_cases hauth : v.authority
  swap
  · rw [if_pos (by simp [hauth])]
    exact hrefuse 400
  rw [if_neg (by simp [hauth])]
  by_cases hbusy : (w1.stopping || cfg.max_pending ≤ w1.ready.length
      || cfg.max_pending ≤ w1.ids.length) = true
  · rw [if_pos hbusy]
    exact (hrefuse 503).tail (.halt _)
  rw [if_neg hbusy]
  cases hping : v.ping with
  | some body =>
    rw [links_hand_over, hlinks]
    have hmove : Move cfg.max_pending strict w.links _ :=
      .arrive w.links ⟨true, .none, false, true, true, 1, false⟩
        ⟨.inl ⟨rfl, rfl⟩, nofun, .inr (.inr rfl), fun _ => rfl⟩ rfl rfl
    refine .single ?_
    convert hmove using 1
    simp [Links.set, links, Sent.isHead, Sent.isEnd, Sent.isPing]
  | none =>
    by_cases hok : v.acceptable
    swap
    · simp only [hok, Bool.not_false, if_true]
      exact hrefuse 400
    simp only [hok, Bool.not_true, Bool.false_eq_true, if_false]
    simp only [Bool.or_eq_true, decide_eq_true_eq, not_or, not_le] at hbusy
    rw [hstopping, hready, hids] at hbusy
    have hphase : w.links.phase = .serving := by
      by_contra hne
      exact hbusy.1.1 (hh hne)
    have hsize : w.links.size < cfg.max_pending := by
      have hlen := hbusy.2
      rw [ids, ← countP_eq_length_filter] at hlen
      exact hlen
    have hmove : Move cfg.max_pending strict w.links _ :=
      .enter w.links now hphase hbusy.1.2 hsize
    refine .single ?_
    convert hmove using 1
    have henter : (w1.enqueue w.arrived now).links
        = { ((w1.set_http w.arrived
              { w1.http w.arrived with closecb := .conn_closed w1.next_id }).links).set_entry
              w1.next_id (some ⟨some w.arrived, now, false, false⟩) with
            next_id := w1.next_id + 1
            ready := w1.ready ++ [w1.next_id] } := rfl
    have hview : ({ w1.http w.arrived with closecb := .conn_closed w1.next_id } : Http).view
        = { w1.links.req w.arrived with closecb := .conn_closed w1.next_id } := rfl
    rw [henter, links_set_http, hview, hlinks, hnext, hready]
    simp [Links.set, set_entry, links]

lemma born_of_connection {s : ℕ} (hi : w.links.Inv) (h : (w.links.req s).connection = true) :
    s < w.arrived := by
  by_contra hge
  rw [hi.unborn s (Nat.le_of_not_lt hge)] at h
  simp [Http.view, Http.none] at h

lemma close_moves (cfg : Config) (w : Worker) (s : ℕ) (hi : w.links.Inv)
    (hphase : w.phase ≠ .destroyed) :
    ∃ w', w.close cfg s = some w' ∧ w'.phase = w.phase
      ∧ Moves cfg.max_pending strict w.links w'.links := by
  unfold close
  by_cases hconn : (w.http s).connection = true
  swap
  · rw [if_neg hconn]
    exact ⟨w, rfl, rfl, .refl⟩
  rw [if_pos hconn]
  have hborn := born_of_connection hi hconn
  set w1 := w.set_http s { w.http s with connection := false, closecb := .none } with hw1
  have hlinks : w1.links
      = w.links.set s { w.links.req s with connection := false, closecb := .none } := by
    rw [hw1, links_set_http]
    rfl
  -- the callback in effect says what the connection was busy with
  cases hcb : (w.http s).closecb with
  | none =>
    have hcounted : (w.links.req s).counted = false := by
      by_contra hc
      have := (hi.counted s).mp (by simpa using hc)
      exact nomatch hcb.symm.trans this
    refine ⟨w1, rfl, rfl, .single ?_⟩
    rw [hlinks]
    exact .alter w.links s _ hborn hcb rfl hcounted rfl rfl id (fun _ => rfl) (hi.whole s)
  | conn_closed id =>
    obtain ⟨p, hp, hs⟩ := hi.named s id hcb
    have hcounted := hi.entry_not_counted hp hs
    have hp1 : w1.pending id = some p := hp
    have hrun : w1.fpm_worker_conn_closed cfg id
        = some (if w.phase.finishing then
            { (w1.record_closed cfg id).set_pending id { p with http := none } with
              hist.left := w.hist.left ++ [(id, .closed)] }
          else ((w1.record_closed cfg id).set_pending id { p with http := none }).reap id .closed) := by
      unfold fpm_worker_conn_closed
      rw [if_neg (show w1.phase ≠ .destroyed from hphase), hp1]
      simp only [hs, isSome_some, Bool.true_or, if_true]
      rfl
    have hnotheads : ({ w.links.req s with connection := false, closecb := .none } : Req).Released :=
      ⟨.inl ⟨rfl, hcounted⟩, fun hc => absurd (hcounted.symm.trans hc) (by simp), .inl rfl,
        hi.whole s⟩
    show ∃ w', w1.fpm_worker_conn_closed cfg id = some w' ∧ _
    rw [hrun]
    refine ⟨_, rfl, ?_, .single ?_⟩
    · split <;> rfl
    · have hring : w1.closed = w.closed := rfl
      split
      · rename_i hfin
        -- entries outlive their connection only while the last answers are written
        have hansw : w.links.phase = .answering := by
          by_contra hna
          have hns : w.links.phase ≠ .serving := by
            intro hserving
            have : w.phase = .serving := hserving
            rw [this] at hfin
            simp [finishing] at hfin
          exact absurd (hi.ended hns hna id p hp) (by simp [hs])
        have hmove : Move cfg.max_pending strict w.links _ :=
          .let_go w.links id s p (some { p with http := none }) _ .closed hp hs hnotheads
            (.inr ⟨hansw, _, rfl, rfl⟩) (.inl rfl)
        convert hmove using 1
        exact (w1.links_lost_late cfg id _).trans (by simp [hlinks, hcounted]; rfl)
      · have hmove : Move cfg.max_pending strict w.links _ :=
          .let_go w.links id s p none _ .closed hp hs hnotheads (.inl rfl) (.inl rfl)
        convert hmove using 1
        exact (w1.links_lost cfg id _).trans (by simp [hlinks, hcounted]; rfl)
  | reply_aborted =>
    have hcounted : (w.links.req s).counted = true := (hi.counted s).mpr hcb
    refine ⟨_, rfl, rfl, .single ?_⟩
    rw [links_settled, hlinks, Links.set_set, set_req]
    exact .settle w.links s _ hcounted rfl rfl (.inl rfl) rfl rfl (hi.whole s)

lemma write_done_moves (w : Worker) (s : ℕ) (hi : w.links.Inv) :
    Moves cap strict w.links (w.write_done s).links := by
  unfold write_done
  split
  · rename_i hready
    simp only [Bool.and_eq_true] at hready
    set w1 := w.set_http s { w.http s with written := true } with hw1
    have hlinks : w1.links = w.links.set s { w.links.req s with written := true } := by
      rw [hw1, links_set_http]
      rfl
    have hon : (w1.http s).on_complete = (w.http s).on_complete := by
      simp [hw1, set_http]
    by_cases hc : (w.http s).on_complete = true
    · rw [if_pos (hon.trans hc), links_settled, hlinks, Links.set_set, set_req]
      exact .single (.settle w.links s _ hc rfl rfl (.inr rfl) rfl rfl fun _ => hready.1.2)
    · rw [if_neg (hon ▸ hc), hlinks]
      have hcounted : (w.links.req s).counted = false := Bool.eq_false_iff.mpr hc
      have hborn := born_of_connection hi hready.1.1
      cases hcb : (w.links.req s).closecb with
      | none =>
        exact .single (.alter w.links s _ hborn hcb hcb hcounted rfl rfl (fun _ => rfl) id
          fun _ => hready.1.2)
      | conn_closed id =>
        obtain ⟨p, hp, hs⟩ := hi.named s id hcb
        have hcomplete : (w.links.req s).complete = true := hready.1.2
        exact absurd ((hi.linked id p s hp hs).2.2.symm.trans hcomplete) (by simp)
      | reply_aborted =>
        exact absurd ((hi.counted s).mpr hcb) (by simp [hcounted])
  · exact .refl

lemma foldl_moves {f : Worker → ℕ → Worker} {I : Worker → Prop}
    (hround : ∀ w id, I w → Moves cap strict w.links (f w id).links ∧ I (f w id)) (ids : List ℕ)
    (w : Worker) (hw : I w) :
    Moves cap strict w.links (ids.foldl f w).links ∧ I (ids.foldl f w) := by
  induction ids generalizing w with
  | nil => exact ⟨.refl, hw⟩
  | cons id ids ih =>
    obtain ⟨hfirst, hI⟩ := hround w id hw
    obtain ⟨hrest, hI'⟩ := ih (f w id) hI
    exact ⟨hfirst.trans hrest, hI'⟩

lemma Moves.inv {L L' : Links} (h : Moves cap strict L L') (hi : L.Inv) : L'.Inv :=
  h.keeps (fun _ _ => Inv.move) hi

lemma sweep_one_moves (cfg : Config) (now : ℕ) (w : Worker) (id : ℕ) (hi : w.links.Inv) :
    Moves cap strict w.links (w.sweep_one cfg now id).links := by
  unfold sweep_one
  cases hp : w.pending id with
  | none => exact .refl
  | some p =>
    cases hs : p.http with
    | none => simpa only [hs] using .refl
    | some s =>
      simp only [hs]
      split
      · exact .refl
      · rename_i hdue
        have hstream : p.streaming = false := by
          cases hst : p.streaming with
          | false => rfl
          | true => simp [hst] at hdue
        rw [links_reap _ _ (by simp) cap]
        have hlinks : (((w.clear_closecb s).fpm_worker_send_error s 504).set_pending id
            { p with http := none }).links.set_entry id none
              = (w.links.replied s 1).set_entry id none := by
          show ((links (fpm_worker_send_error _ s 504)).set_entry id _).set_entry id none
            = _
          rw [links_send_error, replied_clear]
          simp [set_entry]
        rw [hlinks]
        exact .single (.reply hi hp hs (.inr ⟨rfl, fun _ => hstream⟩))

lemma sweep_moves (cfg : Config) (w : Worker) (now : ℕ) (hi : w.links.Inv) :
    Moves cap strict w.links (w.fpm_worker_sweep_expired cfg now).links := by
  unfold fpm_worker_sweep_expired
  split
  · exact .refl
  · refine (foldl_moves (I := fun w => w.links.Inv) ?_ _ w hi).1
    intro w id hi
    have hmoves : Moves cap strict w.links _ := sweep_one_moves cfg now w id hi
    exact ⟨hmoves, hmoves.inv hi⟩

def Worker.finish_reply (w : Worker) (p : Pending) (s : ℕ) : Worker :=
  if p.streaming then ((w.clear_closecb s).fpm_worker_count_reply s).hand_over s .last
  else (w.clear_closecb s).fpm_worker_send_error s 503

lemma Worker.links_finish_reply (w : Worker) (p : Pending) (s : ℕ) :
    ∃ n, (n = 0 ∨ n = 1 ∧ p.streaming = false)
      ∧ (w.finish_reply p s).links = w.links.replied s n := by
  unfold Worker.finish_reply
  cases hst : p.streaming with
  | true =>
    refine ⟨0, .inl rfl, ?_⟩
    rw [if_pos rfl, links_send_last, replied_clear]
  | false =>
    refine ⟨1, .inr ⟨rfl, rfl⟩, ?_⟩
    rw [if_neg (by simp), links_send_error, replied_clear]

/-- One round of the last walk: the entry lets go, if it still has its request. -/
lemma finish_one_moves (w : Worker) (id : ℕ) (hi : w.links.Inv) (hphase : w.phase = .answering) :
    Moves cap strict w.links (w.finish_one id).links ∧ (w.finish_one id).phase = .answering
      ∧ ¬ (w.finish_one id).links.alive id
      ∧ ∀ id', (w.finish_one id).links.alive id' → w.links.alive id' := by
  unfold finish_one
  cases hp : w.pending id with
  | none =>
    refine ⟨.refl, hphase, ?_, fun _ h => h⟩
    rintro ⟨p, s, hp', _⟩
    exact nomatch hp.symm.trans hp'
  | some p =>
    cases hs : p.http with
    | none =>
      simp only [hs]
      refine ⟨.refl, hphase, ?_, fun _ h => h⟩
      rintro ⟨p', s, hp', hs'⟩
      obtain rfl := some.inj (hp.symm.trans hp')
      exact nomatch hs.symm.trans hs'
    | some s =>
      simp only [hs]
      obtain ⟨n, hn, hlinks⟩ := w.links_finish_reply p s
      have hpend : (w.finish_reply p s).pending = w.pending := congrArg Links.pending hlinks
      have hph : (w.finish_reply p s).phase = w.phase := congrArg Links.phase hlinks
      -- the entry stays in the table without its request
      have hres : ({ (w.finish_reply p s).set_pending id { p with http := none } with
          hist.left := (w.finish_reply p s).hist.left ++ [(id, .stopped)] } : Worker).links
            = ((w.links.replied s n).set_entry id (some { p with http := none })).left cap id
              .stopped := by
        rw [← hlinks]
        rfl
      refine ⟨.single ?_, hph.trans hphase, ?_, ?_⟩
      · refine hres ▸ .let_go w.links id s p (some { p with http := none })
          { w.links.req s with
            closecb := .reply_aborted, counted := true, complete := true
            heads := (w.links.req s).heads + n } .stopped hp hs
          ⟨.inr ⟨rfl, rfl⟩, fun _ => (hi.linked id p s hp hs).1, .inr (.inl rfl), fun _ => rfl⟩
          (.inr ⟨hphase, _, rfl, rfl⟩) ?_
        rcases hn with rfl | ⟨rfl, hst⟩
        · exact .inl rfl
        · exact .inr ⟨rfl, fun _ => hst⟩
      · rintro ⟨p', s', hp', hs'⟩
        replace hp' : update (w.finish_reply p s).pending id (some { p with http := none }) id
          = some p' := hp'
        rw [update_self] at hp'
        rw [← some.inj hp'] at hs'
        simp at hs'
      · rintro id' ⟨p', s', hp', hs'⟩
        replace hp' : update (w.finish_reply p s).pending id (some { p with http := none }) id'
          = some p' := hp'
        rcases eq_or_ne id' id with rfl | hne
        · rw [update_self] at hp'
          rw [← some.inj hp'] at hs'
          simp at hs'
        · rw [update_of_ne hne, hpend] at hp'
          exact ⟨p', s', hp', hs'⟩

lemma finish_walk (ids : List ℕ) (w : Worker) (hi : w.links.Inv) (hphase : w.phase = .answering) :
    Moves cap strict w.links (ids.foldl finish_one w).links
      ∧ (ids.foldl finish_one w).phase = .answering
      ∧ (∀ id, (ids.foldl finish_one w).links.alive id → w.links.alive id)
      ∧ ∀ id ∈ ids, ¬ (ids.foldl finish_one w).links.alive id := by
  induction ids generalizing w with
  | nil => exact ⟨.refl, hphase, fun _ h => h, by simp⟩
  | cons id ids ih =>
    have hone : Moves cap strict w.links (w.finish_one id).links ∧ _ :=
      finish_one_moves w id hi hphase
    obtain ⟨hm, hph, hdead, hback⟩ := hone
    obtain ⟨hm', hph', hback', hdead'⟩ := ih (w.finish_one id) (hm.inv hi) hph
    refine ⟨hm.trans hm', hph', fun id' h => hback id' (hback' id' h), ?_⟩
    intro id' hid' halive
    rcases mem_cons.mp hid' with rfl | hmem
    · exact hdead (hback' id' halive)
    · exact hdead' id' hmem halive

lemma finish_moves (w : Worker) (hi : w.links.Inv) (hphase : w.phase = .serving) :
    Moves cap strict w.links w.fpm_worker_finish_output.links := by
  set w0 : Worker := { w with stopping := true, phase := .answering } with hw0
  have hbegin : Moves cap strict w.links w0.links :=
    (Moves.single (.halt w.links)).tail (.stop _ hphase rfl)
  have hinv0 : w0.links.Inv := hbegin.inv hi
  have hwalk : Moves cap strict w0.links _ ∧ _ := finish_walk w0.ids w0 hinv0 rfl
  obtain ⟨hm, hph, hback, hdead⟩ := hwalk
  refine (hbegin.trans hm).tail (.stopped _ hph ?_)
  intro id halive
  obtain ⟨p, s, hp, hs⟩ := hback id halive
  have hpend : w0.pending id = some p := hp
  refine hdead id (mem_filter.mpr ⟨mem_range.mpr (hinv0.id_used hp).2, ?_⟩) halive
  rw [hpend]
  rfl

/-! ## Moves of the script -/

lemma pending_get_some {w : Worker} (h : w.pending_get id = some (some p)) :
    w.pending id.toNat = some p ∧ w.phase ≠ .destroyed := by
  unfold pending_get at h
  split at h
  · simp at h
  · split at h
    · simp at h
    · rename_i q hq
      split at h
      · simp at h
      · rename_i hphase
        rw [← some.inj (some.inj h)]
        exact ⟨hq, hphase⟩

lemma http_of_some {w : Worker} {id s : ℕ} (h : w.http_of id = some s) :
    w.phase ≠ .destroyed ∧ ∃ p, w.pending id = some p ∧ p.http = some s := by
  unfold http_of at h
  split at h
  · simp at h
  · rename_i hphase
    exact ⟨hphase, bind_eq_some_iff.mp h⟩

lemma entry_alive {w : Worker} (hi : w.links.Inv) (hphase : w.phase.scripting = true)
    (h : w.pending_get id = some (some p)) :
    ∃ s, p.http = some s := by
  obtain ⟨hp, hlive⟩ := pending_get_some h
  have hserving : w.phase = .serving := by
    cases hph : w.phase <;> simp_all [scripting]
  exact ne_none_iff_exists'.mp (hi.serving hserving _ p hp)

lemma pending_get_cases {w : Worker} (hi : w.links.Inv) (hphase : w.phase.scripting = true)
    (id : ℤ) : w.pending_get id = none ∨ w.pending_get id = some none ∨
      ∃ p s, w.pending_get id = some (some p) ∧ w.pending id.toNat = some p ∧ p.http = some s := by
  rcases hget : w.pending_get id with _ | _ | p
  · exact .inl rfl
  · exact .inr (.inl rfl)
  · obtain ⟨s, hs⟩ := entry_alive hi hphase hget
    exact .inr (.inr ⟨p, s, rfl, (pending_get_some hget).1, hs⟩)

lemma unchanged_moves {r r' : Result} (h : some (w, r) = some (w', r')) :
    Moves cap strict w.links w'.links :=
  (mk.inj (some.inj h)).1 ▸ .refl

lemma account_moves (cfg : Config) (w : Worker) :
    Moves cap strict w.links (w.fpm_worker_account_answered_request cfg).links := by
  have hlinks : (w.fpm_worker_account_answered_request cfg).links
      = { w.links with stopping := w.stopping || (cfg.pm_max_requests ≠ 0 &&
          cfg.pm_max_requests ≤ w.answered + 1) } := rfl
  rw [hlinks]
  cases hmax : (decide (cfg.pm_max_requests ≠ 0) &&
      decide (cfg.pm_max_requests ≤ w.answered + 1)) with
  | true =>
    rw [Bool.or_true]
    exact .single (.halt _)
  | false =>
    rw [Bool.or_false]
    exact .refl

lemma add_value_same (cfg : Config) (w : Worker) (l : Locals) (name : Bytes) (text : Option Bytes) :
    (w.add_value cfg l name text).1.links = w.links ∧ (w.add_value cfg l name text).1.calls = w.calls
      ∧ (w.add_value cfg l name text).2.id = l.id := by
  unfold add_value
  split
  · exact ⟨rfl, rfl, rfl⟩
  · split
    · exact ⟨rfl, rfl, rfl⟩
    · split
      · exact ⟨w.links_add_header .., rfl, rfl⟩
      · exact ⟨rfl, rfl, rfl⟩

lemma header_loop_same {cfg : Config} {items : List Item} {l l' : Locals} {stop : Option (Bytes × List Item)}
    (h : w.header_loop cfg l items = some (w', l', stop)) :
    w'.links = w.links ∧ w'.calls = w.calls ∧ l'.id = l.id
      ∧ ∀ name rest, stop = some (name, rest) → rest.length < items.length := by
  induction items generalizing w l with
  | nil =>
    obtain ⟨rfl, rfl, rfl⟩ : w = w' ∧ l = l' ∧ none = stop := by simpa [header_loop] using h
    exact ⟨rfl, rfl, rfl, by simp⟩
  | cons item items ih =>
    -- a name or a text is dealt with at once, and the loop goes on
    have hlonger : ∀ {w1 : Worker} {l1 : Locals}, w1.header_loop cfg l1 items = some (w', l', stop) →
        w1.links = w.links → w1.calls = w.calls → l1.id = l.id →
        w'.links = w.links ∧ w'.calls = w.calls ∧ l'.id = l.id
          ∧ ∀ name rest, stop = some (name, rest) → rest.length < (item :: items).length := by
      intro w1 l1 hrun hlinks hcalls hid
      obtain ⟨h1, h2, h3, h4⟩ := ih hrun
      exact ⟨h1.trans hlinks, h2.trans hcalls, h3.trans hid,
        fun name rest hstop => Nat.lt_succ_of_lt (h4 name rest hstop)⟩
    cases item with
    | unnamed => exact hlonger h rfl rfl rfl
    | named name =>
      rw [header_loop] at h
      cases hhttp : w.http_of l.id with
      | none => rw [hhttp] at h; simp at h
      | some s =>
        rw [hhttp] at h
        exact hlonger h rfl rfl rfl
    | value name v =>
      cases v with
      | text s =>
        rw [header_loop] at h
        split at h
        · exact hlonger h rfl rfl rfl
        split at h
        · exact hlonger h rfl rfl rfl
        have hsame := add_value_same cfg w l name (some s)
        exact hlonger h hsame.1 hsame.2.1 hsame.2.2
      | object =>
        rw [header_loop] at h
        split at h
        · exact hlonger h rfl rfl rfl
        split at h
        · exact hlonger h rfl rfl rfl
        -- an object stops the loop; the rest of the array is shorter
        obtain ⟨rfl, rfl, rfl⟩ : w = w' ∧ l = l' ∧ some (name, items) = stop := by
          simpa using h
        refine ⟨rfl, rfl, rfl, ?_⟩
        rintro name' rest hstop
        rw [← (mk.inj (some.inj hstop)).2]
        exact Nat.lt_succ_self _

lemma conclude_moves (cfg : Config) (hi : w.links.Inv)
    (h : w.conclude cfg l memory = some (w', r))
    (hstrict : strict → ∀ p, w.pending l.id = some p → p.streaming = false) :
    Moves cap strict w.links w'.links := by
  -- a whole reply is one move, whatever it consists of
  have hreply : ∀ {s : ℕ} {w1 : Worker} {how : Leave}, how ≠ .closed → w.http_of l.id = some s →
      w1.links = w.links.replied s 1 → Moves cap strict w.links (w1.reap l.id how).links := by
    intro s w1 how hhow hhttp hlinks
    obtain ⟨_, p, hp, hs⟩ := http_of_some hhttp
    rw [w1.links_reap _ hhow cap, hlinks]
    exact .single (.reply hi hp hs (.inr ⟨rfl, fun hst => hstrict hst p hp⟩))
  unfold conclude at h
  split at h
  · cases hhttp : w.http_of l.id with
    | none => rw [hhttp] at h; simp at h
    | some s =>
      rw [hhttp] at h
      rw [← (mk.inj (some.inj h)).1]
      refine hreply (by simp) hhttp ?_
      rw [links_send_error, replied_clear]
  · split at h
    · rename_i status body
      split at h
      · exact unchanged_moves h
      · cases hhttp : w.http_of l.id with
        | none => rw [hhttp] at h; simp at h
        | some s =>
          rw [hhttp] at h
          rw [← (mk.inj (some.inj h)).1]
          refine (hreply (by simp) hhttp ?_).trans (account_moves cfg _)
          rw [links_send_reply, replied_clear, links_add_header_if]
    · rename_i status
      cases hhttp : w.http_of l.id with
      | none => rw [hhttp] at h; simp at h
      | some s =>
        obtain ⟨_, p, hp, hs⟩ := http_of_some hhttp
        rw [hhttp, hp] at h
        rw [← (mk.inj (some.inj h)).1]
        have hmove : Move cap strict w.links _ := .start w.links l.id s p hp hs
          fun hst => hstrict hst p hp
        refine .single ?_
        convert hmove using 1
        show ((links (hand_over _ s _)).set_entry l.id _) = _
        rw [links_hand_over]
        rw [links_add_header_if]
        simp [Sent.isHead, Sent.isEnd, Sent.isPing]

lemma settle_moves (cfg : Config) {stop : Option (Bytes × List Item)} (hi : w.links.Inv)
    (h : settle cfg memory (w, l, stop) = some (w', r))
    (hstrict : strict → ∀ p, w.pending l.id = some p → p.streaming = false) :
    Moves cap strict w.links w'.links := by
  cases stop with
  | none => exact conclude_moves cfg hi h hstrict
  | some stop =>
    exact (mk.inj (some.inj h)).1 ▸ .refl

lemma loop_moves (cfg : Config) {items : List Item} (hi : w.links.Inv)
    (h : (w.header_loop cfg l items).bind (settle cfg memory) = some (w', r))
    (hstrict : strict → ∀ p, w.pending l.id = some p → p.streaming = false) :
    Moves cap strict w.links w'.links := by
  obtain ⟨⟨w1, l1, stop⟩, hloop, hsettle⟩ := bind_eq_some_iff.mp h
  obtain ⟨hlinks, _, hid, _⟩ := header_loop_same hloop
  have hpend : w1.pending = w.pending := congrArg Links.pending hlinks
  rw [← hlinks]
  refine settle_moves cfg (hlinks ▸ hi) hsettle ?_
  rw [hpend, hid]
  exact hstrict

section Builtins

variable (cfg : Config) {status : ℤ} {headers : List Header} (hi : w.links.Inv)
  (hphase : w.phase.scripting = true)
include hi hphase

lemma respond_moves {body : Bytes}
    (h : w.fpmng_worker_respond cfg id status headers body memory = some (w', r)) :
    Moves cap strict w.links w'.links := by
  unfold fpmng_worker_respond at h
  split at h
  · exact unchanged_moves h
  split at h
  · exact unchanged_moves h
  rcases pending_get_cases hi hphase id with hget | hget | ⟨p, s, hget, hp, hs⟩ <;> rw [hget] at h
  · exact nomatch h
  · exact unchanged_moves h
  simp only [hs, isNone_some, Bool.false_eq_true, if_false] at h
  split at h
  · exact unchanged_moves h
  · rename_i hstream
    refine loop_moves cfg hi h ?_
    intro _ p' hp'
    rw [hp] at hp'
    rw [← some.inj hp']
    simpa using hstream

lemma respond_start_moves
    (h : w.fpmng_worker_respond_start cfg id status headers = some (w', r)) :
    Moves cap strict w.links w'.links := by
  unfold fpmng_worker_respond_start at h
  split at h
  · exact unchanged_moves h
  rcases pending_get_cases hi hphase id with hget | hget | ⟨p, s, hget, hp, hs⟩ <;> rw [hget] at h
  · exact nomatch h
  · exact unchanged_moves h
  simp only [hs] at h
  split at h
  · exact unchanged_moves h
  rename_i hstream
  split at h
  · exact unchanged_moves h
  split at h
  · exact unchanged_moves h
  refine loop_moves cfg hi h ?_
  intro _ p' hp'
  rw [hp] at hp'
  rw [← some.inj hp']
  simpa using hstream

lemma respond_chunk_moves {data : Bytes} {queued : ℕ}
    (h : w.fpmng_worker_respond_chunk cfg id data queued memory = some (w', r)) :
    Moves cap strict w.links w'.links := by
  unfold fpmng_worker_respond_chunk at h
  rcases pending_get_cases hi hphase id with hget | hget | ⟨p, s, hget, hp, hs⟩ <;> rw [hget] at h
  · exact nomatch h
  · exact unchanged_moves h
  simp only [hs] at h
  split at h
  · exact unchanged_moves h
  split at h
  · rw [← (mk.inj (some.inj h)).1]
    have hmove : Move cap strict w.links _ := .touch w.links id.toNat s p hp hs true
    rw [hs] at hmove
    exact .single hmove
  split at h
  · exact unchanged_moves h
  split at h
  · exact unchanged_moves h
  · rw [← (mk.inj (some.inj h)).1, links_chunk]
    have hmove : Move cap strict w.links _ := .touch w.links id.toNat s p hp hs false
    rw [hs] at hmove
    exact .single hmove

lemma respond_end_moves (h : w.fpmng_worker_respond_end cfg id = some (w', r)) :
    Moves cap strict w.links w'.links := by
  unfold fpmng_worker_respond_end at h
  rcases pending_get_cases hi hphase id with hget | hget | ⟨p, s, hget, hp, hs⟩ <;> rw [hget] at h
  · exact nomatch h
  · exact unchanged_moves h
  simp only [hs] at h
  split at h
  · exact unchanged_moves h
  · rw [← (mk.inj (some.inj h)).1]
    refine ReflTransGen.trans (.single ?_) (account_moves cfg _)
    rw [links_reap _ _ (by simp) cap, links_send_last, replied_clear]
    exact .reply hi hp hs (.inl rfl)

lemma dequeue_moves {ready : List ℕ} (hready : w.ready = ready)
    (h : w.dequeue ready = some (w', r)) : Moves cap strict w.links w'.links := by
  -- the queue is read from its front, whatever the worker's own field says meanwhile
  have hread : ∀ (ready : List ℕ) (w0 : Worker), w0.links.Inv → w0.phase.scripting = true →
      ∀ w' r, w0.dequeue ready = some (w', r) →
        Moves cap strict { w0.links with ready := ready } w'.links := by
    intro ready
    induction ready with
    | nil =>
      intro w0 _ _ w' r hrun
      exact unchanged_moves hrun
    | cons id rest ih =>
      intro w0 hi0 hph0 w' r hrun
      rw [dequeue] at hrun
      cases hget : w0.pending_get id with
      | none => rw [hget] at hrun; simp at hrun
      | some found =>
        rw [hget] at hrun
        cases found with
        | none =>
          exact (Moves.single (.skip _ id rest rfl)).trans (ih w0 hi0 hph0 w' r hrun)
        | some p =>
          obtain ⟨s, hs⟩ := entry_alive hi0 hph0 hget
          simp only [hs, isSome_some, if_true] at hrun
          rw [← (mk.inj (some.inj hrun)).1]
          exact .single (.hand _ id rest rfl ⟨p, s, (pending_get_some hget).1, hs⟩)
  have := hread ready w hi hphase w' r h
  rwa [← hready] at this

end Builtins

lemma switch_moves (cfg : Config) (w : Worker) {id s : ℕ} (key : Bytes)
    (headers : List (Option Bytes × Option Bytes)) (stream write : Bool) (hi : w.links.Inv)
    (hp : w.pending id = some p) (hs : p.http = some s)
    (hstrict : strict → p.streaming = true →
      ((refused_header headers).isNone && stream && write) = false) :
    Moves cap strict w.links (w.switch cfg id s key headers stream write).1.links := by
  have hconn : (w.http s).connection = true := (hi.linked id p s hp hs).1
  have hcounted : (w.http s).on_complete = false := hi.entry_not_counted hp hs
  unfold switch
  split
  · exact .refl
  rename_i hheaders
  rw [if_neg (by simp [hconn])]
  split
  · exact .refl
  rename_i hstream
  have hlinks : (w.set_http s { w.http s with closecb := .none, hijacked := true }).links
      = w.links.set s { w.links.req s with closecb := .none, excused := true } := by
    rw [links_set_http]
    rfl
  have hreleased : ∀ (heads : ℕ) (complete : Bool), Req.Released { w.links.req s with
      closecb := .none, excused := true, complete := complete, heads := heads } := fun _ _ =>
    ⟨.inl ⟨rfl, hcounted⟩, fun hc => absurd (hcounted.symm.trans hc) (by simp), .inr (.inr rfl),
      fun hw => absurd ((hi.linked id p s hp hs).2.2.symm.trans (hi.whole s hw)) (by simp)⟩
  -- both endings take the request out of the table, with or without the 101
  have hgo : ∀ {n : ℕ} (complete : Bool), n = 0 ∨ n = 1 ∧ (strict → p.streaming = false) → Move cap strict w.links
      (((w.links.set s { w.links.req s with
        closecb := .none, excused := true, complete := complete
        heads := (w.links.req s).heads + n }).set_entry id none).left cap id .upgraded) := by
    intro n complete hn
    have hmove : Move cap strict w.links _ := .let_go w.links id s p none
      { w.links.req s with
        closecb := .none, excused := true, complete := complete
        heads := (w.links.req s).heads + n } .upgraded hp hs (hreleased _ _) (.inl rfl) (by
          rcases hn with rfl | ⟨rfl, hidle⟩
          · exact .inl rfl
          · exact .inr ⟨rfl, hidle⟩)
    have hcounted' : (w.links.req s).counted = false := hcounted
    convert hmove using 1
    simp only [hcounted', Bool.toNat_false, add_zero]
    rfl
  split
  · refine ReflTransGen.trans (.single ?_) (account_moves cfg _)
    rw [links_reap _ _ (by simp) cap, hlinks]
    exact hgo (w.links.req s).complete (.inl rfl)
  · rename_i hwrite
    refine ReflTransGen.trans (.single ?_) (account_moves cfg _)
    rw [links_reap _ _ (by simp) cap, links_hand_over, hlinks, Links.set_set,
      set_req]
    have hidle : strict → p.streaming = false := by
      intro hst
      by_contra hstreaming
      have hno := hstrict hst (by simpa using hstreaming)
      rw [hheaders] at hno
      simp at hstream hwrite
      simp [hstream, hwrite] at hno
    have hdone := hgo true (.inr ⟨rfl, hidle⟩)
    convert hdone using 5
    simp [Sent.isHead, Sent.isEnd, Sent.isPing]

lemma reject_moves (cfg : Config) (w : Worker) {id s : ℕ} (status : ℕ)
    (version_required memory : Bool) (hi : w.links.Inv) (hp : w.pending id = some p)
    (hs : p.http = some s) (hstrict : strict → p.streaming = false) :
    Moves cap strict w.links
      (w.fpm_ws_reject_upgrade cfg id s status version_required memory).links := by
  have hconn : (w.http s).connection = true := (hi.linked id p s hp hs).1
  unfold fpm_ws_reject_upgrade
  rw [if_neg (by simp [hconn])]
  refine ReflTransGen.trans (.single ?_) (account_moves cfg _)
  rw [links_reap _ _ (by simp) cap, links_rejected, links_add_header_if,
    links_add_header_if]
  exact .reply hi hp hs (.inr ⟨rfl, hstrict⟩)

/-- The upgrade is asked for on a request whose stream has begun, and it gets as far as
a head. -/
def Worker.upgrades_stream (w : Worker) : Builtin → Bool
  | .upgrade id headers stream write _ =>
    match w.pending id.toNat with
    | none => false
    | some p => 0 < id && p.streaming && match p.http with
      | none => false
      | some s =>
        let r := (w.http s).request
        r.is_upgrade && (r.handshake_key.isNone || !r.version_13
          || ((refused_header headers).isNone && stream && write))
  | _ => false

lemma upgrade_moves (cfg : Config) {headers : List (Option Bytes × Option Bytes)}
    {stream write memory : Bool} (hi : w.links.Inv) (hphase : w.phase.scripting = true)
    (h : w.fpmng_worker_upgrade cfg id headers stream write memory = some (w', r))
    (hstrict : strict → w.upgrades_stream (.upgrade id headers stream write memory) = false) :
    Moves cap strict w.links w'.links := by
  unfold fpmng_worker_upgrade at h
  rcases pending_get_cases hi hphase id with hget | hget | ⟨p, s, hget, hp, hs⟩ <;> rw [hget] at h
  · exact nomatch h
  · exact unchanged_moves h
  have hpos : 0 < id := by
    by_contra hle
    rw [pending_get, if_pos (by omega)] at hget
    simp at hget
  simp only [hs] at h
  split at h
  · exact unchanged_moves h
  rename_i hupgrade
  have hup : (w.http s).request.is_upgrade = true := by simpa using hupgrade
  -- allowed for a stream: an upgrade that passes both tests and fails in the switch
  have hwhen : strict → p.streaming = true →
      (w.http s).request.handshake_key.isNone = false ∧ (w.http s).request.version_13 = true
        ∧ ((refused_header headers).isNone && stream && write) = false := by
    intro hst hstream
    have hno := hstrict hst
    simp only [Worker.upgrades_stream, hp, hs, hpos, hstream, hup, decide_true, Bool.true_and,
      Bool.or_eq_false_iff, Bool.not_eq_false'] at hno
    exact ⟨hno.1.1, hno.1.2, hno.2⟩
  cases hkey : (w.http s).request.handshake_key with
  | none =>
    rw [hkey] at h
    rw [← (mk.inj (some.inj h)).1]
    refine reject_moves cfg w 400 false memory hi hp hs fun hst => ?_
    by_contra hstream
    have := (hwhen hst (by simpa using hstream)).1
    rw [hkey] at this
    simp at this
  | some key =>
    rw [hkey] at h
    dsimp only at h
    split at h
    · rename_i hversion
      rw [← (mk.inj (some.inj h)).1]
      refine reject_moves cfg w 426 true memory hi hp hs fun hst => ?_
      by_contra hstream
      have := (hwhen hst (by simpa using hstream)).2.1
      rw [this] at hversion
      simp at hversion
    · have hw : (w.switch cfg id.toNat s key headers stream write).1 = w' :=
        congrArg fst (some.inj h)
      rw [← hw]
      exact switch_moves cfg w key headers stream write hi hp hs
        fun hst hstream => (hwhen hst hstream).2.2

theorem call_moves (cfg : Config) {b : Builtin} (hi : w.links.Inv)
    (hphase : w.phase.scripting = true) (h : w.call cfg b = some (w', r))
    (hstrict : strict → w.upgrades_stream b = false) : Moves cap strict w.links w'.links := by
  cases b with
  | next_request => exact dequeue_moves hi hphase rfl h
  | closed_requests =>
    exact (mk.inj (some.inj h)).1 ▸ .single (.drain _)
  | respond id status headers body memory => exact respond_moves cfg hi hphase h
  | respond_start id status headers => exact respond_start_moves cfg hi hphase h
  | respond_chunk id data queued memory => exact respond_chunk_moves cfg hi hphase h
  | respond_end id => exact respond_end_moves cfg hi hphase h
  | upgrade id headers stream write memory => exact upgrade_moves cfg hi hphase h hstrict

/-- **A call that goes on** makes moves; strict ones, if its request has no head. -/
theorem resume_moves (cfg : Config) {i : ℕ} {text : Option Bytes} (hi : w.links.Inv)
    (h : w.resume cfg i text memory = some (w', r))
    (hstrict : strict → ∀ c ∈ w.calls[i]?, ∀ p, w.pending c.vars.id = some p →
      p.streaming = false) :
    Moves cap strict w.links w'.links := by
  unfold resume at h
  cases hc : w.calls[i]? with
  | none =>
    rw [hc] at h
    exact unchanged_moves h
  | some c =>
    rw [hc] at h
    dsimp only at h
    set w0 : Worker := { w with calls := w.calls.eraseIdx i } with hw0
    have hsame := add_value_same cfg w0 c.vars c.name text
    have hlinks : (w0.add_value cfg c.vars c.name text).1.links = w.links := hsame.1
    have hpend : (w0.add_value cfg c.vars c.name text).1.pending = w.pending :=
      congrArg Links.pending hlinks
    rw [← hlinks]
    refine loop_moves cfg (hlinks ▸ hi) h ?_
    intro hst p hp
    rw [hpend, hsame.2.2] at hp
    exact hstrict hst c hc p hp

/-! ## Moves of a step -/

lemma Move.advance_phase {w : Worker} {now : Phase} (next : Phase) (hphase : w.phase = now)
    (hnow : now ≠ .serving ∧ now ≠ .answering) (hnext : next ≠ .serving ∧ next ≠ .answering) :
    Move cap strict w.links ({ w with phase := next } : Worker).links := by
  subst hphase
  exact .advance _ next hnow hnext

lemma destroy_moves (cfg : Config) (w : Worker) (hi : w.links.Inv)
    (hphase : w.phase = .flushing) :
    ∃ w', w.destroy cfg = some w' ∧ Moves cfg.max_pending strict w.links w'.links := by
  set w0 : Worker := { w with phase := .freeing } with hw0
  have hbegin : Moves cfg.max_pending strict w.links w0.links :=
    .single (.advance_phase .freeing hphase (by simp) (by simp))
  have hclose : ∀ (l : List ℕ) (w1 : Worker), w1.links.Inv → w1.phase = .freeing →
      ∃ w2, l.foldlM (close cfg) w1 = some w2 ∧ w2.phase = .freeing
        ∧ Moves cfg.max_pending strict w1.links w2.links := by
    intro l
    induction l with
    | nil => exact fun w1 _ hph => ⟨w1, rfl, hph, .refl⟩
    | cons s l ih =>
      intro w1 hi1 hph1
      have hone : ∃ w2, w1.close cfg s = some w2 ∧ w2.phase = w1.phase
          ∧ Moves cfg.max_pending strict w1.links w2.links :=
        close_moves cfg w1 s hi1 (by rw [hph1]; simp)
      obtain ⟨w2, hw2, hph2, hm⟩ := hone
      obtain ⟨w3, hw3, hph3, hm'⟩ := ih w2 (hm.inv hi1) (hph2.trans hph1)
      refine ⟨w3, ?_, hph3, hm.trans hm'⟩
      rw [foldlM_cons, hw2]
      exact hw3
  obtain ⟨w1, hw1, hph1, hm⟩ := hclose (range w0.arrived) w0 (hbegin.inv hi) rfl
  refine ⟨{ w1 with phase := .destroyed }, ?_, (hbegin.trans hm).tail ?_⟩
  · show ((range w0.arrived).foldlM (close cfg) w0).map _ = _
    rw [hw1]
    rfl
  · exact .advance_phase .destroyed hph1 (by simp) (by simp)

def Worker.OneHead (w : Worker) : Event → Prop
  | .call b => w.phase.scripting = true → w.upgrades_stream b = false
  | .resume i _ _ => w.phase.scripting = true →
    ∀ c ∈ w.calls[i]?, ∀ p, w.pending c.vars.id = some p → p.streaming = false
  | _ => True

theorem step_moves (cfg : Config) {e : Event} (hi : w.links.Inv) (hh : w.links.Halted)
    (h : step cfg w e = some w') (hstrict : strict → w.OneHead e) :
    Moves cfg.max_pending strict w.links w'.links := by
  cases e with
  | accept r v now =>
    rw [← some.inj h]
    split
    · exact accept_moves cfg w r v now hh
    · exact .refl
  | close s =>
    rw [step] at h
    split at h
    · rename_i hlooping
      have hone : ∃ w2, w.close cfg s = some w2 ∧ _ ∧ Moves cfg.max_pending strict w.links w2.links :=
        close_moves cfg w s hi (by rintro hph; simp [hph, looping] at hlooping)
      obtain ⟨w2, hw2, _, hm⟩ := hone
      exact some.inj (hw2.symm.trans h) ▸ hm
    · exact some.inj h ▸ .refl
  | written s =>
    rw [← some.inj h]
    split
    · exact write_done_moves w s hi
    · exact .refl
  | sweep now =>
    rw [← some.inj h]
    split
    · exact sweep_moves cfg w now hi
    · exact .refl
  | stop =>
    rw [← some.inj h]
    exact .single (.halt _)
  | call b =>
    rw [step] at h
    split at h
    · rename_i hphase
      obtain ⟨⟨w2, r⟩, hcall, hw2⟩ := map_eq_some_iff.mp h
      exact hw2 ▸ call_moves cfg hi hphase hcall fun hst => hstrict hst hphase
    · exact some.inj h ▸ .refl
  | resume i text memory =>
    rw [step] at h
    split at h
    · rename_i hphase
      obtain ⟨⟨w2, r⟩, hresume, hw2⟩ := map_eq_some_iff.mp h
      exact hw2 ▸ resume_moves cfg hi hresume fun hst => hstrict hst hphase
    · exact some.inj h ▸ .refl
  | finish =>
    rw [← some.inj h]
    split
    · rename_i hphase
      exact finish_moves w hi hphase
    · exact .refl
  | drained =>
    rw [← some.inj h]
    split
    · rename_i hphase
      exact .single (.advance_phase .flushing hphase (by simp) (by simp))
    · exact .refl
  | expire | fail =>
    rw [← some.inj h]
    split <;> exact .refl
  | destroy =>
    rw [step] at h
    split at h
    · rename_i hflushed
      -- the table is destroyed behind the flush only
      have hphase : w.phase = .flushing := by
        simp only [flushed, Bool.and_eq_true, beq_iff_eq] at hflushed
        exact hflushed.1
      have hend : ∃ w2, w.destroy cfg = some w2 ∧ Moves cfg.max_pending strict w.links w2.links :=
        destroy_moves cfg w hi hphase
      obtain ⟨w2, hw2, hm⟩ := hend
      exact some.inj (hw2.symm.trans h) ▸ hm
    · exact some.inj h ▸ .refl

end

/-! ## Runs -/

lemma init_inv : init.links.Inv where
  unborn := fun _ _ => rfl
  unused := fun _ _ => rfl
  linked := by simp [links, init]
  named := by simp [links, init, Http.view, Http.none]
  counted := fun _ => by simp [links, init, Http.view, Http.none]
  attached := by simp [links, init, Http.view, Http.none]
  owed := by simp [links, init]
  unflushed := rfl
  used := Nat.one_pos
  serving := by simp [links, init]
  ended := fun hne => absurd rfl hne
  whole := by simp [links, init, Http.view, Http.none]

lemma run_inv (cfg : Config) {events : List Event} {w : Worker} (h : run cfg events = some w) :
    w.links.Inv ∧ w.links.Halted := by
  refine Runs.attempt_invariant (I := fun w => w.links.Inv ∧ w.links.Halted) ?_ events
    ⟨init_inv, fun hne => absurd rfl hne⟩ h
  rintro w e w' ⟨hi, hh⟩ hstep
  have hm : Moves cfg.max_pending False w.links w'.links :=
    step_moves cfg hi hh hstep fun hf => hf.elim
  exact ⟨hm.inv hi, hm.keeps (fun _ _ => Halted.move) hh⟩

end FpmNg.WorkerExecutor
