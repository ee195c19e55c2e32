/-
The queues of a worker and the rule for its replies when it stops.

Two rings, the table and the counter of unwritten replies are changed by callbacks in
any order. What they hold together is `Inv` and `Queues` of the table, which every move
keeps; here they are read back as what a script and a client can rely on: the bounds,
the order and the uniqueness of what `next_request` and `closed_requests` return, one
way out of the table for each request, and what the counter counts.

The flush loop waits for the counter. A reply that is not counted is not waited for:
the answer of `ping.path`, and whatever a connection that was upgraded still has to
send. For every other request the rule holds.
-/
import FpmNg.WorkerExecutorRun

open List Option Prod

namespace FpmNg.WorkerExecutor

open Worker

/-! ## The queues -/

/-- Request `id` is in the table, and its client is there. -/
def Worker.Alive (w : Worker) (id : ℕ) : Prop :=
  ∃ p s, w.pending id = some p ∧ p.http = some s

structure QueueLaw (cfg : Config) (w : Worker) : Prop where
  ready_le : w.ready.length ≤ cfg.max_pending
  pending_le : w.ids.length ≤ cfg.max_pending
  /-- Ids are given in the order of arrival, and returned in it. -/
  handed : w.hist.handed.Pairwise (· < ·)
  next_request : ∀ w' id, w.fpmng_worker_next_request = some (w', .request id) →
    w.Alive id ∧ id ∉ w.hist.closes ∧ (∀ earlier ∈ w.hist.handed, earlier < id)
      ∧ w'.hist.handed = w.hist.handed ++ [id]
  /-- A request is in the table, or it has left in one way, once. -/
  leaves : ∀ id, 0 < id → id < w.next_id →
    w.Alive id ∧ (∀ how, (id, how) ∉ w.hist.left) ∨
      ¬ w.Alive id ∧ ∃ how, w.hist.left.filter (fun e => e.1 = id) = [(id, how)]
  /-- Those who closed since the last call, the oldest missing if they were too many. -/
  closed_requests : ∀ w' ids, w.fpmng_worker_closed_requests = (w', .requests ids) →
    ids = (w.hist.closes.drop w.hist.drained).drop
        ((w.hist.closes.drop w.hist.drained).length - cfg.max_pending)
      ∧ w'.hist.drained = w'.hist.closes.length
  closes : w.hist.closes.Nodup
  closed : ∀ id, id ∈ w.hist.closes ↔ (id, .closed) ∈ w.hist.left
  unflushed : w.unflushed = (range w.arrived).countP fun s => (w.http s).on_complete

lemma dequeue_request {ready : List ℕ} {w w' : Worker} {id : ℕ}
    (h : w.dequeue ready = some (w', .request id)) :
    id ∈ ready ∧ w.Alive id ∧ w'.hist.handed = w.hist.handed ++ [id] := by
  induction ready generalizing w with
  | nil => simp [dequeue] at h
  | cons front rest ih =>
    rw [dequeue] at h
    cases hget : w.pending_get front with
    | none => rw [hget] at h; simp at h
    | some found =>
      rw [hget] at h
      cases found with
      | none =>
        obtain ⟨hmem, hrest⟩ := ih h
        exact ⟨mem_cons_of_mem _ hmem, hrest⟩
      | some p =>
        dsimp only at h
        split at h
        · rename_i hsome
          obtain ⟨s, hs⟩ := isSome_iff_exists.mp hsome
          obtain ⟨hw', hid⟩ := mk.inj (some.inj h)
          obtain rfl : front = id := Result.request.inj hid
          exact ⟨.head _, ⟨p, s, (pending_get_some hget).1, hs⟩, hw' ▸ rfl⟩
        · obtain ⟨hmem, ⟨q, s, hq, hs⟩, hhanded⟩ := ih h
          refine ⟨mem_cons_of_mem _ hmem, ⟨q, s, ?_, hs⟩, hhanded⟩
          -- removing the front entry did not bring another one in
          have hne : id ≠ front := by
            rintro rfl
            simp [reap] at hq
          exact (Function.update_of_ne hne _ _).symm.trans hq

lemma init_queues (cap : ℕ) : init.links.Queues cap where
  ready_le := Nat.zero_le cap
  size_le := Nat.zero_le cap
  ordered := Pairwise.nil
  below := by simp [links, init]
  once := nodup_nil
  entered := by simp [links, init]
  gone := fun id hpos hlt => by
    have : id < 1 := hlt
    omega
  closes := rfl
  drained := Nat.zero_le _
  ring := by simp [links, init]

lemma run_queues (cfg : Config) {events : List Event} {w : Worker} (h : run cfg events = some w) :
    w.links.Queues cfg.max_pending := by
  refine (Runs.attempt_invariant (I := fun w => (w.links.Inv ∧ w.links.Halted)
    ∧ w.links.Queues cfg.max_pending) ?_ events
    ⟨⟨init_inv, fun hne => absurd rfl hne⟩, init_queues _⟩ h).2
  rintro w e w' ⟨⟨hi, hh⟩, hq⟩ hstep
  have hm : Moves cfg.max_pending False w.links w'.links :=
    step_moves cfg hi hh hstep fun hf => hf.elim
  have hkeep := hm.keeps (I := fun L => L.Inv ∧ L.Queues cfg.max_pending)
    (fun _ _ hmove hL => ⟨Inv.move hmove hL.1, Queues.move hmove hL.1 hL.2⟩) ⟨hi, hq⟩
  exact ⟨⟨hkeep.1, hm.keeps (fun _ _ => Links.Halted.move) hh⟩, hkeep.2⟩

lemma filter_once {left : List (ℕ × Leave)} {id : ℕ} (honce : (left.map fst).Nodup)
    (hmem : id ∈ left.map fst) :
    ∃ how, left.filter (fun e => e.1 = id) = [(id, how)] := by
  induction left with
  | nil => simp at hmem
  | cons e left ih =>
    rw [map_cons, nodup_cons] at honce
    by_cases he : e.1 = id
    · refine ⟨e.2, ?_⟩
      have hrest : left.filter (fun e => e.1 = id) = [] := by
        rw [filter_eq_nil_iff]
        intro other hother heq
        have hsame : other.1 = e.1 := (of_decide_eq_true heq).trans he.symm
        exact honce.1 (hsame ▸ mem_map_of_mem hother)
      rw [filter_cons_of_pos (by simpa using he), hrest, ← he]
    · rw [filter_cons_of_neg (by simpa using he)]
      refine ih honce.2 ?_
      rcases mem_cons.mp hmem with heq | hin
      · exact absurd heq.symm he
      · exact hin

/-- **The queues.** In every state of every run. -/
theorem worker_queue_law (cfg : Config) (events : List Event) (w : Worker)
    (hrun : run cfg events = some w) : QueueLaw cfg w := by
  obtain ⟨hi, _⟩ := run_inv cfg hrun
  have hq := run_queues cfg hrun
  have hcloses : w.hist.closes = (w.hist.left.filter fun e => e.2 = .closed).map fst :=
    hq.closes
  refine ⟨hq.ready_le, ?_, (pairwise_append.mp hq.ordered).1, ?_, ?_, ?_, ?_, fun id => ?_, hi.unflushed⟩
  · rw [ids, ← countP_eq_length_filter]
    exact hq.size_le
  · intro w' id h
    obtain ⟨hmem, halive, hhanded⟩ := dequeue_request h
    refine ⟨halive, fun hclosed => ?_, fun earlier hearlier => ?_, hhanded⟩
    · -- a client that is gone has left the table
      rw [hcloses] at hclosed
      obtain ⟨e, he, rfl⟩ := mem_map.mp hclosed
      have hleft : e.1 ∈ w.hist.left.map fst :=
        mem_map_of_mem (mem_of_mem_filter he)
      obtain ⟨hpos, hlt⟩ := hq.entered _ hleft
      exact (hq.gone _ hpos hlt).mp hleft halive
    · exact (pairwise_append.mp hq.ordered).2.2 earlier hearlier id hmem
  · intro id hpos hlt
    by_cases halive : w.Alive id
    · refine .inl ⟨halive, fun how hleft => ?_⟩
      exact (hq.gone id hpos hlt).mp (mem_map_of_mem hleft) halive
    · exact .inr ⟨halive, filter_once hq.once ((hq.gone id hpos hlt).mpr halive)⟩
  · intro w' ids h
    obtain ⟨hw', hids⟩ := mk.inj h
    refine ⟨?_, hw' ▸ rfl⟩
    rw [← Result.requests.inj hids, length_drop]
    exact hq.ring
  · rw [hcloses]
    exact hq.once.sublist (filter_sublist.map _)
  · simp [hcloses]

/-- A request that was handed out and answered, and another whose client closed. -/
theorem worker_queue_law_two : ∃ w, run small [.accept websocket admitted 0,
    .accept websocket admitted 1, .call .next_request, .close 1,
    .call (.respond 1 200 [] (str "a") true)] = some w ∧ QueueLaw small w := by
  obtain ⟨w, hw⟩ := isSome_iff_exists.mp (show (run small [.accept websocket admitted 0,
    .accept websocket admitted 1, .call .next_request, .close 1,
    .call (.respond 1 200 [] (str "a") true)]).isSome = true by decide)
  exact ⟨w, hw, worker_queue_law small _ w hw⟩

/-- **The table and the close callbacks agree**: in every state of every run an entry holds a
request exactly if that request's callback names the entry. -/
theorem entry_iff_callback (cfg : Config) (events : List Event) (w : Worker)
    (hrun : run cfg events = some w) (id s : ℕ) :
    (∃ p, w.pending id = some p ∧ p.http = some s) ↔ (w.http s).closecb = .conn_closed id := by
  obtain ⟨hi, _⟩ := run_inv cfg hrun
  refine ⟨?_, fun hcb => hi.named s id hcb⟩
  rintro ⟨p, hp, hs⟩
  exact (hi.linked id p s hp hs).2.1

def answered_and_closed : List Event :=
  [.accept websocket admitted 0, .accept websocket admitted 1, .accept websocket admitted 2,
    .call .next_request, .close 1, .call (.respond 1 200 [] (str "a") true)]

theorem entry_iff_callback_three : ∃ w, run small answered_and_closed = some w
    ∧ (w.http 0).closecb = .reply_aborted ∧ (w.http 1).closecb = .none
    ∧ (w.http 2).closecb = .conn_closed 3 ∧ ∀ id s,
      (∃ p, w.pending id = some p ∧ p.http = some s) ↔ (w.http s).closecb = .conn_closed id := by
  have hshape : ((run small answered_and_closed).map fun w =>
      ((w.http 0).closecb, (w.http 1).closecb, (w.http 2).closecb))
        = some (.reply_aborted, .none, .conn_closed 3) := by decide
  obtain ⟨w, hw, hfields⟩ := map_eq_some_iff.mp hshape
  simp only [Prod.mk.injEq] at hfields
  exact ⟨w, hw, hfields.1, hfields.2.1, hfields.2.2,
    entry_iff_callback small answered_and_closed w hw⟩

/-! ## The rule for the replies -/

/-- Request `s` has its whole reply on the socket, or its client closed, or the budget
ran out first. -/
def Worker.ReplyRule (w : Worker) (s : ℕ) : Prop :=
  (w.http s).complete = true ∧ (w.http s).written = true ∨ (w.http s).connection = false
    ∨ w.flush_expired = true

/-- Nobody waits for the replies of request `s`: it was answered by `ping.path`, or its
connection was upgraded, or the flush loop could not be run. -/
def Worker.excused (w : Worker) (s : ℕ) : Bool :=
  (w.http s).hijacked || (w.http s).sent.any Sent.isPing || w.flush_failed

/-- **The reply rule.** When the flush loop ends, every request that was delivered has
its reply written, unless its client closed, the budget ran out, its reply was not one of
those the loop waits for, or the loop had no timer or failed. -/
theorem replies_written_unless_excused (cfg : Config) (events : List Event) (w : Worker)
    (hrun : run cfg events = some w) (hflushed : w.flushed = true) (s : ℕ) (hs : s < w.arrived)
    (hcounted : w.excused s = false) : w.ReplyRule s := by
  obtain ⟨hi, _⟩ := run_inv cfg hrun
  obtain ⟨hcounted, hloop⟩ := Bool.or_eq_false_iff.mp hcounted
  simp only [flushed, hloop, Bool.or_false, Bool.and_eq_true, Bool.or_eq_true,
    beq_iff_eq] at hflushed
  obtain ⟨hphase, hnone | hexpired⟩ := hflushed
  swap
  · exact .inr (.inr hexpired)
  rcases hi.owed s hs with hgone | howed | hwritten | hexcused | ⟨id, hid⟩
  · exact .inr (.inl hgone)
  · -- a counted reply is still unwritten, and the counter would say so
    have hzero : (range w.arrived).countP (fun s => (w.links.req s).counted) = 0 :=
      hi.unflushed.symm.trans hnone
    rw [countP_eq_zero] at hzero
    exact absurd howed (hzero s (mem_range.mpr hs))
  · exact .inl ⟨hi.whole s hwritten, hwritten⟩
  · exact absurd (hexcused.symm.trans hcounted) (by simp)
  · -- no entry has a request any more
    obtain ⟨p, hp, hp'⟩ := hi.named s id hid
    have hended := hi.ended (by rw [show w.links.phase = .flushing from hphase]; simp)
      (by rw [show w.links.phase = .flushing from hphase]; simp) id p hp
    exact absurd (hp'.symm.trans hended) (by simp)

/-- An answer of the script that is written before the child ends. -/
theorem replies_written_unless_excused_answered : ∃ w, run small [.accept websocket admitted 0,
    .call .next_request, .call (.respond 1 200 [] (str "a") true), .stop, .finish, .drained,
    .written 0] = some w ∧ w.flushed = true ∧ w.ReplyRule 0 := by
  have hshape : ((run small [.accept websocket admitted 0, .call .next_request,
      .call (.respond 1 200 [] (str "a") true), .stop, .finish, .drained, .written 0]).map
        fun w => (w.flushed, w.arrived, w.excused 0)) = some (true, 1, false) := by decide
  obtain ⟨w, hw, hfields⟩ := map_eq_some_iff.mp hshape
  obtain ⟨hflushed, harrived, hexcused⟩ : w.flushed = true ∧ w.arrived = 1 ∧ w.excused 0 = false := by
    simpa using hfields
  exact ⟨w, hw, hflushed, replies_written_unless_excused small _ w hw hflushed 0 (by omega) hexcused⟩

/-- The answer of `ping.path` is not written yet, its client is there, the budget has
not run out, and the flush loop is at its end. -/
theorem ping_reply_not_awaited : ∃ w, run small [.accept websocket
    ⟨true, true, some (str "pong"), true⟩ 0, .stop, .finish, .drained] = some w
      ∧ w.flushed = true ∧ 0 < w.arrived ∧ ¬ w.ReplyRule 0 := by
  have hshape : ((run small [.accept websocket ⟨true, true, some (str "pong"), true⟩ 0, .stop,
      .finish, .drained]).map fun w => (w.flushed, w.arrived, w.flush_expired,
        (w.http 0).written, (w.http 0).connection)) = some (true, 1, false, false, true) := by
    decide
  obtain ⟨w, hw, hfields⟩ := map_eq_some_iff.mp hshape
  obtain ⟨hflushed, harrived, hbudget, hwritten, hconn⟩ : w.flushed = true ∧ w.arrived = 1
      ∧ w.flush_expired = false ∧ (w.http 0).written = false ∧ (w.http 0).connection = true := by
    simpa using hfields
  exact ⟨w, hw, hflushed, by omega, by simp [Worker.ReplyRule, hbudget, hwritten, hconn]⟩

end FpmNg.WorkerExecutor
