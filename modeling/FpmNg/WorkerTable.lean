/-
The table of the worker executor, seen from what happens to a request.

`Links` is the part of the executor's state that decides who still owes a request its
reply: for each request its connection, its close callback, whether its reply is
counted as unflushed, how many heads it was given; the table; the two queues; the
history. `Move` lists what can happen to it. A request arrives and is answered at
once, or it is entered; its entry is updated, starts its stream, or lets go of it; its
reply is settled; the queues are read; the phase advances.

Everything the executor does is a sequence of such moves, so an invariant of the table
is proved by one case for each of them.
-/
import Mathlib.Data.List.Count
import Mathlib.Data.List.Range
import FpmNg.WorkerExecutor

open List Option Prod

namespace FpmNg.WorkerExecutor

open Function (update update_self update_of_ne forall_update_iff)

/-! ## Requests and the table -/

/-- What the table's business with a request is. `excused` is a reply nobody counts:
the answer of `ping.path`, or a connection that was taken over. -/
structure Req where
  connection : Bool
  closecb : Closecb
  counted : Bool
  excused : Bool
  complete : Bool
  heads : ℕ
  written : Bool

def Sent.isPing : Sent → Bool
  | .ping _ => true
  | _ => false

def Http.view (h : Http) : Req :=
  ⟨h.connection, h.closecb, h.on_complete, h.hijacked || h.sent.any Sent.isPing, h.complete,
    h.heads, h.written⟩

structure Links where
  req : ℕ → Req
  arrived : ℕ
  pending : ℕ → Option Pending
  next_id : ℕ
  ready : List ℕ
  closed : List ℕ
  unflushed : ℕ
  stopping : Bool
  phase : Phase
  hist : History

def Worker.links (w : Worker) : Links where
  req := fun s => (w.http s).view
  arrived := w.arrived
  pending := w.pending
  next_id := w.next_id
  ready := w.ready
  closed := w.closed
  unflushed := w.unflushed
  stopping := w.stopping
  phase := w.phase
  hist := w.hist

namespace Links

def size (L : Links) : ℕ := (range L.next_id).countP fun id => (L.pending id).isSome

/-- The request of entry `id` is still to be answered or to be ended. -/
def alive (L : Links) (id : ℕ) : Prop := ∃ p s, L.pending id = some p ∧ p.http = some s

def set (L : Links) (s : ℕ) (r : Req) : Links := { L with req := update L.req s r }

def set_entry (L : Links) (id : ℕ) (p : Option Pending) : Links :=
  { L with pending := update L.pending id p }

/-- The rings and the history after entry `id` has let go of its request. -/
def left (L : Links) (cap id : ℕ) (how : Leave) : Links :=
  { L with
    closed := if how = .closed then (L.closed ++ [id]).drop (L.closed.length + 1 - cap) else L.closed
    hist.left := L.hist.left ++ [(id, how)]
    hist.closes := if how = .closed then L.hist.closes ++ [id] else L.hist.closes }

end Links

/-! ## Moves -/

/-- A reply is handed over, lost with its connection, or nobody's to count. -/
structure Req.Released (r : Req) : Prop where
  closecb : r.closecb = .none ∧ r.counted = false ∨ r.closecb = .reply_aborted ∧ r.counted = true
  attached : r.counted = true → r.connection = true
  owed : r.connection = false ∨ r.counted = true ∨ r.excused = true
  whole : r.written = true → r.complete = true

/-- What can happen to the table. Under `strict` a head is only given to a request
that has none. -/
inductive Move (cap : ℕ) (strict : Prop) : Links → Links → Prop
  | arrive (L : Links) (r : Req) (hr : r.Released) (hc : r.connection = true) (hh : r.heads = 1) :
    Move cap strict L
      { L.set L.arrived r with
        arrived := L.arrived + 1
        unflushed := L.unflushed + r.counted.toNat }
  | enter (L : Links) (now : ℕ) (hphase : L.phase = .serving) (hready : L.ready.length < cap)
      (hsize : L.size < cap) :
    Move cap strict L
      { (L.set L.arrived ⟨true, .conn_closed L.next_id, false, false, false, 0, false⟩).set_entry L.next_id
          (some ⟨some L.arrived, now, false, false⟩) with
        arrived := L.arrived + 1
        next_id := L.next_id + 1
        ready := L.ready ++ [L.next_id] }
  | let_go (L : Links) (id s : ℕ) (p : Pending) (q : Option Pending) (r : Req) (how : Leave)
      (hp : L.pending id = some p) (hs : p.http = some s) (hr : r.Released)
      (hq : q = none ∨ L.phase = .answering ∧ ∃ p', q = some p' ∧ p'.http = none)
      (hh : r.heads = (L.req s).heads ∨
        r.heads = (L.req s).heads + 1 ∧ (strict → p.streaming = false)) :
    Move cap strict L
      { ((L.set s r).set_entry id q).left cap id how with
        unflushed := L.unflushed + r.counted.toNat }
  | start (L : Links) (id s : ℕ) (p : Pending) (hp : L.pending id = some p) (hs : p.http = some s)
      (hstrict : strict → p.streaming = false) :
    Move cap strict L
      ((L.set s { L.req s with heads := (L.req s).heads + 1 }).set_entry id
        (some { p with streaming := true }))
  | touch (L : Links) (id s : ℕ) (p : Pending) (hp : L.pending id = some p) (hs : p.http = some s)
      (b : Bool) : Move cap strict L (L.set_entry id (some { p with backpressured := b }))
  | settle (L : Links) (s : ℕ) (r : Req) (hcounted : (L.req s).counted = true)
      (hcb : r.closecb = .none) (hc : r.counted = false)
      (hdone : r.connection = false ∨ r.written = true) (hh : r.heads = (L.req s).heads)
      (he : r.excused = (L.req s).excused) (hwhole : r.written = true → r.complete = true) :
    Move cap strict L { L.set s r with unflushed := L.unflushed - 1 }
  | alter (L : Links) (s : ℕ) (r : Req) (hborn : s < L.arrived)
      (hfree : (L.req s).closecb = .none) (hcb : r.closecb = .none)
      (hc : r.counted = false) (hh : r.heads = (L.req s).heads)
      (he : r.excused = (L.req s).excused) (hw : (L.req s).written = true → r.written = true)
      (hconn : (L.req s).connection = false → r.connection = false)
      (hwhole : r.written = true → r.complete = true) :
    Move cap strict L (L.set s r)
  | skip (L : Links) (id : ℕ) (rest : List ℕ) (hready : L.ready = id :: rest) :
    Move cap strict L { L with ready := rest }
  | hand (L : Links) (id : ℕ) (rest : List ℕ) (hready : L.ready = id :: rest) (hid : L.alive id) :
    Move cap strict L { L with ready := rest, hist.handed := L.hist.handed ++ [id] }
  | drain (L : Links) :
    Move cap strict L { L with closed := [], hist.drained := L.hist.closes.length }
  | halt (L : Links) : Move cap strict L { L with stopping := true }
  | stop (L : Links) (h : L.phase = .serving) (hstop : L.stopping = true) :
    Move cap strict L { L with phase := .answering }
  | stopped (L : Links) (h : L.phase = .answering) (hnone : ∀ id, ¬ L.alive id) :
    Move cap strict L { L with phase := .draining }
  | advance (L : Links) (φ : Phase) (h : L.phase ≠ .serving ∧ L.phase ≠ .answering)
      (hφ : φ ≠ .serving ∧ φ ≠ .answering) : Move cap strict L { L with phase := φ }

abbrev Moves (cap : ℕ) (strict : Prop) : Links → Links → Prop :=
  Relation.ReflTransGen (Move cap strict)

variable {L L' : Links} {strict : Prop} {cap : ℕ}

lemma Moves.keeps {I : Links → Prop} (hmove : ∀ L L', Move cap strict L L' → I L → I L')
    (h : Moves cap strict L L') (hI : I L) : I L' := by
  induction h with
  | refl => exact hI
  | tail _ hlast ih => exact hmove _ _ hlast ih

/-! ## The invariant of the table -/

/-- An entry and its request name each other; a reply is counted while its close
callback says so; every request waits in the table, or its reply is counted, or
written, or its client is gone, or it is excused. -/
structure Inv (req : ℕ → Req) (arrived : ℕ) (pending : ℕ → Option Pending)
    (next_id unflushed : ℕ) (phase : Phase) : Prop where
  unborn : ∀ s, arrived ≤ s → req s = Http.none.view
  unused : ∀ id, id = 0 ∨ next_id ≤ id → pending id = none
  linked : ∀ id p s, pending id = some p → p.http = some s →
    (req s).connection = true ∧ (req s).closecb = .conn_closed id ∧ (req s).complete = false
  named : ∀ s id, (req s).closecb = .conn_closed id → ∃ p, pending id = some p ∧ p.http = some s
  counted : ∀ s, (req s).counted = true ↔ (req s).closecb = .reply_aborted
  attached : ∀ s, (req s).counted = true → (req s).connection = true
  owed : ∀ s, s < arrived → (req s).connection = false ∨ (req s).counted = true ∨
    (req s).written = true ∨ (req s).excused = true ∨ ∃ id, (req s).closecb = .conn_closed id
  unflushed : unflushed = (range arrived).countP fun s => (req s).counted
  used : 0 < next_id
  serving : phase = .serving → ∀ id p, pending id = some p → p.http ≠ none
  ended : phase ≠ .serving → phase ≠ .answering → ∀ id p, pending id = some p → p.http = none
  whole : ∀ s, (req s).written = true → (req s).complete = true

def Links.Inv (L : Links) : Prop :=
  WorkerExecutor.Inv L.req L.arrived L.pending L.next_id L.unflushed L.phase

variable {α : Type}

lemma countP_update (c : α → Bool) (f : ℕ → α) {n s : ℕ} (a : α) (hs : s < n) :
    (range n).countP (fun t => c (update f s a t)) + (c (f s)).toNat
      = (range n).countP (fun t => c (f t)) + (c a).toNat := by
  induction n with
  | zero => omega
  | succ n ih =>
    rw [range_succ, countP_append, countP_append]
    rcases Nat.lt_succ_iff_lt_or_eq.mp hs with hlt | rfl
    · have hn : n ≠ s := by omega
      have hlast : [n].countP (fun t => c (update f s a t)) = [n].countP fun t => c (f t) := by
        simp [countP_cons, update_of_ne hn]
      rw [hlast]
      have := ih hlt
      omega
    · have hrest : (range s).countP (fun t => c (update f s a t))
          = (range s).countP fun t => c (f t) := by
        apply countP_congr
        intro t ht
        rw [update_of_ne (ne_of_lt (mem_range.mp ht))]
      rw [hrest]
      cases hb : c a <;> cases hf : c (f s) <;> simp [hb, hf]

lemma countP_extend (c : α → Bool) (f : ℕ → α) (n : ℕ) (a : α) :
    (range (n + 1)).countP (fun t => c (update f n a t))
      = (range n).countP (fun t => c (f t)) + (c a).toNat := by
  have hfront : (range n).countP (fun t => c (update f n a t))
      = (range n).countP fun t => c (f t) := by
    apply countP_congr
    intro t ht
    rw [update_of_ne (ne_of_lt (mem_range.mp ht))]
  rw [range_succ, countP_append, hfront]
  cases ha : c a <;> simp [ha]

variable {r : Req}

structure Req.Sound (r : Req) : Prop where
  counted : r.counted = true ↔ r.closecb = .reply_aborted
  attached : r.counted = true → r.connection = true
  owed : r.connection = false ∨ r.counted = true ∨ r.written = true ∨ r.excused = true ∨
    ∃ id, r.closecb = .conn_closed id
  whole : r.written = true → r.complete = true

lemma Req.Released.sound (hr : r.Released) : r.Sound where
  counted := by rcases hr.closecb with ⟨hn, hco⟩ | ⟨hn, hco⟩ <;> simp [hn, hco]
  attached := hr.attached
  owed := by
    rcases hr.owed with hno | hco | hex
    · exact .inl hno
    · exact .inr (.inl hco)
    · exact .inr (.inr (.inr (.inl hex)))
  whole := hr.whole

lemma Req.Released.unlinked (hr : r.Released) (id : ℕ) : r.closecb ≠ .conn_closed id := by
  rcases hr.closecb with ⟨hn, -⟩ | ⟨hn, -⟩ <;> simp [hn]

variable {p : Pending} {id s : ℕ}

/-- The entries of all requests but `s` stay. -/
def OthersStay (s : ℕ) (pending pending' : ℕ → Option Pending) : Prop :=
  ∀ id p t, t ≠ s → p.http = some t → (pending' id = some p ↔ pending id = some p)

lemma OthersStay.refl {pending : ℕ → Option Pending} : OthersStay s pending pending :=
  fun _ _ _ _ _ => Iff.rfl

lemma OthersStay.update {pending : ℕ → Option Pending} {q : Option Pending}
    (hold : ∀ p t, pending id = some p → p.http = some t → t = s)
    (hnew : ∀ p t, q = some p → p.http = some t → t = s) :
    OthersStay s pending (update pending id q) := by
  intro id' p t hts ht
  rcases eq_or_ne id' id with rfl | hne
  · rw [update_self]
    exact iff_of_false (fun hp => hts (hnew p t hp ht)) fun hp => hts (hold p t hp ht)
  · rw [update_of_ne hne]

lemma let_go_dead {q : Option Pending} {P : Prop}
    (hq : q = none ∨ P ∧ ∃ p', q = some p' ∧ p'.http = none) : ∀ p', q = some p' → p'.http = none := by
  rintro p' rfl
  rcases hq with hnone | ⟨-, p'', heq, hnone⟩
  · simp at hnone
  · rwa [some.inj heq]

namespace Inv

variable {req : ℕ → Req} {arrived : ℕ} {pending : ℕ → Option Pending} {next_id unflushed : ℕ}
  {phase : Phase}

section
variable (h : Inv req arrived pending next_id unflushed phase)
include h

lemma born {s : ℕ} (hs : (req s).closecb ≠ .none) : s < arrived := by
  by_contra hge
  rw [h.unborn s (Nat.le_of_not_lt hge)] at hs
  exact hs rfl

lemma entry_born (hp : pending id = some p) (hs : p.http = some s) : s < arrived := by
  apply h.born
  rw [(h.linked id p s hp hs).2.1]
  simp

lemma id_used {id : ℕ} (hp : pending id = some p) : 0 < id ∧ id < next_id := by
  by_contra hnot
  rw [h.unused id (by omega)] at hp
  simp at hp

lemma other_request {id id' s s' : ℕ} {p p' : Pending} (hp : pending id = some p)
    (hs : p.http = some s) (hp' : pending id' = some p') (hs' : p'.http = some s')
    (hne : id' ≠ id) : s' ≠ s := by
  rintro rfl
  have hboth := (h.linked id' p' s' hp' hs').2.1.symm.trans (h.linked id p s' hp hs).2.1
  exact hne (Closecb.conn_closed.inj hboth)

lemma entry_not_counted (hp : pending id = some p) (hs : p.http = some s) :
    (req s).counted = false := by
  by_contra hc
  have hcb := (h.counted s).mp (by simpa using hc)
  rw [(h.linked id p s hp hs).2.1] at hcb
  simp at hcb

omit h in
lemma entry_stays {q : Option Pending} (hp : pending id = some p) (hs : p.http = some s)
    (hq : ∀ p' t, q = some p' → p'.http = some t → t = s) :
    OthersStay s pending (update pending id q) := by
  refine .update ?_ hq
  intro p' t hp' ht
  rw [← some.inj (hp.symm.trans hp'), hs] at ht
  exact (some.inj ht).symm

lemma enter_self {p p' : Pending} {id : ℕ} (hp' : update pending next_id (some p) id = some p')
    (hs : p'.http = some arrived) : id = next_id ∧ p' = p := by
  rcases eq_or_ne id next_id with rfl | hne
  · rw [update_self] at hp'
    exact ⟨rfl, (some.inj hp').symm⟩
  · rw [update_of_ne hne] at hp'
    exact absurd (h.entry_born hp' hs) (Nat.lt_irrefl _)

lemma entry_self {q : Option Pending} {id' : ℕ} {p' : Pending} (hp : pending id = some p)
    (hs : p.http = some s) (hp' : update pending id q id' = some p') (hs' : p'.http = some s) :
    q = some p' := by
  rcases eq_or_ne id' id with rfl | hne
  · rwa [update_self] at hp'
  · rw [update_of_ne hne] at hp'
    exact absurd rfl (h.other_request hp hs hp' hs' hne)

lemma enter_stays (now : ℕ) : OthersStay arrived pending
    (update pending next_id (some ⟨some arrived, now, false, false⟩)) := by
  refine .update (by simp [h.unused next_id (.inr (Nat.le_refl _))]) ?_
  rintro _ t ⟨⟩ ⟨⟩
  rfl

lemma sound (hs : s < arrived) : (req s).Sound :=
  ⟨h.counted s, h.attached s, h.owed s hs, h.whole s⟩

theorem set {arrived' next_id' unflushed' : ℕ} {pending' : ℕ → Option Pending} (hr : r.Sound)
    (hborn : s < arrived') (harrived : ∀ t, t ≠ s → (t < arrived' ↔ t < arrived))
    (hother : OthersStay s pending pending')
    (hlinked : ∀ id p, pending' id = some p → p.http = some s →
      r.connection = true ∧ r.closecb = .conn_closed id ∧ r.complete = false)
    (hnamed : ∀ id, r.closecb = .conn_closed id → ∃ p, pending' id = some p ∧ p.http = some s)
    (hunused : ∀ id, id = 0 ∨ next_id' ≤ id → pending' id = none) (hused : 0 < next_id')
    (hcount : unflushed' = (range arrived').countP fun t => (update req s r t).counted)
    (hserving : phase = .serving → ∀ id p, pending' id = some p → p.http ≠ none)
    (hended : phase ≠ .serving → phase ≠ .answering → ∀ id p, pending' id = some p → p.http = none) :
    Inv (update req s r) arrived' pending' next_id' unflushed' phase := by
  refine ⟨?_, hunused, ?_, ?_, ?_, ?_, ?_, hcount, hused, hserving, hended, ?_⟩
  · intro t ht
    have hts : t ≠ s := by omega
    rw [update_of_ne hts]
    exact h.unborn t (Nat.le_of_not_lt fun hlt => absurd ((harrived t hts).mpr hlt) (by omega))
  · intro id p t hp ht
    rcases eq_or_ne t s with rfl | hts
    · rw [update_self]
      exact hlinked id p hp ht
    · rw [update_of_ne hts]
      exact h.linked id p t ((hother id p t hts ht).mp hp) ht
  · intro t id hcb
    rcases eq_or_ne t s with rfl | hts
    · rw [update_self] at hcb
      exact hnamed id hcb
    · rw [update_of_ne hts] at hcb
      obtain ⟨p, hp, ht⟩ := h.named t id hcb
      exact ⟨p, (hother id p t hts ht).mpr hp, ht⟩
  · exact (forall_update_iff req fun _ r => r.counted = true ↔ r.closecb = .reply_aborted).mpr
      ⟨hr.counted, fun t _ => h.counted t⟩
  · exact (forall_update_iff req fun _ r => r.counted = true → r.connection = true).mpr
      ⟨hr.attached, fun t _ => h.attached t⟩
  · intro t ht
    rcases eq_or_ne t s with rfl | hts
    · rw [update_self]
      exact hr.owed
    · rw [update_of_ne hts]
      exact h.owed t ((harrived t hts).mp ht)
  · exact (forall_update_iff req fun _ r => r.written = true → r.complete = true).mpr
      ⟨hr.whole, fun t _ => h.whole t⟩

lemma arrive (hr : r.Released) :
    Inv (update req arrived r) (arrived + 1) pending next_id (unflushed + r.counted.toNat)
      phase := by
  refine h.set hr.sound (Nat.lt_succ_self _) (by omega) .refl ?_
    (fun id hcb => absurd hcb (hr.unlinked id)) h.unused h.used ?_ h.serving h.ended
  · intro id p hp hs
    exact absurd (h.entry_born hp hs) (Nat.lt_irrefl _)
  · rw [h.unflushed, countP_extend Req.counted]

lemma enter (now : ℕ) (hphase : phase = .serving) :
    Inv (update req arrived ⟨true, .conn_closed next_id, false, false, false, 0, false⟩) (arrived + 1)
      (update pending next_id (some ⟨some arrived, now, false, false⟩)) (next_id + 1) unflushed
      phase := by
  have hpos := h.used
  refine h.set ⟨by simp, by simp, .inr (.inr (.inr (.inr ⟨_, rfl⟩))), by simp⟩ (Nat.lt_succ_self _)
    (by omega) (h.enter_stays now) ?_ ?_ ?_ (by omega) ?_ ?_ fun hne => absurd hphase hne
  · intro id p hp hs
    obtain ⟨rfl, -⟩ := h.enter_self hp hs
    exact ⟨rfl, rfl, rfl⟩
  · rintro _ ⟨⟩
    exact ⟨_, update_self .., rfl⟩
  · intro id hid
    rw [update_of_ne (by omega)]
    exact h.unused id (by omega)
  · rw [h.unflushed, countP_extend Req.counted]
    rfl
  · intro _ id p hp
    rcases eq_or_ne id next_id with rfl | hne
    · rw [update_self] at hp
      rw [← some.inj hp]
      simp
    · rw [update_of_ne hne] at hp
      exact h.serving hphase id p hp

/-- **An entry lets go of its request**: it is answered, its stream ends, it is
upgraded, its client closes, or the child ends it. -/
theorem let_go {q : Option Pending} (hp : pending id = some p) (hs : p.http = some s)
    (hr : r.Released) (hq : q = none ∨ phase = .answering ∧ ∃ p', q = some p' ∧ p'.http = none) :
    Inv (update req s r) arrived (update pending id q) next_id (unflushed + r.counted.toNat)
      phase := by
  have hborn := h.entry_born hp hs
  have hused := h.id_used hp
  have hdead := let_go_dead hq
  refine h.set hr.sound hborn (fun _ _ => Iff.rfl) (entry_stays hp hs ?_) ?_
    (fun id hcb => absurd hcb (hr.unlinked id)) ?_ h.used ?_ ?_ ?_
  · intro p' t hp' ht
    simp [hdead p' hp'] at ht
  · intro id' p' hp' ht
    simp [hdead p' (h.entry_self hp hs hp' ht)] at ht
  · intro id' hid'
    rw [update_of_ne (by omega)]
    exact h.unused id' hid'
  · have hcount := countP_update Req.counted req r hborn
    rw [h.entry_not_counted hp hs] at hcount
    rw [h.unflushed, ← hcount]
    rfl
  · intro hserving id' p' hp'
    rcases eq_or_ne id' id with rfl | hne
    · rw [update_self] at hp'
      rcases hq with rfl | ⟨hansw, _⟩
      · simp at hp'
      · exact nomatch hserving.symm.trans hansw
    · rw [update_of_ne hne] at hp'
      exact h.serving hserving id' p' hp'
  · intro hns hna id' p' hp'
    rcases eq_or_ne id' id with rfl | hne
    · rw [update_self] at hp'
      exact hdead p' hp'
    · rw [update_of_ne hne] at hp'
      exact h.ended hns hna id' p' hp'

theorem update_entry {p p' : Pending} (hp : pending id = some p) (hs : p.http = some s)
    (hs' : p'.http = some s) :
    Inv req arrived (update pending id (some p')) next_id unflushed phase := by
  have hkept : ∀ {id'}, id' ≠ id → update pending id (some p') id' = pending id' :=
    fun hne => update_of_ne hne ..
  have hused := h.id_used hp
  refine ⟨h.unborn, ?_, ?_, ?_, h.counted, h.attached, h.owed, h.unflushed, h.used, ?_, ?_,
    h.whole⟩
  · intro id' hid'
    rw [hkept (by omega)]
    exact h.unused id' hid'
  · intro id' p'' t hp'' ht
    rcases eq_or_ne id' id with rfl | hne
    · rw [update_self] at hp''
      obtain rfl := some.inj hp''
      obtain rfl := some.inj (hs'.symm.trans ht)
      exact h.linked id' p s hp hs
    · exact h.linked id' p'' t (hkept hne ▸ hp'') ht
  · intro t id' hcb
    obtain ⟨p'', hp'', ht⟩ := h.named t id' hcb
    rcases eq_or_ne id' id with rfl | hne
    · obtain rfl := some.inj (hp''.symm.trans hp)
      exact ⟨p', update_self .., hs'.trans (hs.symm.trans ht)⟩
    · exact ⟨p'', (hkept hne).trans hp'', ht⟩
  · intro hserving id' p'' hp''
    rcases eq_or_ne id' id with rfl | hne
    · rw [update_self] at hp''
      rw [← some.inj hp'', hs']
      simp
    · exact h.serving hserving id' p'' (hkept hne ▸ hp'')
  · intro hns hna
    exact absurd (h.ended hns hna id p hp) (by simp [hs])

/-- A request no entry waits on: its reply is settled, or its connection goes. -/
lemma release {s : ℕ} (hborn : s < arrived) (hfree : ∀ id, (req s).closecb ≠ .conn_closed id)
    (hcb : r.closecb = .none) (hc : r.counted = false)
    (howed : r.connection = false ∨ r.written = true ∨ r.excused = true)
    (hwhole : r.written = true → r.complete = true) :
    Inv (update req s r) arrived pending next_id (unflushed - (req s).counted.toNat) phase := by
  have hsound : r.Sound := by
    refine ⟨by simp [hcb, hc], by simp [hc], ?_, hwhole⟩
    rcases howed with hno | hw | hex
    · exact .inl hno
    · exact .inr (.inr (.inl hw))
    · exact .inr (.inr (.inr (.inl hex)))
  refine h.set hsound hborn (fun _ _ => Iff.rfl) .refl ?_ ?_ h.unused h.used ?_
    h.serving h.ended
  · intro id p hp hs
    exact absurd (h.linked id p s hp hs).2.1 (hfree id)
  · intro id hid
    simp [hcb] at hid
  · have hcount := countP_update Req.counted req r hborn
    rw [hc, ← h.unflushed] at hcount
    rw [← Nat.add_zero unflushed, ← Bool.toNat_false, ← hcount, Nat.add_sub_cancel]

lemma rehead {s : ℕ} (hborn : s < arrived) (n : ℕ) :
    Inv (update req s { req s with heads := n }) arrived pending next_id unflushed phase := by
  obtain ⟨hcounted, hattached, howed, hwhole⟩ := h.sound hborn
  refine h.set ⟨hcounted, hattached, howed, hwhole⟩ hborn (fun _ _ => Iff.rfl)
    .refl (fun id p => h.linked id p s) (fun id => h.named s id) h.unused h.used ?_
    h.serving h.ended
  have hcount := countP_update Req.counted req { req s with heads := n } hborn
  rw [← h.unflushed] at hcount
  exact (Nat.add_right_cancel hcount).symm

end

lemma move (hm : Move cap strict L L') (h : L.Inv) : L'.Inv := by
  cases hm with
  | arrive r hr _ _ => exact h.arrive hr
  | enter now hphase _ _ => exact h.enter now hphase
  | let_go id s p q r how hp hs hr hq _ => exact h.let_go hp hs hr hq
  | start id s p hp hs _ =>
    have hentry : WorkerExecutor.Inv L.req L.arrived
        (update L.pending id (some { p with streaming := true })) L.next_id L.unflushed L.phase :=
      h.update_entry hp hs hs
    exact hentry.rehead (h.entry_born hp hs) _
  | touch id s p hp hs b => exact h.update_entry hp hs hs
  | settle s r hcounted hcb hc hdone _ _ hwhole =>
    -- a counted reply has no entry, so nothing of the table is touched
    have haborted := (h.counted s).mp hcounted
    have hfree : ∀ id, (L.req s).closecb ≠ .conn_closed id := fun id hid =>
      absurd (haborted.symm.trans hid) (by simp)
    have hborn := h.born (by rw [haborted]; simp)
    have := h.release hborn hfree hcb hc (hdone.imp_right .inl) hwhole
    rwa [hcounted] at this
  | alter s r hborn hfree hcb hc _ he hw hconn hwhole =>
    have hnot : (L.req s).counted = false := by
      by_contra hc'
      have := (h.counted s).mp (by simpa using hc')
      rw [hfree] at this
      simp at this
    -- a request that is not awaited has been served, or is excused
    have howed : r.connection = false ∨ r.written = true ∨ r.excused = true := by
      rcases h.owed s hborn with hno | hco | hwr | hex | ⟨id, hid⟩
      · exact .inl (hconn hno)
      · exact nomatch hco.symm.trans hnot
      · exact .inr (.inl (hw hwr))
      · exact .inr (.inr (he.trans hex))
      · exact nomatch hfree.symm.trans hid
    have := h.release hborn (fun id hid => absurd (hfree.symm.trans hid) (by simp)) hcb hc howed
      hwhole
    rwa [hnot] at this
  | stop =>
    exact ⟨h.unborn, h.unused, h.linked, h.named, h.counted, h.attached, h.owed, h.unflushed,
      h.used, nofun, fun _ hna => absurd rfl hna, h.whole⟩
  | stopped _ hnone =>
    refine ⟨h.unborn, h.unused, h.linked, h.named, h.counted, h.attached, h.owed, h.unflushed,
      h.used, nofun, fun _ _ id p hp => ?_, h.whole⟩
    by_contra hsome
    obtain ⟨s, hs⟩ := ne_none_iff_exists'.mp hsome
    exact hnone id ⟨p, s, hp, hs⟩
  | advance φ hphase hφ =>
    exact ⟨h.unborn, h.unused, h.linked, h.named, h.counted, h.attached, h.owed, h.unflushed,
      h.used, fun hs => absurd hs hφ.1, fun _ _ => h.ended hphase.1 hphase.2, h.whole⟩
  | _ => exact h

end Inv

def Links.Halted (L : Links) : Prop := L.phase ≠ .serving → L.stopping = true

lemma Links.Halted.move (hm : Move cap strict L L') (h : L.Halted) : L'.Halted := by
  cases hm with
  | halt => exact fun _ => rfl
  | stop _ hstop => exact fun _ => hstop
  | stopped hphase _ => exact fun _ => h (by rw [hphase]; simp)
  | advance φ hphase _ => exact fun _ => h hphase.1
  | _ => exact h

/-! ## The two queues and the history -/

/-- The bounds and the order of the queues, how entries leave, and what the ring of
closed ids holds. -/
structure Queues (cap : ℕ) (pending : ℕ → Option Pending) (next_id : ℕ) (ready closed : List ℕ)
    (hist : History) : Prop where
  ready_le : ready.length ≤ cap
  size_le : (range next_id).countP (fun id => (pending id).isSome) ≤ cap
  ordered : (hist.handed ++ ready).Pairwise (· < ·)
  below : ∀ id ∈ hist.handed ++ ready, id < next_id
  once : (hist.left.map fst).Nodup
  entered : ∀ id ∈ hist.left.map fst, 0 < id ∧ id < next_id
  gone : ∀ id, 0 < id → id < next_id →
    (id ∈ hist.left.map fst ↔ ¬ ∃ p s, pending id = some p ∧ p.http = some s)
  closes : hist.closes = (hist.left.filter fun e => e.2 = .closed).map fst
  drained : hist.drained ≤ hist.closes.length
  ring : closed = (hist.closes.drop hist.drained).drop
    (hist.closes.length - hist.drained - cap)

def Links.Queues (cap : ℕ) (L : Links) : Prop :=
  WorkerExecutor.Queues cap L.pending L.next_id L.ready L.closed L.hist

lemma ring_push (l : List α) (a : α) (cap : ℕ) :
    (l.drop (l.length - cap) ++ [a]).drop ((l.drop (l.length - cap)).length + 1 - cap)
      = (l ++ [a]).drop (l.length + 1 - cap) := by
  rw [length_drop]
  rcases lt_or_ge l.length cap with hlt | hge
  · have h0 : l.length - cap = 0 := by omega
    have h1 : l.length - 0 + 1 - cap = l.length + 1 - cap := by omega
    rw [h0, drop_zero, h1]
  · have h1 : l.length - (l.length - cap) + 1 - cap = 1 := by omega
    have h2 : l.length + 1 - cap = (l.length - cap) + 1 := by omega
    rw [h1, h2, ← drop_drop]
    have h3 : (l ++ [a]).drop (l.length - cap) = l.drop (l.length - cap) ++ [a] :=
      drop_append_of_le_length (by omega)
    rw [h3]

namespace Queues

variable {cap : ℕ} {pending : ℕ → Option Pending} {next_id : ℕ} {ready closed : List ℕ}
  {hist : History} (h : Queues cap pending next_id ready closed hist)
include h

lemma enter (hready : ready.length < cap)
    (hsize : (range next_id).countP (fun id => (pending id).isSome) < cap) {s : ℕ}
    (hs : p.http = some s) :
    Queues cap (update pending next_id (some p)) (next_id + 1) (ready ++ [next_id]) closed hist := by
  have hkept : ∀ {id}, id < next_id → update pending next_id (some p) id = pending id :=
    fun hlt => update_of_ne (ne_of_lt hlt) ..
  refine ⟨?_, ?_, ?_, ?_, h.once, ?_, ?_, h.closes, h.drained, h.ring⟩
  · rw [length_append, length_singleton]
    omega
  · rw [countP_extend Option.isSome]
    show _ + 1 ≤ cap
    omega
  · rw [← append_assoc, pairwise_append]
    refine ⟨h.ordered, pairwise_singleton .., ?_⟩
    intro id hid id' hid'
    rw [mem_singleton.mp hid']
    exact h.below id hid
  · intro id hid
    rw [← append_assoc, mem_append, mem_singleton] at hid
    rcases hid with hid | rfl
    · exact Nat.lt_succ_of_lt (h.below id hid)
    · exact Nat.lt_succ_self _
  · intro id hid
    have := h.entered id hid
    omega
  · intro id hpos hid
    rcases eq_or_ne id next_id with rfl | hne
    · have hout : id ∉ hist.left.map fst := fun hin => absurd (h.entered id hin).2 (by omega)
      refine iff_of_false hout (fun hnot => hnot ⟨p, s, update_self .., hs⟩)
    · rw [hkept (by omega)]
      exact h.gone id hpos (by omega)

lemma let_go {q : Option Pending} (how : Leave) (hused : 0 < id ∧ id < next_id)
    (hp : pending id = some p) (hs : p.http = some s) (hq : ∀ p', q = some p' → p'.http = none) :
    Queues cap (update pending id q) next_id ready
      (if how = .closed then (closed ++ [id]).drop (closed.length + 1 - cap) else closed)
      { hist with
        left := hist.left ++ [(id, how)]
        closes := if how = .closed then hist.closes ++ [id] else hist.closes } := by
  have hkept : ∀ {id'}, id' ≠ id → update pending id q id' = pending id' :=
    fun hne => update_of_ne hne ..
  have hnot : id ∉ hist.left.map fst := fun hin =>
    (h.gone id hused.1 hused.2).mp hin ⟨p, s, hp, hs⟩
  have hids : (hist.left ++ [(id, how)]).map fst = hist.left.map fst ++ [id] := by
    rw [map_append]
    rfl
  refine ⟨h.ready_le, ?_, h.ordered, h.below, ?_, ?_, ?_, ?_, ?_, ?_⟩
  · -- the table does not grow
    refine le_trans (countP_mono_left ?_) h.size_le
    intro id' _ hsome
    rcases eq_or_ne id' id with rfl | hne
    · rw [hp]
      rfl
    · rwa [hkept hne] at hsome
  · rw [hids, nodup_append]
    refine ⟨h.once, by simp, ?_⟩
    rintro id' hid' _ hmem rfl
    rw [mem_singleton.mp hmem] at hid'
    exact hnot hid'
  · -- who has left is who had an id and is not in the table
    intro id' hid'
    rw [hids, mem_append, mem_singleton] at hid'
    rcases hid' with hid' | rfl
    · exact h.entered id' hid'
    · exact hused
  · intro id' hpos hlt
    rw [hids, mem_append, mem_singleton]
    rcases eq_or_ne id' id with rfl | hne
    · refine iff_of_true (.inr rfl) ?_
      rintro ⟨p', s', hp', hs'⟩
      rw [update_self] at hp'
      rw [hq p' hp'] at hs'
      simp at hs'
    · rw [hkept hne, ← h.gone id' hpos hlt]
      exact or_iff_left hne
  · show (if how = .closed then hist.closes ++ [id] else hist.closes) = _
    rw [filter_append, map_append, ← h.closes]
    by_cases hc : how = .closed <;> simp [hc]
  · show hist.drained ≤ (if how = .closed then hist.closes ++ [id] else hist.closes).length
    have := h.drained
    split
    · rw [length_append]
      omega
    · exact this
  · -- the ring keeps the last `cap` of the closes that were not drained
    show (if how = .closed then (closed ++ [id]).drop (closed.length + 1 - cap) else closed)
      = ((if how = .closed then hist.closes ++ [id] else hist.closes).drop hist.drained).drop
        ((if how = .closed then hist.closes ++ [id] else hist.closes).length - hist.drained - cap)
    by_cases hc : how = .closed
    · have hlen : (hist.closes.drop hist.drained).length = hist.closes.length - hist.drained :=
        length_drop ..
      rw [if_pos hc, if_pos hc, h.ring, ← hlen, ring_push,
        drop_append_of_le_length h.drained, hlen, length_append, length_singleton]
      have := h.drained
      congr 1
      omega
    · rw [if_neg hc, if_neg hc]
      exact h.ring

lemma update_entry {p p' : Pending} (hp : pending id = some p) (hs : p.http = some s)
    (hs' : p'.http = some s) :
    Queues cap (update pending id (some p')) next_id ready closed hist := by
  have hkept : ∀ {id'}, id' ≠ id → update pending id (some p') id' = pending id' :=
    fun hne => update_of_ne hne ..
  refine ⟨h.ready_le, ?_, h.ordered, h.below, h.once, h.entered, ?_, h.closes, h.drained, h.ring⟩
  · refine le_trans (countP_mono_left ?_) h.size_le
    intro id' _ hsome
    rcases eq_or_ne id' id with rfl | hne
    · rw [hp]
      rfl
    · rwa [hkept hne] at hsome
  · intro id' hpos hlt
    rcases eq_or_ne id' id with rfl | hne
    · rw [h.gone id' hpos hlt]
      refine not_congr (iff_of_true ⟨p, s, hp, hs⟩ ⟨p', s, update_self .., hs'⟩)
    · rw [hkept hne]
      exact h.gone id' hpos hlt

omit h in
lemma move (hm : Move cap strict L L') (hi : L.Inv) (h : L.Queues cap) : L'.Queues cap := by
  cases hm with
  | enter now _ hready hsize => exact h.enter hready hsize rfl
  | let_go id s p q r how hp hs hr hq _ =>
    exact h.let_go how (hi.id_used hp) hp hs (let_go_dead hq)
  | start id s p hp hs _ | touch id s p hp hs b => exact h.update_entry hp hs hs
  | skip id rest hready =>
    have hsub : (L.hist.handed ++ rest).Sublist (L.hist.handed ++ L.ready) := by
      rw [hready]
      exact (sublist_cons_self id rest).append_left _
    have hlen : rest.length + 1 ≤ cap := by
      have := h.ready_le
      rwa [hready] at this
    exact ⟨Nat.le_of_succ_le hlen, h.size_le, h.ordered.sublist hsub,
      fun id' hid' => h.below id' (hsub.subset hid'), h.once, h.entered, h.gone, h.closes,
      h.drained, h.ring⟩
  | hand id rest hready _ =>
    have hsame : (L.hist.handed ++ [id]) ++ rest = L.hist.handed ++ L.ready := by
      rw [hready, append_assoc]
      rfl
    have hlen : rest.length + 1 ≤ cap := by
      have := h.ready_le
      rwa [hready] at this
    refine ⟨Nat.le_of_succ_le hlen, h.size_le, ?_, ?_, h.once, h.entered, h.gone, h.closes,
      h.drained, h.ring⟩
    · exact hsame ▸ h.ordered
    · exact hsame ▸ h.below
  | drain =>
    refine ⟨h.ready_le, h.size_le, h.ordered, h.below, h.once, h.entered, h.gone, h.closes,
      le_rfl, ?_⟩
    rw [drop_length, drop_nil]
  | _ => exact h

end Queues

/-! ## Heads -/

/-- A request in the table has a head exactly if its stream was started, and no request
has two. -/
structure Heads (req : ℕ → Req) (pending : ℕ → Option Pending) : Prop where
  linked : ∀ id p s, pending id = some p → p.http = some s → (req s).heads = p.streaming.toNat
  one : ∀ s, (req s).heads ≤ 1

lemma Heads.set {req : ℕ → Req} {pending pending' : ℕ → Option Pending} (h : Heads req pending)
    (hone : r.heads ≤ 1)
    (hother : OthersStay s pending pending')
    (hself : ∀ id p, pending' id = some p → p.http = some s → r.heads = p.streaming.toNat) :
    Heads (update req s r) pending' := by
  refine ⟨?_, (forall_update_iff req fun _ r => r.heads ≤ 1).mpr ⟨hone, fun t _ => h.one t⟩⟩
  intro id p t hp ht
  rcases eq_or_ne t s with rfl | hts
  · rw [update_self]
    exact hself id p hp ht
  · rw [update_of_ne hts]
    exact h.linked id p t ((hother id p t hts ht).mp hp) ht

lemma Heads.move (hm : Move cap True L L') (hi : L.Inv) (h : Heads L.req L.pending) :
    Heads L'.req L'.pending := by
  -- moves that send no head
  have hsame : ∀ {s : ℕ} {r : Req}, r.heads = (L.req s).heads →
      Heads (update L.req s r) L.pending := fun {s _} hr =>
    h.set (hr ▸ h.one s) .refl fun id p hp hs => hr.trans (h.linked id p s hp hs)
  cases hm with
  | arrive r _ _ hh =>
    refine h.set (le_of_eq hh) .refl ?_
    intro id p hp hs
    exact absurd (hi.entry_born hp hs) (Nat.lt_irrefl _)
  | enter now _ _ _ =>
    refine h.set (Nat.zero_le 1) (hi.enter_stays now) ?_
    intro id p hp hs
    obtain ⟨-, rfl⟩ := hi.enter_self hp hs
    rfl
  | let_go id s p q r how hp hs _ hq hh =>
    have hdead := let_go_dead hq
    refine h.set ?_ (Inv.entry_stays hp hs ?_) ?_
    · -- a final reply may bring a head only if none was sent for a stream
      rcases hh with hh | ⟨hh, hstream⟩
      · rw [hh]
        exact h.one s
      · rw [hh, h.linked id p s hp hs, hstream trivial]
        exact le_refl 1
    · intro p' t hp' ht
      simp [hdead p' hp'] at ht
    · intro id' p' hp' ht
      simp [hdead p' (hi.entry_self hp hs hp' ht)] at ht
  | start id s p hp hs hstream =>
    have hzero : (L.req s).heads = 0 := by
      rw [h.linked id p s hp hs, hstream trivial]
      rfl
    refine h.set (by simp [hzero]) (Inv.entry_stays hp hs ?_) ?_
    · rintro _ t ⟨⟩ ht
      exact some.inj (ht.symm.trans hs)
    · intro id' p' hp' ht
      cases hi.entry_self hp hs hp' ht
      simp [hzero]
  | touch id s p hp hs b =>
    have hkept := h.set (h.one s) (Inv.entry_stays hp hs (q := some { p with backpressured := b }) ?_) ?_
    · rwa [Function.update_eq_self] at hkept
    · rintro _ t ⟨⟩ ht
      exact some.inj (ht.symm.trans hs)
    · intro id' p' hp' ht
      cases hi.entry_self hp hs hp' ht
      exact h.linked id p s hp hs
  | settle s r _ _ _ _ hh _ | alter s r _ _ _ _ hh _ _ _ => exact hsame hh
  | _ => exact h

end FpmNg.WorkerExecutor
