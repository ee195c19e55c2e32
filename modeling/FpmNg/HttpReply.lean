/-
One request and the reply its HTTP target sends: the read callback
`fpm_http_http_readcb` of `fpm_http_client.c` over the reader, with the request's
client on the other side and nothing waiting for the connection.

What every read of a reply does is said in terms of the bytes alone (`Going.read`): the
reader comes to the verdict of the one-byte view, or a limit was hit where that view
would have gone on, because the read ends inside a head of more than 256 KiB or inside a
chunk-size line of more than 16 KiB.

The result is that the reads do not show. For every reply, or any prefix of one,
the client sees and the connection suffers the same whether the bytes come in one
read or in many.
-/
import FpmNg.HttpFraming
import Mathlib.Data.List.Induction

open ByteScan WhileLoop Bool
open FpmNg.Reply

namespace FpmNg.HttpReply

open HttpState Conn

/-! ## The exchange -/

inductive Status where
  | waiting
  | completed
  | failed
  | switched
  deriving DecidableEq

/-- The request an upstream serves. `current` is the upstream's pointer to it,
`dropped` is the end of the connection. -/
structure Exchange where
  conn : Conn
  current : Bool
  status : Status
  dropped : Bool

namespace Exchange

def sent (c : Conn) : Exchange :=
  { conn := c, current := true, status := .waiting, dropped := false }

/-- `fpm_http_upstream_fail`. -/
def fail (e : Exchange) : Exchange :=
  if e.current then
    { conn := fail_request e.conn, current := false, status := .failed, dropped := true }
  else { e with dropped := true }

/-- `fpm_http_http_complete`. -/
def complete (e : Exchange) (expect_eof : Bool) : Exchange :=
  { conn := fpm_http_finish e.conn, current := false, status := .completed, dropped := expect_eof }

def start (e : Exchange) (block : Bytes) : Exchange :=
  { e with
    conn := fpm_http_start_reply { e.conn with cgi_headers := some block } block.length
      block.length }

/-- `fpm_http_gw_ws_start`, which can only fail for memory. -/
def switch (e : Exchange) : Exchange :=
  let e' := { e with conn := e.conn.alloc.2 }
  if e.conn.alloc.1 then { e' with current := false, status := .switched, dropped := true }
  else e'.fail

end Exchange

def exchange_ops : HttpOps Exchange UInt8 where
  current := fun e => e.current
  is_head := fun e => e.conn.is_head
  upgrading := fun e => e.conn.upgrading
  start := fun e block _ => e.start block
  alloc := fun e => (e.conn.alloc.1, { e with conn := e.conn.alloc.2 })
  stdout := fun e data => { e with conn := fpm_http_stdout e.conn data }
  complete := Exchange.complete
  fail := Exchange.fail
  switch := fun e _ _ => e.switch
  dead := fun e => e.dropped

structure Side where
  request : Exchange
  http : HttpState UInt8

/-- `fpm_http_http_readcb` with bytes. A connection that is gone is not read. -/
def on_read (s : Side) (buf : Bytes) : Side :=
  if s.request.dropped then s
  else
    let d := fpm_http_http_data id exchange_ops s.request s.http buf
    { request := d.st, http := d.http }

/-- `fpm_http_http_readcb` at the end of the connection. -/
def on_eof (s : Side) : Side :=
  if s.request.dropped then s
  else if s.request.current ∧ s.http.head_done ∧ s.http.body = .EOF then
    { request := s.request.complete s.http.expect_eof, http := reset }
  else { s with request := s.request.fail }

def read_reply (c : Conn) (pieces : List Bytes) (eof : Bool) : Exchange :=
  let s := pieces.foldl on_read
    { request := Exchange.sent c, http := reset }
  if eof then (on_eof s).request else s.request

lemma exchange_quiet : exchange_ops.Quiet where
  start := fun _ _ _ => rfl
  alloc := fun _ => rfl
  stdout := fun _ _ => rfl
  spent := fun _ => rfl

/-! ## What is called

A reply that has started and never lacked memory stays that way. -/

structure Flowing (c : Conn) : Prop where
  mem : c.mem = []
  headers_sent : c.headers_sent = true

variable {c : Conn}

lemma flowing_start_reply (hm : c.mem = []) (n k : ℕ) : Flowing (fpm_http_start_reply c n k) := by
  have hsame := scan_block_same { c with cgi_headers := none } ((c.cgi_headers.getD []).take n)
  have hmem := hsame.mem hm
  unfold fpm_http_start_reply
  dsimp only
  generalize scan_block { c with cgi_headers := none } ((c.cgi_headers.getD []).take n) = s at hmem ⊢
  have hopen : Flowing (open_reply s) :=
    ⟨(open_reply_frame s).1.trans hmem, open_reply_headers_sent s⟩
  split
  · exact ⟨reject_reply_mem hmem, rfl⟩
  split
  · rw [response_chunk_of_mem hopen.mem]
    split
    · exact hopen
    · exact ⟨hopen.mem, hopen.headers_sent⟩
  · exact hopen

variable {e : Exchange}

lemma flowing_start (hm : e.conn.mem = []) (block : Bytes) : Flowing (e.start block).conn :=
  flowing_start_reply (c := { e.conn with cgi_headers := some block }) hm _ _

lemma stdout_mem (hm : c.mem = []) (data : Bytes) : (fpm_http_stdout c data).mem = [] := by
  unfold fpm_http_stdout
  split
  · exact hm
  split
  · rw [response_chunk_of_mem hm]
    split <;> exact hm
  dsimp only
  split
  · exact (flowing_start_reply (by exact hm) _ _).mem
  split
  · exact (flowing_start_reply (by exact hm) _ _).mem
  · exact hm

structure SameExchange (e e' : Exchange) : Prop where
  current : e'.current = e.current
  dropped : e'.dropped = e.dropped
  request : SameRequest e.conn e'.conn
  mem : e.conn.mem = [] → e'.conn.mem = []

lemma fail_dropped (e : Exchange) : e.fail.dropped = true := by
  unfold Exchange.fail
  split <;> rfl

lemma fail_current (e : Exchange) : e.fail.current = false := by
  unfold Exchange.fail
  by_cases hc : e.current = true
  · rw [if_pos hc]
  · rw [if_neg hc]
    exact not_eq_true _ ▸ hc

lemma switch_dropped (e : Exchange) : e.switch.dropped = true := by
  unfold Exchange.switch
  split
  · rfl
  · exact fail_dropped _

lemma switch_current (e : Exchange) : e.switch.current = false := by
  unfold Exchange.switch
  split
  · rfl
  · exact fail_current _

/-! ## Reads of a reply

`Going c s p` is a reader that has read `p` and waits for more. A read takes it on, or
ends the reply: with the verdict of the one-byte view, for a limit, or because there was
no memory for the bytes behind a final head. -/

abbrev stream (c : Conn) (p : Bytes) : Result UInt8 :=
  http_run id ⟨c.is_head, c.upgrading⟩ (.head []) p

def reads (c : Conn) (pieces : List Bytes) : Side :=
  pieces.foldl on_read { request := Exchange.sent c, http := reset }

def Called (c : Conn) (p : Bytes) (e : Exchange) : Prop :=
  ∃ calls : List (Call UInt8), calls.flatMap Call.acts = (stream c p).acts
    ∧ e = calls.foldl (Call.apply exchange_ops) (Exchange.sent c)

structure Going (c : Conn) (s : Side) (p : Bytes) : Prop where
  called : Called c p s.request
  phase : s.http.phase = (stream c p).phase
  ready : s.http.Ready id
  more : (stream c p).verdict = .more

/-- A reply that ended behind `p` with this verdict. -/
def Concluded (c : Conn) (p : Bytes) (v : Verdict) (e : Exchange) : Prop :=
  ∃ e', Called c p e'
    ∧ e = exchange_ops.conclude e' (stream c p).phase (stream c p).rest v

/-- A reply that ended because the bytes behind its final head could not be copied. -/
def NoMemory (c : Conn) (e : Exchange) : Prop :=
  ∃ (p : Bytes) (calls : List (Call UInt8)) (e' : Exchange),
    calls.flatMap Call.acts <+: (stream c p).acts
    ∧ e' = calls.foldl (Call.apply exchange_ops) (Exchange.sent c) ∧ e'.conn.alloc.1 = false
    ∧ e = { e' with conn := e'.conn.alloc.2 : Exchange }.fail

variable {s : Side} {p q : Bytes}

variable (calls : List (Call UInt8))

lemma calls_same (e : Exchange) :
    SameExchange e (calls.foldl (Call.apply exchange_ops) e) := by
  induction calls generalizing e with
  | nil => exact ⟨rfl, rfl, ⟨rfl, rfl⟩, id⟩
  | cons call calls ih =>
    have hone : SameExchange e (Call.apply exchange_ops e call) := by
      cases call with
      | start block head =>
        exact ⟨rfl, rfl, (collect_request e.conn (some block)).trans (start_reply_request _ _ _),
          fun h => (flowing_start h block).mem⟩
      | alloc => exact ⟨rfl, rfl, (alloc_same e.conn).request, (alloc_same e.conn).mem⟩
      | stdout data _ => exact ⟨rfl, rfl, stdout_request _ _, fun h => stdout_mem h data⟩
    have hrest := ih (Call.apply exchange_ops e call)
    exact ⟨hrest.current.trans hone.current, hrest.dropped.trans hone.dropped,
      hone.request.trans hrest.request, fun h => hrest.mem (hone.mem h)⟩

lemma Called.same (h : Called c p e) : SameExchange (Exchange.sent c) e := by
  obtain ⟨calls, -, rfl⟩ := h
  exact calls_same calls _

lemma NoMemory.mem (h : NoMemory c e) : c.mem ≠ [] := by
  intro hm
  obtain ⟨-, calls, e', -, rfl, hno, -⟩ := h
  have hmem := (calls_same calls (Exchange.sent c)).mem hm
  unfold alloc at hno
  rw [hmem] at hno
  exact nomatch hno

lemma stream_append (c : Conn) (p q : Bytes) :
    stream c (p ++ q) = (stream c p).andThen id ⟨c.is_head, c.upgrading⟩ q := http_run_append ..

lemma going_start (c : Conn) : Going c (reads c []) [] where
  called := ⟨[], rfl, rfl⟩
  phase := rfl
  ready := (ready_of_waiting rfl).mpr ⟨⟨⟨rfl, rfl, rfl, rfl⟩, rfl, rfl, rfl⟩, Nat.zero_le _⟩
  more := rfl

lemma Going.on_read_eq (h : Going c s p) :
    on_read s q = ⟨(fpm_http_http_data id exchange_ops s.request s.http q).st,
      (fpm_http_http_data id exchange_ops s.request s.http q).http⟩ := by
  unfold on_read
  rw [if_neg (by rw [h.called.same.dropped]; exact false_ne_true)]

theorem Going.read (h : Going c s p) (hq : q ≠ []) :
    ((stream c (p ++ q)).verdict = .more ∧ ¬ (stream c (p ++ q)).phase.overlong
        ∧ Going c (on_read s q) (p ++ q))
      ∨ ((stream c (p ++ q)).verdict = .more ∧ (stream c (p ++ q)).phase.overlong
        ∧ Concluded c (p ++ q) .fail (on_read s q).request) ∨ ((stream c (p ++ q)).verdict ≠ .more
        ∧ Concluded c (p ++ q) (stream c (p ++ q)).verdict (on_read s q).request)
      ∨ NoMemory c (on_read s q).request := by
  have hsame := h.called.same
  have hmode : (⟨c.is_head, c.upgrading⟩ : Mode)
      = ⟨exchange_ops.is_head s.request, exchange_ops.upgrading s.request⟩ :=
    congrArg₂ Mode.mk hsame.request.is_head.symm hsame.request.upgrading.symm
  have hrun := http_data_run exchange_quiet hsame.current hsame.dropped h.ready hq hmode
  obtain ⟨before, hbefore, hreq⟩ := h.called
  -- the reader's phase is that of the stream, so this read continues it
  have hwhole : stream c (p ++ q) = { http_run id ⟨c.is_head, c.upgrading⟩ s.http.phase q with
      acts := (stream c p).acts ++ (http_run id ⟨c.is_head, c.upgrading⟩ s.http.phase q).acts } := by
    rw [stream_append, h.phase]
    unfold Result.andThen
    rw [if_pos h.more]
  rw [h.on_read_eq]
  generalize fpm_http_http_data id exchange_ops s.request s.http q = d at hrun ⊢
  generalize http_run id ⟨c.is_head, c.upgrading⟩ s.http.phase q = r at hrun hwhole
  rcases hrun with ⟨calls, v, ph, rest, hst, hnext, hacts, hagree⟩ | ⟨block, head, more, hacts, hno, hst⟩
  · -- what was called before and what was called now
    have hcalled : Called c (p ++ q) (calls.foldl (Call.apply exchange_ops) s.request) := by
      refine ⟨before ++ calls, ?_, ?_⟩
      · rw [hwhole, List.flatMap_append, hbefore, hacts]
      · rw [List.foldl_append, ← hreq]
    have hverdict : (stream c (p ++ q)).verdict = r.verdict := by rw [hwhole]
    have hphase : (stream c (p ++ q)).phase = r.phase := by rw [hwhole]
    have hrest : (stream c (p ++ q)).rest = r.rest := by rw [hwhole]
    rw [hverdict, hphase]
    -- the source agrees with the machine, or gives up a line it found too long
    rcases hagree with ⟨hv, heq⟩ | ⟨hv, hmore, hlong⟩
    · by_cases hmore : r.verdict = .more
      · obtain ⟨hp, hready⟩ := hnext (hv.trans hmore)
        have hph : ph = r.phase := by
          rcases heq with hfail | ⟨hph, -⟩
          · exact absurd (hfail.symm.trans (hv.trans hmore)) (by decide)
          · exact hph
        have hst' : d.st = calls.foldl (Call.apply exchange_ops) s.request := by
          rw [hst, hv, hmore]
          rfl
        have hshort : ¬ r.phase.overlong := by
          rw [← hph, ← hp]
          exact hready.short
        refine .inl ⟨hmore, hshort, ?_, ?_, hready, ?_⟩
        · rw [hst']
          exact hcalled
        · rw [hphase]
          exact hp.trans hph
        · rw [hverdict]
          exact hmore
      · refine .inr (.inr (.inl ⟨hmore, _, hcalled, ?_⟩))
        rw [hst, hv, hrest, hphase]
        rcases heq with hfail | ⟨hph, hr⟩
        · rw [← hv, hfail]
          rfl
        · rw [hph, hr]
    · refine .inr (.inl ⟨hmore, hlong, _, hcalled, ?_⟩)
      rw [hst, hv]
      rfl
  · refine .inr (.inr (.inr ⟨p ++ q, before ++ [.start block head], _, ?_, rfl, ?_, ?_⟩))
    · rw [hwhole, List.flatMap_append, hbefore, hacts]
      exact ⟨more, by simp [Call.acts]⟩
    · rw [List.foldl_append, ← hreq]
      exact hno
    · rw [List.foldl_append, ← hreq]
      exact hst

lemma Concluded.over {v : Verdict} (h : Concluded c p v e) (hv : v ≠ .more) :
    e.current = false := by
  obtain ⟨e', -, rfl⟩ := h
  cases v with
  | more => exact absurd rfl hv
  | complete => rfl
  | fail => exact fail_current e'
  | switch => exact switch_current e'

lemma Exchange.fail_status (h : e.current = true) : e.fail.status = .failed := by
  unfold Exchange.fail
  rw [if_pos h]

lemma Concluded.failed (h : Concluded c p .fail e) : e.status = .failed := by
  obtain ⟨e', hcalled, rfl⟩ := h
  exact Exchange.fail_status hcalled.same.current

lemma Concluded.dropped (h : Concluded c p .fail e) : e.dropped = true := by
  obtain ⟨e', -, rfl⟩ := h
  exact fail_dropped e'

lemma NoMemory.failed (h : NoMemory c e) : e.current = false ∧ e.status = .failed := by
  obtain ⟨-, calls, e', -, rfl, -, rfl⟩ := h
  exact ⟨fail_current _, Exchange.fail_status (calls_same calls _).current⟩

lemma NoMemory.dropped (h : NoMemory c e) : e.dropped = true := by
  obtain ⟨-, -, e', -, -, -, rfl⟩ := h
  exact fail_dropped _

lemma reads_dropped (h : s.request.dropped = true) (pieces : List Bytes) :
    pieces.foldl on_read s = s := by
  have hsame : ∀ q, on_read s q = s := by
    intro q
    unfold on_read
    rw [if_pos h]
  induction pieces with
  | nil => rfl
  | cons q pieces ih => rw [List.foldl_cons, hsame, ih]

lemma on_read_over (h : s.request.current = false) (q : Bytes) :
    (on_read s q).request = { s.request with dropped := (on_read s q).request.dropped } := by
  unfold on_read
  split
  · rfl
  · show (fpm_http_http_data id exchange_ops s.request s.http q).st = _
    unfold fpm_http_http_data loop
    rw [iter]
    unfold http_pass
    by_cases hq : q = []
    · rw [if_pos hq]
    · have hcur : (!exchange_ops.current s.request) = true := by
        show (!s.request.current) = true
        rw [h]
        rfl
      rw [if_neg hq, if_pos hcur]
      show s.request.fail = { s.request with dropped := s.request.fail.dropped }
      unfold Exchange.fail
      rw [if_neg (by simp [h])]

lemma reads_concat (c : Conn) (pieces : List Bytes) (q : Bytes) :
    reads c (pieces ++ [q]) = on_read (reads c pieces) q := by
  unfold reads
  rw [List.foldl_append]
  rfl

theorem going_of_current (pieces : List Bytes) (hne : ∀ q ∈ pieces, q ≠ [])
    (h : (reads c pieces).request.current = true) : Going c (reads c pieces) pieces.flatten := by
  induction pieces using List.reverseRecOn with
  | nil => exact going_start c
  | append_singleton pieces q ih =>
    rw [reads_concat] at h ⊢
    have hbefore : (reads c pieces).request.current = true := by
      by_contra hno
      rw [not_eq_true] at hno
      rw [on_read_over hno q] at h
      exact nomatch hno.symm.trans h
    have hgoing := ih (fun x hx => hne x (by simp [hx])) hbefore
    rw [List.flatten_append, List.flatten_singleton]
    rcases hgoing.read (hne q (by simp)) with ⟨-, -, hnext⟩ | ⟨-, -, hend⟩ | ⟨hv, hend⟩ | hno
    · exact hnext
    · exact absurd ((hend.over (by decide)).symm.trans h) (by decide)
    · exact absurd ((hend.over hv).symm.trans h) (by decide)
    · exact nomatch hno.failed.1.symm.trans h

/-! ## Acts in place of calls -/

def say (e : Exchange) : Act UInt8 → Exchange
  | .start block _ => e.start block
  | .byte b => { e with conn := fpm_http_stdout e.conn [b] }

lemma Flowing.stdout (h : Flowing c) (data : Bytes) : Flowing (fpm_http_stdout c data) := by
  unfold fpm_http_stdout
  split
  · exact h
  · rw [if_pos h.headers_sent, response_chunk_of_mem h.mem]
    split
    · exact h
    · exact ⟨h.mem, h.headers_sent⟩

lemma Flowing.stdout_nil (h : Flowing c) : fpm_http_stdout c [] = c := by
  unfold fpm_http_stdout
  split
  · rfl
  · rw [if_pos h.headers_sent, response_chunk_nil h.mem]

lemma stdout_bytes (h : Flowing e.conn) (data : Bytes) :
    (data.map Act.byte).foldl say e = { e with conn := fpm_http_stdout e.conn data } := by
  induction data generalizing e with
  | nil =>
    rw [h.stdout_nil]
    rfl
  | cons b data ih =>
    rw [List.map_cons, List.foldl_cons, ih (h.stdout [b])]
    dsimp [say]
    rw [stdout_append_sent h.headers_sent h.mem]
    rfl

lemma calls_flowing (h : Flowing e.conn) :
    calls.foldl (Call.apply exchange_ops) e = (calls.flatMap Call.acts).foldl say e := by
  induction calls generalizing e with
  | nil => rfl
  | cons call calls ih =>
    rw [List.foldl_cons, List.flatMap_cons, List.foldl_append]
    cases call with
    | start block head => exact ih (flowing_start h.mem block)
    | alloc =>
      have hsame : Call.apply exchange_ops e .alloc = e := by
        show ({ e with conn := e.conn.alloc.2 } : Exchange) = e
        unfold alloc
        rw [h.mem]
      rw [hsame]
      exact ih h
    | stdout data hne =>
      show calls.foldl (Call.apply exchange_ops) _ = (calls.flatMap Call.acts).foldl say
        ((data.map Act.byte).foldl say e)
      rw [stdout_bytes h data]
      exact ih (h.stdout data)

def StartsFirst : List (Act UInt8) → Prop
  | .byte _ :: _ => False
  | _ => True

lemma calls_fresh (hm : e.conn.mem = [])
    (h : StartsFirst (calls.flatMap Call.acts)) :
    calls.foldl (Call.apply exchange_ops) e = (calls.flatMap Call.acts).foldl say e := by
  induction calls with
  | nil => rfl
  | cons call calls ih =>
    rw [List.foldl_cons, List.flatMap_cons, List.foldl_append]
    cases call with
    | start block head => exact calls_flowing calls (flowing_start hm block)
    | alloc =>
      have hsame : Call.apply exchange_ops e .alloc = e := by
        show ({ e with conn := e.conn.alloc.2 } : Exchange) = e
        unfold alloc
        rw [hm]
      rw [hsame]
      exact ih h
    | stdout data hne =>
      obtain ⟨b, data, rfl⟩ := List.exists_cons_of_ne_nil hne
      exact h.elim

lemma http_run_head_starts (mode : Mode) (l x : Bytes) :
    StartsFirst (http_run id mode (.head l) x).acts := by
  induction x generalizing l with
  | nil => trivial
  | cons b x ih =>
    rcases http_byte_head l b with ⟨l', v, hb⟩ | ⟨block, framing, e, hb⟩
    · by_cases hv : v = .more
      · subst hv
        rw [http_run_cons_more hb]
        exact ih l'
      · rw [http_run_cons_stop hb hv]
        trivial
    · rw [http_run]
      rw [hb]
      split <;> trivial

/-! ## What a stream comes to -/

/-- The exchange after a stream of which the machine says `r`. -/
def outcome (c : Conn) (r : Result UInt8) : Exchange :=
  exchange_ops.conclude (r.acts.foldl say (Exchange.sent c)) r.phase r.rest r.verdict

def closed (c : Conn) (r : Result UInt8) : Exchange :=
  let e := outcome c r
  if e.dropped then e
  else if e.current ∧ r.phase.until_close then e.complete r.phase.expect_eof
  else e.fail

variable {r : Result UInt8}

lemma outcome_more (h : r.verdict = .more) :
    outcome c r = r.acts.foldl say (Exchange.sent c) := by
  unfold outcome
  rw [h]
  rfl

/-- A verdict other than completion ends the connection, and what comes behind it is
not looked at. -/
lemma outcome_final (h : r.verdict = .fail ∨ r.verdict = .switch) (rest : Bytes) :
    (outcome c r).dropped = true ∧ outcome c { r with rest := rest } = outcome c r := by
  unfold outcome
  rcases h with h | h
  · rw [h]
    exact ⟨fail_dropped _, rfl⟩
  · rw [h]
    exact ⟨switch_dropped _, rfl⟩

lemma outcome_current (h : r.verdict ≠ .more) : (outcome c r).current = false := by
  unfold outcome
  cases hv : r.verdict with
  | more => exact absurd hv h
  | complete => rfl
  | fail => exact fail_current _
  | switch => exact switch_current _

lemma Called.said (hm : c.mem = []) (h : Called c p e) :
    e = (stream c p).acts.foldl say (Exchange.sent c) := by
  obtain ⟨calls, hacts, rfl⟩ := h
  rw [← hacts]
  refine calls_fresh calls hm ?_
  rw [hacts]
  exact http_run_head_starts _ [] p

/-- **Any reads** of a reply: the reader waits for more, or the exchange is what the stream
comes to. -/
theorem reads_outcome (hm : c.mem = []) (pieces : List Bytes) (hne : ∀ q ∈ pieces, q ≠ [])
    (hends : Ends ⟨c.is_head, c.upgrading⟩ (.head []) pieces.flatten) :
    Going c (reads c pieces) pieces.flatten ∨ ((stream c pieces.flatten).verdict ≠ .more
        ∧ (reads c pieces).request = outcome c (stream c pieces.flatten)) := by
  induction pieces using List.reverseRecOn with
  | nil => exact .inl (going_start c)
  | append_singleton pieces q ih =>
    rw [List.flatten_append, List.flatten_singleton] at hends ⊢
    rw [reads_concat]
    have hq : q ≠ [] := hne q (by simp)
    rcases ih (fun x hx => hne x (by simp [hx])) (hends.shorten (List.prefix_append _ _)) with
      hgo | ⟨hmore, hreq⟩
    · rcases hgo.read hq with ⟨-, -, hnext⟩ | ⟨hv, hlong, -⟩ | ⟨hv, e', hcalled, hend⟩ | hno
      · exact .inl hnext
      · -- a reply that ends has no line above the limit
        exact absurd ⟨hv, hlong⟩ (hends.cut _ [] (List.append_nil _).symm).2
      · refine .inr ⟨hv, hend.trans ?_⟩
        rw [hcalled.said hm]
        rfl
      · exact absurd hm hno.mem
    · -- a verdict that leaves bytes unread has ended the connection
      have hfinal : (stream c pieces.flatten).verdict = .fail
          ∨ (stream c pieces.flatten).verdict = .switch := by
        cases hcase : (stream c pieces.flatten).verdict with
        | more => exact absurd hcase hmore
        | complete => exact absurd ((hends.cut _ q rfl).1 hcase) hq
        | fail => exact .inl rfl
        | switch => exact .inr rfl
      have hbehind : stream c (pieces.flatten ++ q)
          = { stream c pieces.flatten with rest := (stream c pieces.flatten).rest ++ q } := by
        rw [stream_append]
        unfold Result.andThen
        rw [if_neg hmore]
      obtain ⟨hdrop, hsame⟩ := outcome_final hfinal ((stream c pieces.flatten).rest ++ q)
      rw [hbehind, hsame]
      refine .inr ⟨hmore, ?_⟩
      unfold on_read
      rw [if_pos (by rw [hreq]; exact hdrop)]
      exact hreq

theorem Going.eof (hm : c.mem = []) (h : Going c s p) : (on_eof s).request = closed c (stream c p) := by
  have hreq : s.request = outcome c (stream c p) :=
    (h.called.said hm).trans (outcome_more h.more).symm
  have hphase := h.phase
  unfold on_eof closed
  rw [← hreq]
  have hlive : ¬ s.request.dropped = true := by
    rw [h.called.same.dropped]
    exact false_ne_true
  rw [if_neg hlive, if_neg hlive]
  cases hdone : s.http.head_done with
  | true =>
    rw [phase_of_done hdone] at hphase
    have huntil : (stream c p).phase.until_close = true ↔ s.http.body = .EOF := by
      rw [← hphase]
      unfold in_body
      cases s.http.body <;> simp [Phase.until_close]
    have heof : (stream c p).phase.expect_eof = s.http.expect_eof := by rw [← hphase]; rfl
    by_cases hall : s.request.current = true ∧ s.http.body = .EOF
    · rw [if_pos ⟨hall.1, rfl, hall.2⟩, if_pos ⟨hall.1, huntil.mpr hall.2⟩, heof]
    · rw [if_neg (fun hc => hall ⟨hc.1, hc.2.2⟩), if_neg (fun hc => hall ⟨hc.1, huntil.mp hc.2⟩)]
  | false =>
    rw [phase_of_waiting hdone] at hphase
    rw [if_neg (fun hc => nomatch hc.2.1),
      if_neg (fun hc => by rw [← hphase] at hc; exact nomatch hc.2)]

lemma eof_over (h : r.verdict ≠ .more) (hreq : s.request = outcome c r) :
    (on_eof s).request = closed c r := by
  have hcur := outcome_current (c := c) h
  unfold on_eof closed
  rw [hreq]
  by_cases hdrop : (outcome c r).dropped = true
  · rw [if_pos hdrop, if_pos hdrop]
    exact hreq
  · rw [if_neg hdrop, if_neg hdrop, if_neg (fun hc => by rw [hcur] at hc; exact nomatch hc.1),
      if_neg (fun hc => by rw [hcur] at hc; exact nomatch hc.1)]

lemma read_reply_eq (hm : c.mem = []) {b : Bytes}
    (hends : Ends ⟨c.is_head, c.upgrading⟩ (.head []) b) (pieces : List Bytes)
    (hne : ∀ q ∈ pieces, q ≠ []) (hflat : pieces.flatten = b) (eof : Bool) :
    read_reply c pieces eof = if eof then closed c (stream c b) else outcome c (stream c b) := by
  subst hflat
  show (if eof then (on_eof (reads c pieces)).request else (reads c pieces).request) = _
  rcases reads_outcome hm pieces hne hends with hgo | ⟨hv, hreq⟩
  · rw [hgo.eof hm, outcome_more hgo.more, hgo.called.said hm]
  · rw [eof_over hv hreq, hreq]

/-- **The reads do not show.** For a reply of an HTTP target or any prefix of one, any
request method, any cutting into reads, and with or without an EOF behind them, the
exchange is the one that a single read leads to: what the client has been sent, how
far the request got, and whether the connection is kept. -/
theorem http_reply_split_invariant (q : Request) (r : WholeReply ⟨q.is_head, q.upgrading⟩) (hr : r.Regular)
    (b : Bytes) (hb : b <+: r.wire) (pieces : List Bytes) (hne : ∀ p ∈ pieces, p ≠ [])
    (hflat : pieces.flatten = b) (eof : Bool) :
    read_reply (fresh q []) pieces eof = read_reply (fresh q []) [b] eof := by
  have hends : Ends ⟨q.is_head, q.upgrading⟩ (.head []) b := (ends_reply hr).shorten hb
  by_cases hnil : b = []
  · -- no bytes, no reads; an empty read does nothing
    have hp : pieces = [] := by
      cases pieces with
      | nil => rfl
      | cons q pieces =>
        exfalso
        rw [hnil, List.flatten_cons] at hflat
        exact hne q (by simp) (List.append_eq_nil_iff.mp hflat).1
    subst hp hnil
    rfl
  · rw [read_reply_eq (c := fresh q []) rfl hends pieces hne hflat eof,
      read_reply_eq (c := fresh q []) rfl hends [b]
        (by intro p hp; rw [List.mem_singleton.mp hp]; exact hnil) (by simp) eof]

def hints_head : Head where
  text := str "HTTP/1.1 103 Early Hints\r\n\r\n"
  ends := ⟨str "HTTP/1.1 103 Early Hints", by decide +kernel, by decide +kernel⟩

def chunked_head : Head where
  text := str "HTTP/1.1 200 OK\r\nTransfer-Encoding: chunked\r\n\r\n"
  ends := ⟨str "HTTP/1.1 200 OK\r\nTransfer-Encoding: chunked", by decide +kernel, by decide +kernel⟩

def chunked_body : Chunked chunk_size where
  chunks := [{ line := str "2\r", data := str "ok", line_nolf := by unfold NoLF; decide +kernel
               sized := by decide +kernel, data_ne := by decide +kernel }]
  last := str "0\r"
  trailers := [{ line := str "x: y\r", line_nolf := by unfold NoLF; decide +kernel, not_blank := by decide +kernel }]
  blank := str "\r"
  last_nolf := by unfold NoLF; decide +kernel
  last_sized := by decide +kernel
  blank_nolf := by unfold NoLF; decide +kernel
  blank_blank := by decide +kernel

def chunked_reply : WholeReply ⟨false, false⟩ where
  interims := [hints_head]
  head := chunked_head
  block := str "Status: 200\r\n"
  framing := .chunked
  expect_eof := false
  body := chunked_body.wire
  interim := by
    intro h hh
    rw [List.mem_singleton.mp hh]
    decide +kernel
  final := by decide +kernel

lemma chunked_reply_regular : chunked_reply.Regular where
  interims := by
    intro h hh
    rw [List.mem_singleton.mp hh]
    decide
  head := by decide
  body := by
    refine ⟨chunked_body, ⟨?_, by decide⟩, rfl⟩
    intro k hk
    rw [List.mem_singleton.mp hk]
    decide

theorem http_reply_split_invariant_chunked :
    read_reply (fresh plain []) (chunked_reply.wire.map fun b => [b]) false
      = { conn := { fresh plain [] with
            headers_sent := true
            status := some 200
            view := { started := some { code := 200, reason := [], headers := [] }
                      body := str "ok"
                      ending := some .ended } }
          current := false
          status := .completed
          dropped := false } := by
  rw [http_reply_split_invariant plain chunked_reply chunked_reply_regular
    chunked_reply.wire (List.prefix_refl _) (chunked_reply.wire.map fun b => [b])
    (by intro q hq; obtain ⟨b, -, rfl⟩ := List.mem_map.mp hq; simp) (by decide) false]
  rfl

end FpmNg.HttpReply
