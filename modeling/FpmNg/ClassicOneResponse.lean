/-
One response for each request of the classic executor.

`told` reads what a connection was handed for one request: 103 heads, then one final
head with its body, then nothing. `Spoken` ties it to the flags of the request, and
every function of the executor keeps the two together, with two exceptions.

`fpmng_respond()` looks at `responded` when it is called and sets it when it is done.
In between it runs the output callbacks and the header callback of the script, and a
`fpmng_respond()` from there sends a response of its own; the outer call then sends
another one. And `fpm_send_early_hints()` asks whether the final head is out before it
turns the values into strings. A `__toString` that sends the response puts the 103
after it.

`Clean` excludes the two. A run of clean steps answers every request once; after a step
that is not clean, the functions on the stack only have to return to break it.
-/
import FpmNg.ClassicAccounting

open WhileLoop Runs List Option

namespace FpmNg.ClassicExecutor

open FpmNg.DirectResponse Worker World Exec Run

/-! ## What the client is told -/

inductive Told where
  | hints
  | begun
  | done
  | broken
  deriving DecidableEq

def Told.next : Told → Sent → Told
  | .hints, .hint _ => .hints
  | .hints, .reply _ _ => .done
  | .hints, .start _ => .begun
  | .begun, .chunk _ => .begun
  | .begun, .last => .done
  | _, _ => .broken

def told (sent : List Sent) : Told := sent.foldl Told.next .hints

lemma told_append (sent more : List Sent) : told (sent ++ more) = more.foldl Told.next (told sent) :=
  foldl_append

lemma told_hand (r : Run) (m : Sent) : told (r.hand m).sent = (told r.sent).next m :=
  told_append r.sent [m]

variable {t : Told}

namespace Told

lemma broken_stays (more : List Sent) : more.foldl next .broken = .broken := by
  induction more with
  | nil => rfl
  | cons m more ih => exact ih

lemma next_of_over (h : t = .done ∨ t = .broken) (m : Sent) : t.next m = .broken := by
  rcases h with rfl | rfl <;> cases m <;> rfl

lemma done_shape {more : List Sent} (h : more.foldl next .done = t) (ht : t ≠ .broken) :
    more = [] ∧ t = .done := by
  cases more with
  | nil => exact ⟨rfl, h.symm⟩
  | cons m more =>
    rw [foldl_cons, next_of_over (.inl rfl), broken_stays] at h
    exact absurd h.symm ht

lemma hint_of_not_hints (h : t ≠ .hints) (headers : List (Bytes × Bytes)) :
    t.next (.hint headers) = .broken := by
  cases t with
  | hints => exact absurd rfl h
  | _ => rfl

lemma not_hints_stays (h : t ≠ .hints) (more : List Sent) : more.foldl next t ≠ .hints := by
  induction more generalizing t with
  | nil => exact h
  | cons m more ih =>
    refine ih ?_
    cases t with
    | hints => exact absurd rfl h
    | begun => cases m <;> simp [next]
    | done | broken => simp [next_of_over]

end Told

def body (chunks : List Bytes) : List Sent := chunks.map .chunk

def Hints (sent : List Sent) : Prop := ∃ hints : List (List (Bytes × Bytes)), sent = hints.map .hint

inductive Whole : List Sent → Prop where
  | reply (status : ℕ) (output : Bytes) : Whole [.reply status output]
  | stream (status : ℕ) (chunks : List Bytes) : Whole (.start status :: (body chunks ++ [.last]))

def One (sent : List Sent) : Prop := ∃ before final, Hints before ∧ Whole final ∧ sent = before ++ final

def Part (sent : List Sent) : Prop :=
  ∃ before status chunks, Hints before ∧ sent = before ++ .start status :: body chunks

variable {sent : List Sent}

lemma Hints.cons (h : Hints sent) (headers : List (Bytes × Bytes)) :
    Hints (.hint headers :: sent) := by
  obtain ⟨hints, rfl⟩ := h
  exact ⟨headers :: hints, rfl⟩

lemma Hints.told (h : Hints sent) : told sent = .hints := by
  obtain ⟨hints, rfl⟩ := h
  induction hints with
  | nil => rfl
  | cons headers hints ih => exact ih

lemma told_body (chunks : List Bytes) : (body chunks).foldl Told.next .begun = .begun := by
  induction chunks with
  | nil => rfl
  | cons b chunks ih => exact ih

lemma Part.told (h : Part sent) : told sent = .begun := by
  obtain ⟨before, status, chunks, hbefore, rfl⟩ := h
  rw [told_append, hbefore.told]
  exact told_body chunks

lemma One.told (h : One sent) : told sent = .done := by
  obtain ⟨before, final, hbefore, hfinal, rfl⟩ := h
  rw [told_append, hbefore.told]
  cases hfinal with
  | reply status output => rfl
  | stream status chunks =>
    rw [foldl_cons, foldl_append]
    simp [Told.next, told_body]

lemma begun_shape (h : sent.foldl Told.next .begun = t) (ht : t ≠ .broken) :
    (t = .begun ∧ ∃ chunks, sent = body chunks) ∨
      (t = .done ∧ ∃ chunks, sent = body chunks ++ [.last]) := by
  induction sent with
  | nil => exact .inl ⟨h.symm, [], rfl⟩
  | cons m sent ih =>
    rw [foldl_cons] at h
    cases m with
    | chunk b =>
      rcases ih h with ⟨rfl, chunks, rfl⟩ | ⟨rfl, chunks, rfl⟩
      · exact .inl ⟨rfl, b :: chunks, rfl⟩
      · exact .inr ⟨rfl, b :: chunks, rfl⟩
    | last =>
      obtain ⟨rfl, rfl⟩ := Told.done_shape h ht
      exact .inr ⟨rfl, [], rfl⟩
    | hint headers => exact absurd (h.symm.trans (Told.broken_stays sent)) ht
    | reply status output | start status => exact absurd (h.symm.trans (Told.broken_stays sent)) ht

theorem told_shape (h : told sent = t) (ht : t ≠ .broken) :
    (t = .hints ∧ Hints sent) ∨ (t = .begun ∧ Part sent) ∨ (t = .done ∧ One sent) := by
  have hnone : Hints [] := ⟨[], rfl⟩
  induction sent with
  | nil => exact .inl ⟨h.symm, hnone⟩
  | cons m sent ih =>
    cases m with
    | hint headers =>
      rcases ih h with ⟨rfl, hs⟩ | ⟨rfl, before, status, chunks, hs, rfl⟩ |
        ⟨rfl, before, final, hs, hfinal, rfl⟩
      · exact .inl ⟨rfl, hs.cons headers⟩
      · exact .inr (.inl ⟨rfl, _, status, chunks, hs.cons headers, rfl⟩)
      · exact .inr (.inr ⟨rfl, _, final, hs.cons headers, hfinal, rfl⟩)
    | start status =>
      rcases begun_shape h ht with ⟨rfl, chunks, rfl⟩ | ⟨rfl, chunks, rfl⟩
      · exact .inr (.inl ⟨rfl, [], status, chunks, hnone, rfl⟩)
      · exact .inr (.inr ⟨rfl, [], _, hnone, .stream status chunks, rfl⟩)
    | reply status output =>
      obtain ⟨rfl, rfl⟩ := Told.done_shape h ht
      exact .inr (.inr ⟨rfl, [], _, hnone, .reply status output, rfl⟩)
    | chunk b | last => exact absurd (h.symm.trans (Told.broken_stays sent)) ht

/-! ## What the functions leave alone -/

/-- Nothing that was handed over is taken back; the calls in progress and the requests
that are over stay. -/
structure Extends (x y : Exec) : Prop where
  ended : y.w.ended = x.w.ended
  stack : y.r.stack = x.r.stack
  sent : x.r.sent <+: y.r.sent

/-- The headers and the way the response goes out stay too. -/
structure Moves (x y : Exec) : Prop extends Extends x y where
  headers_sent : y.r.headers_sent = x.r.headers_sent
  fault : y.r.fault = x.r.fault
  rejected : y.r.rejected = x.r.rejected
  streaming : y.r.streaming = x.r.streaming
  responded : y.r.responded = x.r.responded
  http : y.r.http = true → x.r.http = true

lemma Extends.of_eq {x y : Exec} (ended : y.w.ended = x.w.ended) (stack : y.r.stack = x.r.stack)
    (sent : y.r.sent = x.r.sent) : Extends x y := ⟨ended, stack, sent ▸ prefix_refl _⟩

lemma Extends.trans {x y z : Exec} (h : Extends x y) (h' : Extends y z) : Extends x z :=
  ⟨h'.ended.trans h.ended, h'.stack.trans h.stack, h.sent.trans h'.sent⟩

lemma Moves.trans {x y z : Exec} (h : Moves x y) (h' : Moves y z) : Moves x z :=
  ⟨h.toExtends.trans h'.toExtends, h'.headers_sent.trans h.headers_sent, h'.fault.trans h.fault,
    h'.rejected.trans h.rejected, h'.streaming.trans h.streaming,
    h'.responded.trans h.responded, fun hz => h.http (h'.http hz)⟩

lemma sent_le_hand (r : Run) (m : Sent) : r.sent <+: (r.hand m).sent := prefix_append ..

lemma final_fields (r : Run) :
    (final r).sent = r.sent ∧ (final r).stack = r.stack ∧
      (final r).headers_sent = r.headers_sent ∧ (final r).fault = r.fault ∧
      (final r).rejected = r.rejected ∧ (final r).streaming = r.streaming ∧
      (final r).responded = r.responded ∧ (final r).http = r.http ∧
      (final r).conn.alive = r.conn.alive := by
  unfold final replaced
  dsimp only
  split <;> split <;> exact ⟨rfl, rfl, rfl, rfl, rfl, rfl, rfl, rfl, rfl⟩

namespace Exec

lemma stream_abort_moves (x : Exec) : Moves x (fpm_direct_stream_abort x) := by
  unfold fpm_direct_stream_abort
  split
  · exact ⟨.of_eq rfl rfl rfl, rfl, rfl, rfl, rfl, rfl, id⟩
  · exact ⟨.of_eq rfl rfl rfl, rfl, rfl, rfl, rfl, rfl, nofun⟩

lemma stream_pump_moves (abort : Bool) (x : Exec) : Moves x (fpm_direct_stream_pump abort x) := by
  unfold fpm_direct_stream_pump
  split
  · exact stream_abort_moves x
  · exact ⟨.of_eq rfl rfl rfl, rfl, rfl, rfl, rfl, rfl, id⟩

lemma chunk_moves (x : Exec) : Moves x x.chunk := by
  unfold chunk
  split
  · exact ⟨.of_eq rfl rfl rfl, rfl, rfl, rfl, rfl, rfl, id⟩
  · exact ⟨⟨rfl, rfl, sent_le_hand x.r _⟩, rfl, rfl, rfl, rfl, rfl, id⟩

lemma stream_push_moves (abort : Bool) (x : Exec) : Moves x (fpm_direct_stream_push abort x) := by
  unfold fpm_direct_stream_push
  split
  · exact ⟨.of_eq rfl rfl rfl, rfl, rfl, rfl, rfl, rfl, id⟩
  · exact (chunk_moves x).trans (stream_pump_moves abort _)

lemma send_reply_end_moves (x : Exec) : Moves x x.send_reply_end :=
  ⟨⟨rfl, rfl, sent_le_hand x.r _⟩, rfl, rfl, rfl, rfl, rfl, id⟩

lemma stream_finish_moves (cfg : Config) (flush : Bool) (o : Outcome) (x : Exec) :
    Moves x (fpm_direct_stream_finish cfg flush o x) := by
  unfold fpm_direct_stream_finish
  split
  · exact ⟨.of_eq rfl rfl rfl, rfl, rfl, rfl, rfl, rfl, id⟩
  split
  · exact stream_abort_moves x
  have hchunk := chunk_moves x
  have hend := hchunk.trans (send_reply_end_moves x.chunk)
  split
  · exact ⟨⟨rfl, hchunk.stack, hchunk.sent⟩, hchunk.headers_sent, hchunk.fault, hchunk.rejected,
      hchunk.streaming, hchunk.responded, nofun⟩
  cases o.inline with
  | some close =>
    obtain ⟨hsame, -⟩ := settled_spec cfg x.chunk.w
    exact ⟨⟨hsame.ended.trans hchunk.ended, hend.stack, hend.sent⟩, hend.headers_sent, hend.fault,
      hend.rejected, hend.streaming, hend.responded,
      by simp [fpm_direct_stream_completed_inline]⟩
  | none =>
    have hqueued : Moves x x.chunk.send_reply_end.queued :=
      ⟨⟨hend.ended, hend.stack, hend.sent⟩, hend.headers_sent, hend.fault, hend.rejected,
        hend.streaming, hend.responded, hend.http⟩
    dsimp only
    split
    · exact hqueued.trans (stream_pump_moves o.abort _)
    · exact hqueued

lemma send_buffered_moves (cfg : Config) (x : Exec) :
    Moves x (fpm_direct_send_buffered cfg x) ∧ (fpm_direct_send_buffered cfg x).r.sent =
        x.r.sent ++ [.reply (final x.r).status (final x.r).output] := by
  obtain ⟨hretire, -⟩ := x.w.retire_spec cfg
  obtain ⟨htick, -⟩ := tick_body_spec cfg
    { x.w.fpm_direct_retire cfg with pending := (x.w.fpm_direct_retire cfg).pending + 1 }
  obtain ⟨hsame, hstack, hheaders, hfault, hrejected, hstreaming, hresponded, hhttp, -⟩ :=
    final_fields x.r
  have hsent : (fpm_direct_send_buffered cfg x).r.sent =
      x.r.sent ++ [.reply (final x.r).status (final x.r).output] :=
    congrArg (fun sent => sent ++ [Sent.reply (final x.r).status (final x.r).output]) hsame
  refine ⟨⟨⟨htick.ended.trans hretire.ended, hstack, ?_⟩, hheaders, hfault, hrejected, hstreaming,
    hresponded, fun h => hhttp.symm.trans h⟩, hsent⟩
  rw [hsent]
  exact prefix_append ..

lemma stream_begin_extends (cfg : Config) (x : Exec) :
    Extends x (fpm_direct_stream_begin cfg x) := by
  unfold fpm_direct_stream_begin
  split
  · exact .of_eq rfl rfl rfl
  split
  · exact .of_eq rfl rfl rfl
  · exact ⟨rfl, rfl, sent_le_hand x.r _⟩

lemma flush_extends (cfg : Config) (abort : Bool) (x : Exec) :
    Extends x (fpm_direct_flush cfg abort x) := by
  have hbegin := stream_begin_extends cfg { x with r := { x.r with headers_sent := true } }
  exact flush_keeps (x := { x with r := { x.r with headers_sent := true } }) abort rfl
    (.of_eq rfl rfl rfl) ⟨hbegin.ended, hbegin.stack, hbegin.sent⟩
    fun z _ hz => hz.trans (stream_push_moves abort z).toExtends

lemma respond_extends (cfg : Config) (o : Outcome) (x : Exec) :
    Extends x (fpmng_respond cfg o x) := by
  unfold fpmng_respond
  split
  · obtain ⟨hretire, -⟩ := x.w.retire_spec cfg
    have hfinish := stream_finish_moves cfg true o { x with w := x.w.fpm_direct_retire cfg }
    exact ⟨hfinish.ended.trans hretire.ended, hfinish.stack, hfinish.sent⟩
  · obtain ⟨hsend, -⟩ := send_buffered_moves cfg x
    exact ⟨hsend.ended, hsend.stack, hsend.sent⟩

/-- The loop of `fpm_send_early_hints()` hands over a head, or it waits again. -/
lemma hint_loop_spec (cfg : Config) (x : Exec) (total : ℕ) (validated : List (Bytes × Bytes))
    (items : List Item) :
    (hint_loop cfg total validated x items).w = x.w ∧
      ((∃ headers, (hint_loop cfg total validated x items).r = x.r.hand (.hint headers)) ∨
        ∃ name rest total' validated', rest.length < items.length ∧
          (hint_loop cfg total validated x items).r = x.r.push (.hints name rest total' validated')) := by
  induction items generalizing total validated with
  | nil => exact ⟨rfl, .inl ⟨validated, rfl⟩⟩
  | cons item rest ih =>
    have later : ∀ total validated, (hint_loop cfg total validated x rest).w = x.w ∧
        ((∃ headers, (hint_loop cfg total validated x rest).r = x.r.hand (.hint headers)) ∨
          ∃ name rest' total' validated', rest'.length < (item :: rest).length ∧
            (hint_loop cfg total validated x rest).r =
              x.r.push (.hints name rest' total' validated')) := by
      intro total validated
      obtain ⟨hw, hr | ⟨name, rest', total', validated', hlt, hr⟩⟩ := ih total validated
      · exact ⟨hw, .inl hr⟩
      · exact ⟨hw, .inr ⟨name, rest', total', validated', Nat.lt_succ_of_lt hlt, hr⟩⟩
    cases item with
    | unnamed | named name => exact later total validated
    | value name v =>
      unfold hint_loop
      split
      · exact later total validated
      · cases v with
        | text s => exact later _ _
        | object => exact ⟨rfl, .inr ⟨name, rest, total, validated, Nat.lt_succ_self _, rfl⟩⟩

end Exec

/-! ## The headers of a stream -/

/-- A stream has sent its headers, and they hold nothing that would stop it. -/
structure Framing (r : Run) : Prop where
  fault : r.headers_sent = true → r.http = true → r.rejected = none → r.fault = none
  sent : r.streaming = true → r.headers_sent = true
  accepted : r.streaming = true → r.http = true → r.rejected = none

lemma Moves.framing {x y : Exec} (h : Moves x y) (hx : Framing x.r) : Framing y.r where
  fault hsent hhttp hrejected := h.fault.trans
    (hx.fault (h.headers_sent.symm.trans hsent) (h.http hhttp) (h.rejected.symm.trans hrejected))
  sent hstreaming := h.headers_sent.trans (hx.sent (h.streaming.symm.trans hstreaming))
  accepted hstreaming hhttp :=
    h.rejected.trans (hx.accepted (h.streaming.symm.trans hstreaming) (h.http hhttp))

variable {r : Run}

lemma send_headers_framing (h : Framing r) : Framing r.sapi_send_headers := by
  unfold sapi_send_headers fpm_direct_send_headers
  dsimp only
  split
  · rename_i hnone
    rw [Bool.and_eq_true, isNone_iff_eq_none] at hnone
    exact ⟨fun _ _ hfault => hfault, fun _ => rfl,
      fun hstreaming _ => h.fault (h.sent hstreaming) hnone.1 hnone.2⟩
  · rename_i hsome
    rw [Bool.and_eq_true, isNone_iff_eq_none, not_and] at hsome
    exact ⟨fun _ hhttp hrejected => absurd hrejected (hsome hhttp), fun _ => rfl, h.accepted⟩

variable {x : Exec} {cfg : Config}

namespace Exec

lemma may_begin_spec (h : may_begin cfg r = true) : r.http = true ∧ r.rejected = none := by
  unfold may_begin request at h
  cases hhttp : r.http with
  | false => simp [hhttp] at h
  | true =>
    cases hrejected : r.rejected with
    | none => exact ⟨rfl, rfl⟩
    | some cause => simp [hrejected] at h

lemma stream_begin_framing (h : Framing x.r) (hsent : x.r.headers_sent = true) :
    Framing (fpm_direct_stream_begin cfg x).r := by
  unfold fpm_direct_stream_begin
  split
  · exact h
  split
  · exact ⟨h.fault, h.sent, h.accepted⟩
  · rename_i hbegin
    have hmay : may_begin cfg x.r = true := by simpa using hbegin
    exact ⟨h.fault, fun _ => hsent, fun _ _ => (may_begin_spec hmay).2⟩

end Exec

/-! ## What is handed over, and what the request says about it -/

def Conn.cut (c : Conn) : Bool := !c.alive || c.request.any fun q => q.answer == .aborted

inductive Spoken (r : Run) : Prop where
  | quiet (streaming : r.streaming = false) (responded : r.responded = false)
      (sent : told r.sent = .hints)
  | begun (streaming : r.streaming = true) (responded : r.responded = false) (http : r.http = true)
      (sent : told r.sent = .begun)
  | cut (streaming : r.streaming = true) (http : r.http = false) (sent : told r.sent = .begun)
      (conn : r.conn.cut = true)
  | done (responded : r.responded = true) (sent : told r.sent = .done) (output : r.output = [])

lemma Spoken.congr {r r' : Run} (h : Spoken r) (hstreaming : r'.streaming = r.streaming)
    (hresponded : r'.responded = r.responded) (hhttp : r'.http = r.http) (hconn : r'.conn = r.conn)
    (hsent : r'.sent = r.sent) (houtput : r.responded = true → r.output = [] → r'.output = []) :
    Spoken r' := by
  cases h with
  | quiet streaming responded sent =>
    exact .quiet (hstreaming.trans streaming) (hresponded.trans responded) (hsent ▸ sent)
  | begun streaming responded http sent =>
    exact .begun (hstreaming.trans streaming) (hresponded.trans responded) (hhttp.trans http)
      (hsent ▸ sent)
  | cut streaming http sent conn =>
    exact .cut (hstreaming.trans streaming) (hhttp.trans http) (hsent ▸ sent) (hconn ▸ conn)
  | done responded sent output =>
    exact .done (hresponded.trans responded) (hsent ▸ sent) (houtput responded output)

def Ends (r : Run) : Prop :=
  (told r.sent = .done ∧ r.output = []) ∨
    (told r.sent = .begun ∧ r.http = false ∧ r.conn.cut = true)

namespace Exec

lemma stream_begin_spoken (hstage : Stage x.r) (h : Spoken x.r) :
    Spoken (fpm_direct_stream_begin cfg x).r := by
  unfold fpm_direct_stream_begin
  split
  · exact h
  rename_i hnot
  rw [Bool.or_eq_true, not_or] at hnot
  have hstreaming : x.r.streaming = false := Bool.eq_false_iff.mpr hnot.1
  split
  · exact h.congr rfl rfl rfl rfl rfl fun _ hempty => hempty
  rename_i hbegin
  have hmay : may_begin cfg x.r = true := by simpa using hbegin
  cases h with
  | quiet streaming responded sent =>
    refine .begun rfl responded (may_begin_spec hmay).1 ?_
    rw [told_hand]
    exact congrArg (Told.next · _) sent
  | begun streaming | cut streaming => simp [hstreaming] at streaming
  | done responded =>
    rw [may_begin_answered hstage responded hstreaming] at hmay
    cases hmay

lemma stream_abort_cut {cb : Closecb} {q : Http} (hhttp : x.r.http = true)
    (hconn : x.r.conn = ⟨true, cb, some q⟩) :
    (fpm_direct_stream_abort x).r.http = false ∧ (fpm_direct_stream_abort x).r.sent = x.r.sent ∧
      (fpm_direct_stream_abort x).r.conn.cut = true := by
  simp [fpm_direct_stream_abort, hhttp, Conn.cut, set_closecb, set_http, hconn]

/-- A response that neither streams nor is done has handed over nothing but hints. -/
lemma told_of_quiet (hstreaming : r.streaming ≠ true) (hresponded : r.responded ≠ true)
    (h : Spoken r) : told r.sent = .hints := by
  cases h with
  | quiet streaming responded sent => exact sent
  | begun streaming | cut streaming => exact absurd streaming hstreaming
  | done responded => exact absurd responded hresponded

lemma stream_abort_spoken (hstage : Stage x.r) (hstreaming : x.r.streaming = true)
    (h : Spoken x.r) : Spoken (fpm_direct_stream_abort x).r := by
  have hmoves := stream_abort_moves x
  cases h with
  | quiet streaming => simp [streaming] at hstreaming
  | begun streaming responded http sent =>
    obtain ⟨q, conn, -⟩ := hstage.is_live streaming responded http
    obtain ⟨hhttp, hsent, hcut⟩ := stream_abort_cut http conn
    exact .cut (hmoves.streaming.trans streaming) hhttp (hsent ▸ sent) hcut
  | cut streaming http sent conn =>
    unfold fpm_direct_stream_abort
    rw [if_pos (by simp [http])]
    exact .cut streaming http sent conn
  | done responded sent output =>
    unfold fpm_direct_stream_abort
    split
    · exact .done responded sent output
    · exact .done responded sent rfl

lemma chunk_told (h : told x.r.sent = .begun) : told x.chunk.r.sent = .begun := by
  unfold chunk
  split
  · exact h
  · dsimp only
    rw [told_hand, h]
    rfl

lemma chunk_spoken (hstreaming : x.r.streaming = true) (h : Spoken x.r) : Spoken x.chunk.r := by
  obtain ⟨-, hkept, hconn, hhttp, hst, -, houtput⟩ := chunk_spec x
  cases h with
  | quiet streaming => simp [streaming] at hstreaming
  | begun streaming responded http sent =>
    exact .begun (hst.trans streaming) (hkept.responded.trans responded) (hhttp.trans http)
      (chunk_told sent)
  | cut streaming http sent conn =>
    exact .cut (hst.trans streaming) (hhttp.trans http) (chunk_told sent) (hconn ▸ conn)
  | done responded sent output =>
    refine .done (hkept.responded.trans responded) ?_ houtput
    -- there is no output left to hand over
    unfold chunk
    rw [if_pos (by simp [output])]
    exact sent

lemma stream_push_spoken (abort : Bool) (hgood : Good x) (hstreaming : x.r.streaming = true)
    (h : Spoken x.r) :
    Spoken (fpm_direct_stream_push abort x).r := by
  unfold fpm_direct_stream_push
  split
  · exact h.congr rfl rfl rfl rfl rfl fun _ _ => rfl
  · have hchunk := chunk_spoken hstreaming h
    unfold fpm_direct_stream_pump
    split
    · exact stream_abort_spoken (chunk_good hgood).stage
        ((chunk_moves x).streaming.trans hstreaming) hchunk
    · exact hchunk

theorem stream_finish_ends (cfg : Config) (flush : Bool) (o : Outcome) (hstage : Stage x.r)
    (hstreaming : x.r.streaming = true) (hresponded : x.r.responded = false) (h : Spoken x.r) :
    Ends (fpm_direct_stream_finish cfg flush o x).r := by
  cases h with
  | quiet streaming => simp [streaming] at hstreaming
  | done responded => simp [hresponded] at responded
  | cut streaming http sent conn =>
    unfold fpm_direct_stream_finish
    rw [if_pos (by simp [http])]
    exact .inr ⟨sent, http, conn⟩
  | begun streaming responded http sent =>
    obtain ⟨q, conn, -⟩ := hstage.is_live streaming responded http
    unfold fpm_direct_stream_finish
    rw [if_neg (by simp [http])]
    split
    · obtain ⟨hhttp, hsent, hcut⟩ := stream_abort_cut http conn
      exact .inr ⟨hsent ▸ sent, hhttp, hcut⟩
    rw [if_neg (by simp [conn])]
    obtain ⟨-, -, -, -, -, -, houtput⟩ := chunk_spec x
    -- the end is handed over before anything can go wrong with it
    have hlast : told x.chunk.send_reply_end.r.sent = .done := by
      have hhand := told_hand x.chunk.r .last
      rw [chunk_told sent] at hhand
      exact hhand
    cases o.inline with
    | some close => exact .inl ⟨hlast, houtput⟩
    | none =>
      dsimp only
      split
      · unfold fpm_direct_stream_pump
        split
        · -- the client does not take the end, but it was handed over
          unfold fpm_direct_stream_abort
          split
          · exact .inl ⟨hlast, houtput⟩
          · exact .inl ⟨hlast, rfl⟩
        · exact .inl ⟨hlast, houtput⟩
      · exact .inl ⟨hlast, houtput⟩

lemma send_buffered_told (cfg : Config) (h : told x.r.sent = .hints) :
    told (fpm_direct_send_buffered cfg x).r.sent = .done := by
  rw [(send_buffered_moves cfg x).2, told_append, h]
  rfl

lemma respond_spoken (o : Outcome) (hstage : Stage x.r) (hresponded : x.r.responded = false)
    (h : Spoken x.r) :
    Spoken (fpmng_respond cfg o x).r := by
  unfold fpmng_respond
  cases hstreaming : x.r.streaming with
  | true =>
    have hmoves := stream_finish_moves cfg true o { x with w := x.w.fpm_direct_retire cfg }
    rcases stream_finish_ends cfg (x := { x with w := x.w.fpm_direct_retire cfg }) true o hstage
      hstreaming hresponded h with ⟨sent, output⟩ | ⟨sent, http, conn⟩
    · exact .done rfl sent output
    · exact .cut (hmoves.streaming.trans hstreaming) http sent conn
  | false =>
    have hquiet := told_of_quiet (by simp [hstreaming]) (by simp [hresponded]) h
    exact .done rfl (send_buffered_told cfg hquiet) rfl

end Exec

/-! ## Clean steps -/

/-- A call of `fpm_send_early_hints()` that waits for a string. -/
def Frame.hinting : Frame → Bool
  | .hints .. => true
  | _ => false

/-- The string that is ready is none of `fpm_send_early_hints()`, unless the final head is still to come. -/
def Run.Unheard (r : Run) : Prop := r.stack.head?.any Frame.hinting = true → told r.sent = .hints

/-- What a clean script keeps, beside the accounts; `past` are the requests before it. -/
structure Said (past : List Ended) (x : Exec) : Prop where
  ended : x.w.ended = past
  framing : Framing x.r
  spoken : Spoken x.r

variable {past : List Ended} {w : Worker}

lemma Said.aside (h : Said past ⟨w, r⟩) (stack : List Frame) (status code : ℕ)
    (may_stream stream_declined executed : Bool) :
    Said past ⟨w, { r with
      stack := stack, status := status, code := code, may_stream := may_stream
      stream_declined := stream_declined, executed := executed }⟩ :=
  ⟨h.ended, ⟨h.framing.fault, h.framing.sent, h.framing.accepted⟩,
    h.spoken.congr rfl rfl rfl rfl rfl fun _ hempty => hempty⟩

lemma send_headers_said (h : Said past ⟨w, r⟩) : Said past ⟨w, r.sapi_send_headers⟩ := by
  refine ⟨h.ended, send_headers_framing h.framing, ?_⟩
  rw [send_headers_spec]
  exact h.spoken.congr rfl rfl rfl rfl rfl fun _ hempty => hempty

namespace Exec

lemma stream_begin_said (hsent : x.r.headers_sent = true) (hgood : Good x) (h : Said past x) :
    Said past (fpm_direct_stream_begin cfg x) :=
  ⟨(stream_begin_extends cfg x).ended.trans h.ended, stream_begin_framing h.framing hsent,
    stream_begin_spoken hgood.stage h.spoken⟩

lemma stream_push_said (abort : Bool) (hgood : Good x) (hstreaming : x.r.streaming = true)
    (h : Said past x) : Said past (fpm_direct_stream_push abort x) :=
  have hmoves := stream_push_moves abort x
  ⟨hmoves.ended.trans h.ended, hmoves.framing h.framing,
    stream_push_spoken abort hgood hstreaming h.spoken⟩

lemma write_said (abort : ℕ → Bool) (data : Bytes) (hsent : x.r.headers_sent = true)
    (hgood : Good x) (h : Said past x) : Said past (fpm_direct_write cfg abort data x) := by
  refine (write_keeps (P := fun z => Good z ∧ Said past z) abort data ⟨hgood, h⟩
    ⟨stream_begin_good hgood, stream_begin_said hsent hgood h⟩ ?_ ?_ ?_).2
  · rintro z out hopen ⟨hz, ⟨hended, hframing, hspoken⟩⟩
    exact ⟨hz.aside .., hended, ⟨hframing.fault, hframing.sent, hframing.accepted⟩,
      hspoken.congr rfl rfl rfl rfl rfl fun hr => absurd hr (by simp [hopen])⟩
  · rintro z abort hst ⟨hz, hsaid⟩
    exact ⟨stream_push_good abort hz hst, stream_push_said abort hz hst hsaid⟩
  · rintro z hst ⟨hz, ⟨hended, hframing, hspoken⟩⟩
    exact ⟨hz.aside .., hended, ⟨fun _ _ hnone => absurd hnone (by simp), hframing.sent,
      fun hs => absurd hs hst⟩, hspoken.congr rfl rfl rfl rfl rfl fun _ hempty => hempty⟩

lemma flush_said (abort : Bool) (hsent : x.r.headers_sent = true) (hgood : Good x)
    (h : Said past x) : Said past (fpm_direct_flush cfg abort x) := by
  refine (flush_keeps (P := fun z => Good z ∧ Said past z) abort hsent ⟨hgood, h⟩
    ⟨stream_begin_good hgood, stream_begin_said hsent hgood h⟩ ?_).2
  rintro z hst ⟨hz, hsaid⟩
  exact ⟨stream_push_good abort hz hst, stream_push_said abort hz hst hsaid⟩

lemma respond_framing (o : Outcome) (h : Framing x.r) : Framing (fpmng_respond cfg o x).r := by
  unfold fpmng_respond
  split
  · obtain ⟨hfault, hsent, haccepted⟩ :=
      (stream_finish_moves cfg true o { x with w := x.w.fpm_direct_retire cfg }).framing h
    exact ⟨hfault, hsent, haccepted⟩
  · obtain ⟨hfault, hsent, haccepted⟩ := (send_buffered_moves cfg x).1.framing h
    exact ⟨hfault, hsent, haccepted⟩

lemma respond_said (o : Outcome) (hgood : Good x) (hresponded : x.r.responded = false)
    (h : Said past x) : Said past (fpmng_respond cfg o x) :=
  ⟨(respond_extends cfg o x).ended.trans h.ended, respond_framing o h.framing,
    respond_spoken o hgood.stage hresponded h.spoken⟩

lemma hint_loop_said (h : Said past x) (hsent : told x.r.sent = .hints) (total : ℕ)
    (validated : List (Bytes × Bytes)) (items : List Item) :
    Said past (hint_loop cfg total validated x items) := by
  obtain ⟨hw, hr⟩ := hint_loop_spec cfg x total validated items
  generalize hint_loop cfg total validated x items = y at hw hr ⊢
  obtain ⟨w', r'⟩ := y
  obtain rfl : w' = x.w := hw
  rcases hr with ⟨headers, rfl⟩ | ⟨name, rest, total', validated', -, rfl⟩
  · refine ⟨h.ended, ⟨h.framing.fault, h.framing.sent, h.framing.accepted⟩, ?_⟩
    cases h.spoken with
    | quiet streaming responded sent =>
      refine .quiet streaming responded ?_
      rw [told_hand, sent]
      rfl
    | begun streaming responded http sent => exact nomatch sent.symm.trans hsent
    | cut streaming http sent | done responded sent => exact nomatch sent.symm.trans hsent
  · exact h.aside ..

lemma call_said (c : Call) (h : Said past x) : Said past (x.call cfg c) := by
  cases c with
  | header | respond =>
    simp only [call]
    split
    · exact h
    · exact h.aside ..
  | flush => exact h.aside ..
  | hints headers =>
    simp only [call]
    split
    · exact h
    rename_i hguard
    simp only [Bool.or_eq_true, not_or] at hguard
    split
    · exact hint_loop_said h (told_of_quiet hguard.1.2 hguard.1.1 h.spoken) _ _ _
    · exact h

lemma ret_said (text : Option Bytes) (o : Outcome) (hgood : Good x) (hunheard : x.r.Unheard)
    (h : Said past x) : Said past (x.ret cfg text o) := by
  have hpop : ∀ stack, Said past ⟨x.w, { x.r with stack := stack }⟩ := fun _ => h.aside ..
  unfold ret
  split
  · exact h
  · exact send_headers_said (hpop _)
  · rename_i sending stack hstack
    cases sending with
    | true =>
      exact flush_said o.abort (send_headers_fields _).1 (send_headers_good (hgood.pop hstack))
        (send_headers_said (hpop stack))
    | false =>
      refine flush_said o.abort (hgood.flushes ?_) (hgood.pop hstack) (hpop stack)
      rw [hstack]
      exact .head _
  · rename_i stack hstack
    split
    · exact respond_said o (hgood.pop hstack) (responding_pop hgood hstack rfl).1 (hpop stack)
    · exact hpop _
  · rename_i stack hstack
    obtain ⟨-, hresponded, -⟩ := send_headers_fields { x.r with stack := stack }
    exact respond_said o (send_headers_good (hgood.pop hstack))
      (hresponded.trans (responding_pop hgood hstack rfl).1) (send_headers_said (hpop stack))
  · rename_i stack hstack
    refine hint_loop_said (hpop stack) (hunheard ?_) _ _ _
    rw [hstack]
    rfl

lemma stream_closed_said (hstage : Stage x.r) (hcb : x.r.conn.closecb = .stream_closed)
    (h : Said past x) : Said past (fpm_direct_stream_closed cfg x) := by
  refine ⟨(x.w.settled_spec cfg).1.ended.trans h.ended, ⟨nofun,
    h.framing.sent, nofun⟩, ?_⟩
  cases h.spoken with
  | begun streaming responded http sent => exact .cut streaming rfl sent rfl
  | cut streaming http sent conn => exact .cut streaming rfl sent rfl
  | quiet streaming responded sent =>
    cases hstage with
    | buffered q streaming' responded' http conn => simp [conn] at hcb
    | live q streaming' | lost streaming' => simp [streaming] at streaming'
    | answered q responded' => simp [responded] at responded'
  | done responded sent output => exact .done responded sent output

lemma script_said {e : Script} (hgood : Good x) (hunheard : ∀ text o, e = .ret text o → x.r.Unheard)
    (h : Said past x) :
    Said past (x.script cfg e) := by
  cases e with
  | write data abort =>
    simp only [script]
    split
    · rename_i hsent
      exact write_said abort data hsent hgood h
    · exact h
  | header code fault =>
    simp only [script]
    split
    · exact h
    · rename_i hsent
      exact ⟨h.ended, ⟨fun hs => absurd hs hsent, h.framing.sent, h.framing.accepted⟩,
        h.spoken.congr rfl rfl rfl rfl rfl fun _ hempty => hempty⟩
  | call c => exact call_said c h
  | ret text o => exact ret_said text o hgood (hunheard text o rfl) h
  | lose =>
    simp only [script]
    split
    · rename_i hcb
      exact stream_closed_said hgood.stage (beq_iff_eq.mp hcb) h
    · exact h
  | bail => exact h.aside ..
  | finish =>
    simp only [script]
    split
    · exact h.aside ..
    · exact h

end Exec

/-! ## Every run of clean steps -/

/-- One final head with its body, or as much of it as the connection could take. -/
def Ended.Fine (e : Ended) : Prop := One e.sent ∨ (Part e.sent ∧ e.conn.cut = true)

structure OneResponse (x : World) : Prop where
  ended : ∀ e ∈ x.w.ended, e.Fine
  running : ∀ r, x.run = some r → Hints r.sent ∨ Part r.sent ∨ One r.sent
  /-- After `fpmng_respond()` there is nothing left to send. -/
  responded : ∀ r, x.run = some r → r.responded = true →
    One r.sent ∨ (Part r.sent ∧ r.conn.cut = true)

/-- A call of `fpm_send_early_hints()` goes on only as long as the final head is not out. -/
def InTime (x : World) : Event → Prop
  | .script (.ret _ _) => ∀ r, x.run = some r → r.Unheard
  | _ => True

/-- No `fpmng_respond()` inside another, and no `fpm_send_early_hints()` that goes on after
the final head. -/
structure Clean (x : World) (e : Event) : Prop where
  single : Single x e
  in_time : InTime x e

lemma part_of_told (h : told sent = .begun) : Part sent := by
  rcases told_shape h (by decide) with ⟨h, -⟩ | ⟨-, hpart⟩ | ⟨h, -⟩
  · cases h
  · exact hpart
  · cases h

lemma one_of_told (h : told sent = .done) : One sent := by
  rcases told_shape h (by decide) with ⟨h, -⟩ | ⟨h, -⟩ | ⟨-, hone⟩
  · cases h
  · cases h
  · exact hone

lemma Spoken.running (h : Spoken r) : Hints r.sent ∨ Part r.sent ∨ One r.sent := by
  have hfine : told r.sent ≠ .broken := by
    cases h with
    | quiet streaming responded sent => simp [sent]
    | begun streaming responded http sent => simp [sent]
    | cut streaming http sent | done responded sent => simp [sent]
  rcases told_shape rfl hfine with ⟨-, h⟩ | ⟨-, h⟩ | ⟨-, h⟩
  · exact .inl h
  · exact .inr (.inl h)
  · exact .inr (.inr h)

lemma Spoken.responded (h : Spoken r) (hresponded : r.responded = true) :
    One r.sent ∨ (Part r.sent ∧ r.conn.cut = true) := by
  cases h with
  | quiet streaming responded | begun streaming responded => simp [responded] at hresponded
  | cut streaming http sent conn => exact .inr ⟨part_of_told sent, conn⟩
  | done responded sent => exact .inl (one_of_told sent)

lemma Ends.fine (h : Ends r) : One r.sent ∨ (Part r.sent ∧ r.conn.cut = true) := by
  rcases h with ⟨sent, -⟩ | ⟨sent, -, conn⟩
  · exact .inl (one_of_told sent)
  · exact .inr ⟨part_of_told sent, conn⟩

lemma put_back_fine {y : Exec} {ended : List Ended} (hended : y.w.ended = ended)
    (hfine : One y.r.sent ∨ (Part y.r.sent ∧ y.r.conn.cut = true)) :
    ∃ e, y.put_back.ended = ended ++ [e] ∧ e.Fine :=
  ⟨⟨y.r.before, y.w.requests, y.r.sent, y.r.conn⟩, congrArg (fun l => l ++ [_]) hended, hfine⟩

theorem leave_fine (cfg : Config) (o : Outcome) (hstage : Stage x.r) (h : Spoken x.r) :
    ∃ e, (x.leave cfg o).ended = x.w.ended ++ [e] ∧ e.Fine := by
  have htick : ∀ w : Worker, (∃ e, w.ended = x.w.ended ++ [e] ∧ e.Fine) →
      ∃ e, (fpm_direct_tick_body cfg { w with in_request := false }).ended =
        x.w.ended ++ [e] ∧ e.Fine := by
    rintro w ⟨e, he, hfine⟩
    exact ⟨e, (tick_body_spec cfg _).1.ended.trans he, hfine⟩
  unfold leave
  cases hresponded : x.r.responded with
  | true => exact htick _ (put_back_fine rfl (h.responded hresponded))
  | false =>
    cases hstreaming : x.r.streaming with
    | true =>
      obtain ⟨hretire, -⟩ := x.w.retire_spec cfg
      have hmoves := stream_finish_moves cfg false o { x with w := x.w.fpm_direct_retire cfg }
      have hends := stream_finish_ends cfg (x := { x with w := x.w.fpm_direct_retire cfg })
        false o hstage hstreaming hresponded h
      exact htick _ (put_back_fine (hmoves.ended.trans hretire.ended) hends.fine)
    | false =>
      obtain ⟨hmoves, -⟩ :=
        send_buffered_moves cfg { x with w := { x.w with in_request := false } }
      have hquiet := told_of_quiet (by simp [hstreaming]) (by simp [hresponded]) h
      exact put_back_fine hmoves.ended (.inl (one_of_told (send_buffered_told cfg hquiet)))

structure Sound (x : World) : Prop where
  inv : Inv x
  ended : ∀ e ∈ x.w.ended, e.Fine
  spoken : ∀ r, x.run = some r → Spoken r
  framing : ∀ r, x.run = some r → Framing r

lemma Sound.one_response {x : World} (h : Sound x) : OneResponse x :=
  ⟨h.ended, fun r hr => (h.spoken r hr).running, fun r hr => (h.spoken r hr).responded⟩

lemma start_spoken (w : Worker) (i : ℕ) (c : Conn) (q : Http) (a : Admission) :
    Spoken (start w i c q a) ∧ Framing (start w i c q a) :=
  ⟨.quiet rfl rfl rfl, ⟨by simp [start],
    by simp [start], by simp [start]⟩⟩

lemma handle_fresh (cfg : Config) (a : Admission) (w : Worker) (i : ℕ) (c : Conn) (q : Http) :
    (fpm_direct_handle cfg a w i c q).w.ended = w.ended ∧
      ∀ r, (fpm_direct_handle cfg a w i c q).run = some r → Spoken r ∧ Framing r := by
  have hnone : ∀ (w : Worker) (c : Conn) (q : Http) (r : Run),
      (plain w i c q).run = some r → Spoken r ∧ Framing r :=
    by simp [plain]
  unfold fpm_direct_handle
  split
  · exact ⟨rfl, hnone w c q⟩
  split
  · exact ⟨rfl, hnone w c q⟩
  split
  · exact ⟨rfl, hnone w c q⟩
  split
  · exact ⟨rfl, hnone w c q⟩
  have hended : (if w.retiring then w.fpm_direct_retire_enter cfg else w).ended = w.ended := by
    split
    · exact (retire_enter_same cfg w).1.ended
    · rfl
  dsimp only
  generalize (if w.retiring = true then w.fpm_direct_retire_enter cfg else w) = w' at hended ⊢
  split
  · exact ⟨hended, hnone w' c q⟩
  have hstatic : (fpm_direct_try_static cfg a.answered w' c q).1.ended = w'.ended := by
    unfold fpm_direct_try_static
    split
    · rfl
    · dsimp only
      split <;> rfl
  split
  · exact ⟨hstatic.trans hended, by simp⟩
  split
  · exact ⟨hstatic.trans hended, hnone _ _ _⟩
  · refine ⟨hstatic.trans hended, fun r h => ?_⟩
    cases h
    exact start_spoken _ _ _ _ _

lemma connection_free_ended (cfg : Config) (w : Worker) (i : ℕ) (c : Conn) :
    (connection_ends cfg w i c).ended = w.ended := by
  unfold connection_ends
  cases c.closecb with
  | none => rfl
  | response_closed => exact (w.settled_spec cfg).1.ended
  | stream_closed => rfl

lemma send_done_ended (cfg : Config) (close : Bool) (w : Worker) (i : ℕ) (c : Conn) (q : Http) :
    (reply_written cfg close w i c q).ended = w.ended := by
  have hfree : ∀ (w' : Worker) (c' : Conn), w'.ended = w.ended →
      (if close then connection_ends cfg w' i c' else w'.set_conn i c').ended = w.ended := by
    intro w' c' hended
    split
    · exact (connection_free_ended cfg w' i c').trans hended
    · exact hended
  unfold reply_written
  cases q.on_complete with
  | none | budget_done => exact hfree w _ rfl
  | response_done => exact hfree _ _ (w.settled_spec cfg).1.ended
  | completed_inline => exact hfree _ _ rfl

theorem sound_step {x : World} {e : Event} (hclean : Clean x e) (h : Sound x) :
    Sound (x.step cfg e) := by
  have hinv : Inv (x.step cfg e) := step_inv hclean.single h.inv
  -- what is left to show about a step
  suffices (∀ e' ∈ (x.step cfg e).w.ended, e'.Fine) ∧
      ∀ r, (x.step cfg e).run = some r → Spoken r ∧ Framing r from
    ⟨hinv, this.1, fun r hr => (this.2 r hr).1, fun r hr => (this.2 r hr).2⟩
  have hrun : ∀ r, x.run = some r → Spoken r ∧ Framing r :=
    fun r hr => ⟨h.spoken r hr, h.framing r hr⟩
  have hnone : ∀ (w : Worker) (r : Run), (mk w none).run = some r → Spoken r ∧ Framing r :=
    by simp
  have hon : ∀ (i : ℕ) (f : Conn → World),
      (∀ c, (f c).w.ended = x.w.ended ∧ ∀ r, (f c).run = some r → Spoken r ∧ Framing r) →
      (∀ e' ∈ (x.on_conn i f).w.ended, e'.Fine) ∧
        ∀ r, (x.on_conn i f).run = some r → Spoken r ∧ Framing r := by
    intro i f hf
    unfold on_conn
    split
    · rename_i c hloop hc
      exact ⟨fun e' he => h.ended e' ((hf c).1 ▸ he), (hf c).2⟩
    · exact ⟨h.ended, hrun⟩
  cases e with
  | accept =>
    simp only [step]
    split
    · exact ⟨h.ended, hnone _⟩
    · exact ⟨h.ended, hrun⟩
  | request i command major minor a =>
    refine hon i _ fun c => ?_
    split
    · exact handle_fresh cfg a x.w i c _
    · exact ⟨rfl, hrun⟩
  | written i close =>
    refine hon i _ fun c => ?_
    split
    · split
      · exact ⟨send_done_ended cfg close x.w i c _, hnone _⟩
      · exact ⟨rfl, hrun⟩
    · exact ⟨rfl, hrun⟩
  | fail i =>
    refine hon i _ fun c => ?_
    split
    · exact ⟨connection_free_ended cfg x.w i c, hnone _⟩
    · exact ⟨rfl, hrun⟩
  | tick =>
    simp only [step]
    split
    · exact ⟨fun e' he => h.ended e' ((x.w.tick_body_spec cfg).1.ended ▸ he), hnone _⟩
    · exact ⟨h.ended, hrun⟩
  | script s =>
    simp only [step]
    cases hr : x.run with
    | none => exact ⟨h.ended, hrun⟩
    | some r =>
      have hgood := h.inv.good hr
      obtain ⟨hended, hframing, hspoken⟩ : Said x.w.ended (script cfg ⟨x.w, r⟩ s) :=
        script_said hgood (by rintro text o rfl; exact hclean.in_time r hr)
          ⟨rfl, h.framing r hr, h.spoken r hr⟩
      refine ⟨fun e' he => h.ended e' (hended ▸ he), fun r' hr' => ?_⟩
      obtain rfl := some.inj hr'
      exact ⟨hspoken, hframing⟩
  | leave o =>
    simp only [step]
    cases hr : x.run with
    | none => exact ⟨h.ended, hrun⟩
    | some r =>
      have hgood := h.inv.good hr
      dsimp only
      split
      · obtain ⟨e, he, hfine⟩ := leave_fine cfg o hgood.stage (h.spoken r hr)
        refine ⟨fun e' he' => ?_, hnone _⟩
        rw [he] at he'
        rcases mem_append.mp he' with he' | he'
        · exact h.ended e' he'
        · rwa [mem_singleton.mp he']
      · exact ⟨h.ended, hrun⟩
  | _ => exact ⟨h.ended, hrun⟩

/-! ## A step that is not clean -/

def smooth : Outcome := ⟨false, none⟩

def Doomed (cfg : Config) (x : Exec) : Prop :=
  ∃ more r, (Runs.run (step cfg) ⟨x.w, some x.r⟩ more).run = some r ∧ told r.sent = .broken

lemma Doomed.of_broken (h : told x.r.sent = .broken) : Doomed cfg x :=
  ⟨[], x.r, rfl, h⟩

lemma Doomed.of_ret (h : Doomed cfg (x.ret cfg none smooth)) : Doomed cfg x := by
  obtain ⟨more, r, hr, hbroken⟩ := h
  exact ⟨.script (.ret none smooth) :: more, r, hr, hbroken⟩

def work : List Frame → ℕ
  | [] => 0
  | .respond_output :: stack => work stack + 2
  | .hints _ rest _ _ :: stack => work stack + rest.length + 1
  | _ :: stack => work stack + 1

/-- What it means that the innermost function `f` goes on: it is over then, or it waits
again with less to do. A call of `fpm_send_early_hints()` that is over has handed over
its head. -/
structure GoesOn (f : Frame) (stack : List Frame) (x y : Exec) : Prop where
  sent : x.r.sent <+: y.r.sent
  less : work y.r.stack < work (f :: stack)
  next : (y.r.stack = stack ∧
      (f.hinting = true → ∃ headers, y.r.sent = x.r.sent ++ [.hint headers])) ∨
    ∃ g, y.r.stack = g :: stack ∧ g.hinting = f.hinting ∧ g.responds = f.responds

lemma work_lt (f : Frame) (stack : List Frame) : work stack < work (f :: stack) := by
  cases f <;> simp only [work] <;> omega

variable {stack : List Frame} {f : Frame}

lemma GoesOn.of_extends {x z y : Exec} (hf : f.hinting = false) (hstack : z.r.stack = stack)
    (hsent : z.r.sent = x.r.sent) (h : Extends z y) : GoesOn f stack x y := by
  have hrest := h.stack.trans hstack
  refine ⟨hsent ▸ h.sent, hrest ▸ work_lt f stack, .inl ⟨hrest, fun hh => ?_⟩⟩
  simp [hf] at hh

lemma ret_spec (cfg : Config) (text : Option Bytes) (o : Outcome)
    (hstack : x.r.stack = f :: stack) :
    GoesOn f stack x (x.ret cfg text o) := by
  have hheaders : (sapi_send_headers { x.r with stack := stack }).stack = stack ∧
      (sapi_send_headers { x.r with stack := stack }).sent = x.r.sent := by
    rw [send_headers_spec]
    exact ⟨rfl, rfl⟩
  unfold ret
  rw [hstack]
  cases f with
  | header =>
    exact .of_extends rfl
      hheaders.1 hheaders.2 (.of_eq rfl rfl rfl)
  | flush sending =>
    cases sending with
    | true => exact .of_extends rfl hheaders.1 hheaders.2 (flush_extends cfg o.abort _)
    | false =>
      exact .of_extends (z := ⟨x.w, { x.r with stack := stack }⟩) rfl rfl rfl
        (flush_extends cfg o.abort _)
  | respond_output =>
    dsimp only
    split
    · exact .of_extends (z := ⟨x.w, { x.r with stack := stack }⟩) rfl rfl rfl
        (respond_extends cfg o _)
    · -- the header callback runs next, in a frame of its own
      exact ⟨prefix_refl _, by simp [work], .inr ⟨_, rfl, rfl, rfl⟩⟩
  | respond_headers =>
    exact .of_extends rfl hheaders.1 hheaders.2 (respond_extends cfg o _)
  | hints name rest total validated =>
    dsimp only
    generalize fpm_direct_early_hint_add cfg total validated name text = added
    -- the loop sends its hints, or waits for the text of the next header
    obtain ⟨-, ⟨headers, hr⟩ | ⟨name', rest', total', validated', hlt, hr⟩⟩ :=
      hint_loop_spec cfg { x with r := { x.r with stack := stack } } added.1 added.2 rest
    · refine ⟨?_, ?_, .inl ⟨?_, fun _ => ⟨headers, ?_⟩⟩⟩ <;> rw [hr]
      · exact sent_le_hand x.r _
      · exact work_lt _ stack
      · rfl
      · rfl
    · refine ⟨?_, ?_, .inr ⟨.hints name' rest' total' validated', ?_, rfl, rfl⟩⟩ <;> rw [hr]
      · exact prefix_refl _
      · simp only [push, work]
        omega
      · rfl

lemma exists_cons_of_any {p : Frame → Bool} (h : stack.any p = true) :
    ∃ f rest, stack = f :: rest ∧ (p f = true ∨ rest.any p = true) := by
  cases stack with
  | nil => simp at h
  | cons f rest =>
    rw [any_cons, Bool.or_eq_true] at h
    exact ⟨f, rest, rfl, h⟩

lemma told_of_extended {a b : List Sent} (h : a <+: b) :
    (told a ≠ .hints → told b ≠ .hints) ∧
      (told a = .done ∨ told a = .broken → (told b = .done ∨ told b = .broken) ∧
        (a ≠ b → told b = .broken)) := by
  obtain ⟨more, rfl⟩ := h
  rw [told_append]
  refine ⟨fun ha => Told.not_hints_stays ha more, fun ha => ?_⟩
  cases more with
  | nil => exact ⟨ha, fun hne => absurd (append_nil a).symm hne⟩
  | cons m more =>
    have hbroken : (m :: more).foldl Told.next (told a) = .broken := by
      rw [foldl_cons, Told.next_of_over ha]
      exact Told.broken_stays more
    exact ⟨.inr hbroken, fun _ => hbroken⟩

theorem doomed_of_any {p : Frame → Bool} {P : Exec → Prop} (cfg : Config)
    (hsame : ∀ f g : Frame, g.hinting = f.hinting → g.responds = f.responds → p g = p f)
    (keep : ∀ (x : Exec), x.r.sent <+: (x.ret cfg none smooth).r.sent → P x →
      P (x.ret cfg none smooth))
    (hit : ∀ (x : Exec) f stack, x.r.stack = f :: stack → p f = true → P x →
      x.r.sent <+: (x.ret cfg none smooth).r.sent →
      (f.hinting = true → ∃ headers, (x.ret cfg none smooth).r.sent = x.r.sent ++ [.hint headers]) →
      told (x.ret cfg none smooth).r.sent = .broken)
    (n : ℕ) (x : Exec) (hwork : work x.r.stack ≤ n) (hany : x.r.stack.any p = true) (h : P x) :
    Doomed cfg x := by
  -- each function on the stack has less to do each time
  induction n generalizing x with
  | zero =>
    obtain ⟨f, stack, hstack, -⟩ := exists_cons_of_any hany
    have hless := work_lt f stack
    rw [hstack] at hwork
    omega
  | succ n ih =>
    obtain ⟨f, stack, hstack, hf⟩ := exists_cons_of_any hany
    obtain ⟨hsent, hless, hnext⟩ := ret_spec cfg none smooth hstack
    rw [hstack] at hwork
    refine .of_ret ?_
    rcases hnext with ⟨hover, hhead⟩ | ⟨g, hagain, hhinting, hresponds⟩
    · rcases hf with hf | hf
      · exact .of_broken (hit x f stack hstack hf h hsent hhead)
      · exact ih _ (by omega) (by rw [hover]; exact hf) (keep x hsent h)
    · refine ih _ (by omega) ?_ (keep x hsent h)
      rw [hagain, any_cons, Bool.or_eq_true, hsame f g hhinting hresponds]
      exact hf

/-- **A 103 after the final head**: a call of `fpm_send_early_hints()` that waits has
only to go on. -/
theorem doomed_of_hinting (cfg : Config) (x : Exec) (hhinting : x.r.stack.any Frame.hinting = true)
    (htold : told x.r.sent ≠ .hints) : Doomed cfg x := by
  refine doomed_of_any cfg (fun _ _ hh _ => hh)
    (fun x hsent h => (told_of_extended hsent).1 h) ?_ _ x le_rfl hhinting htold
  intro x f stack _ hf h _ hhead
  obtain ⟨headers, hhead⟩ := hhead hf
  rw [hhead, told_append]
  exact Told.hint_of_not_hints h headers

lemma doomed_of_late (cfg : Config) (text : Option Bytes) (o : Outcome)
    (hhinting : x.r.stack.head?.any Frame.hinting = true) (htold : told x.r.sent ≠ .hints) :
    Doomed cfg (x.ret cfg text o) := by
  cases hstack : x.r.stack with
  | nil =>
    rw [hstack] at hhinting
    exact nomatch hhinting
  | cons f stack =>
    rw [hstack] at hhinting
    obtain ⟨hsent, -, ⟨-, hhead⟩ | ⟨g, hagain, hsame, -⟩⟩ := ret_spec cfg text o hstack
    · obtain ⟨headers, hhead⟩ := hhead hhinting
      refine .of_broken ?_
      rw [hhead, told_append]
      exact Told.hint_of_not_hints htold headers
    · refine doomed_of_hinting cfg _ ?_ ((told_of_extended hsent).1 htold)
      rw [hagain, any_cons, hsame, show f.hinting = true from hhinting]
      rfl

structure Ready (r : Run) : Prop where
  http : r.http = true
  alive : r.conn.alive = true
  sent : r.headers_sent = true
  framing : Framing r

lemma Ready.pop (h : Ready r) (stack : List Frame) : Ready { r with stack := stack } :=
  ⟨h.http, h.alive, h.sent, ⟨h.framing.fault, h.framing.sent, h.framing.accepted⟩⟩

lemma Ready.send_headers (h : Ready r) : Ready r.sapi_send_headers := by
  have hframing := send_headers_framing h.framing
  rw [send_headers_spec] at hframing ⊢
  exact ⟨h.http, h.alive, rfl, hframing⟩

namespace Exec

lemma stream_begin_ready (h : Ready x.r) : Ready (fpm_direct_stream_begin cfg x).r := by
  obtain ⟨-, hhttp, halive, hsent⟩ := stream_begin_fields cfg x
  exact ⟨hhttp.trans h.http, halive.trans h.alive, hsent.trans h.sent,
    stream_begin_framing h.framing h.sent⟩

lemma chunk_ready (h : Ready x.r) : Ready x.chunk.r := by
  obtain ⟨-, hkept, hconn, hhttp, -⟩ := chunk_spec x
  exact ⟨hhttp.trans h.http, hconn ▸ h.alive, hkept.headers_sent.trans h.sent,
    (chunk_moves x).framing h.framing⟩

lemma flush_ready (h : Ready x.r) : Ready (fpm_direct_flush cfg false x).r := by
  refine flush_keeps (P := fun z => Ready z.r) false h.sent h (stream_begin_ready h) fun z _ hz => ?_
  unfold fpm_direct_stream_push
  rw [if_neg (by simp [hz.http])]
  exact chunk_ready hz

/-- **`fpmng_respond()` on a request that can be answered answers it**, whatever was
handed over before. -/
theorem respond_ready (cfg : Config) (h : Ready x.r) :
    Ready (fpmng_respond cfg smooth x).r ∧ x.r.sent ≠ (fpmng_respond cfg smooth x).r.sent := by
  unfold fpmng_respond
  split
  · rename_i hstreaming
    have hfinish : fpm_direct_stream_finish cfg true smooth
        { x with w := x.w.fpm_direct_retire cfg } =
          (chunk { x with w := x.w.fpm_direct_retire cfg }).send_reply_end.queued := by
      unfold fpm_direct_stream_finish
      simp [h.http, h.framing.accepted hstreaming h.http, h.alive, smooth, fpm_direct_stream_pump]
    rw [hfinish]
    have hchunk : Ready (chunk { x with w := x.w.fpm_direct_retire cfg }).r := chunk_ready h
    obtain ⟨hfault, hsent, haccepted⟩ := hchunk.framing
    refine ⟨⟨hchunk.http, hchunk.alive, hchunk.sent, ⟨hfault, hsent, haccepted⟩⟩, fun heq => ?_⟩
    have hmore := (chunk_moves { x with w := x.w.fpm_direct_retire cfg }).sent.length_le
    have hlen := congrArg length heq
    simp only [queued, send_reply_end, set_http, set_closecb, hand,
      length_append, length_singleton] at hlen
    dsimp only at hmore
    omega
  · obtain ⟨hmoves, hsent⟩ := send_buffered_moves cfg x
    obtain ⟨-, -, -, -, -, -, -, hhttp, halive⟩ := final_fields x.r
    obtain ⟨hfault, hstream, haccepted⟩ := hmoves.framing h.framing
    refine ⟨⟨hhttp.trans h.http, halive.trans h.alive, hmoves.headers_sent.trans h.sent,
      ⟨hfault, hstream, haccepted⟩⟩, fun heq => ?_⟩
    have hlen := congrArg length (heq.trans hsent)
    simp at hlen

lemma ret_ready (h : Ready x.r) : Ready (x.ret cfg none smooth).r := by
  unfold ret
  split
  · exact h
  · exact (h.pop _).send_headers
  · rename_i sending stack hstack
    cases sending with
    | true => exact flush_ready (h.pop stack).send_headers
    | false => exact flush_ready (h.pop stack)
  · rename_i stack hstack
    split
    · exact (respond_ready cfg (h.pop stack)).1
    · exact h.pop _
  · exact (respond_ready cfg (h.pop _).send_headers).1
  · rename_i name rest total validated stack hstack
    generalize fpm_direct_early_hint_add cfg total validated name none = added
    obtain ⟨-, ⟨headers, hr⟩ | ⟨name', rest', total', validated', -, hr⟩⟩ :=
      hint_loop_spec cfg { x with r := { x.r with stack := stack } } added.1 added.2 rest
    · dsimp only
      rw [hr]
      exact ⟨h.http, h.alive, h.sent, ⟨h.framing.fault, h.framing.sent, h.framing.accepted⟩⟩
    · dsimp only
      rw [hr]
      exact h.pop _

lemma ret_responds (hstack : x.r.stack = f :: stack) (hf : f.responds = true) (h : Ready x.r) :
    x.r.sent ≠ (x.ret cfg none smooth).r.sent := by
  unfold ret
  rw [hstack]
  cases f with
  | header => cases hf
  | flush sending | hints name rest total validated => simp [Frame.responds] at hf
  | respond_output =>
    dsimp only
    rw [if_pos h.sent]
    exact (respond_ready cfg (x := ⟨x.w, { x.r with stack := stack }⟩) (h.pop stack)).2
  | respond_headers =>
    have hne := (respond_ready cfg
      (x := ⟨x.w, sapi_send_headers { x.r with stack := stack }⟩) (h.pop stack).send_headers).2
    have hsame : (sapi_send_headers { x.r with stack := stack }).sent = x.r.sent := by
      rw [send_headers_spec]
    rwa [hsame] at hne

end Exec

/-- **A second response**: a call of `fpmng_respond()` whose request was answered in
the meantime has only to go on. -/
theorem doomed_of_responding (cfg : Config) (x : Exec)
    (hresponds : x.r.stack.any Frame.responds = true) (hready : Ready x.r)
    (htold : told x.r.sent = .done ∨ told x.r.sent = .broken) : Doomed cfg x := by
  refine doomed_of_any
    (P := fun x => Ready x.r ∧ (told x.r.sent = .done ∨ told x.r.sent = .broken)) cfg
    (fun _ _ _ hr => hr) ?_ ?_ _ x le_rfl hresponds ⟨hready, htold⟩
  · exact fun x hsent h => ⟨ret_ready h.1, ((told_of_extended hsent).2 h.2).1⟩
  · intro x f stack hstack hf h hsent _
    exact ((told_of_extended hsent).2 h.2).2 (ret_responds hstack hf h.1)

lemma respond_first (cfg : Config) (hgood : Good x) (hspoken : Spoken x.r)
    (hframing : Framing x.r) (hsent : x.r.headers_sent = true) (hhttp : x.r.http = true)
    (hresponded : x.r.responded = false) :
    Ready (fpmng_respond cfg smooth x).r ∧
      told (fpmng_respond cfg smooth x).r.sent = .done := by
  have halive : x.r.conn.alive = true := by
    cases hgood.stage with
    | buffered q streaming responded http conn | live q streaming responded http conn => rw [conn]
    | lost streaming http => simp [http] at hhttp
    | answered q responded => simp [hresponded] at responded
  have hready := (respond_ready cfg ⟨hhttp, halive, hsent, hframing⟩).1
  refine ⟨hready, ?_⟩
  have hover : (fpmng_respond cfg smooth x).r.responded = true := rfl
  have hsaid : Spoken (fpmng_respond cfg smooth x).r :=
    respond_spoken smooth hgood.stage hresponded hspoken
  cases hsaid with
  | quiet streaming responded | begun streaming responded => simp [responded] at hover
  | cut streaming http => exact absurd hready.http (by simp [http])
  | done responded sent => exact sent

lemma doomed_of_nested (cfg : Config) (hgood : Good x) (hspoken : Spoken x.r)
    (hframing : Framing x.r) (hhttp : x.r.http = true) (hresponded : x.r.responded = false)
    (hnested : x.r.responding ≠ 0) : Doomed cfg (x.call cfg .respond) := by
  have hany : x.r.stack.any Frame.responds = true := by
    obtain ⟨f, hmem, hf⟩ := countP_pos_iff.mp (Nat.pos_of_ne_zero hnested)
    exact any_eq_true.mpr ⟨f, hmem, hf⟩
  have hcall : x.call cfg .respond = { x with r := x.r.push .respond_output } := by
    simp [call, hhttp, hresponded]
  -- the inner call goes on to its end, and the outer one is next
  have hinner : ∀ y : Exec, Good y → Spoken y.r → Framing y.r → y.r.headers_sent = true →
      y.r.http = true → y.r.responded = false → y.r.stack = x.r.stack →
      Doomed cfg (fpmng_respond cfg smooth y) := by
    intro y hy hsp hfr hs hh hr hstack
    obtain ⟨hready, htold⟩ := respond_first cfg hy hsp hfr hs hh hr
    refine doomed_of_responding cfg _ ?_ hready (.inl htold)
    rw [(respond_extends cfg smooth y).stack, hstack]
    exact hany
  rw [hcall]
  refine .of_ret ?_
  cases hsent : x.r.headers_sent with
  | true =>
    have hret : ret cfg none smooth { x with r := x.r.push .respond_output } =
        fpmng_respond cfg smooth x := if_pos hsent
    rw [hret]
    exact hinner x hgood hspoken hframing hsent hhttp hresponded rfl
  | false =>
    have hret : ret cfg none smooth { x with r := x.r.push .respond_output } =
        { x with r := x.r.push .respond_headers } := if_neg (Bool.eq_false_iff.mp hsent)
    rw [hret]
    refine .of_ret ?_
    have hspoken' : Spoken x.r.sapi_send_headers := by
      rw [send_headers_spec]
      exact hspoken.congr rfl rfl rfl rfl rfl fun _ hempty => hempty
    obtain ⟨hs, hr, hstack⟩ := send_headers_fields x.r
    have hh : x.r.sapi_send_headers.http = true := by
      rw [send_headers_spec]
      exact hhttp
    exact hinner ⟨x.w, x.r.sapi_send_headers⟩ (send_headers_good hgood) hspoken'
      (send_headers_framing hframing) hs hh (hr.trans hresponded) hstack

lemma init_sound : Sound init :=
  ⟨⟨fun c hc => absurd hc not_mem_nil, rfl, fun b hb => absurd hb not_mem_nil,
      fun e he => absurd he not_mem_nil, rfl⟩,
    fun e he => absurd he not_mem_nil, by simp [init], by simp [init]⟩

lemma not_one_response {x : World} (hsent : x.run.map Run.sent = some sent)
    (h : told sent = .broken) : ¬ OneResponse x := by
  intro hone
  obtain ⟨r, hr, rfl⟩ := map_eq_some_iff.mp hsent
  rcases hone.running r hr with hshape | hshape | hshape
  · exact nomatch hshape.told.symm.trans h
  · exact nomatch hshape.told.symm.trans h
  · exact nomatch hshape.told.symm.trans h

/-- **One response.** A run of clean steps gives every request one response. After the
first step that is not clean the script can go on so that it does not. -/
theorem one_response_of_clean (cfg : Config) (events : List Event) :
    (Along (step cfg) Clean init events → OneResponse (run cfg events)) ∧
      ∀ e, Along (step cfg) Clean init events → ¬ Clean (run cfg events) e →
        ∃ more, ¬ OneResponse (run cfg (events ++ e :: more)) := by
  have hsound : Along (step cfg) Clean init events → Sound (run cfg events) :=
    fun hclean => run_invariant_along (fun _ _ hc hs => sound_step hc hs) _ _ hclean init_sound
  refine ⟨fun hclean => (hsound hclean).one_response, fun e hclean hnot => ?_⟩
  have hs := hsound hclean
  -- only what comes after the clean steps matters
  suffices ∃ more, ¬ OneResponse (Runs.run (step cfg) ((run cfg events).step cfg e) more) by
    obtain ⟨more, hmore⟩ := this
    refine ⟨more, ?_⟩
    rw [run, Runs.run, foldl_append]
    exact hmore
  generalize run cfg events = x at hs hnot ⊢
  by_contra hall
  push Not at hall
  have hdoomed : ∀ y : Exec, x.step cfg e = ⟨y.w, some y.r⟩ → ¬ Doomed cfg y := by
    rintro y hy ⟨more, r, hr, hbroken⟩
    rw [← hy] at hr
    exact not_one_response (congrArg (Option.map Run.sent) hr) hbroken (hall more)
  refine hnot ⟨?_, ?_⟩
  · cases e with
    | script s =>
      intro r hr
      cases s with
      | call c =>
        cases c with
        | respond =>
          intro hhttp hresponded
          by_contra hnested
          refine hdoomed (call cfg ⟨x.w, r⟩ .respond) ?_ (doomed_of_nested cfg (hs.inv.good hr)
            (hs.spoken r hr) (hs.framing r hr) hhttp hresponded hnested)
          simp only [step, hr]
          rfl
        | _ => trivial
      | _ => trivial
    | _ => trivial
  · cases e with
    | script s =>
      cases s with
      | ret text o =>
        intro r hr hhinting
        by_contra htold
        refine hdoomed (ret cfg text o ⟨x.w, r⟩) ?_ (doomed_of_late cfg text o hhinting htold)
        simp only [step, hr]
        rfl
      | _ => trivial
    | _ => trivial

instance (r : Run) : Decidable r.Unheard :=
  inferInstanceAs (Decidable (r.stack.head?.any Frame.hinting = true → told r.sent = .hints))

instance (x : World) (e : Event) : Decidable (InTime x e) := by
  unfold InTime
  split <;> infer_instance

instance (x : World) (e : Event) : Decidable (Clean x e) :=
  decidable_of_iff (Single x e ∧ InTime x e)
    ⟨fun h => ⟨h.1, h.2⟩, fun h => ⟨h.single, h.in_time⟩⟩

def page : Admission := ⟨true, true, false, false, none, true, true, 200⟩

def hints_and_stream : List Event :=
  [.accept, .request 0 .get 1 1 page, .script (.call (.hints [⟨some (str "Link"), [.object]⟩])),
    .script (.ret (some (str "</a>")) smooth), .script (.call .flush), .script (.ret none smooth),
    .script (.write (str "a") fun _ => false), .script .finish, .leave smooth]

theorem one_response_hints_and_stream :
    OneResponse (run (pool true true) hints_and_stream) ∧
      (run (pool true true) hints_and_stream).w.ended.map (·.sent) =
        [[.hint [(str "Link", str "</a>")], .start 200, .chunk (str "a"), .last]] :=
  ⟨(one_response_of_clean (pool true true) hints_and_stream).1 (by decide),
    by decide⟩

/-- The header callback that `fpmng_respond()` runs calls `fpmng_respond()`. -/
def nested_respond : List Event :=
  [.accept, .request 0 .get 1 1 page, .script (.call .respond), .script (.ret none smooth),
    .script (.call .respond), .script (.ret none smooth), .script (.ret none smooth),
    .script (.ret none smooth)]

/-- The `__toString` that `fpm_send_early_hints()` runs calls `fpmng_respond()`. -/
def respond_in_hint : List Event :=
  [.accept, .request 0 .get 1 1 page, .script (.call (.hints [⟨some (str "Link"), [.object]⟩])),
    .script (.call .respond), .script (.ret none smooth), .script (.ret none smooth),
    .script (.ret (some (str "</a>")) smooth)]

/-- Two responses to one request, and a 103 after the response. -/
theorem second_response_or_late_hint :
    ((run (pool false false) nested_respond).run.map Run.sent =
        some [.reply 200 [], .reply 200 []] ∧
      ¬ OneResponse (run (pool false false) nested_respond)) ∧
    ((run (pool false false) respond_in_hint).run.map Run.sent =
        some [.reply 200 [], .hint [(str "Link", str "</a>")]] ∧
      ¬ OneResponse (run (pool false false) respond_in_hint)) := by
  have hnested : (run (pool false false) nested_respond).run.map Run.sent =
      some [.reply 200 [], .reply 200 []] := by decide
  have hhint : (run (pool false false) respond_in_hint).run.map Run.sent =
      some [.reply 200 [], .hint [(str "Link", str "</a>")]] := by decide
  exact ⟨⟨hnested, not_one_response hnested rfl⟩, hhint, not_one_response hhint rfl⟩

end FpmNg.ClassicExecutor
