/-
The response reader against its one-byte view: `fpm_http_http_body` and
`fpm_http_http_data` call what `http_run` says, in pieces that depend on the
reads, and come to its verdict.
-/
import FpmNg.HttpReader

open ByteScan WhileLoop Bool

namespace FpmNg.HttpReply

open HttpState

/-! ## Calls -/

inductive Call (β : Type) where
  | start (block : Bytes) (head : List β)
  | alloc
  | stdout (data : List β) (nonempty : data ≠ [])

variable {framing : Framing}

section
variable {σ β : Type} {http : HttpState β}

def Call.acts : Call β → List (Act β)
  | .start block head => [.start block head]
  | .alloc => []
  | .stdout data _ => data.map .byte

def Call.apply (ops : HttpOps σ β) (st : σ) : Call β → σ
  | .start block head => ops.start st block head
  | .alloc => (ops.alloc st).2
  | .stdout data _ => ops.stdout st data

def HttpState.in_body (http : HttpState β) : Phase β :=
  .body http.body http.remaining http.line http.expect_eof

/-- The limits a read can run into: a head, or a chunk-size line, that has not
ended. -/
def Phase.overlong : Phase β → Prop
  | .head l => l.length > FPM_HTTP_HTTP_MAX_HEAD
  | .body .CHUNK_SIZE _ line _ => line.length > LINE_MAX
  | .body _ _ _ _ => False

/-- The verdict is the byte machine's, with its phase and its rest where these
matter, or a limit was hit where the machine would have gone on. -/
def Agrees (r : Result β) (v : Verdict) (ph : Phase β) (rest : List β) : Prop :=
  (v = r.verdict ∧ (v = .fail ∨ ph = r.phase ∧ rest = r.rest))
    ∨ (v = .fail ∧ r.verdict = .more ∧ r.phase.overlong)

/-- A body that is under way: payload is not used up, a line is not too long. -/
structure HttpState.Open (http : HttpState β) : Prop where
  payload : http.body = .CL ∨ http.body = .CHUNK_DATA → 0 < http.remaining
  line : http.body = .CHUNK_SIZE ∨ http.body = .TRAILERS → http.line.length ≤ LINE_MAX

lemma HttpState.open_of_line {b : Body} (hb : http.body = b)
    (h : b ≠ .CL ∧ b ≠ .CHUNK_DATA) (hline : http.line.length ≤ LINE_MAX) : http.Open := by
  subst hb
  exact ⟨fun hc => hc.elim (fun hc => absurd hc h.1) fun hc => absurd hc h.2, fun _ => hline⟩

lemma HttpState.Open.short (h : http.Open) : ¬ http.in_body.overlong := by
  unfold HttpState.in_body
  cases hb : http.body with
  | CHUNK_SIZE => exact Nat.not_lt.mpr (h.line (.inl hb))
  | _ => exact id

variable {val : β → UInt8} {mode : Mode} {ops : HttpOps σ β}

variable {d : BodyData σ β}

lemma take_payload_eq (hbuf : d.buf ≠ []) (hrem : 0 < d.http.remaining) :
    take_payload ops d
      = { st := ops.stdout d.st (d.buf.take (min d.http.remaining d.buf.length))
          http := { d.http with
            remaining := d.http.remaining - min d.http.remaining d.buf.length }
          buf := d.buf.drop (min d.http.remaining d.buf.length)
          rc := d.rc } := by
  have hpos := List.length_pos_iff.mpr hbuf
  unfold take_payload
  rw [if_neg (by omega)]

lemma take_min_ne_nil {l : List β} (hl : l ≠ []) {n : ℕ} (hn : 0 < n) :
    l.take (min n l.length) ≠ [] := by
  have hpos := List.length_pos_iff.mpr hl
  intro h
  have := congrArg List.length h
  rw [List.length_take, List.length_nil] at this
  omega

variable (val mode ops) in
/-- What a pass is to do: go round again behind a part of the buffer that decides
nothing, or leave with what the machine says of all of it. -/
def PassSpec (d : BodyData σ β) : Pass (BodyData σ β) → Prop
  | .again d' =>
    ∃ (x : List β) (calls : List (Call β)), x ≠ [] ∧ d.buf = x ++ d'.buf
      ∧ http_run val mode d.http.in_body x
        = { phase := d'.http.in_body, acts := calls.flatMap Call.acts, verdict := .more, rest := [] }
      ∧ d'.st = calls.foldl (Call.apply ops) d.st ∧ d'.http.Open
      ∧ d'.http.head_done = d.http.head_done
  | .leave d' =>
    ∃ calls : List (Call β),
      calls.flatMap Call.acts = (http_run val mode d.http.in_body d.buf).acts
      ∧ d'.st = calls.foldl (Call.apply ops) d.st
      ∧ Agrees (http_run val mode d.http.in_body d.buf) d'.rc d'.http.in_body d'.buf
      ∧ (d'.rc = .more → d'.http.Open) ∧ d'.http.head_done = d.http.head_done

lemma in_body_eq {b : Body} (hb : http.body = b) :
    http.in_body = .body b http.remaining http.line http.expect_eof := by
  rw [← hb]
  rfl

lemma leave_of_run {d d' : BodyData σ β} (calls : List (Call β))
    (hrun : http_run val mode d.http.in_body d.buf = { phase := d'.http.in_body
                                                       acts := calls.flatMap Call.acts
                                                       verdict := d'.rc, rest := d'.buf })
    (hst : d'.st = calls.foldl (Call.apply ops) d.st) (hopen : d'.rc = .more → d'.http.Open)
    (hdone : d'.http.head_done = d.http.head_done) : PassSpec val mode ops d (.leave d') := by
  refine ⟨calls, by rw [hrun], hst, ?_, hopen, hdone⟩
  rw [hrun]
  exact .inl ⟨rfl, .inr ⟨rfl, rfl⟩⟩

lemma leave_failed {d d' : BodyData σ β} (hst : d'.st = d.st) (hrc : d'.rc = .fail)
    (hdone : d'.http.head_done = d.http.head_done)
    (hrun : (http_run val mode d.http.in_body d.buf).verdict = .fail
      ∧ (http_run val mode d.http.in_body d.buf).acts = []) : PassSpec val mode ops d (.leave d') := by
  refine ⟨[], hrun.2.symm, hst, .inl ⟨hrc.trans hrun.1.symm, .inl hrc⟩, fun h => ?_, hdone⟩
  exact nomatch hrc.symm.trans h

lemma length_pass_spec (hbuf : d.buf ≠ []) (hb : d.http.body = .CL)
    (hopen : d.http.Open) : PassSpec val mode ops d (length_pass ops d) := by
  have hrem := hopen.payload (.inl hb)
  generalize hn : min d.http.remaining d.buf.length = n
  have hlen : (d.buf.take n).length = n := by rw [List.length_take]; omega
  have hne : d.buf.take n ≠ [] := by rw [← hn]; exact take_min_ne_nil hbuf hrem
  -- the machine takes the same bytes, and leaves the rest when they were the last
  have hrun : http_run val mode d.http.in_body d.buf
      = { phase := .body .CL (d.http.remaining - n) d.http.line d.http.expect_eof
          acts := (d.buf.take n).map .byte
          verdict := if d.http.remaining - n = 0 then .complete else .more
          rest := d.buf.drop n } := by
    conv_lhs => rw [← List.take_append_drop n d.buf]
    rw [http_run_append, in_body_eq hb, http_run_length val mode _ hne (by omega), hlen]
    unfold Result.andThen
    by_cases hz : d.http.remaining - n = 0
    · rw [if_pos hz, if_neg Verdict.noConfusion]
      rfl
    · have hall : d.buf.drop n = [] := List.drop_of_length_le (by omega)
      rw [if_neg hz, if_pos rfl, hall]
      simp [http_run]
  unfold length_pass
  rw [take_payload_eq hbuf hrem, hn]
  refine leave_of_run [.stdout (d.buf.take n) hne] ?_ rfl (fun hmore => ?_) rfl
  · rw [hrun]
    simp [Call.acts, HttpState.in_body, hb]
  · refine ⟨fun _ => ?_, fun hc => by simp [hb] at hc⟩
    dsimp only at hmore ⊢
    by_contra hz
    rw [if_pos (by omega)] at hmore
    cases hmore

lemma size_pass_spec (hb : d.http.body = .CHUNK_SIZE) :
    PassSpec val mode ops d (size_pass val d) := by
  unfold size_pass
  cases hcut : cut (fun b => val b == LF) d.buf with
  | none =>
    have hrun : http_run val mode d.http.in_body d.buf
        = { phase := .body .CHUNK_SIZE d.http.remaining (d.http.line ++ d.buf) d.http.expect_eof
            acts := [], verdict := .more, rest := [] } := by
      rw [in_body_eq hb, http_run_size_open val mode _ ((cut_eq_none_iff _ _).mp hcut)]
    -- an unfinished line that is too long fails the source but not the machine
    by_cases hlong : (d.http.line ++ d.buf).length > LINE_MAX
    · rw [if_pos hlong]
      refine ⟨[], by rw [hrun]; rfl, rfl, ?_, by simp, rfl⟩
      rw [hrun]
      exact .inr ⟨rfl, rfl, hlong⟩
    · rw [if_neg hlong]
      refine leave_of_run [] (hrun.trans ?_) rfl (fun _ => ?_) rfl
      · simp [HttpState.in_body, hb]
      · exact HttpState.open_of_line hb (by decide) (Nat.le_of_not_gt hlong)
  | some xy =>
    obtain ⟨x, rest⟩ := xy
    obtain ⟨b, hlf, hsplit, hfree⟩ := cut_eq_some hcut
    have hline := http_run_size_open val mode (n := d.http.remaining) (l := d.http.line)
      (e := d.http.expect_eof) x hfree
    dsimp only
    cases hsize : chunk_size ((d.http.line ++ x).map val) with
    | none =>
      have hstep : http_byte val mode (.body .CHUNK_SIZE d.http.remaining (d.http.line ++ x)
          d.http.expect_eof) b
          = (.body .CHUNK_SIZE d.http.remaining (d.http.line ++ x) d.http.expect_eof, [],
              .fail) := by
        simp only [http_byte, body_byte]
        rw [if_pos (beq_iff_eq.mp hlf), hsize]
      refine leave_failed rfl rfl rfl ?_
      rw [in_body_eq hb, hsplit, http_run_line_stop hline hstep (by decide)]
      exact ⟨rfl, rfl⟩
    | some n =>
      have hstep : http_byte val mode (.body .CHUNK_SIZE d.http.remaining (d.http.line ++ x)
          d.http.expect_eof) b
          = (.body (if n ≠ 0 then .CHUNK_DATA else .TRAILERS) n [] d.http.expect_eof, [],
              .more) := by
        simp only [http_byte, body_byte]
        rw [if_pos (beq_iff_eq.mp hlf), hsize]
      -- the pass takes the line, and leaves what follows to the next one
      refine ⟨x ++ [b], [], by simp, by rw [hsplit]; simp, ?_, rfl, ⟨?_, fun _ => Nat.zero_le _⟩, rfl⟩
      · rw [in_body_eq hb, http_run_line_more hline hstep]
        rfl
      · intro hc
        dsimp only at hc ⊢
        split at hc
        · omega
        · simp at hc

lemma payload_pass_spec (hbuf : d.buf ≠ []) (hb : d.http.body = .CHUNK_DATA)
    (hopen : d.http.Open) : PassSpec val mode ops d (payload_pass ops d) := by
  have hrem := hopen.payload (.inr hb)
  generalize hn : min d.http.remaining d.buf.length = n
  have hlen : (d.buf.take n).length = n := by rw [List.length_take]; omega
  have hne : d.buf.take n ≠ [] := by rw [← hn]; exact take_min_ne_nil hbuf hrem
  have hrun : http_run val mode d.http.in_body (d.buf.take n)
      = { phase := .body (if d.http.remaining - n = 0 then .CHUNK_CRLF else .CHUNK_DATA)
            (d.http.remaining - n) d.http.line d.http.expect_eof
          acts := (d.buf.take n).map .byte, verdict := .more, rest := [] } := by
    rw [in_body_eq hb, http_run_chunk_data val mode _ hne (by omega), hlen]
  unfold payload_pass
  rw [take_payload_eq hbuf hrem, hn]
  by_cases hz : d.http.remaining - n = 0
  · rw [if_pos hz]
    rw [if_pos hz] at hrun
    refine ⟨d.buf.take n, [.stdout (d.buf.take n) hne], hne, (List.take_append_drop _ _).symm, ?_, rfl, ?_,
      rfl⟩
    · rw [hrun]
      simp [Call.acts, HttpState.in_body]
    · exact ⟨fun hc => by simp at hc, fun hc => by simp at hc⟩
  · rw [if_neg hz]
    have hall : d.buf.take n = d.buf := List.take_of_length_le (by omega)
    have hnone : d.buf.drop n = [] := List.drop_of_length_le (by omega)
    rw [hall, if_neg hz] at hrun
    refine leave_of_run [.stdout (d.buf.take n) hne] ?_ rfl (fun _ => ?_) rfl
    · rw [hrun]
      simp [Call.acts, hall, hnone, HttpState.in_body, hb]
    · exact ⟨fun _ => Nat.pos_of_ne_zero hz, fun hc => by simp [hb] at hc⟩

variable (val mode) in
lemma http_byte_crlf (n : ℕ) (line : List β) (e : Bool) (x : β) :
    http_byte val mode (.body .CHUNK_CRLF n line e) x
      = if line ≠ [] then
          if val x = LF then (.body .CHUNK_SIZE n [] e, [], .more)
          else (.body .CHUNK_CRLF n line e, [], .fail)
        else if val x = CR then (.body .CHUNK_CRLF n [x] e, [], .more)
        else (.body .CHUNK_CRLF n line e, [], .fail) := rfl

lemma byte_fails {ph ph' : Phase β} {x : β} (hstep : http_byte val mode ph x = (ph', [], .fail))
    (rest : List β) : (http_run val mode ph (x :: rest)).verdict = .fail
      ∧ (http_run val mode ph (x :: rest)).acts = [] := by
  rw [http_run_cons_stop hstep (by decide)]
  exact ⟨rfl, rfl⟩

lemma crlf_pass_spec (hbuf : d.buf ≠ []) (hb : d.http.body = .CHUNK_CRLF) :
    PassSpec val mode ops d (crlf_pass val d) := by
  have hphase := in_body_eq hb
  unfold crlf_pass
  by_cases hline : d.http.line = []
  · rw [if_neg (not_not.mpr hline)]
    have hstep : ∀ x, http_byte val mode d.http.in_body x
        = if val x = CR then (.body .CHUNK_CRLF d.http.remaining [x] d.http.expect_eof, [], .more)
          else (.body .CHUNK_CRLF d.http.remaining d.http.line d.http.expect_eof, [], .fail) := by
      intro x
      rw [hphase, http_byte_crlf, if_neg (not_not.mpr hline)]
    -- the source looks for both bytes at once, the machine for one at a time
    rcases hcase : d.buf with _ | ⟨b, _ | ⟨b', rest⟩⟩
    · exact absurd hcase hbuf
    · dsimp only
      have hone := hstep b
      by_cases hcr : val b = CR
      · rw [if_pos hcr] at hone ⊢
        refine leave_of_run [] ?_ rfl (fun _ => ?_) rfl
        · rw [hcase, http_run_cons_more hone]
          simp [http_run, HttpState.in_body, hb]
        · exact HttpState.open_of_line hb (by decide) (by simp [LINE_MAX])
      · rw [if_neg hcr] at hone ⊢
        refine leave_failed rfl rfl rfl ?_
        rw [hcase]
        exact byte_fails hone _
    · dsimp only
      have hone := hstep b
      by_cases hcr : val b = CR
      · rw [if_pos hcr] at hone
        have htwo := http_byte_crlf val mode d.http.remaining [b] d.http.expect_eof b'
        by_cases hlf : val b' = LF
        · rw [if_pos ⟨hcr, hlf⟩]
          rw [if_pos hlf] at htwo
          refine ⟨[b, b'], [], by simp, hcase, ?_, rfl, ?_, rfl⟩
          · rw [http_run_cons_more hone, http_run_cons_more htwo]
            simp [http_run, HttpState.in_body, hline]
          · exact HttpState.open_of_line (b := .CHUNK_SIZE) rfl (by decide) (by simp [hline])
        · rw [if_neg (fun h => hlf h.2)]
          rw [if_neg hlf] at htwo
          refine leave_failed rfl rfl rfl ?_
          rw [hcase, http_run_cons_more hone]
          exact byte_fails htwo _
      · rw [if_neg hcr] at hone
        rw [if_neg (fun h => hcr h.1)]
        refine leave_failed rfl rfl rfl ?_
        rw [hcase]
        exact byte_fails hone _
  · rw [if_pos hline]
    rcases hcase : d.buf with _ | ⟨b, rest⟩
    · exact absurd hcase hbuf
    · dsimp only
      have hone := http_byte_crlf val mode d.http.remaining d.http.line d.http.expect_eof b
      rw [← hphase, if_pos hline] at hone
      by_cases hlf : val b = LF
      · rw [if_pos hlf] at hone
        rw [if_neg (not_not.mpr hlf)]
        refine ⟨[b], [], by simp, hcase, ?_, rfl, ?_, rfl⟩
        · rw [http_run_cons_more hone]
          rfl
        · exact HttpState.open_of_line (b := .CHUNK_SIZE) rfl (by decide) (by simp)
      · rw [if_neg hlf] at hone
        rw [if_pos hlf]
        refine leave_failed rfl rfl rfl ?_
        rw [hcase]
        exact byte_fails hone _

lemma trailer_pass_spec (hb : d.http.body = .TRAILERS)
    (hopen : d.http.Open) : PassSpec val mode ops d (trailer_pass val d) := by
  have hline := hopen.line (.inr hb)
  unfold trailer_pass
  cases hcut : cut (fun b => val b == LF) d.buf with
  | none =>
    have hfree := (cut_eq_none_iff _ _).mp hcut
    by_cases hlong : (d.http.line ++ d.buf).length > LINE_MAX
    · rw [if_pos hlong]
      refine leave_failed rfl rfl rfl ?_
      rw [in_body_eq hb]
      exact http_run_trailer_long val mode d.buf hfree hline hlong
    · rw [if_neg hlong]
      refine leave_of_run [] ?_ rfl (fun _ => ?_) rfl
      · rw [in_body_eq hb, http_run_trailer_open val mode d.buf hfree (Nat.le_of_not_gt hlong)]
        simp [HttpState.in_body, hb]
      · exact HttpState.open_of_line hb (by decide) (Nat.le_of_not_gt hlong)
  | some xy =>
    obtain ⟨x, rest⟩ := xy
    obtain ⟨b, hlf, hsplit, hfree⟩ := cut_eq_some hcut
    dsimp only
    by_cases hlong : (d.http.line ++ x).length > LINE_MAX
    · -- too long, though its end has come: the machine failed inside the line
      have hrun := http_run_trailer_long val mode (n := d.http.remaining)
        (e := d.http.expect_eof) x hfree hline hlong
      rw [if_pos hlong]
      refine leave_failed rfl rfl rfl ?_
      rw [in_body_eq hb, hsplit, http_run_append]
      unfold Result.andThen
      rw [if_neg (by rw [hrun.1]; decide)]
      exact hrun
    rw [if_neg hlong]
    have hrun := http_run_trailer_open val mode (n := d.http.remaining)
      (e := d.http.expect_eof) x hfree (Nat.le_of_not_gt hlong)
    have hstep : http_byte val mode (.body .TRAILERS d.http.remaining (d.http.line ++ x)
        d.http.expect_eof) b = (.body .TRAILERS d.http.remaining [] d.http.expect_eof, [],
          if blank_line ((d.http.line ++ x).map val) then .complete else .more) := by
      simp only [http_byte, body_byte]
      rw [if_pos (beq_iff_eq.mp hlf)]
      split <;> rfl
    by_cases hblank : blank_line ((d.http.line ++ x).map val) = true
    · rw [if_pos hblank] at hstep ⊢
      refine leave_of_run [] ?_ rfl (by simp) rfl
      rw [in_body_eq hb, hsplit, http_run_line_stop hrun hstep (by decide)]
      simp [HttpState.in_body, hb]
    · rw [if_neg hblank] at hstep ⊢
      refine ⟨x ++ [b], [], by simp, by rw [hsplit]; simp, ?_, rfl, ?_, rfl⟩
      · rw [in_body_eq hb, http_run_line_more hrun hstep]
        simp [HttpState.in_body, hb]
      · exact HttpState.open_of_line hb (by decide) (Nat.zero_le _)

variable (val mode ops) in
theorem body_pass_spec (hopen : d.http.Open) :
    PassSpec val mode ops d (body_pass val ops d) := by
  unfold body_pass
  by_cases hbuf : d.buf = []
  · rw [if_pos hbuf]
    exact leave_of_run [] (by rw [hbuf]; rfl) rfl (fun _ => hopen) rfl
  rw [if_neg hbuf]
  split
  · rename_i hb
    exact length_pass_spec hbuf hb hopen
  · rename_i hb
    exact size_pass_spec hb
  · rename_i hb
    exact payload_pass_spec hbuf hb hopen
  · rename_i hb
    exact crlf_pass_spec hbuf hb
  · rename_i hb
    exact trailer_pass_spec hb hopen
  · rename_i hb
    have hrun := http_run_until_close val mode (n := d.http.remaining) (l := d.http.line)
      (e := d.http.expect_eof) d.buf
    rw [← in_body_eq hb] at hrun
    refine leave_of_run [.stdout d.buf hbuf] ?_ rfl (fun _ => hopen) rfl
    rw [hrun]
    simp [Call.acts, HttpState.in_body]

/-- The body loop ends: payload that is used up is followed by a pass that takes
bytes. -/
lemma body_pass_decreases :
    Decreases body_measure (body_pass val ops) (fun d => d.http.Open) where
  keep := by
    intro d d' hopen h
    have hspec := body_pass_spec val { is_head := false, upgrading := false } ops hopen
    rw [h] at hspec
    obtain ⟨-, -, -, -, -, -, hopen', -⟩ := hspec
    exact hopen'
  drop := by
    intro d d' hopen h
    have hspec := body_pass_spec val { is_head := false, upgrading := false } ops hopen
    rw [h] at hspec
    obtain ⟨x, -, hx, hsplit, -, -, -, -⟩ := hspec
    have hpos := List.length_pos_iff.mpr hx
    unfold body_measure
    rw [hsplit, List.length_append]
    split <;> split <;> omega

variable (val mode ops) in
/-- **The body loop** calls what the machine says of the buffer and comes to its
verdict. -/
theorem http_body_run (st : σ) (hopen : http.Open) (buf : List β) :
    ∃ calls : List (Call β), calls.flatMap Call.acts = (http_run val mode http.in_body buf).acts
      ∧ (fpm_http_http_body val ops st http buf).st = calls.foldl (Call.apply ops) st
      ∧ Agrees (http_run val mode http.in_body buf) (fpm_http_http_body val ops st http buf).rc
          (fpm_http_http_body val ops st http buf).http.in_body
          (fpm_http_http_body val ops st http buf).buf
      ∧ ((fpm_http_http_body val ops st http buf).rc = .more →
          (fpm_http_http_body val ops st http buf).http.Open)
      ∧ (fpm_http_http_body val ops st http buf).http.head_done = http.head_done := by
  -- over the loop's own state, whatever `rc` it starts with
  have key : ∀ (k : ℕ) (d : BodyData σ β), body_measure d = k → d.http.Open →
      PassSpec val mode ops d (.leave (loop body_measure (body_pass val ops) d)) := by
    intro k
    induction k using Nat.strongRecOn with
    | ind k ih =>
      intro d hk hopen
      have hspec := body_pass_spec val mode ops hopen
      rw [loop_unfold (body_pass_decreases) d hopen]
      cases hp : body_pass val ops d with
      | leave d' =>
        rw [hp] at hspec
        exact hspec
      | again d' =>
        rw [hp] at hspec
        have hlt := (body_pass_decreases).drop d d' hopen hp
        obtain ⟨x, calls, -, hsplit, hrun, hst, hopen', hdone⟩ := hspec
        obtain ⟨more, hacts, hst', hagree, hmore, hdone'⟩ :=
          ih (body_measure d') (by omega) d' rfl hopen'
        have hwhole : http_run val mode d.http.in_body d.buf
            = { http_run val mode d'.http.in_body d'.buf with
                acts := calls.flatMap Call.acts ++ (http_run val mode d'.http.in_body d'.buf).acts } := by
          rw [hsplit, http_run_append, hrun]
          rfl
        refine ⟨calls ++ more, ?_, ?_, ?_, hmore, hdone'.trans hdone⟩
        · rw [hwhole, List.flatMap_append, hacts]
        · rw [hst', hst, List.foldl_append]
        · rw [hwhole]
          exact hagree
  exact key _ { st := st, http := http, buf := buf, rc := .more } rfl hopen

/-! ## The head buffer -/

structure HttpState.AwaitsHead (http : HttpState β) : Prop where
  head_done : http.head_done = false
  remaining : http.remaining = 0
  line : http.line = []
  expect_eof : http.expect_eof = false

variable (val) in
/-- The part of the head buffer that was scanned has no blank line in it. -/
structure HttpState.Scanned (http : HttpState β) (l x : List β) : Prop where
  awaits : http.AwaitsHead
  head : http.head = l ++ x
  head_scan : http.head_scan = l.length
  clean : findFrom (crlf2 val) 0 l = none

variable (val mode) in
def final_result (block : Bytes) (framing : Framing) (e : Bool) (head tail : List β) : Result β :=
  Result.andThen val mode
    { phase := framing.opened e, acts := [.start block head],
      verdict := if framing = .length 0 then .complete else .more, rest := [] } tail

lemma final_result_empty (block : Bytes) (e : Bool) (head tail : List β) :
    final_result val mode block (.length 0) e head tail
      = { phase := Framing.opened (.length 0) e, acts := [.start block head], verdict := .complete,
          rest := tail } := rfl

variable (val mode) in
lemma final_result_body (block : Bytes) (hne : framing ≠ .length 0) (e : Bool)
    (head tail : List β) :
    final_result val mode block framing e head tail
      = { http_run val mode (framing.opened e) tail with
          acts := [.start block head] ++ (http_run val mode (framing.opened e) tail).acts } := by
  unfold final_result Result.andThen
  rw [if_neg hne, if_pos rfl]

variable (val mode) in
def OutcomeSpec (r : Result β) (http : HttpState β) : HeadOutcome β → Prop
  | .wait =>
    r = { phase := .head http.head, acts := [], verdict := .more, rest := [] }
      ∧ http.Scanned val http.head [] ∧ http.head.length ≤ FPM_HTTP_HTTP_MAX_HEAD
  | .too_long => r.acts = [] ∧ r.verdict = .more ∧ r.phase.overlong
  | .invalid => r.acts = [] ∧ r.verdict = .fail
  | .switch head tail => r = { phase := .head head, acts := [], verdict := .switch, rest := tail }
  | .final block framing e head tail =>
    r = final_result val mode block framing e head tail ∧ http.AwaitsHead

/-- Behind a search that found nothing the scan may resume three bytes early. -/
lemma find_scanned {l x : List β} (h : http.Scanned val l x) :
    findFrom (crlf2 val) (http.head_scan - 3) http.head = findFrom (crlf2 val) 0 (l ++ x) := by
  rw [h.head, h.head_scan]
  exact findFrom_resume (crlf2_window) h.clean x _ (by omega)

lemma after_head_take {h : List β} {i : ℕ} (hi : i + 4 ≤ h.length) :
    after_head val mode (h.take (i + 4)) = head_step (h.take (i + 4))
          (fpm_http_http_head_done mode.is_head mode.upgrading ((h.take (i + 2)).map val)) := by
  have hlen : (h.take (i + 4)).length - 2 = i + 2 := by rw [List.length_take]; omega
  unfold after_head
  rw [hlen, List.take_take, Nat.min_eq_left (by omega)]

variable (val mode) in
theorem rescan_pass_spec {o : HeadOutcome β} {l x : List β}
    (h : http.Scanned val l x) :
    match rescan_pass val mode.is_head mode.upgrading (http, o) with
    | .again s =>
      s.1.Scanned val [] s.1.head ∧ s.1.head.length < http.head.length
        ∧ http_run val mode (.head l) x = http_run val mode (.head []) s.1.head
    | .leave s => OutcomeSpec val mode (http_run val mode (.head l) x) s.1 s.2 := by
  have haw := h.awaits
  unfold rescan_pass
  dsimp only
  rw [find_scanned h]
  cases hi : findFrom (crlf2 val) 0 (l ++ x) with
  | none =>
    have hrun := http_run_head_open val mode l x hi
    -- the next search begins where this one ended
    have hscan : ({ http with head_scan := http.head.length } : HttpState β).Scanned val
        http.head [] := by
      refine ⟨⟨haw.head_done, haw.remaining, haw.line, haw.expect_eof⟩,
        (List.append_nil _).symm, rfl, ?_⟩
      rw [h.head]
      exact hi
    by_cases hlong : http.head.length > FPM_HTTP_HTTP_MAX_HEAD
    · rw [if_pos hlong, hrun]
      refine ⟨rfl, rfl, ?_⟩
      rw [← h.head]
      exact hlong
    · rw [if_neg hlong, hrun, ← h.head]
      exact ⟨rfl, hscan, Nat.le_of_not_gt hlong⟩
  | some i =>
    obtain ⟨-, hlt, hmatch, -⟩ := findFrom_eq_some_iff.mp hi
    have hlen := crlf2_length hmatch
    rw [List.length_drop] at hlen
    have hrun := http_run_head_end val mode l x h.clean hi
    rw [after_head_take (by omega), ← h.head] at hrun
    rw [← h.head] at hlen
    dsimp only
    cases hv : fpm_http_http_head_done mode.is_head mode.upgrading
      ((http.head.take (i + 2)).map val) with
    | invalid =>
      rw [hv] at hrun
      rw [hrun]
      exact ⟨rfl, rfl⟩
    | switch =>
      rw [hv] at hrun
      rw [hrun]
      rfl
    | interim =>
      rw [hv] at hrun
      -- an interim head is dropped; what came behind it is searched at once
      by_cases htail : http.head.drop (i + 4) = []
      · rw [if_neg (not_not.mpr htail), hrun, htail]
        exact ⟨rfl, ⟨⟨haw.head_done, haw.remaining, haw.line, haw.expect_eof⟩, rfl, rfl, rfl⟩,
          Nat.zero_le _⟩
      · rw [if_pos htail]
        refine ⟨⟨⟨haw.head_done, haw.remaining, haw.line, haw.expect_eof⟩, rfl, rfl, rfl⟩, ?_, ?_⟩
        · dsimp only
          rw [List.length_drop]
          omega
        · rw [hrun]
          rfl
    | final block framing e =>
      rw [hv] at hrun
      rw [hrun]
      exact ⟨rfl, ⟨haw.head_done, haw.remaining, haw.line, haw.expect_eof⟩⟩

lemma rescan_decreases :
    Decreases (fun s : HttpState β × HeadOutcome β => s.1.head.length)
      (rescan_pass val mode.is_head mode.upgrading) (fun s => ∃ l x, s.1.Scanned val l x) where
  keep := by
    rintro ⟨http, o⟩ s' ⟨l, x, h⟩ hp
    have hspec := rescan_pass_spec val mode (o := o) h
    rw [hp] at hspec
    exact ⟨_, _, hspec.1⟩
  drop := by
    rintro ⟨http, o⟩ s' ⟨l, x, h⟩ hp
    have hspec := rescan_pass_spec val mode (o := o) h
    rw [hp] at hspec
    exact hspec.2.1

variable (val mode) in
theorem rescan_run {l x : List β} (h : http.Scanned val l x) :
    OutcomeSpec val mode (http_run val mode (.head l) x)
      (rescan val mode.is_head mode.upgrading http).1
      (rescan val mode.is_head mode.upgrading http).2 := by
  unfold rescan
  generalize HeadOutcome.wait = o
  induction hk : http.head.length using Nat.strongRecOn generalizing http o l x with
  | ind k ih =>
    have hspec := rescan_pass_spec val mode (o := o) h
    rw [loop_unfold (rescan_decreases) (http, o) ⟨l, x, h⟩]
    cases hp : rescan_pass val mode.is_head mode.upgrading (http, o) with
    | leave s =>
      rw [hp] at hspec
      exact hspec
    | again s =>
      rw [hp] at hspec
      obtain ⟨hscan, hlt, hrun⟩ := hspec
      rw [hrun]
      obtain ⟨http', o'⟩ := s
      exact ih http'.head.length (by dsimp only at hlt; omega) hscan o' rfl

/-! ## A read -/

def HttpState.phase (http : HttpState β) : Phase β :=
  if http.head_done then http.in_body else .head http.head

variable (val) in
def HttpState.Ready (http : HttpState β) : Prop :=
  if http.head_done then http.Open
  else http.Scanned val http.head [] ∧ http.head.length ≤ FPM_HTTP_HTTP_MAX_HEAD

lemma phase_of_done (h : http.head_done = true) :
    http.phase = http.in_body := if_pos h

lemma phase_of_waiting (h : http.head_done = false) :
    http.phase = .head http.head := if_neg (by simp [h])

lemma ready_of_done (h : http.head_done = true) :
    http.Ready val ↔ http.Open := by
  unfold HttpState.Ready
  rw [if_pos h]

lemma ready_of_waiting (h : http.head_done = false) :
    http.Ready val ↔ http.Scanned val http.head [] ∧ http.head.length ≤ FPM_HTTP_HTTP_MAX_HEAD := by
  unfold HttpState.Ready
  rw [if_neg (by simp [h])]

lemma HttpState.Ready.short (h : http.Ready val) : ¬ http.phase.overlong := by
  cases hdone : http.head_done with
  | true =>
    rw [phase_of_done hdone]
    exact ((ready_of_done hdone).mp h).short
  | false =>
    rw [phase_of_waiting hdone]
    exact Nat.not_lt.mpr ((ready_of_waiting hdone).mp h).2

def Phase.expect_eof : Phase β → Bool
  | .head _ => false
  | .body _ _ _ e => e

def Phase.head_bytes : Phase β → List β
  | .head l => l
  | .body _ _ _ _ => []

variable (ops) in
def HttpOps.conclude (st : σ) (ph : Phase β) (rest : List β) : Verdict → σ
  | .more => st
  | .complete => ops.complete st (ph.expect_eof || !rest.isEmpty)
  | .fail => ops.fail st
  | .switch => ops.switch st ph.head_bytes rest

variable (ops) in
/-- Nothing on the way kills the upstream, and a spent connection is dropped. -/
structure HttpOps.Quiet : Prop where
  start : ∀ st block head, ops.dead (ops.start st block head) = ops.dead st
  alloc : ∀ st, ops.dead (ops.alloc st).2 = ops.dead st
  stdout : ∀ st data, ops.dead (ops.stdout st data) = ops.dead st
  spent : ∀ st, ops.dead (ops.complete st true) = true

lemma HttpOps.Quiet.calls {ops : HttpOps σ β} (h : ops.Quiet) (calls : List (Call β)) (st : σ) :
    ops.dead (calls.foldl (Call.apply ops) st) = ops.dead st := by
  induction calls generalizing st with
  | nil => rfl
  | cons call calls ih =>
    rw [List.foldl_cons, ih]
    cases call with
    | start block head => exact h.start st block head
    | alloc => exact h.alloc st
    | stdout data _ => exact h.stdout st data

variable (val ops) in
/-- A read of bytes of which the machine says `r`: the calls and the verdict are the
machine's. -/
def Agreed (st : σ) (r : Result β) (d : HttpData σ β) : Prop :=
  ∃ (calls : List (Call β)) (v : Verdict) (ph : Phase β) (rest : List β),
    d.st = ops.conclude (calls.foldl (Call.apply ops) st) ph rest v
    ∧ (v = .more → d.http.phase = ph ∧ d.http.Ready val)
    ∧ calls.flatMap Call.acts = r.acts ∧ Agrees r v ph rest

variable (ops) in
def Refused (st : σ) (r : Result β) (d : HttpData σ β) : Prop :=
  ∃ (block : Bytes) (head : List β) (more : List (Act β)), r.acts = .start block head :: more
    ∧ (ops.alloc (ops.start st block head)).1 = false
    ∧ d.st = ops.fail (ops.alloc (ops.start st block head)).2

variable {st : σ}

lemma Agreed.behind {ops : HttpOps σ β} {r r' : Result β} {d : HttpData σ β}
    {b : List (Call β)} (hr : r = { r' with acts := b.flatMap Call.acts ++ r'.acts })
    (h : Agreed val ops (b.foldl (Call.apply ops) st) r' d) : Agreed val ops st r d := by
  obtain ⟨calls, v, ph, rest, hst, hmore, hacts, hagree⟩ := h
  refine ⟨b ++ calls, v, ph, rest, ?_, hmore, ?_, ?_⟩
  · rw [List.foldl_append]
    exact hst
  · rw [hr, List.flatMap_append, hacts]
  · rw [hr]
    exact hagree

variable (val mode) in
lemma http_run_more_rest (ph : Phase β) (x : List β)
    (h : (http_run val mode ph x).verdict = .more) : (http_run val mode ph x).rest = [] := by
  induction x generalizing ph with
  | nil => rfl
  | cons b x ih =>
    rw [http_run] at h ⊢
    split at h
    · rename_i hv
      rw [if_pos hv]
      exact ih _ h
    · rename_i hv
      exact absurd h hv

variable (val) in
lemma body_byte_stays (b : Body) (n : ℕ) (line : List β) (e : Bool) (x : β) :
    (∃ b' n' line', (body_byte val b n line e x).1 = .body b' n' line' e)
      ∧ (body_byte val b n line e x).2.2 ≠ .switch := by
  unfold body_byte
  split
  · exact ⟨⟨_, _, _, rfl⟩, by dsimp only; split <;> decide⟩
  · split
    · split <;> exact ⟨⟨_, _, _, rfl⟩, nofun⟩
    · exact ⟨⟨_, _, _, rfl⟩, nofun⟩
  · exact ⟨⟨_, _, _, rfl⟩, nofun⟩
  · split
    · split <;> exact ⟨⟨_, _, _, rfl⟩, nofun⟩
    · split <;> exact ⟨⟨_, _, _, rfl⟩, nofun⟩
  · split
    · split <;> exact ⟨⟨_, _, _, rfl⟩, nofun⟩
    · exact ⟨⟨_, _, _, rfl⟩, by dsimp only; split <;> decide⟩
  · exact ⟨⟨_, _, _, rfl⟩, nofun⟩

variable (val mode) in
lemma http_run_body_ne_switch (b : Body) (n : ℕ) (line : List β) (e : Bool) (x : List β) :
    (http_run val mode (.body b n line e) x).verdict ≠ .switch := by
  induction x generalizing b n line with
  | nil => exact nofun
  | cons y x ih =>
    obtain ⟨⟨b', n', line', hph⟩, hv⟩ := body_byte_stays val b n line e y
    have hstep : http_byte val mode (.body b n line e) y = body_byte val b n line e y := rfl
    rw [http_run, hstep, hph]
    split
    · exact ih b' n' line'
    · exact hv

def Settled (p : Pass (HttpData σ β)) : Prop := ∀ d, p = .again d → d.buf = []

variable (val ops) in
/-- A pass over bytes of which the machine says `r` is a whole read of them. -/
def Whole (st : σ) (r : Result β) (p : Pass (HttpData σ β)) : Prop :=
  (Agreed val ops st r p.state ∨ Refused ops st r p.state) ∧ Settled p

lemma Settled.leave (d : HttpData σ β) : Settled (.leave d) := fun _ h => nomatch h

lemma Settled.again {d : HttpData σ β} (h : d.buf = []) : Settled (.again d) := by
  intro d' hd
  cases hd
  exact h

lemma complete_pass_state (d : HttpData σ β) :
    (complete_pass ops d).state
      = { d with st := ops.complete d.st d.http.expect_eof, http := reset } := by
  unfold complete_pass
  dsimp only
  split <;> rfl

lemma complete_pass_again {d d' : HttpData σ β} (h : complete_pass ops d = .again d') :
    d'.buf = d.buf ∧ ops.dead (ops.complete d.st d.http.expect_eof) = false := by
  unfold complete_pass at h
  by_cases hdead : ops.dead (ops.complete d.st d.http.expect_eof) = true
  · rw [if_pos hdead] at h
    exact nomatch h
  · rw [if_neg hdead] at h
    cases h
    exact ⟨rfl, not_eq_true _ ▸ hdead⟩

theorem after_body_spec {ops : HttpOps σ β} (hq : ops.Quiet) (hlive : ops.dead st = false)
    (hopen : http.Open) (hdone : http.head_done = true) (x buf : List β)
    (hbuf : buf = [] ∨ buf = (fpm_http_http_body val ops st http x).buf) :
    Agreed val ops st (http_run val mode http.in_body x)
        (after_body ops (fpm_http_http_body val ops st http x) buf).state
      ∧ Settled (after_body ops (fpm_http_http_body val ops st http x) buf) := by
  obtain ⟨calls, hacts, hst, hagree, hmore, hdone'⟩ := http_body_run val mode ops st hopen x
  generalize fpm_http_http_body val ops st http x = b at *
  have hdead : ops.dead b.st = false := by rw [hst, hq.calls, hlive]
  unfold after_body
  rw [if_neg (by simp [hdead])]
  cases hrc : b.rc with
  | fail =>
    refine ⟨⟨calls, .fail, b.http.in_body, b.buf, ?_, nofun, hacts,
      by rw [← hrc]; exact hagree⟩, .leave _⟩
    rw [← hst]
    rfl
  | complete =>
    refine ⟨⟨calls, .complete, b.http.in_body, b.buf, ?_, nofun, hacts,
      by rw [← hrc]; exact hagree⟩, ?_⟩
    · rw [complete_pass_state, ← hst]
      show ops.complete b.st _ = ops.complete b.st (b.http.expect_eof || !b.buf.isEmpty)
      by_cases hb : b.buf = []
      · rw [if_neg (not_not.mpr hb), hb, List.isEmpty_nil, Bool.not_true, Bool.or_false]
      · rw [if_pos hb, List.isEmpty_eq_false_iff.mpr hb, Bool.not_false, Bool.or_true]
    · intro d hd
      obtain ⟨hsame, hdead'⟩ := complete_pass_again hd
      rw [hsame]
      by_cases hb : b.buf = []
      · exact hbuf.elim id (·.trans hb)
      · rw [if_pos hb, hq.spent] at hdead'
        exact absurd hdead'.symm false_ne_true
  | more =>
    rw [hrc] at hagree
    have hrest : b.http.in_body = (http_run val mode http.in_body x).phase
        ∧ b.buf = (http_run val mode http.in_body x).rest
        ∧ (http_run val mode http.in_body x).verdict = .more := by
      rcases hagree with ⟨hv, hfail | ⟨hph, hr⟩⟩ | ⟨hfail, -, -⟩
      · exact nomatch hfail
      · exact ⟨hph, hr, hv.symm⟩
      · exact nomatch hfail
    have hnone : b.buf = [] := hrest.2.1.trans (http_run_more_rest val mode _ x hrest.2.2)
    have hd' : b.http.head_done = true := hdone'.trans hdone
    refine ⟨⟨calls, .more, b.http.in_body, b.buf, hst, ?_, hacts, hagree⟩, ?_⟩
    · intro _
      exact ⟨phase_of_done hd', (ready_of_done hd').mpr (hmore hrc)⟩
    · exact .again (hbuf.elim id (·.trans hnone))
  | switch =>
    -- the body loop never answers this
    exfalso
    rw [hrc] at hagree
    rcases hagree with ⟨hv, -⟩ | ⟨hfail, -, -⟩
    · exact http_run_body_ne_switch val mode _ _ _ _ x hv.symm
    · exact nomatch hfail

lemma frame_in_body (h : http.AwaitsHead) (framing : Framing) (e : Bool) :
    (http.frame framing e).in_body = framing.opened e
      ∧ (http.frame framing e).head_done = true := by
  unfold frame HttpState.in_body Framing.opened
  cases framing <;> simp [h.line, h.expect_eof, h.remaining]

lemma frame_open (h : http.AwaitsHead) (hne : framing ≠ .length 0) (e : Bool) :
    (http.frame framing e).free_head.Open := by
  have hline : http.line.length ≤ LINE_MAX := by
    rw [h.line]
    exact Nat.zero_le _
  cases framing with
  | length n =>
    refine ⟨fun _ => ?_, fun _ => hline⟩
    exact Nat.pos_of_ne_zero (fun hn => hne (by rw [show n = 0 from hn]))
  | chunked => exact HttpState.open_of_line (b := .CHUNK_SIZE) rfl (by decide) hline
  | until_close => exact HttpState.open_of_line (b := .EOF) rfl (by decide) hline

lemma frame_empty (http : HttpState β) (framing : Framing) (e : Bool) :
    ((http.frame framing e).body = .CL ∧ (http.frame framing e).remaining = 0)
      ↔ framing = .length 0 := by
  unfold frame
  cases framing <;> simp

variable (val ops) in
lemma body_of_empty (st : σ) (http : HttpState β) (hb : http.body = .CL)
    (hrem : http.remaining = 0) {x : List β} (hx : x ≠ []) :
    fpm_http_http_body val ops st http x = { st := st, http := http, buf := x, rc := .complete } := by
  have htake : take_payload ops { st := st, http := http, buf := x, rc := .more }
      = { st := st, http := http, buf := x, rc := .more } := by
    unfold take_payload
    rw [hrem, Nat.zero_min, if_pos rfl]
  unfold fpm_http_http_body loop
  rw [iter]
  unfold body_pass
  rw [if_neg hx, hb]
  unfold length_pass
  rw [htake]
  dsimp only
  rw [if_pos hrem]

/-- **A final head without a body.** Bytes behind it spend the connection. -/
theorem start_pass_empty {ops : HttpOps σ β} (hq : ops.Quiet)
    (hlive : ops.dead st = false) (haw : http.AwaitsHead) (block : Bytes)
    (e : Bool) (head tail : List β) :
    Whole val ops st (final_result val mode block (.length 0) e head tail)
      (start_pass val ops st http block (.length 0) e head tail) := by
  have hphase := (frame_in_body haw (.length 0) e).1
  have hempty := (frame_empty http (.length 0) e).mpr rfl
  have hdead : ops.dead (ops.start st block head) = false := by rw [hq.start, hlive]
  have heof : (http.frame (.length 0) e).expect_eof = e := by
    show (e || http.expect_eof) = e
    rw [haw.expect_eof, Bool.or_false]
  unfold start_pass Whole
  rw [if_neg (by simp [hdead]), final_result_empty]
  by_cases htail : tail = []
  · rw [if_pos ⟨htail, hempty⟩, complete_pass_state]
    refine ⟨.inl ⟨[.start block head], .complete, Framing.opened (.length 0) e, [], ?_,
      nofun, rfl, .inl ⟨rfl, .inr ⟨rfl, htail.symm⟩⟩⟩, ?_⟩
    · dsimp only
      rw [heof]
      exact congrArg _ (Bool.or_false e).symm
    · intro d hd
      exact (complete_pass_again hd).1
  rw [if_neg (fun h => htail h.1), if_neg htail]
  -- bytes behind the head are copied first, which may fail for want of memory
  by_cases hmem : (ops.alloc (ops.start st block head)).1 = true
  · have hdead' : ops.dead (ops.alloc (ops.start st block head)).2 = false := by
      rw [hq.alloc, hdead]
    have hbody := body_of_empty val ops (ops.alloc (ops.start st block head)).2
      (http.frame (.length 0) e).free_head hempty.1 hempty.2 htail
    rw [if_neg (by rw [hmem]; decide), hbody]
    -- the body pass takes none of them, so they stay behind the reply
    unfold after_body
    rw [if_neg (by simp [hdead']), complete_pass_state, if_pos htail]
    refine ⟨.inl ⟨[.start block head, .alloc], .complete, Framing.opened (.length 0) e, tail, ?_,
      nofun, rfl, .inl ⟨rfl, .inr ⟨rfl, rfl⟩⟩⟩, ?_⟩
    · dsimp [HttpOps.conclude]
      rw [List.isEmpty_eq_false_iff.mpr htail, Bool.not_false, Bool.or_true]
      rfl
    · intro d hd
      exact (complete_pass_again hd).1
  · rw [not_eq_true] at hmem
    rw [if_pos (by rw [hmem]; rfl)]
    exact ⟨.inr ⟨block, head, [], rfl, hmem, rfl⟩, .leave _⟩

theorem start_pass_body {ops : HttpOps σ β} (hq : ops.Quiet) (hlive : ops.dead st = false)
    (haw : http.AwaitsHead) (block : Bytes) (hne : framing ≠ .length 0)
    (e : Bool) (head tail : List β) : Whole val ops st
      (final_result val mode block framing e head tail)
      (start_pass val ops st http block framing e head tail) := by
  obtain ⟨hphase, hdone⟩ := frame_in_body haw framing e
  have hopen := frame_open haw hne e
  have hdead : ops.dead (ops.start st block head) = false := by rw [hq.start, hlive]
  unfold start_pass
  rw [if_neg (by simp [hdead]),
    if_neg (fun h => hne ((frame_empty http framing e).mp h.2))]
  have hr := final_result_body val mode block hne e head tail
  by_cases htail : tail = []
  · subst htail
    rw [if_pos rfl, hr]
    refine ⟨.inl ⟨[.start block head], .more, framing.opened e, [], rfl, ?_, rfl,
      .inl ⟨rfl, .inr ⟨rfl, rfl⟩⟩⟩, ?_⟩
    · intro _
      have hdone' : (http.frame framing e).free_head.head_done = true := hdone
      exact ⟨(phase_of_done hdone').trans hphase, (ready_of_done hdone').mpr hopen⟩
    · exact .again rfl
  rw [if_neg htail]
  by_cases hmem : (ops.alloc (ops.start st block head)).1 = true
  · have hdead' : ops.dead (ops.alloc (ops.start st block head)).2 = false := by
      rw [hq.alloc, hdead]
    rw [if_neg (by rw [hmem]; decide)]
    obtain ⟨hc, hs⟩ := after_body_spec hq hdead' hopen hdone tail [] (.inl rfl)
    have hphase' : (http.frame framing e).free_head.in_body = framing.opened e := hphase
    rw [hphase'] at hc
    have hbehind : Agreed val ops st (final_result val mode block framing e head tail) _ :=
      Agreed.behind
        (b := [.start block head, .alloc]) hr hc
    exact ⟨.inl hbehind, hs⟩
  · rw [not_eq_true] at hmem
    rw [if_pos (by rw [hmem]; rfl), hr]
    exact ⟨.inr ⟨block, head, _, rfl, hmem, rfl⟩, .leave _⟩

theorem http_pass_spec {ops : HttpOps σ β} (hq : ops.Quiet) {d : HttpData σ β}
    (hbuf : d.buf ≠ []) (hcur : ops.current d.st = true) (hlive : ops.dead d.st = false)
    (hready : d.http.Ready val) (hmode : mode = ⟨ops.is_head d.st, ops.upgrading d.st⟩) :
    Whole val ops d.st (http_run val mode d.http.phase d.buf) (http_pass val ops d) := by
  have hhead : ops.is_head d.st = mode.is_head := by rw [hmode]
  have hup : ops.upgrading d.st = mode.upgrading := by rw [hmode]
  unfold http_pass
  rw [if_neg hbuf, if_neg (by rw [hcur]; decide), hhead, hup]
  cases hdone : d.http.head_done with
  | true =>
    rw [if_neg (by decide), phase_of_done hdone]
    obtain ⟨ha, hs⟩ := after_body_spec hq hlive ((ready_of_done hdone).mp hready) hdone
      d.buf _ (.inr rfl)
    exact ⟨.inl ha, hs⟩
  | false =>
    rw [if_pos (by decide), phase_of_waiting hdone]
    have hscan := ((ready_of_waiting hdone).mp hready).1
    -- the bytes join the head buffer
    have hscan' : ({ d.http with head := d.http.head ++ d.buf } : HttpState β).Scanned val
        d.http.head d.buf :=
      ⟨⟨hscan.awaits.head_done, hscan.awaits.remaining, hscan.awaits.line,
        hscan.awaits.expect_eof⟩, rfl, hscan.head_scan, hscan.clean⟩
    have hout := rescan_run val mode hscan'
    generalize rescan val mode.is_head mode.upgrading
      { d.http with head := d.http.head ++ d.buf } = s at hout ⊢
    generalize http_run val mode (.head d.http.head) d.buf = r at hout ⊢
    obtain ⟨http, o⟩ := s
    cases o with
    | wait =>
      obtain ⟨hr, hs, hshort⟩ := hout
      refine ⟨.inl ⟨[], .more, .head http.head, [], rfl, ?_, ?_, ?_⟩, ?_⟩
      · intro _
        exact ⟨phase_of_waiting hs.awaits.head_done,
          (ready_of_waiting hs.awaits.head_done).mpr ⟨hs, hshort⟩⟩
      · rw [hr]
        rfl
      · rw [hr]
        exact .inl ⟨rfl, .inr ⟨rfl, rfl⟩⟩
      · exact .again rfl
    | too_long =>
      obtain ⟨hacts, hmore, hlong⟩ := hout
      exact ⟨.inl ⟨[], .fail, r.phase, [], rfl, nofun, hacts.symm,
        .inr ⟨rfl, hmore, hlong⟩⟩, .leave _⟩
    | invalid =>
      obtain ⟨hacts, hfail⟩ := hout
      exact ⟨.inl ⟨[], .fail, r.phase, [], rfl, nofun, hacts.symm,
        .inl ⟨hfail.symm, .inl rfl⟩⟩, .leave _⟩
    | switch head tail =>
      have hr : r = _ := hout
      rw [hr]
      exact ⟨.inl ⟨[], .switch, .head head, tail, rfl, nofun, rfl,
        .inl ⟨rfl, .inr ⟨rfl, rfl⟩⟩⟩, .leave _⟩
    | final block framing e head tail =>
      obtain ⟨hr, haw⟩ := hout
      rw [hr]
      by_cases hzero : framing = .length 0
      · subst hzero
        exact start_pass_empty hq hlive haw block e head tail
      · exact start_pass_body hq hlive haw block hzero e head tail

lemma http_data_eq {buf : List β} (hbuf : buf ≠ [])
    (hs : Settled (http_pass val ops { st := st, http := http, buf := buf })) :
    fpm_http_http_data val ops st http buf
      = (http_pass val ops { st := st, http := http, buf := buf }).state := by
  have hpos := List.length_pos_iff.mpr hbuf
  unfold fpm_http_http_data loop
  obtain ⟨n, hn⟩ : ∃ n, buf.length = n + 1 := ⟨buf.length - 1, by omega⟩
  dsimp only
  rw [hn, iter]
  cases hp : http_pass val ops { st := st, http := http, buf := buf } with
  | leave d => rfl
  | again d =>
    have hleave : http_pass val ops d = .leave d := by
      unfold http_pass
      rw [if_pos (hs d hp)]
    dsimp only
    rw [iter, hleave]
    rfl

/-- **A read.** The reader calls what the machine says of the bytes and concludes
with its verdict, unless a limit was hit or memory ran out. -/
theorem http_data_run {ops : HttpOps σ β} (hq : ops.Quiet)
    (hcur : ops.current st = true) (hlive : ops.dead st = false)
    (hready : http.Ready val) {buf : List β} (hbuf : buf ≠ [])
    (hmode : mode = ⟨ops.is_head st, ops.upgrading st⟩) :
    Agreed val ops st (http_run val mode http.phase buf) (fpm_http_http_data val ops st http buf)
      ∨ Refused ops st (http_run val mode http.phase buf)
          (fpm_http_http_data val ops st http buf) := by
  obtain ⟨hc, hs⟩ := http_pass_spec hq (d := { st := st, http := http, buf := buf })
    hbuf hcur hlive hready hmode
  rw [http_data_eq hbuf hs]
  exact hc

end

end FpmNg.HttpReply
