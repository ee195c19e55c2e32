/-
What a reply of an HTTP target is: interim heads, a final head and a body by the
framing that head declares. The heads are read by `fpm_http_http_head_done`; the
framing of the body is written down here as a grammar, for any way to read a size
line, and the reader's one-byte view is shown to follow it for its own way.
-/
import FpmNg.HttpReaderRun

open ByteScan List Bool Prod

namespace FpmNg.HttpReply

/-! ## The grammar -/

def NoLF (line : Bytes) : Prop := ∀ b ∈ line, (b == LF) = false

instance (line : Bytes) : Decidable (NoLF line) :=
  inferInstanceAs (Decidable (∀ b ∈ line, (b == LF) = false))

variable {size : Bytes → Option ℕ}

/-- A chunk with its size line, which `size` reads as its length. -/
structure Chunk (size : Bytes → Option ℕ) where
  line : Bytes
  data : Bytes
  line_nolf : NoLF line
  sized : size line = some data.length
  data_ne : data ≠ []

def Chunk.wire (k : Chunk size) : Bytes := k.line ++ [LF] ++ (k.data ++ [CR, LF])

structure Trailer where
  line : Bytes
  line_nolf : NoLF line
  not_blank : blank_line line = false

def Trailer.wire (t : Trailer) : Bytes := t.line ++ [LF]

/-- A chunked body: chunks, the last chunk, trailers and the blank line. -/
structure Chunked (size : Bytes → Option ℕ) where
  chunks : List (Chunk size)
  last : Bytes
  trailers : List Trailer
  blank : Bytes
  last_nolf : NoLF last
  last_sized : size last = some 0
  blank_nolf : NoLF blank
  blank_blank : blank_line blank = true

def Chunked.wire (c : Chunked size) : Bytes :=
  c.chunks.flatMap Chunk.wire ++ (c.last ++ [LF] ++ (c.trailers.flatMap Trailer.wire
    ++ (c.blank ++ [LF])))

def Chunked.Short (c : Chunked size) : Prop :=
  (∀ k ∈ c.chunks, k.line.length ≤ LINE_MAX) ∧ c.last.length ≤ LINE_MAX

/-- The same bytes, if `size` reads every size line of them. -/
def Chunked.read {given : Bytes → Option ℕ} (c : Chunked given)
    (hc : ∀ k ∈ c.chunks, size k.line = some k.data.length) (hl : size c.last = some 0) :
    Chunked size :=
  { c with
    chunks := c.chunks.pmap (fun k hk => ⟨k.line, k.data, k.line_nolf, hk, k.data_ne⟩) hc
    last_sized := hl }

lemma Chunked.flatMap_read {given : Bytes → Option ℕ} {c : Chunked given}
    (hc : ∀ k ∈ c.chunks, size k.line = some k.data.length) (hl : size c.last = some 0)
    {β : Type} (f : Bytes → Bytes → List β) :
    (c.read hc hl).chunks.flatMap (fun k => f k.line k.data)
      = c.chunks.flatMap fun k => f k.line k.data := by
  rw [flatMap_def, flatMap_def, Chunked.read, map_pmap]
  exact congrArg flatten (pmap_eq_map (f := fun k => f k.line k.data) hc)

def Framed (size : Bytes → Option ℕ) : Framing → Bytes → Prop
  | .length n, body => body.length = n
  | .chunked, body => ∃ c : Chunked size, c.wire = body
  | .until_close, _ => True

/-- The bytes of a complete body whose chunk-size lines are within the limit. -/
def FramedShort : Framing → Bytes → Prop
  | .length n, body => body.length = n
  | .chunked, body => ∃ c : Chunked chunk_size, c.Short ∧ c.wire = body
  | .until_close, _ => True

structure Head where
  text : Bytes
  ends : ∃ x, text = x ++ [CR, LF, CR, LF] ∧ findFrom (crlf2 id) 0 text = some x.length

def Head.verdict (mode : Mode) (h : Head) : HeadVerdict :=
  fpm_http_http_head_done mode.is_head mode.upgrading (h.text.take (h.text.length - 2))

structure WholeReply (mode : Mode) where
  interims : List Head
  head : Head
  block : Bytes
  framing : Framing
  expect_eof : Bool
  body : Bytes
  interim : ∀ h ∈ interims, h.verdict mode = .interim
  final : head.verdict mode = .final block framing expect_eof

def WholeReply.wire {mode : Mode} (r : WholeReply mode) : Bytes :=
  r.interims.flatMap Head.text ++ (r.head.text ++ r.body)

/-- The body is complete, every head is at most 256 KiB and no chunk-size line is
above 16 KiB. -/
structure WholeReply.Regular {mode : Mode} (r : WholeReply mode) : Prop where
  interims : ∀ h ∈ r.interims, h.text.length ≤ FPM_HTTP_HTTP_MAX_HEAD
  head : r.head.text.length ≤ FPM_HTTP_HTTP_MAX_HEAD
  body : FramedShort r.framing r.body

/-! ## Streams that decide nothing, and streams that end

`Passes` is a part of a reply that leaves the reader in a known phase, `Ends` is the
last part. Neither runs into a limit, wherever it is cut; only an overlong trailer
line fails, and it fails wherever it is cut. -/

variable (mode : Mode)

structure Passes (ph : Phase UInt8) (x : Bytes) (ph' : Phase UInt8) : Prop where
  cut : ∀ p, p <+: x → (http_run id mode ph p).verdict ≠ .complete
    ∧ ¬ ((http_run id mode ph p).verdict = .more ∧ (http_run id mode ph p).phase.overlong)
  whole : (http_run id mode ph x).verdict = .more → (http_run id mode ph x).phase = ph'

structure Ends (ph : Phase UInt8) (x : Bytes) : Prop where
  cut : ∀ p q, x = p ++ q → ((http_run id mode ph p).verdict = .complete → q = [])
    ∧ ¬ ((http_run id mode ph p).verdict = .more ∧ (http_run id mode ph p).phase.overlong)

variable {mode} {ph ph' ph'' : Phase UInt8} {x y : Bytes}

variable {p : Bytes}

lemma prefix_behind (h : p <+: x ++ y) : p <+: x ∨ ∃ p', p = x ++ p' ∧ p' <+: y := by
  rcases prefix_or_prefix_of_prefix h (prefix_append x y) with hp | ⟨p', hp'⟩
  · exact .inl hp
  · refine .inr ⟨p', hp'.symm, ?_⟩
    rw [← hp'] at h
    exact (prefix_append_right_inj x).mp h

lemma Passes.run_append (h : Passes mode ph x ph') (p : Bytes) :
    (http_run id mode ph (x ++ p)).verdict = .fail
      ∨ (http_run id mode ph (x ++ p)).verdict = .switch
      ∨ ((http_run id mode ph (x ++ p)).verdict = (http_run id mode ph' p).verdict
        ∧ (http_run id mode ph (x ++ p)).phase = (http_run id mode ph' p).phase) := by
  rw [http_run_append]
  unfold Result.andThen
  by_cases hv : (http_run id mode ph x).verdict = .more
  · rw [if_pos hv, h.whole hv]
    exact .inr (.inr ⟨rfl, rfl⟩)
  · rw [if_neg hv]
    have hc := (h.cut x (prefix_refl x)).1
    cases hcase : (http_run id mode ph x).verdict with
    | more => exact absurd hcase hv
    | complete => exact absurd hcase hc
    | fail => exact .inl rfl
    | switch => exact .inr (.inl rfl)

lemma Passes.append (h : Passes mode ph x ph') (h' : Passes mode ph' y ph'') :
    Passes mode ph (x ++ y) ph'' where
  cut := by
    intro p hp
    rcases prefix_behind hp with hp | ⟨p', rfl, hp'⟩
    · exact h.cut p hp
    · rcases h.run_append p' with hv | hv | ⟨hv, hph⟩
      iterate 2
        · rw [hv]
          exact ⟨nofun, fun hm => nomatch hm.1⟩
      · rw [hv, hph]
        exact h'.cut p' hp'
  whole := by
    intro hv
    rcases h.run_append y with hf | hf | ⟨hv', hph⟩
    · rw [hf] at hv
      exact nomatch hv
    · rw [hf] at hv
      exact nomatch hv
    · rw [hph]
      exact h'.whole (hv'.symm.trans hv)

lemma Passes.ends (h : Passes mode ph x ph') (h' : Ends mode ph' y) : Ends mode ph (x ++ y) where
  cut := by
    intro p q hpq
    rcases prefix_behind ⟨q, hpq.symm⟩ with hp | ⟨p', rfl, hp'⟩
    · obtain ⟨hc, hl⟩ := h.cut p hp
      exact ⟨fun hv => absurd hv hc, hl⟩
    · rw [append_assoc] at hpq
      obtain ⟨hc, hl⟩ := h'.cut p' q (append_cancel_left hpq)
      rcases h.run_append p' with hv | hv | ⟨hv, hph⟩
      iterate 2
        · rw [hv]
          exact ⟨nofun, fun hm => nomatch hm.1⟩
      · rw [hv, hph]
        exact ⟨hc, hl⟩

lemma Passes.nil (hover : ¬ ph.overlong) : Passes mode ph [] ph where
  cut := by
    intro p hp
    rw [prefix_nil.mp hp]
    exact ⟨nofun, fun hm => hover hm.2⟩
  whole := fun _ => rfl

lemma Passes.flatMap {α : Type} {wire : α → Bytes} (l : List α)
    (h : ∀ a ∈ l, Passes mode ph (wire a) ph) (hover : ¬ ph.overlong) :
    Passes mode ph (l.flatMap wire) ph := by
  induction l with
  | nil => exact Passes.nil hover
  | cons a l ih =>
    exact (h a (by simp)).append (ih (fun b hb => h b (by simp [hb])))

lemma Ends.shorten (h : Ends mode ph y) (hx : x <+: y) : Ends mode ph x where
  cut := by
    intro p q hpq
    obtain ⟨z, rfl⟩ := hx
    obtain ⟨hc, hl⟩ := h.cut p (q ++ z) (by rw [hpq, append_assoc])
    exact ⟨fun hv => (append_eq_nil_iff.mp (hc hv)).1, hl⟩

/-! ## The parts of a reply -/

variable {a : List (Act UInt8)} {ph' : Phase UInt8}

lemma passes_of_more
    (hrun : http_run id mode ph x = { phase := ph', acts := a, verdict := .more, rest := [] })
    (hover : ∀ p, p <+: x → (http_run id mode ph p).verdict = .more → ¬ (http_run id mode ph p).phase.overlong) :
    Passes mode ph x ph' where
  cut := by
    intro p hp
    refine ⟨?_, fun hm => hover p hp hm.1 hm.2⟩
    intro hc
    obtain ⟨q, rfl⟩ := hp
    rw [http_run_append] at hrun
    unfold Result.andThen at hrun
    have := congrArg Result.verdict hrun
    rw [hc] at this
    exact nomatch this
  whole := fun _ => by rw [hrun]

lemma prefix_line (h : p <+: x ++ [LF]) : p <+: x ∨ p = x ++ [LF] :=
  (prefix_concat_iff.mp h).symm

lemma NoLF.shorten {p line : Bytes} (h : NoLF line) (hp : p <+: line) : NoLF p :=
  fun b hb => h b (hp.subset hb)

variable {line : Bytes} {n : ℕ}

lemma run_size_line (hnolf : NoLF line) (hsize : chunk_size line = some n) (k : ℕ) (e : Bool) :
    http_run id mode (.body .CHUNK_SIZE k [] e) (line ++ [LF])
      = { phase := .body (if n ≠ 0 then .CHUNK_DATA else .TRAILERS) n [] e, acts := [],
          verdict := .more, rest := [] } := by
  have hstep : http_byte id mode (.body .CHUNK_SIZE k ([] ++ line) e) LF
      = (.body (if n ≠ 0 then .CHUNK_DATA else .TRAILERS) n [] e, [], .more) := by
    simp [http_byte, body_byte, id, hsize]
  exact http_run_line_more (http_run_size_open id mode line hnolf) hstep

lemma passes_size_line (hnolf : NoLF line) (hlen : line.length ≤ LINE_MAX)
    (hsize : chunk_size line = some n) (k : ℕ) (e : Bool) :
    Passes mode (.body .CHUNK_SIZE k [] e) (line ++ [LF])
      (.body (if n ≠ 0 then .CHUNK_DATA else .TRAILERS) n [] e) := by
  have hrun : http_run id mode _ _ = _ := run_size_line hnolf hsize k e
  refine passes_of_more hrun ?_
  intro p hp _
  rcases prefix_line hp with hp | rfl
  · rw [http_run_size_open id mode p (hnolf.shorten hp)]
    have := hp.length_le
    show ¬ ([] ++ p).length > LINE_MAX
    rw [nil_append]
    omega
  · rw [hrun]
    split <;> exact id

lemma passes_payload {data : Bytes} (hne : data ≠ []) (e : Bool) :
    Passes mode (.body .CHUNK_DATA data.length [] e) data (.body .CHUNK_CRLF 0 [] e) := by
  have hrun := http_run_chunk_data id mode (n := data.length) (l := []) (e := e) data hne
    (Nat.le_refl _)
  rw [Nat.sub_self, if_pos rfl] at hrun
  refine passes_of_more hrun ?_
  intro p hp _
  by_cases hpne : p = []
  · rw [hpne]
    exact id
  · rw [http_run_chunk_data id mode p hpne hp.length_le]
    split <;> exact id

lemma passes_crlf (e : Bool) :
    Passes mode (.body .CHUNK_CRLF 0 [] e) [CR, LF] (.body .CHUNK_SIZE 0 [] e) := by
  refine passes_of_more rfl ?_
  intro p hp _
  have hcases : p = [] ∨ p = [CR] ∨ p = [CR, LF] := by
    rcases prefix_cons_iff.mp hp with rfl | ⟨q, rfl, hq⟩
    · exact .inl rfl
    · rcases prefix_cons_iff.mp hq with rfl | ⟨q', rfl, hq'⟩
      · exact .inr (.inl rfl)
      · rw [prefix_nil.mp hq']
        exact .inr (.inr rfl)
  rcases hcases with rfl | rfl | rfl
  · exact id
  · exact id
  · exact Nat.not_succ_le_zero _

lemma passes_chunk {k : Chunk chunk_size} (hlen : k.line.length ≤ LINE_MAX) (e : Bool) :
    Passes mode (.body .CHUNK_SIZE 0 [] e) k.wire (.body .CHUNK_SIZE 0 [] e) := by
  have hne : k.data.length ≠ 0 := fun h => k.data_ne (length_eq_zero_iff.mp h)
  have hline : Passes mode _ _ _ := passes_size_line k.line_nolf hlen k.sized 0 e
  rw [if_pos hne] at hline
  exact hline.append ((passes_payload k.data_ne e).append (passes_crlf e))

lemma run_trailer (t : Trailer) (hshort : ([] ++ t.line).length ≤ LINE_MAX) (e : Bool) :
    http_run id mode (.body .TRAILERS 0 [] e) t.wire
      = { phase := .body .TRAILERS 0 [] e, acts := [], verdict := .more, rest := [] } := by
  have hstep : http_byte id mode (.body .TRAILERS 0 ([] ++ t.line) e) LF
      = (.body .TRAILERS 0 [] e, [], .more) := by
    simp [http_byte, body_byte, id, t.not_blank]
  exact http_run_line_more (http_run_trailer_open id mode t.line t.line_nolf hshort) hstep

lemma passes_trailer (t : Trailer) (e : Bool) :
    Passes mode (.body .TRAILERS 0 [] e) t.wire (.body .TRAILERS 0 [] e) := by
  -- a cut in the line: it is held, or has become too long
  have hnone : ∀ p, p <+: t.line →
      (http_run id mode (.body .TRAILERS 0 [] e) p).verdict ≠ .complete
      ∧ ¬ ((http_run id mode (.body .TRAILERS 0 [] e) p).verdict = .more
        ∧ (http_run id mode (.body .TRAILERS 0 [] e) p).phase.overlong) := by
    intro p hp
    by_cases hlong : ([] ++ p).length > LINE_MAX
    · rw [(http_run_trailer_long id mode p (t.line_nolf.shorten hp)
        (Nat.zero_le _) hlong).1]
      exact ⟨nofun, fun hm => nomatch hm.1⟩
    · rw [http_run_trailer_open id mode p (t.line_nolf.shorten hp) (Nat.le_of_not_gt hlong)]
      exact ⟨nofun, fun hm => hm.2⟩
  -- the whole line fails if it is too long, and is dropped otherwise
  have hwhole : (http_run id mode (.body .TRAILERS 0 [] e) t.wire).verdict = .fail
      ∨ http_run id mode (.body .TRAILERS 0 [] e) t.wire
        = { phase := .body .TRAILERS 0 [] e, acts := [], verdict := .more, rest := [] } := by
    by_cases hlong : ([] ++ t.line).length > LINE_MAX
    · have hfail := (http_run_trailer_long id mode (n := 0) (e := e) t.line t.line_nolf
        (Nat.zero_le _) hlong).1
      unfold Trailer.wire
      rw [http_run_append]
      unfold Result.andThen
      rw [if_neg (by rw [hfail]; decide)]
      exact .inl hfail
    · exact .inr (run_trailer t (Nat.le_of_not_gt hlong) e)
  refine ⟨?_, ?_⟩
  · intro p hp
    rcases prefix_line hp with hp | rfl
    · exact hnone p hp
    · rcases hwhole with hfail | hmore
      · unfold Trailer.wire at hfail
        rw [hfail]
        exact ⟨nofun, fun hm => nomatch hm.1⟩
      · unfold Trailer.wire at hmore
        rw [hmore]
        exact ⟨nofun, fun hm => hm.2⟩
  · intro hv
    rcases hwhole with hfail | hmore
    · rw [hfail] at hv
      exact nomatch hv
    · rw [hmore]

lemma blank_cases (h : blank_line line = true) : line = [] ∨ line = [CR] := by
  simpa [blank_line] using h

lemma ends_blank {blank : Bytes} (h : blank_line blank = true) (e : Bool) :
    Ends mode (.body .TRAILERS 0 [] e) (blank ++ [LF]) where
  cut := by
    intro p q hpq
    rcases prefix_line ⟨q, hpq.symm⟩ with hp | rfl
    · have hopen : http_run id mode (.body .TRAILERS 0 [] e) p
          = { phase := .body .TRAILERS 0 ([] ++ p) e, acts := [], verdict := .more, rest := [] } := by
        refine http_run_trailer_open id mode p ?_ ?_
        · rcases blank_cases h with rfl | rfl
          · rw [prefix_nil.mp hp]
            exact fun b hb => absurd hb not_mem_nil
          · intro b hb
            rw [mem_singleton.mp (hp.subset hb)]
            rfl
        · have := hp.length_le
          rcases blank_cases h with rfl | rfl
          · simp only [length_nil] at this
            rw [nil_append]
            omega
          · have hmax : LINE_MAX = 16384 := rfl
            simp only [length_cons, length_nil] at this
            rw [nil_append]
            omega
      rw [hopen]
      exact ⟨(fun hm => nomatch hm), fun hm => hm.2⟩
    · refine ⟨fun _ => ?_, ?_⟩
      · have := congrArg length hpq
        simp only [length_append] at this
        exact length_eq_zero_iff.mp (by omega)
      · rcases blank_cases h with rfl | rfl <;> exact fun hm => nomatch hm.1

theorem ends_chunked {c : Chunked chunk_size} (hshort : c.Short) (e : Bool) :
    Ends mode (.body .CHUNK_SIZE 0 [] e) c.wire := by
  have hchunks : Passes mode _ _ _ := Passes.flatMap c.chunks
    (fun k hk => passes_chunk (hshort.1 k hk) e) (Nat.not_succ_le_zero _)
  have hlast : Passes mode _ _ _ := passes_size_line c.last_nolf hshort.2 c.last_sized 0 e
  have htrailers : Passes mode _ _ _ :=
    Passes.flatMap c.trailers (fun t _ => passes_trailer t e) id
  exact hchunks.ends (hlast.ends (htrailers.ends (ends_blank c.blank_blank e)))

variable {framing : Framing}

theorem ends_body {body : Bytes} (h : FramedShort framing body) (hne : framing ≠ .length 0)
    (e : Bool) : Ends mode (framing.opened e) body := by
  cases framing with
  | length n =>
    have hlen : body.length = n := h
    refine ⟨fun p q hpq => ?_⟩
    have hsum := congrArg length hpq
    rw [length_append] at hsum
    by_cases hp : p = []
    · rw [hp]
      exact ⟨(fun hm => nomatch hm), fun hm => hm.2⟩
    · have hrun := http_run_length id mode (n := n) (l := []) (e := e) p hp (by omega)
      rw [show (Framing.length n).opened e = .body .CL n [] e from rfl, hrun]
      refine ⟨?_, fun hm => hm.2⟩
      intro hc
      by_cases hz : n - p.length = 0
      · exact length_eq_zero_iff.mp (by omega)
      · rw [if_neg hz] at hc
        exact nomatch hc
  | chunked =>
    obtain ⟨c, hshort, rfl⟩ := h
    exact ends_chunked hshort e
  | until_close =>
    refine ⟨fun p q _ => ?_⟩
    rw [show Framing.until_close.opened e = .body .EOF 0 [] e from rfl, http_run_until_close id mode p]
    exact ⟨(fun hm => nomatch hm), fun hm => hm.2⟩

/-! ## Heads -/

variable {h : Head}

lemma run_head_cut (hp : p <+: h.text) (hne : p ≠ h.text) :
    http_run id mode (.head []) p
      = { phase := .head p, acts := [], verdict := .more, rest := [] } := by
  obtain ⟨x, hx, hfind⟩ := h.ends
  have hopen : findFrom (crlf2 id) 0 p = none := by
    cases hi : findFrom (crlf2 id) 0 p with
    | none => rfl
    | some i =>
      exfalso
      obtain ⟨q, hq⟩ := hp
      have hall := find_crlf2_append hi q
      rw [hq, hfind] at hall
      cases hall
      obtain ⟨-, -, hm, -⟩ := findFrom_eq_some_iff.mp hi
      have hlen := crlf2_length hm
      rw [length_drop] at hlen
      -- the blank line of the head is the last thing in it
      have htotal := congrArg length hq
      rw [hx, length_append, length_append] at htotal
      simp only [length_cons, length_nil] at htotal
      have hq0 : q = [] := length_eq_zero_iff.mp (by omega)
      rw [hq0, append_nil] at hq
      exact hne hq
  exact http_run_head_open id mode [] p hopen

lemma run_head_whole (h : Head) :
    http_run id mode (.head []) h.text
      = { phase := (after_head id mode h.text).1, acts := (after_head id mode h.text).2.1,
          verdict := (after_head id mode h.text).2.2, rest := [] } := by
  obtain ⟨x, hx, hfind⟩ := h.ends
  have hlen : x.length + 4 = h.text.length := by
    rw [hx, length_append]
    rfl
  have hrun := http_run_head_end id mode [] h.text rfl hfind
  rw [nil_append, hlen, take_length, drop_length] at hrun
  rw [hrun]
  unfold Result.andThen
  split
  · rename_i hv
    dsimp only at hv
    simp [http_run, hv]
  · rfl

lemma after_head_verdict (h : Head) :
    after_head id mode h.text = head_step h.text (h.verdict mode) := by
  unfold after_head Head.verdict
  rw [map_id_fun, id]

lemma passes_interim (hv : h.verdict mode = .interim)
    (hlen : h.text.length ≤ FPM_HTTP_HTTP_MAX_HEAD) :
    Passes mode (.head []) h.text (.head []) := by
  have hafter : after_head id mode h.text = _ := after_head_verdict h
  rw [hv] at hafter
  have hrun : http_run id mode (.head []) h.text = _ := run_head_whole h
  rw [hafter] at hrun
  refine passes_of_more hrun ?_
  intro p hp _
  by_cases hne : p = h.text
  · rw [hne, hrun]
    exact Nat.not_succ_le_zero _
  · rw [run_head_cut hp hne]
    have := hp.length_le
    exact Nat.not_lt.mpr (by omega)

variable {e : Bool}

lemma ends_final {block : Bytes} (hv : h.verdict mode = .final block framing e)
    (hlen : h.text.length ≤ FPM_HTTP_HTTP_MAX_HEAD) {body : Bytes}
    (hbody : FramedShort framing body) : Ends mode (.head []) (h.text ++ body) := by
  have hafter : after_head id mode h.text = _ := after_head_verdict h
  rw [hv] at hafter
  have hrun : http_run id mode (.head []) h.text = _ := run_head_whole h
  rw [hafter] at hrun
  -- a cut inside the head waits, since the head is not too long
  have hcut : ∀ p, p <+: h.text → p ≠ h.text →
      (http_run id mode (.head []) p).verdict = .more
        ∧ ¬ (http_run id mode (.head []) p).phase.overlong := by
    intro p hp hne
    rw [run_head_cut hp hne]
    have := hp.length_le
    exact ⟨rfl, Nat.not_lt.mpr (by omega)⟩
  by_cases hzero : framing = .length 0
  · -- complete with the head: nothing comes behind it
    subst hzero
    have hnil : body = [] := length_eq_zero_iff.mp hbody
    rw [hnil, append_nil]
    refine ⟨fun p q hpq => ?_⟩
    by_cases hne : p = h.text
    · rw [hne] at hpq ⊢
      have hq : q = [] := by
        have := congrArg length hpq
        rw [length_append] at this
        exact length_eq_zero_iff.mp (by omega)
      rw [hrun]
      exact ⟨fun _ => hq, fun hm => nomatch hm.1⟩
    · obtain ⟨hmore, hover⟩ := hcut p ⟨q, hpq.symm⟩ hne
      exact ⟨(fun hc => by rw [hmore] at hc; exact nomatch hc), fun hm => hover hm.2⟩
  · have hstep : head_step h.text (.final block framing e)
        = (framing.opened e, [.start block h.text], .more) := by
      rw [head_step, if_neg hzero]
    rw [hstep] at hrun
    have hpass : Passes mode (.head []) h.text (framing.opened e) := by
      refine passes_of_more hrun ?_
      intro p hp _
      by_cases hne : p = h.text
      · rw [hne, hrun]
        cases framing with
        | length n | until_close => exact id
        | chunked => exact Nat.not_succ_le_zero _
      · exact (hcut p hp hne).2
    exact hpass.ends (ends_body hbody hzero e)

theorem ends_reply {r : WholeReply mode} (hr : r.Regular) : Ends mode (.head []) r.wire := by
  have hinterims : Passes mode (.head []) (r.interims.flatMap Head.text) (.head []) :=
    Passes.flatMap r.interims (fun h hh => passes_interim (r.interim h hh) (hr.interims h hh))
      (Nat.not_succ_le_zero _)
  exact hinterims.ends (ends_final r.final hr.head hr.body)

/-! ## What is complete is a reply

The other direction: bytes on which the reader completes are a reply of the grammar,
and so are the bytes of a reply that only the end of the connection can complete. -/

def Phase.until_close {β : Type} : Phase β → Bool
  | .body .EOF _ _ _ => true
  | _ => false

def Phase.Clean : Phase UInt8 → Prop
  | .head l => findFrom (crlf2 id) 0 l = none
  | .body b n line _ =>
    NoLF line ∧ (b = .CL → 0 < n) ∧ (b = .CHUNK_DATA → 0 < n ∧ line = [])
      ∧ (b = .CHUNK_CRLF → line = [] ∨ line = [CR])

/-- The bytes `y` make a whole reply of what the phase holds; `u` says that only the
end of the connection completes it. -/
def Rest (mode : Mode) : Phase UInt8 → Bytes → Bool → Prop
  | .head l, y, u =>
    ∃ r : WholeReply mode, r.wire = l ++ y ∧ Framed chunk_size r.framing r.body
      ∧ (r.framing = .until_close ↔ u = true)
  | .body .CL n _ _, y, u => u = false ∧ y.length = n
  | .body .CHUNK_SIZE _ line _, y, u => u = false ∧ ∃ c : Chunked chunk_size, c.wire = line ++ y
  | .body .CHUNK_DATA n _ _, y, u =>
    u = false ∧ ∃ (d : Bytes) (c : Chunked chunk_size), d.length = n ∧ y = d ++ ([CR, LF] ++ c.wire)
  | .body .CHUNK_CRLF _ line _, y, u =>
    u = false ∧ ∃ c : Chunked chunk_size, line ++ y = [CR, LF] ++ c.wire
  | .body .TRAILERS _ line _, y, u =>
    u = false ∧ ∃ (ts : List Trailer) (blank : Bytes), NoLF blank ∧ blank_line blank = true
      ∧ line ++ y = ts.flatMap Trailer.wire ++ (blank ++ [LF])
  | .body .EOF _ _ _, _, u => u = true

variable {b : UInt8}

lemma noLF_concat (h : NoLF line) (hb : b ≠ LF) : NoLF (line ++ [b]) := by
  intro c hc
  rcases mem_append.mp hc with hc | hc
  · exact h c hc
  · rw [mem_singleton.mp hc]
    exact beq_eq_false_iff_ne.mpr hb

lemma noLF_nil : NoLF [] := fun _ h => absurd h not_mem_nil

lemma head_of_crlf2 {l : Bytes} (hl : findFrom (crlf2 id) 0 l = none)
    (hend : crlf2 id ((l ++ [b]).drop (l.length - 3)) = true) :
    ∃ h : Head, h.text = l ++ [b] := by
  have hdrop : (l ++ [b]).drop (l.length - 3) = [CR, LF, CR, LF] := by
    have htake := beq_iff_eq.mp hend
    rw [map_id_fun, id, take_of_length_le] at htake
    · exact htake
    · rw [length_drop, length_append]
      simp only [length_cons, length_nil]
      omega
  refine ⟨⟨l ++ [b], (l ++ [b]).take (l.length - 3), ?_, ?_⟩, rfl⟩
  · rw [← hdrop, take_append_drop]
  · rw [length_take, length_append]
    rw [Nat.min_eq_left (by omega)]
    refine findFrom_eq_some_iff.mpr ⟨Nat.zero_le _, ?_, hend, ?_⟩
    · rw [length_append]
      simp only [length_cons, length_nil]
      omega
    · -- an earlier blank line would lie inside `l`
      intro j _ hj
      have hno := findFrom_eq_none_iff.mp hl j (Nat.zero_le _) (by omega)
      rw [drop_append_of_le_length (by omega),
        crlf2_local (by rw [length_drop]; omega), hno]

lemma find_crlf2_concat {l : Bytes} (hl : findFrom (crlf2 id) 0 l = none)
    (hend : crlf2 id ((l ++ [b]).drop (l.length - 3)) = false) :
    findFrom (crlf2 id) 0 (l ++ [b]) = none := by
  refine findFrom_eq_none_iff.mpr ?_
  intro j _ hj
  by_cases hlast : j = l.length - 3
  · rw [hlast]
    exact hend
  · by_cases hin : j + 4 ≤ l.length
    · rw [drop_append_of_le_length (by omega),
        crlf2_local (by rw [length_drop]; omega)]
      exact findFrom_eq_none_iff.mp hl j (Nat.zero_le _) (by omega)
    · -- too short for a blank line
      by_contra hne
      have hlen := crlf2_length (not_eq_false _ ▸ hne)
      rw [length_drop, length_append, length_singleton] at hlen
      omega

variable {x : UInt8}

/-- A byte that decides nothing: what follows it makes a reply with it too, and what is
held stays clean. -/
def GoesOn (mode : Mode) (ph : Phase UInt8) (x : UInt8) (ph' : Phase UInt8) : Prop :=
  ph'.Clean ∧ ∀ y u, Rest mode ph' y u → Rest mode ph (x :: y) u

lemma size_step (h : body_byte id .CHUNK_SIZE n line e x = (ph', a, .more)) (hnolf : NoLF line) :
    GoesOn mode (.body .CHUNK_SIZE n line e) x ph' := by
  simp only [body_byte, id] at h
  by_cases hx : x = LF
  · rw [if_pos hx] at h
    cases hsize : chunk_size (line.map id) with
    | none =>
      rw [hsize] at h
      exact Verdict.noConfusion (mk.inj (mk.inj h).2).2
    | some k =>
      rw [hsize] at h
      rw [map_id_fun, id] at hsize
      obtain ⟨rfl, -⟩ := mk.inj h
      by_cases hk : k = 0
      · -- the last chunk
        rw [if_neg (not_not.mpr hk)]
        refine ⟨⟨noLF_nil, by simp, by simp, by simp⟩, ?_⟩
        rintro y u ⟨hu, ts, blank, hb, hblank, hy⟩
        refine ⟨hu, ⟨[], line, ts, blank, hnolf, by rw [hsize, hk], hb, hblank⟩, ?_⟩
        rw [nil_append] at hy
        simp [Chunked.wire, hx, hy]
      · rw [if_pos hk]
        refine ⟨⟨noLF_nil, by simp, fun _ => ⟨by omega, rfl⟩, by simp⟩, ?_⟩
        rintro y u ⟨hu, d, c, hd, hy⟩
        have hne : d ≠ [] := by
          rintro rfl
          exact hk hd.symm
        refine ⟨hu, { c with
          chunks := ⟨line, d, hnolf, by rw [hsize, hd], hne⟩ :: c.chunks }, ?_⟩
        simp [Chunked.wire, Chunk.wire, hx, hy]
  · rw [if_neg hx] at h
    obtain ⟨rfl, -⟩ := mk.inj h
    refine ⟨⟨noLF_concat hnolf hx, by simp, by simp, by simp⟩, ?_⟩
    rintro y u ⟨hu, c, hc⟩
    exact ⟨hu, c, by rw [hc, append_assoc]; rfl⟩

lemma crlf_step (h : body_byte id .CHUNK_CRLF n line e x = (ph', a, .more))
    (hcrlf : line = [] ∨ line = [CR]) : GoesOn mode (.body .CHUNK_CRLF n line e) x ph' := by
  simp only [body_byte, id] at h
  rcases hcrlf with rfl | rfl
  · rw [if_neg (not_not.mpr rfl)] at h
    by_cases hx : x = CR
    · subst hx
      rw [if_pos rfl] at h
      obtain ⟨rfl, -⟩ := mk.inj h
      refine ⟨⟨noLF_concat noLF_nil (by decide), by simp, by simp, fun _ => .inr rfl⟩, ?_⟩
      exact fun _ _ hrest => hrest
    · rw [if_neg hx] at h
      exact Verdict.noConfusion (mk.inj (mk.inj h).2).2
  · rw [if_pos (cons_ne_nil _ _)] at h
    by_cases hx : x = LF
    · rw [if_pos hx] at h
      obtain ⟨rfl, -⟩ := mk.inj h
      refine ⟨⟨noLF_nil, by simp, by simp, by simp⟩, ?_⟩
      rintro y u ⟨hu, c, hc⟩
      exact ⟨hu, c, by rw [hx, hc]; rfl⟩
    · rw [if_neg hx] at h
      exact Verdict.noConfusion (mk.inj (mk.inj h).2).2

lemma trailer_step (h : body_byte id .TRAILERS n line e x = (ph', a, .more)) (hnolf : NoLF line) :
    GoesOn mode (.body .TRAILERS n line e) x ph' := by
  simp only [body_byte, id] at h
  by_cases hx : x = LF
  · rw [if_pos hx] at h
    by_cases hblank : blank_line (line.map id) = true
    · rw [if_pos hblank] at h
      exact Verdict.noConfusion (mk.inj (mk.inj h).2).2
    · rw [if_neg hblank] at h
      rw [map_id_fun, id, not_eq_true] at hblank
      obtain ⟨rfl, -⟩ := mk.inj h
      refine ⟨⟨noLF_nil, by simp, by simp, by simp⟩, ?_⟩
      rintro y u ⟨hu, ts, blank, hb, hbl, hy⟩
      refine ⟨hu, ⟨line, hnolf, hblank⟩ :: ts, blank, hb, hbl, ?_⟩
      rw [nil_append] at hy
      simp [Trailer.wire, hx, hy]
  · rw [if_neg hx] at h
    obtain ⟨rfl, -⟩ := mk.inj h
    refine ⟨⟨noLF_concat hnolf hx, by simp, by simp, by simp⟩, ?_⟩
    rintro y u ⟨hu, ts, blank, hb, hbl, hy⟩
    exact ⟨hu, ts, blank, hb, hbl, by rw [← hy, append_assoc]; rfl⟩

theorem body_step {b : Body} (h : body_byte id b n line e x = (ph', a, .more))
    (hclean : (Phase.body b n line e).Clean) : GoesOn mode (.body b n line e) x ph' := by
  obtain ⟨hnolf, hcl, hdata, hcrlf⟩ := hclean
  cases b with
  | CL =>
    have hn := hcl rfl
    obtain ⟨rfl, -, hmore⟩ := mk.inj h |>.imp_right mk.inj
    have hz : n - 1 ≠ 0 := by
      intro hz
      rw [if_pos hz] at hmore
      cases hmore
    refine ⟨⟨hnolf, fun _ => by omega, by simp, by simp⟩, ?_⟩
    rintro y u ⟨hu, hlen⟩
    exact ⟨hu, by rw [length_cons]; omega⟩
  | CHUNK_SIZE => exact size_step h hnolf
  | CHUNK_DATA =>
    obtain ⟨hn, hline⟩ := hdata rfl
    obtain ⟨rfl, -⟩ := mk.inj h
    by_cases hz : n - 1 = 0
    · rw [if_pos hz]
      refine ⟨⟨hnolf, by simp, by simp, fun _ => .inl hline⟩, ?_⟩
      rintro y u ⟨hu, c, hc⟩
      rw [hline, nil_append] at hc
      exact ⟨hu, [x], c, by simp only [length_cons, length_nil]; omega, by rw [hc]; rfl⟩
    · rw [if_neg hz]
      refine ⟨⟨hnolf, by simp, fun _ => ⟨by omega, hline⟩, by simp⟩, ?_⟩
      rintro y u ⟨hu, d, c, hd, hy⟩
      exact ⟨hu, x :: d, c, by rw [length_cons]; omega, by rw [hy]; rfl⟩
  | CHUNK_CRLF => exact crlf_step h (hcrlf rfl)
  | TRAILERS => exact trailer_step h hnolf
  | EOF =>
    obtain ⟨rfl, -⟩ := mk.inj h
    exact ⟨⟨hnolf, by simp, by simp, by simp⟩, fun _ _ hu => hu⟩

theorem body_stop {b : Body} (h : body_byte id b n line e x = (ph', a, .complete))
    (hclean : (Phase.body b n line e).Clean) : Rest mode (.body b n line e) [x] false := by
  obtain ⟨hnolf, hcl, -⟩ := hclean
  -- only the last byte of a length and a blank line complete a body
  have hverdict : (body_byte id b n line e x).2.2 = .complete := by rw [h]
  cases b with
  | CL =>
    have hn := hcl rfl
    refine ⟨rfl, ?_⟩
    by_cases hz : n - 1 = 0
    · rw [length_singleton]
      omega
    · simp only [body_byte, if_neg hz] at hverdict
      cases hverdict
  | CHUNK_SIZE =>
    exfalso
    simp only [body_byte] at hverdict
    split at hverdict
    · split at hverdict <;> cases hverdict
    · cases hverdict
  | CHUNK_DATA | EOF => cases hverdict
  | CHUNK_CRLF =>
    exfalso
    simp only [body_byte] at hverdict
    split at hverdict
    · split at hverdict <;> cases hverdict
    · split at hverdict <;> cases hverdict
  | TRAILERS =>
    simp only [body_byte, id] at hverdict
    by_cases hx : x = LF
    · rw [if_pos hx] at hverdict
      by_cases hblank : blank_line (line.map id) = true
      · rw [map_id_fun, id] at hblank
        refine ⟨rfl, [], line, hnolf, hblank, ?_⟩
        rw [hx, flatMap_nil, nil_append]
      · rw [if_neg hblank] at hverdict
        cases hverdict
    · rw [if_neg hx] at hverdict
      split at hverdict <;> cases hverdict

lemma opened_clean (hne : framing ≠ .length 0) (e : Bool) : (framing.opened e).Clean := by
  cases framing with
  | length n =>
    refine ⟨noLF_nil, fun _ => Nat.pos_of_ne_zero ?_, nofun, nofun⟩
    exact fun hn => hne (by rw [hn])
  | chunked | until_close => exact ⟨noLF_nil, nofun, nofun, nofun⟩

lemma opened_rest {e u : Bool} {y : Bytes} (h : Rest mode (framing.opened e) y u) :
    Framed chunk_size framing y ∧ (framing = .until_close ↔ u = true) := by
  cases framing with
  | length n =>
    obtain ⟨rfl, hlen⟩ := h
    exact ⟨hlen, nofun, nofun⟩
  | chunked =>
    obtain ⟨rfl, hc⟩ := h
    exact ⟨hc, nofun, nofun⟩
  | until_close => exact ⟨trivial, fun _ => h, fun _ => rfl⟩

lemma head_rest (head : Head) {v : Verdict} (h : after_head id mode head.text = (ph', a, v))
    (hv : v = .more ∨ v = .complete) :
    (v = .more → ph'.Clean ∧ ∀ y u, Rest mode ph' y u → Rest mode (.head []) (head.text ++ y) u)
      ∧ (v = .complete → Rest mode (.head []) head.text false) := by
  have hafter : after_head id mode head.text = _ := after_head_verdict head
  rw [h] at hafter
  cases hverdict : head.verdict mode with
  | invalid =>
    rw [hverdict] at hafter
    have hfail : v = .fail := congrArg (fun t => t.2.2) hafter
    rw [hfail] at hv
    exact (hv.elim Verdict.noConfusion nofun)
  | switch =>
    rw [hverdict] at hafter
    have hfail : v = .switch := congrArg (fun t => t.2.2) hafter
    rw [hfail] at hv
    exact (hv.elim Verdict.noConfusion nofun)
  | interim =>
    rw [hverdict] at hafter
    obtain ⟨rfl, -, rfl⟩ := mk.inj hafter |>.imp_right mk.inj
    refine ⟨fun _ => ⟨rfl, ?_⟩, nofun⟩
    rintro y u ⟨r, hwire, hframed, hu⟩
    refine ⟨{ r with
      interims := head :: r.interims
      interim := forall_mem_cons.mpr ⟨hverdict, r.interim⟩ }, ?_, hframed, hu⟩
    rw [nil_append] at hwire ⊢
    rw [← hwire]
    simp [WholeReply.wire]
  | final block framing e =>
    rw [hverdict] at hafter
    obtain ⟨rfl, -, hcase⟩ := mk.inj hafter |>.imp_right mk.inj
    -- a final head and a body of its framing are a reply by themselves
    have hreply : ∀ y u, Framed chunk_size framing y → (framing = .until_close ↔ u = true) →
        Rest mode (.head []) (head.text ++ y) u := fun y u hframed hu =>
      ⟨{ interims := [], head := head, block := block, framing := framing, expect_eof := e
         body := y, interim := fun _ hmem => absurd hmem not_mem_nil, final := hverdict },
        rfl, hframed, hu⟩
    refine ⟨?_, ?_⟩
    · intro hmore
      have hne : framing ≠ .length 0 := by
        intro h0
        rw [if_pos h0, hmore] at hcase
        cases hcase
      refine ⟨opened_clean hne e, fun y u hrest => ?_⟩
      obtain ⟨hframed, hu⟩ := opened_rest hrest
      exact hreply y u hframed hu
    · intro hcomplete
      have h0 : framing = .length 0 := by
        by_contra hne
        rw [if_neg hne, hcomplete] at hcase
        cases hcase
      have hempty := hreply [] false (by rw [h0]; rfl)
        ⟨fun hc => (by rw [h0] at hc; exact Framing.noConfusion hc), nofun⟩
      rw [append_nil] at hempty
      exact hempty

theorem byte_rest {ph ph' : Phase UInt8} {v : Verdict} (h : http_byte id mode ph x = (ph', a, v))
    (hclean : ph.Clean) :
    (v = .more → GoesOn mode ph x ph') ∧ (v = .complete → Rest mode ph [x] false) := by
  cases ph with
  | body b n line e =>
    refine ⟨?_, ?_⟩
    · rintro rfl
      exact body_step h hclean
    · rintro rfl
      exact body_stop h hclean
  | head l =>
    -- the reply holds `l` and the byte as one
    have hmove : ∀ y u, Rest mode (.head []) ((l ++ [x]) ++ y) u → Rest mode (.head l) (x :: y) u := by
      rintro y u ⟨r, hwire, hrest⟩
      refine ⟨r, hwire.trans ?_, hrest⟩
      rw [nil_append, append_assoc]
      rfl
    simp only [http_byte] at h
    by_cases hend : crlf2 id ((l ++ [x]).drop (l.length - 3)) = true
    · rw [if_pos hend] at h
      obtain ⟨head, htext⟩ := head_of_crlf2 hclean hend
      rw [← htext] at h hmove
      by_cases hv : v = .more ∨ v = .complete
      · obtain ⟨hmore, hcomplete⟩ := head_rest head h hv
        refine ⟨fun hm => ⟨(hmore hm).1, fun y u hrest => hmove y u ((hmore hm).2 y u hrest)⟩, ?_⟩
        intro hc
        apply hmove [] false
        rw [append_nil]
        exact hcomplete hc
      · exact ⟨fun hm => absurd (.inl hm) hv, fun hc => absurd (.inr hc) hv⟩
    · rw [if_neg hend] at h
      obtain ⟨rfl, -, rfl⟩ := mk.inj h |>.imp_right mk.inj
      refine ⟨fun _ => ⟨?_, ?_⟩, by simp⟩
      · exact find_crlf2_concat hclean (not_eq_true _ ▸ hend)
      · rintro y u ⟨r, hwire, hrest⟩
        exact ⟨r, by rw [hwire, append_assoc]; rfl, hrest⟩

theorem http_run_complete {ph : Phase UInt8} {x : Bytes} (hclean : ph.Clean)
    (h : (http_run id mode ph x).verdict = .complete) :
    ∃ y, x = y ++ (http_run id mode ph x).rest ∧ Rest mode ph y false := by
  induction x generalizing ph with
  | nil => cases h
  | cons b x ih =>
    obtain ⟨⟨ph', a, v⟩, hb⟩ : ∃ t, http_byte id mode ph b = t := ⟨_, rfl⟩
    obtain ⟨hmore, hcomplete⟩ := byte_rest hb hclean
    by_cases hv : v = .more
    · rw [hv] at hb
      rw [http_run_cons_more hb] at h ⊢
      obtain ⟨hclean', hrest⟩ := hmore hv
      obtain ⟨y, hy, hcomp⟩ := ih hclean' h
      exact ⟨b :: y, congrArg (cons b) hy, hrest y false hcomp⟩
    · rw [http_run_cons_stop hb hv] at h ⊢
      exact ⟨[b], rfl, hcomplete h⟩

theorem http_run_until_close_rest {ph : Phase UInt8} {x : Bytes} (hclean : ph.Clean)
    (h : (http_run id mode ph x).verdict = .more)
    (hclose : (http_run id mode ph x).phase.until_close = true) : Rest mode ph x true := by
  induction x generalizing ph with
  | nil =>
    cases ph with
    | head l => cases hclose
    | body b n line e =>
      cases b with
      | EOF => exact rfl
      | _ => cases hclose
  | cons b x ih =>
    obtain ⟨⟨ph', a, v⟩, hb⟩ : ∃ t, http_byte id mode ph b = t := ⟨_, rfl⟩
    by_cases hv : v = .more
    · rw [hv] at hb
      rw [http_run_cons_more hb] at h hclose
      obtain ⟨hclean', hrest⟩ := (byte_rest hb hclean).1 rfl
      exact hrest x true (ih hclean' h hclose)
    · rw [http_run_cons_stop hb hv] at h
      exact absurd h hv

end FpmNg.HttpReply
