/-
The FastCGI reply reader, `fpm_http_upstream_data` of `fpm_http.c`: the loop that
takes the bytes of one `read()` apart into record headers, content and padding.

The loop is written over a state `σ` and the four things it does with it, because
it runs in two settings: below with one request and its client, and in the
dispatcher with everything `fpm_http_request_done` can reach. It is generic in
the byte type as well, so that a byte may carry more than its value. The record
fields of the upstream are handed through: nothing the calls reach reads them.

What the loop calls depends on how the stream was cut; what it calls, flattened,
does not. `rec_run` is that flattened view, one byte at a time.
-/
import FpmNg.FcgiRecord
import FpmNg.Reply
import FpmNg.Lib.WhileLoop

open WhileLoop List
open FpmNg.Reply

namespace FpmNg.Fcgi

open Record

/-! ## The loop -/

/-- The record fields of an upstream: `rec_hdr` with `rec_hdr_len` bytes in it, and
what the header in force said. -/
structure Rec (β : Type) where
  rec_hdr : List β
  rec_type : UInt8
  rec_len : ℕ
  rec_pad : ℕ
  rec_hdr_lt : rec_hdr.length < 8
  deriving DecidableEq

def Rec.behind {β : Type} (type : UInt8) (len pad : ℕ) : Rec β where
  rec_hdr := []
  rec_type := type
  rec_len := len
  rec_pad := pad
  rec_hdr_lt := Nat.succ_pos 7

def Rec.idle {β : Type} (type : UInt8) : Rec β := Rec.behind type 0 0

structure Ops (σ β : Type) where
  current : σ → Bool
  stdout : σ → List β → σ
  request_done : σ → σ
  dead : σ → Bool

structure Data (σ β : Type) where
  st : σ
  fields : Rec β
  buf : List β

section
variable {σ β : Type}

/-- Byte `i` of a complete header. -/
def hdr_byte (val : β → UInt8) (hdr : List β) (i : ℕ) : UInt8 := (hdr[i]?.map val).getD 0

def Rec.opened (val : β → UInt8) (hdr : List β) : Rec β :=
  Rec.behind (hdr_byte val hdr 1)
    ((hdr_byte val hdr 4).toNat * 256 + (hdr_byte val hdr 5).toNat)
    (hdr_byte val hdr 6).toNat

def Rec.request_over (r : Rec β) : Prop :=
  r.rec_len = 0 ∧ r.rec_pad = 0 ∧ r.rec_type = FCGI_END_REQUEST

instance (r : Rec β) : Decidable r.request_over :=
  inferInstanceAs (Decidable (_ ∧ _ ∧ _))

/-- The end of a pass that took bytes. `fpm_http_request_done` clears the fields. -/
def end_pass (ops : Ops σ β) (d : Data σ β) : Pass (Data σ β) :=
  if d.fields.request_over then
    let st := ops.request_done d.st
    if ops.dead st then .leave { d with st := st, fields := Rec.idle 0 }
    else .again { d with st := st, fields := Rec.idle 0 }
  else .again d

/-- One pass of the `while (len > 0)` loop. -/
def data_pass (val : β → UInt8) (ops : Ops σ β) (d : Data σ β) : Pass (Data σ β) :=
  let r := d.fields
  if d.buf = [] then .leave d
  else if r.rec_len = 0 ∧ r.rec_pad = 0 then
    let take := min (8 - r.rec_hdr.length) d.buf.length
    let hdr := r.rec_hdr ++ d.buf.take take
    if h : hdr.length < 8 then
      .leave { d with fields := { r with rec_hdr := hdr, rec_hdr_lt := h }, buf := d.buf.drop take }
    else end_pass ops { d with fields := Rec.opened val hdr, buf := d.buf.drop take }
  else if r.rec_len > 0 then
    let take := min r.rec_len d.buf.length
    let st :=
      if r.rec_type = FCGI_STDOUT ∧ ops.current d.st then ops.stdout d.st (d.buf.take take)
      else d.st
    end_pass ops
      { st := st, fields := { r with rec_len := r.rec_len - take }, buf := d.buf.drop take }
  else
    let take := min r.rec_pad d.buf.length
    end_pass ops
      { d with fields := { r with rec_pad := r.rec_pad - take }, buf := d.buf.drop take }

def fpm_http_upstream_data (val : β → UInt8) (ops : Ops σ β) (st : σ) (r : Rec β)
    (buf : List β) : Data σ β :=
  loop (fun d => d.buf.length) (data_pass val ops) { st := st, fields := r, buf := buf }

/-! ## One byte at a time -/

/-- What the stream says: a byte of STDOUT, or the end of the request. -/
inductive Act (β : Type) where
  | byte (b : β)
  | done
  deriving DecidableEq

def settle (r : Rec β) : Rec β × List (Act β) :=
  if r.request_over then (Rec.idle 0, [.done]) else (r, [])

def rec_byte (val : β → UInt8) (r : Rec β) (b : β) : Rec β × List (Act β) :=
  if r.rec_len = 0 ∧ r.rec_pad = 0 then
    if h : (r.rec_hdr ++ [b]).length < 8 then
      ({ r with rec_hdr := r.rec_hdr ++ [b], rec_hdr_lt := h }, [])
    else settle (Rec.opened val (r.rec_hdr ++ [b]))
  else if r.rec_len > 0 then
    let next := settle { r with rec_len := r.rec_len - 1 }
    (next.1, (if r.rec_type = FCGI_STDOUT then [.byte b] else []) ++ next.2)
  else settle { r with rec_pad := r.rec_pad - 1 }

def rec_run (val : β → UInt8) : Rec β → List β → Rec β × List (Act β)
  | r, [] => (r, [])
  | r, b :: bs =>
    let next := rec_run val (rec_byte val r b).1 bs
    (next.1, (rec_byte val r b).2 ++ next.2)

variable (val : β → UInt8)

lemma rec_run_append (r : Rec β) (x y : List β) :
    rec_run val r (x ++ y) = ((rec_run val (rec_run val r x).1 y).1,
          (rec_run val r x).2 ++ (rec_run val (rec_run val r x).1 y).2) := by
  induction x generalizing r with
  | nil => rfl
  | cons b x ih =>
    rw [cons_append, rec_run, rec_run, ih]
    simp

variable {r : Rec β}

lemma rec_run_header (h0 : r.rec_len = 0 ∧ r.rec_pad = 0) (x : List β)
    (hx : (r.rec_hdr ++ x).length < 8) :
    rec_run val r x = ({ r with rec_hdr := r.rec_hdr ++ x, rec_hdr_lt := hx }, []) := by
  induction x generalizing r with
  | nil =>
    simp only [append_nil]
    rfl
  | cons b x ih =>
    have hx' : (r.rec_hdr ++ [b]).length < 8 := by
      simp only [length_append, length_cons, length_nil] at hx ⊢
      omega
    rw [rec_run]
    unfold rec_byte
    rw [if_pos h0, dif_pos hx']
    have hrest := ih (r := { r with rec_hdr := r.rec_hdr ++ [b], rec_hdr_lt := hx' }) h0
      (by rw [append_assoc]; exact hx)
    simp [hrest]

lemma rec_run_header_end (h0 : r.rec_len = 0 ∧ r.rec_pad = 0) (x : List β)
    (hx : (r.rec_hdr ++ x).length = 8) :
    rec_run val r x = settle (Rec.opened val (r.rec_hdr ++ x)) := by
  have hr := r.rec_hdr_lt
  have hne : x ≠ [] := by
    rintro rfl
    rw [append_nil] at hx
    omega
  obtain ⟨y, b, rfl⟩ : ∃ y b, x = y ++ [b] := ⟨_, _, (dropLast_append_getLast hne).symm⟩
  simp only [length_append, length_cons, length_nil] at hx
  rw [rec_run_append, rec_run_header val h0 y (by rw [length_append]; omega)]
  simp only [rec_run, rec_byte, nil_append, append_nil]
  rw [if_pos h0, dif_neg (by simp only [length_append, length_cons, length_nil]; omega),
    append_assoc]

lemma settle_of_pending (h : 0 < r.rec_len ∨ 0 < r.rec_pad) : settle r = (r, []) := by
  unfold settle
  rw [if_neg]
  rintro ⟨h1, h2, -⟩
  omega

lemma rec_run_content (x : List β) (hne : x ≠ []) (hx : x.length ≤ r.rec_len) :
    rec_run val r x
      = ((settle { r with rec_len := r.rec_len - x.length }).1,
          (if r.rec_type = FCGI_STDOUT then x.map .byte else [])
            ++ (settle { r with rec_len := r.rec_len - x.length }).2) := by
  induction x generalizing r with
  | nil => exact absurd rfl hne
  | cons b x ih =>
    rw [length_cons] at hx
    rw [rec_run]
    unfold rec_byte
    rw [if_neg (by omega), if_pos (by omega)]
    by_cases hnil : x = []
    · rw [hnil]
      simp [rec_run]
    · have hpos := length_pos_iff.mpr hnil
      -- bytes of this content are left, so the record is not over
      rw [settle_of_pending (.inl (by dsimp only; omega))]
      rw [ih hnil (by dsimp only; omega)]
      have hsub : r.rec_len - 1 - x.length = r.rec_len - (x.length + 1) := by omega
      simp only [length_cons, hsub, append_nil, map_cons]
      split <;> rfl

lemma rec_run_padding (h0 : r.rec_len = 0) (x : List β) (hne : x ≠ [])
    (hx : x.length ≤ r.rec_pad) :
    rec_run val r x = settle { r with rec_pad := r.rec_pad - x.length } := by
  induction x generalizing r with
  | nil => exact absurd rfl hne
  | cons b x ih =>
    rw [length_cons] at hx
    rw [rec_run]
    unfold rec_byte
    rw [if_neg (by omega), if_neg (by omega)]
    by_cases hnil : x = []
    · rw [hnil]
      simp [rec_run]
    · have hpos := length_pos_iff.mpr hnil
      rw [settle_of_pending (.inr (by dsimp only; omega))]
      have hrest := ih (r := { r with rec_pad := r.rec_pad - 1 }) h0 hnil (by dsimp only; omega)
      have hsub : r.rec_pad - 1 - x.length = r.rec_pad - (x.length + 1) := by omega
      simp [hrest, hsub]

/-! ## What the loop calls -/

inductive Call (β : Type) where
  | stdout (data : List β)
  | done

def Call.acts : Call β → List (Act β)
  | .stdout data => data.map .byte
  | .done => [.done]

def Call.apply (ops : Ops σ β) (st : σ) : Call β → σ
  | .stdout data => if ops.current st then ops.stdout st data else st
  | .done => ops.request_done st

structure Spells (calls : List (Call β)) (acts : List (Act β)) : Prop where
  acts_eq : calls.flatMap Call.acts = acts
  nonempty : ∀ data, Call.stdout data ∈ calls → data ≠ []

lemma Spells.append {c1 c2 : List (Call β)} {a1 a2 : List (Act β)} (h1 : Spells c1 a1)
    (h2 : Spells c2 a2) : Spells (c1 ++ c2) (a1 ++ a2) where
  acts_eq := by rw [flatMap_append, h1.acts_eq, h2.acts_eq]
  nonempty := by
    intro data h
    rcases mem_append.mp h with h | h
    · exact h1.nonempty data h
    · exact h2.nonempty data h

lemma Spells.nil : Spells ([] : List (Call β)) [] :=
  ⟨rfl, fun _ h => absurd h not_mem_nil⟩

lemma spells_stdout (x : List β) (hne : x ≠ []) (type : UInt8) :
    Spells (if type = FCGI_STDOUT then [Call.stdout x] else [])
      (if type = FCGI_STDOUT then x.map .byte else []) := by
  by_cases h : type = FCGI_STDOUT
  · rw [if_pos h, if_pos h]
    refine ⟨by simp [Call.acts], ?_⟩
    intro data hd
    rw [mem_singleton] at hd
    cases hd
    exact hne
  · rw [if_neg h, if_neg h]
    exact Spells.nil

variable {ops : Ops σ β}

lemma end_pass_calls (hdead : ∀ st, ops.dead st = false) (d : Data σ β) :
    ∃ calls, Spells calls (settle d.fields).2
      ∧ end_pass ops d
        = .again { st := calls.foldl (Call.apply ops) d.st, fields := (settle d.fields).1,
                   buf := d.buf } := by
  unfold end_pass settle
  by_cases h : d.fields.request_over
  · refine ⟨[.done], ?_, ?_⟩
    · rw [if_pos h]
      exact ⟨rfl, fun data hd => by simp at hd⟩
    · rw [if_pos h, if_pos h]
      rw [if_neg (by simp [hdead])]
      rfl
  · refine ⟨[], ?_, ?_⟩
    · rw [if_neg h]
      exact Spells.nil
    · rw [if_neg h, if_neg h]
      rfl

theorem data_pass_calls (hdead : ∀ st, ops.dead st = false) (d : Data σ β) (hbuf : d.buf ≠ []) :
    ∃ n calls, 0 < n ∧ n ≤ d.buf.length ∧ Spells calls (rec_run val d.fields (d.buf.take n)).2
      ∧ (data_pass val ops d).state
        = { st := calls.foldl (Call.apply ops) d.st,
            fields := (rec_run val d.fields (d.buf.take n)).1, buf := d.buf.drop n }
      ∧ (data_pass val ops d = .again (data_pass val ops d).state ∨ n = d.buf.length) := by
  have hpos := length_pos_iff.mpr hbuf
  have hlt := d.fields.rec_hdr_lt
  unfold data_pass
  rw [if_neg hbuf]
  by_cases h0 : d.fields.rec_len = 0 ∧ d.fields.rec_pad = 0
  · rw [if_pos h0]
    -- inside a header: as many bytes as it lacks, or all there are
    generalize hn : min (8 - d.fields.rec_hdr.length) d.buf.length = n
    have hlen : (d.fields.rec_hdr ++ d.buf.take n).length = d.fields.rec_hdr.length + n := by
      rw [length_append, length_take]
      omega
    by_cases h8 : (d.fields.rec_hdr ++ d.buf.take n).length < 8
    · -- the header stays incomplete, and only because the bytes ran out
      rw [dif_pos h8]
      refine ⟨n, [], by omega, by omega, ?_, ?_, .inr (by omega)⟩
      · rw [rec_run_header val h0 _ h8]
        exact Spells.nil
      · rw [rec_run_header val h0 _ h8]
        rfl
    · rw [dif_neg h8]
      obtain ⟨calls, hs, he⟩ := end_pass_calls hdead
        { d with fields := Rec.opened val (d.fields.rec_hdr ++ d.buf.take n), buf := d.buf.drop n }
      refine ⟨n, calls, by omega, by omega, ?_, ?_, .inl (by rw [he]; rfl)⟩
      · rw [rec_run_header_end val h0 _ (by omega)]
        exact hs
      · rw [he, rec_run_header_end val h0 _ (by omega)]
        rfl
  rw [if_neg h0]
  by_cases hc : d.fields.rec_len > 0
  · rw [if_pos hc]
    -- inside the content, which is handed on if it is STDOUT
    generalize hn : min d.fields.rec_len d.buf.length = n
    have hlen : (d.buf.take n).length = n := by rw [length_take]; omega
    have hne : d.buf.take n ≠ [] := by
      intro h
      rw [h] at hlen
      simp only [length_nil] at hlen
      omega
    obtain ⟨calls, hs, he⟩ := end_pass_calls hdead
      { st := (if d.fields.rec_type = FCGI_STDOUT ∧ ops.current d.st then
          ops.stdout d.st (d.buf.take n) else d.st)
        fields := { d.fields with rec_len := d.fields.rec_len - n }
        buf := d.buf.drop n }
    refine ⟨n, (if d.fields.rec_type = FCGI_STDOUT then [Call.stdout (d.buf.take n)] else []) ++ calls,
      by omega, by omega, ?_, ?_, .inl (by rw [he]; rfl)⟩
    · rw [rec_run_content val _ hne (by omega), hlen]
      exact (spells_stdout _ hne _).append hs
    · rw [he, rec_run_content val _ hne (by omega), hlen, foldl_append]
      by_cases ht : d.fields.rec_type = FCGI_STDOUT
      · by_cases hcur : ops.current d.st = true <;> simp [ht, hcur, Call.apply, Pass.state]
      · simp [ht, Pass.state]
  · rw [if_neg hc]
    -- inside the padding, which is skipped
    generalize hn : min d.fields.rec_pad d.buf.length = n
    have hlen : (d.buf.take n).length = n := by rw [length_take]; omega
    have hne : d.buf.take n ≠ [] := by
      intro h
      rw [h] at hlen
      simp only [length_nil] at hlen
      omega
    obtain ⟨calls, hs, he⟩ := end_pass_calls hdead
      { d with fields := { d.fields with rec_pad := d.fields.rec_pad - n }, buf := d.buf.drop n }
    refine ⟨n, calls, by omega, by omega, ?_, ?_, .inl (by rw [he]; rfl)⟩
    · rw [rec_run_padding val (by omega) _ hne (by omega), hlen]
      exact hs
    · rw [he, rec_run_padding val (by omega) _ hne (by omega), hlen]
      rfl

lemma data_pass_decreases :
    Decreases (fun d : Data σ β => d.buf.length) (data_pass val ops) (fun _ => True) where
  keep := fun _ _ _ _ => trivial
  drop := by
    intro d d' _ h
    have hlt := d.fields.rec_hdr_lt
    have hend : ∀ e : Data σ β, end_pass ops e = .again d' → d'.buf = e.buf := by
      intro e he
      unfold end_pass at he
      dsimp only at he
      split at he
      · split at he
        · exact nomatch he
        · cases he
          rfl
      · cases he
        rfl
    unfold data_pass at h
    dsimp only at h ⊢
    split at h
    · exact nomatch h
    rename_i hbuf
    have hpos := length_pos_iff.mpr hbuf
    split at h
    · split at h
      · exact nomatch h
      · rw [hend _ h, length_drop]
        omega
    split at h
    · rw [hend _ h, length_drop]
      omega
    · rw [hend _ h, length_drop]
      omega

/-- **One read.** What the loop calls spells what the bytes say, from wherever in a
record the reader stands. -/
theorem upstream_data_calls (hdead : ∀ st, ops.dead st = false) (st : σ) (r : Rec β)
    (buf : List β) :
    ∃ calls, Spells calls (rec_run val r buf).2
      ∧ fpm_http_upstream_data val ops st r buf
        = { st := calls.foldl (Call.apply ops) st, fields := (rec_run val r buf).1, buf := [] } := by
  induction hlen : buf.length using Nat.strongRecOn generalizing st r buf with
  | ind k ih =>
    unfold fpm_http_upstream_data
    rw [loop_unfold (data_pass_decreases val) _ trivial]
    by_cases hbuf : buf = []
    · subst hbuf
      exact ⟨[], Spells.nil, rfl⟩
    obtain ⟨n, calls, hn, hle, hs, hstate, hway⟩ :=
      data_pass_calls val hdead { st := st, fields := r, buf := buf } hbuf
    dsimp only at hle hs hstate hway
    cases hp : data_pass val ops { st := st, fields := r, buf := buf } with
    | leave d =>
      rw [hp] at hstate hway
      have hall : n = buf.length := hway.resolve_left (fun h => nomatch h)
      rw [hall, take_length] at hs hstate
      rw [drop_length] at hstate
      exact ⟨calls, hs, hstate⟩
    | again d =>
      rw [hp] at hstate
      dsimp only [Pass.state] at hstate ⊢
      obtain ⟨more, hs', hrest⟩ := ih (buf.drop n).length (by rw [length_drop]; omega)
        (calls.foldl (Call.apply ops) st) (rec_run val r (buf.take n)).1 (buf.drop n) rfl
      have hsplit := rec_run_append val r (buf.take n) (buf.drop n)
      rw [take_append_drop] at hsplit
      refine ⟨calls ++ more, ?_, ?_⟩
      · rw [hsplit]
        exact hs.append hs'
      · rw [hstate, hsplit, foldl_append]
        exact hrest

def feed_reads (val : β → UInt8) (ops : Ops σ β) (st : σ) (r : Rec β) (reads : List (List β)) :
    σ × Rec β :=
  reads.foldl (fun s buf =>
    ((fpm_http_upstream_data val ops s.1 s.2 buf).st,
      (fpm_http_upstream_data val ops s.1 s.2 buf).fields)) (st, r)

theorem feed_reads_calls (hdead : ∀ st, ops.dead st = false) (st : σ) (r : Rec β)
    (reads : List (List β)) :
    ∃ calls, Spells calls (rec_run val r reads.flatten).2 ∧ feed_reads val ops st r reads
        = (calls.foldl (Call.apply ops) st, (rec_run val r reads.flatten).1) := by
  induction reads generalizing st r with
  | nil => exact ⟨[], Spells.nil, rfl⟩
  | cons buf reads ih =>
    obtain ⟨calls, hs, hone⟩ := upstream_data_calls val hdead st r buf
    obtain ⟨more, hs', hrest⟩ := ih (calls.foldl (Call.apply ops) st) (rec_run val r buf).1
    unfold feed_reads at hrest ⊢
    rw [flatten_cons, rec_run_append, foldl_cons, hone]
    refine ⟨calls ++ more, hs.append hs', ?_⟩
    rw [hrest, foldl_append]

end

/-! ## A stream of records -/

def Record.acts (r : Record) : List (Act UInt8) :=
  (if r.type = FCGI_STDOUT then r.content.map .byte else [])
    ++ (if r.type = FCGI_END_REQUEST then [.done] else [])

lemma opened_header (r : Record) :
    Rec.opened id r.header = Rec.behind r.type r.content.length r.padding.length := by
  have hc := hi_lo r.content_lt
  have hp := padding_field r
  simp [Rec.opened, hdr_byte, header, id, hc, hp]

lemma settle_idle (type : UInt8) :
    ∃ t', settle (Rec.idle type : Rec UInt8)
      = (Rec.idle t', if type = FCGI_END_REQUEST then [.done] else []) := by
  unfold settle
  by_cases h : type = FCGI_END_REQUEST
  · have hover : (Rec.idle type : Rec UInt8).request_over := ⟨rfl, rfl, h⟩
    exact ⟨0, by rw [if_pos hover, if_pos h]⟩
  · have hover : ¬ (Rec.idle type : Rec UInt8).request_over := fun hc => h hc.2.2
    exact ⟨type, by rw [if_neg hover, if_neg h]⟩

lemma rec_run_body (type : UInt8) (x y : Bytes) :
    ∃ t', (rec_run id (settle (Rec.behind type x.length y.length)).1 (x ++ y)).1 = Rec.idle t'
      ∧ (settle (Rec.behind type x.length y.length : Rec UInt8)).2
          ++ (rec_run id (settle (Rec.behind type x.length y.length)).1 (x ++ y)).2
        = (if type = FCGI_STDOUT then x.map .byte else [])
          ++ (if type = FCGI_END_REQUEST then [.done] else []) := by
  obtain ⟨t', hidle⟩ := settle_idle type
  -- the padding ends in the idle state, whatever came before it
  have hpad : y ≠ [] → rec_run id (Rec.behind type 0 y.length) y = settle (Rec.idle type) := by
    intro hy
    rw [rec_run_padding id rfl y hy (Nat.le_refl _)]
    simp [Rec.idle, Rec.behind]
  refine ⟨t', ?_⟩
  by_cases hx : x = []
  · subst hx
    by_cases hy : y = []
    · subst hy
      have : settle (Rec.behind type 0 0 : Rec UInt8) = settle (Rec.idle type) := rfl
      simp [this, hidle, rec_run]
    · rw [settle_of_pending (.inr (length_pos_iff.mpr hy))]
      simp [hpad hy, hidle]
  · rw [settle_of_pending (.inl (length_pos_iff.mpr hx)), rec_run_append,
      rec_run_content id x hx (Nat.le_refl _)]
    have hrest : ({ (Rec.behind type x.length y.length : Rec UInt8) with
        rec_len := x.length - x.length } : Rec UInt8) = Rec.behind type 0 y.length := by
      simp [Rec.behind]
    have htype : (Rec.behind type x.length y.length : Rec UInt8).rec_type = type := rfl
    have hlen : (Rec.behind type x.length y.length : Rec UInt8).rec_len = x.length := rfl
    rw [hlen, hrest, htype]
    by_cases hy : y = []
    · subst hy
      have : settle (Rec.behind type 0 0 : Rec UInt8) = settle (Rec.idle type) := rfl
      simp [this, hidle, rec_run]
    · rw [settle_of_pending (.inr (length_pos_iff.mpr hy))]
      simp [hpad hy, hidle]

variable (t : UInt8)

theorem rec_run_wire (r : Record) :
    ∃ t', rec_run id (Rec.idle t) r.wire = (Rec.idle t', r.acts) := by
  obtain ⟨t', h1, h2⟩ := rec_run_body r.type r.content r.padding
  refine ⟨t', ?_⟩
  rw [wire, append_assoc, rec_run_append, rec_run_header_end id ⟨rfl, rfl⟩ r.header rfl]
  have hopen : Rec.opened id ((Rec.idle t : Rec UInt8).rec_hdr ++ r.header) = _ := opened_header r
  rw [hopen, h1, h2]
  rfl

lemma rec_run_records (records : List Record) :
    ∃ t', rec_run id (Rec.idle t) (records.flatMap wire)
      = (Rec.idle t', records.flatMap Record.acts) := by
  induction records generalizing t with
  | nil => exact ⟨t, rfl⟩
  | cons r records ih =>
    obtain ⟨t1, h1⟩ := rec_run_wire t r
    obtain ⟨t2, h2⟩ := ih t1
    refine ⟨t2, ?_⟩
    rw [flatMap_cons, rec_run_append, h1, h2]
    rfl

/-! ### What ends a request is a record -/

lemma rec_run_partial (type : UInt8) (len pad : ℕ) (x : Bytes) (hx : x.length < len + pad) :
    ∃ y : Bytes, (rec_run id (Rec.behind type len pad) x).2 = y.map Act.byte := by
  -- the padding says nothing
  have hpadding : ∀ z : Bytes, z.length < pad →
      (rec_run id (Rec.behind type 0 pad) z).2 = [] := by
    intro z hz
    by_cases hnil : z = []
    · rw [hnil]
      rfl
    · rw [rec_run_padding id rfl z hnil (Nat.le_of_lt hz),
        settle_of_pending (.inr (Nat.sub_pos_of_lt hz))]
  by_cases hnil : x.take len = []
  · have hzero : x = [] ∨ len = 0 := (take_eq_nil_iff.mp hnil).symm
    rcases hzero with rfl | rfl
    · exact ⟨[], rfl⟩
    · exact ⟨[], by rw [hpadding x (by omega)]; rfl⟩
  have hcontent := rec_run_content id (r := Rec.behind type len pad) (x.take len) hnil
    (by rw [length_take]; exact Nat.min_le_left _ _)
  have hlen : (Rec.behind type len pad : Rec UInt8).rec_len = len := rfl
  rw [hlen] at hcontent
  have hpending : settle { (Rec.behind type len pad : Rec UInt8) with
      rec_len := len - (x.take len).length }
      = (Rec.behind type (len - (x.take len).length) pad, []) := by
    refine settle_of_pending ?_
    rw [length_take]
    dsimp only
    by_cases hshort : x.length < len
    · exact .inl (by omega)
    · exact .inr (show 0 < pad by omega)
  rw [hpending] at hcontent
  have hrest : (rec_run id (Rec.behind type (len - (x.take len).length) pad) (x.drop len)).2 = [] := by
    by_cases hshort : x.length < len
    · rw [drop_of_length_le (by omega)]
      rfl
    · have hdone : len - (x.take len).length = 0 := by rw [length_take]; omega
      rw [hdone]
      exact hpadding _ (by rw [length_drop]; omega)
  refine ⟨if type = FCGI_STDOUT then x.take len else [], ?_⟩
  have hsplit := rec_run_append id (Rec.behind type len pad) (x.take len) (x.drop len)
  rw [take_append_drop, hcontent] at hsplit
  rw [hsplit]
  rw [hrest, append_nil, append_nil]
  show (if type = FCGI_STDOUT then _ else _) = _
  split <;> rfl

lemma eight_bytes (l : Bytes) (h : 8 ≤ l.length) :
    ∃ b0 b1 b2 b3 b4 b5 b6 b7 rest, l = b0 :: b1 :: b2 :: b3 :: b4 :: b5 :: b6 :: b7 :: rest := by
  obtain ⟨hdr, rest, rfl, hlen⟩ : ∃ hdr rest, l = hdr ++ rest ∧ hdr.length = 8 :=
    ⟨l.take 8, l.drop 8, (take_append_drop 8 l).symm, by rw [length_take]; omega⟩
  match hdr, hlen with
  | [b0, b1, b2, b3, b4, b5, b6, b7], _ => exact ⟨b0, b1, b2, b3, b4, b5, b6, b7, rest, rfl⟩

lemma rec_run_no_record {stream : Bytes} (h : decode_record stream = none) :
    ∃ y : Bytes, (rec_run id (Rec.idle t) stream).2 = y.map Act.byte := by
  by_cases hshort : stream.length < 8
  · rw [rec_run_header id (r := Rec.idle t) ⟨rfl, rfl⟩ stream hshort]
    exact ⟨[], rfl⟩
  have hsplit := rec_run_append id (Rec.idle t) (stream.take 8) (stream.drop 8)
  rw [take_append_drop] at hsplit
  have hhdr : ((Rec.idle t : Rec UInt8).rec_hdr ++ stream.take 8).length = 8 := by
    show (stream.take 8).length = 8
    rw [length_take]
    omega
  rw [rec_run_header_end id ⟨rfl, rfl⟩ _ hhdr] at hsplit
  obtain ⟨version, type, id1, id0, clen1, clen0, plen, reserved, l, rfl⟩ :=
    eight_bytes stream (Nat.le_of_not_lt hshort)
  simp only [decode_record] at h
  unfold decode_body at h
  split at h
  · simp at h
  · rename_i hlen
    have hopen : Rec.opened id ((Rec.idle t : Rec UInt8).rec_hdr
        ++ (version :: type :: id1 :: id0 :: clen1 :: clen0 :: plen :: reserved :: l).take 8)
        = Rec.behind type (clen1.toNat * 256 + clen0.toNat) plen.toNat := rfl
    have hpending : settle (Rec.behind type (clen1.toNat * 256 + clen0.toNat) plen.toNat)
        = ((Rec.behind type (clen1.toNat * 256 + clen0.toNat) plen.toNat : Rec UInt8), []) := by
      refine settle_of_pending ?_
      show 0 < clen1.toNat * 256 + clen0.toNat ∨ 0 < plen.toNat
      omega
    rw [hopen, hpending] at hsplit
    rw [hsplit]
    exact rec_run_partial type _ _ l (by omega)

/-! ## One request and its client -/

/-- The request an upstream serves. `current` is cleared when the request is done;
nothing waits for the connection. -/
structure Exchange where
  conn : Reply.Conn
  current : Bool

/-- `fpm_http_request_done` with an empty queue. -/
def fpm_http_request_done (e : Exchange) : Exchange :=
  if e.current then { conn := fpm_http_finish e.conn, current := false } else e

def exchange_ops : Ops Exchange UInt8 where
  current := fun e => e.current
  stdout := fun e data => { e with conn := fpm_http_stdout e.conn data }
  request_done := fpm_http_request_done
  dead := fun _ => false

/-- The reads of a reply, from a connection whose last record was of type `t`. -/
def read_reply (c : Reply.Conn) (t : UInt8) (reads : List Bytes) : Exchange :=
  (feed_reads id exchange_ops { conn := c, current := true } (Rec.idle t) reads).1

def stdout_content : List Record → Bytes
  | [] => []
  | r :: records =>
    if r.type = FCGI_END_REQUEST then []
    else (if r.type = FCGI_STDOUT then r.content else []) ++ stdout_content records

def end_request_seen (records : List Record) : Bool :=
  records.any fun r => r.type == FCGI_END_REQUEST

def one_piece (c : Reply.Conn) (content : Bytes) (ended : Bool) : Exchange :=
  let c := if content = [] then c else fpm_http_stdout c content
  if ended then { conn := fpm_http_finish c, current := false } else { conn := c, current := true }

def said {β : Type} : List (Act β) → List β × Bool
  | [] => ([], false)
  | .byte b :: acts => (b :: (said acts).1, (said acts).2)
  | .done :: _ => ([], true)

variable {β : Type}

lemma said_bytes (x : List β) (acts : List (Act β)) :
    said (x.map .byte ++ acts) = (x ++ (said acts).1, (said acts).2) := by
  induction x with
  | nil => rfl
  | cons b x ih => simp [said, ih]

lemma said_append {a : List (Act β)} (h : (said a).2 = true) (b : List (Act β)) :
    said (a ++ b) = said a := by
  induction a with
  | nil => cases h
  | cons act a ih =>
    cases act with
    | byte x => simp [said, ih h]
    | done => rfl

lemma said_records (records : List Record) :
    said (records.flatMap Record.acts) = (stdout_content records, end_request_seen records) := by
  induction records with
  | nil => rfl
  | cons r records ih =>
    unfold end_request_seen at ih ⊢
    have hacts : r.acts = (if r.type = FCGI_STDOUT then r.content.map .byte else [])
        ++ (if r.type = FCGI_END_REQUEST then [.done] else []) := rfl
    rw [flatMap_cons, any_cons, hacts, stdout_content]
    by_cases hend : r.type = FCGI_END_REQUEST
    · rw [if_neg (by rw [hend]; decide), if_pos hend, if_pos hend, hend]
      rfl
    · have hne : (r.type == FCGI_END_REQUEST) = false := beq_eq_false_iff_ne.mpr hend
      rw [if_neg hend, if_neg hend, append_nil, hne, Bool.false_or]
      by_cases hout : r.type = FCGI_STDOUT
      · rw [if_pos hout, if_pos hout, said_bytes, ih]
      · rw [if_neg hout, if_neg hout, nil_append, nil_append, ih]

/-- **The end of a request on the wire.** When the reader says that the request is over
the stream begins with records up to an END_REQUEST, and what it said before is their
STDOUT. -/
theorem said_ended (stream : Bytes)
    (h : (said (rec_run id (Rec.idle t) stream).2).2 = true) :
    ∃ (records : List Record) (rest : Bytes), stream = records.flatMap wire ++ rest
      ∧ end_request_seen records = true
      ∧ stdout_content records = (said (rec_run id (Rec.idle t) stream).2).1 := by
  -- the induction takes one record off the stream
  induction hlen : stream.length using Nat.strongRecOn generalizing t stream with
  | ind k ih =>
    cases hdec : decode_record stream with
    | none =>
      exfalso
      obtain ⟨y, hy⟩ := rec_run_no_record t hdec
      have hsaid := said_bytes y []
      rw [append_nil] at hsaid
      rw [hy, hsaid] at h
      cases h
    | some p =>
      obtain ⟨r, rest⟩ := p
      have hstream := decode_record_eq_some hdec
      obtain ⟨t', hone⟩ := rec_run_wire t r
      rw [hstream, rec_run_append, hone] at h ⊢
      have hacts : r.acts = (if r.type = FCGI_STDOUT then r.content.map .byte else [])
          ++ (if r.type = FCGI_END_REQUEST then [.done] else []) := rfl
      by_cases hend : r.type = FCGI_END_REQUEST
      · have hdone : r.acts = [.done] := by
          rw [hacts, if_neg (by rw [hend]; decide), if_pos hend]
          rfl
        refine ⟨[r], rest, by simp, ?_, ?_⟩
        · rw [end_request_seen, any_cons, hend]
          rfl
        · rw [hdone, stdout_content, if_pos hend]
          rfl
      · have hbytes : r.acts = (if r.type = FCGI_STDOUT then r.content else []).map .byte := by
          rw [hacts, if_neg hend, append_nil]
          split <;> rfl
        rw [hbytes, said_bytes] at h ⊢
        have hwire : 0 < r.wire.length :=
          length_pos_iff.mpr (record_codec.nonempty r trivial)
        obtain ⟨records, rest', hrest, hseen, hcontent⟩ :=
          ih rest.length (by rw [← hlen, hstream, length_append]; omega) t' rest h rfl
        refine ⟨r :: records, rest', ?_, ?_, ?_⟩
        · rw [flatMap_cons, append_assoc, ← hrest]
        · unfold end_request_seen at hseen ⊢
          rw [any_cons, hseen, Bool.or_true]
        · rw [stdout_content, if_neg hend, hcontent]

lemma calls_split (calls : List (Call β)) :
    ∃ (pieces : List (List β)) (rest : List (Call β)), calls = pieces.map .stdout ++ rest
      ∧ said (calls.flatMap Call.acts) = (pieces.flatten, !rest.isEmpty)
      ∧ (rest = [] ∨ ∃ more, rest = .done :: more) := by
  induction calls with
  | nil => exact ⟨[], [], rfl, rfl, .inl rfl⟩
  | cons call calls ih =>
    obtain ⟨pieces, rest, hcalls, hsaid, hrest⟩ := ih
    cases call with
    | stdout data =>
      refine ⟨data :: pieces, rest, by rw [hcalls]; rfl, ?_, hrest⟩
      rw [flatMap_cons, Call.acts, said_bytes, hsaid, flatten_cons]
    | done =>
      exact ⟨[], .done :: calls, rfl, rfl, .inr ⟨calls, rfl⟩⟩

lemma calls_not_current (calls : List (Call UInt8)) {e : Exchange} (he : e.current = false) :
    calls.foldl (Call.apply exchange_ops) e = e := by
  induction calls with
  | nil => rfl
  | cons call calls ih =>
    have hcall : Call.apply exchange_ops e call = e := by
      cases call with
      | stdout data => exact if_neg (by rw [show exchange_ops.current e = e.current from rfl, he]; decide)
      | done => exact if_neg (by rw [he]; decide)
    rw [foldl_cons, hcall, ih]

lemma calls_current (pieces : List Bytes) (c : Reply.Conn) :
    (pieces.map Call.stdout).foldl (Call.apply exchange_ops) { conn := c, current := true }
      = { conn := pieces.foldl fpm_http_stdout c, current := true } := by
  induction pieces generalizing c with
  | nil => rfl
  | cons x pieces ih => exact ih (fpm_http_stdout c x)

theorem calls_one_piece {c : Reply.Conn} (hc : Collecting c) (hnone : c.cgi_headers = none)
    {calls : List (Call UInt8)} {acts : List (Act UInt8)} (h : Spells calls acts)
    (hfit : BlockFits (said acts).1) :
    calls.foldl (Call.apply exchange_ops) { conn := c, current := true }
      = one_piece c (said acts).1 (said acts).2 := by
  obtain ⟨pieces, rest, hcalls, hsaid, hrest⟩ := calls_split calls
  rw [h.acts_eq] at hsaid
  have hpieces : pieces.foldl fpm_http_stdout c
      = if (said acts).1 = [] then c else fpm_http_stdout c (said acts).1 := by
    rw [hsaid] at hfit ⊢
    cases pieces with
    | nil => rfl
    | cons x pieces =>
      have hx : x ≠ [] := h.nonempty x (by rw [hcalls]; simp)
      rw [if_neg (by simp [hx]), flatten_cons]
      exact foldl_stdout hc x pieces (by rw [hnone]; exact hfit)
  rw [hcalls, foldl_append, calls_current, hpieces]
  rcases hrest with rfl | ⟨more, rfl⟩
  · rw [hsaid]
    rfl
  · rw [hsaid, foldl_cons, calls_not_current more]
    · rfl
    · rfl

theorem read_reply_records {c : Reply.Conn} (hc : Collecting c) (hnone : c.cgi_headers = none)
    (t : UInt8) (records : List Record) (reads : List Bytes)
    (hreads : reads.flatten = records.flatMap wire)
    (hfit : BlockFits (stdout_content records)) :
    read_reply c t reads = one_piece c (stdout_content records) (end_request_seen records) := by
  obtain ⟨calls, hs, hfeed⟩ := feed_reads_calls id (fun _ => rfl : ∀ e, exchange_ops.dead e = false)
    { conn := c, current := true } (Rec.idle t) reads
  obtain ⟨t', hrun⟩ := rec_run_records t records
  rw [hreads, hrun] at hs
  have hsaid := said_records records
  have hone := calls_one_piece hc hnone hs (by rw [hsaid]; exact hfit)
  unfold read_reply
  rw [hfeed, hone, hsaid]

/-- **The reply does not depend on how the stream is cut.** For any records of a request and any
reads of them, the client gets what it gets when the STDOUT content is handed over in one piece,
whose header block ends at the first empty line. -/
theorem fcgi_reply_cut_invariant (q : Request) (t : UInt8) (records : List Record)
    (reads : List Bytes) (hreads : reads.flatten = records.flatMap wire)
    (hfit : BlockFits (stdout_content records)) :
    read_reply (fresh q []) t reads
        = one_piece (fresh q []) (stdout_content records) (end_request_seen records)
      ∧ fpm_http_stdout (fresh q []) (stdout_content records)
        = collected (fresh q []) (stdout_content records) := by
  have hc : Collecting (fresh q []) := ⟨rfl, rfl, rfl, rfl⟩
  exact ⟨read_reply_records hc rfl t records reads hreads hfit, stdout_collecting hc _⟩

def stdout_record (content padding : Bytes) (hc : content.length < 65536)
    (hp : padding.length < 256) : Record where
  version := FCGI_VERSION_1
  type := FCGI_STDOUT
  requestIdB1 := 0
  requestIdB0 := 1
  reserved := 0
  content := content
  padding := padding
  content_lt := hc
  padding_lt := hp

def end_request_record : Record :=
  { stdout_record [0, 0, 0, 0, 0, 0, 0, 0] [] (by decide) (by decide) with
    type := FCGI_END_REQUEST }

/-- A reply in two STDOUT records, the empty line cut in the middle, one of them
padded. -/
def two_records : List Record :=
  [stdout_record (str "Status: 404 Not Found\r\n\r") [0, 0] (by decide) (by decide),
   stdout_record (str "\nno") [] (by decide) (by decide), end_request_record]

lemma two_records_fit : BlockFits (stdout_content two_records) := by
  intro i hi
  cases hi
  decide

theorem fcgi_reply_cut_invariant_byte_by_byte :
    (read_reply (fresh plain []) 0
        ((two_records.flatMap wire).map fun b => [b])).conn.view
      = { started := some { code := 404, reason := str "Not Found", headers := [] }
          body := str "no"
          ending := some .ended } := by
  have h := fcgi_reply_cut_invariant plain 0 two_records
    ((two_records.flatMap wire).map fun b => [b]) (by decide) two_records_fit
  rw [h.1]
  decide

end FpmNg.Fcgi
