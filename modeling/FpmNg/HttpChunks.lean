/-
Chunked bodies: what the reader makes of a chunk-size line, and what it delivers of a
body.

The size line is judged by `chunk_size`, which reads hexadecimal digits, guards the sum
against wrap-around and looks at one byte behind them. `line_size` is what such a line
says by the framing. Every line that says a size is read so, if `size_t` can hold it, and
a body of such lines is decoded whole, wherever it is cut. The other direction fails: of
what follows the digits only the first byte is looked at, and the length of a line
that comes with its LF is not looked at at all.
-/
import FpmNg.HttpReply

open ByteScan List
open FpmNg.Reply (Conn is_blank fresh plain)

namespace FpmNg.HttpReply

/-! ## Hexadecimal numbers -/

def hex_digits : Bytes := str "0123456789abcdefABCDEF"

def is_hex (b : UInt8) : Bool := hex_digits.contains b

def hex_of (b : UInt8) : ℕ :=
  if hex_digits.idxOf b < 16 then hex_digits.idxOf b else hex_digits.idxOf b - 6

/-- The number a string of hexadecimal digits spells, behind `v`. -/
def hex_value (v : ℕ) (digits : Bytes) : ℕ := digits.foldl (fun v b => v * 16 + hex_of b) v

lemma hex_digit_eq (b : UInt8) :
    hex_digit b = (if is_hex b then some (hex_of b) else none) ∧ (is_hex b = true → hex_of b < 16) := by
  have hall : ∀ n : Fin 256,
      hex_digit (.ofFin n) = (if is_hex (.ofFin n) then some (hex_of (.ofFin n)) else none)
        ∧ (is_hex (.ofFin n) = true → hex_of (.ofFin n) < 16) := by
    decide +kernel
  exact hall b.toFin

lemma le_hex_value (v : ℕ) (digits : Bytes) : v ≤ hex_value v digits := by
  induction digits generalizing v with
  | nil => exact Nat.le_refl v
  | cons b digits ih =>
    have hnext := ih (v * 16 + hex_of b)
    show v ≤ hex_value (v * 16 + hex_of b) digits
    omega

/-- **The digit loop.** Its guard refuses exactly the numbers `size_t` cannot hold. -/
theorem chunk_size_digits_eq {v : ℕ} (hv : v ≤ SIZE_MAX) (line : Bytes) :
    chunk_size_digits v line = if hex_value v (line.takeWhile is_hex) ≤ SIZE_MAX then
          some (hex_value v (line.takeWhile is_hex), line.dropWhile is_hex) else none := by
  induction line generalizing v with
  | nil => exact (if_pos hv).symm
  | cons b line ih =>
    rw [chunk_size_digits, (hex_digit_eq b).1]
    by_cases hhex : is_hex b = true
    · have hlt := (hex_digit_eq b).2 hhex
      have hmax : SIZE_MAX = 16 * (SIZE_MAX / 16) + 15 := by decide
      have hcons : hex_value v (b :: line.takeWhile is_hex)
          = hex_value (v * 16 + hex_of b) (line.takeWhile is_hex) := rfl
      rw [if_pos hhex, takeWhile_cons_of_pos hhex, dropWhile_cons_of_pos hhex, hcons]
      dsimp only
      by_cases hbig : v > SIZE_MAX / 16
      · have hle := le_hex_value (v * 16 + hex_of b) (line.takeWhile is_hex)
        rw [if_pos hbig, if_neg (by omega)]
      · rw [if_neg hbig, ih (by omega)]
    · rw [if_neg hhex, takeWhile_cons_of_neg hhex, dropWhile_cons_of_neg hhex]
      exact (if_pos hv).symm

/-! ## Size lines -/

def is_size_end (b : UInt8) : Bool := b == SEMICOLON || b == CR || is_blank b

theorem chunk_size_eq (line : Bytes) :
    chunk_size line = if line.takeWhile is_hex ≠ [] ∧ hex_value 0 (line.takeWhile is_hex) ≤ SIZE_MAX
            ∧ (line.dropWhile is_hex).head?.all is_size_end = true then
          some (hex_value 0 (line.takeWhile is_hex)) else none := by
  have hsplit : (line.takeWhile is_hex).length + (line.dropWhile is_hex).length = line.length := by
    rw [← length_append, takeWhile_append_dropWhile]
  unfold chunk_size
  rw [chunk_size_digits_eq (Nat.zero_le _)]
  by_cases hfit : hex_value 0 (line.takeWhile is_hex) ≤ SIZE_MAX
  · rw [if_pos hfit]
    dsimp only
    by_cases hnone : line.takeWhile is_hex = []
    · rw [if_pos (by rw [← hsplit, hnone]; simp), if_neg (fun h => h.1 hnone)]
    · have hpos := length_pos_iff.mpr hnone
      rw [if_neg (by omega)]
      cases line.dropWhile is_hex with
      | nil => rw [if_pos ⟨hnone, hfit, by simp⟩]
      | cons b rest =>
        have hend : (b = 59 ∨ b = CR ∨ b = SP ∨ b = HT) ↔ is_size_end b = true := by
          simp [is_size_end, is_blank, or_assoc]
        dsimp only
        by_cases hb : is_size_end b = true
        · rw [if_pos (hend.mpr hb), if_pos ⟨hnone, hfit, by simpa using hb⟩]
        · rw [if_neg (fun h => hb (hend.mp h)), if_neg (fun h => hb (by simpa using h.2.2))]
  · rw [if_neg hfit, if_neg (fun h => hfit h.2.1)]

/-- What may follow the digits of a size line: blanks, and an extension or a final CR. -/
def size_tail_ok (rest : Bytes) : Bool :=
  let tail := rest.dropWhile is_blank
  tail == [] || tail == [CR] || tail.head? == some SEMICOLON

/-- **What a size line says by the framing**: the number its hexadecimal digits spell, if
only blanks, an extension and a final CR follow them. -/
def line_size (line : Bytes) : Option ℕ :=
  if line.takeWhile is_hex ≠ [] ∧ size_tail_ok (line.dropWhile is_hex) = true then
    some (hex_value 0 (line.takeWhile is_hex)) else none

/-- It says a size that `size_t` can hold. -/
def size_line_ok (line : Bytes) : Bool := (line_size line).any (· ≤ SIZE_MAX)

variable {line : Bytes}

lemma line_size_eq_some {n : ℕ} (h : line_size line = some n) :
    line.takeWhile is_hex ≠ [] ∧ size_tail_ok (line.dropWhile is_hex) = true
      ∧ hex_value 0 (line.takeWhile is_hex) = n := by
  unfold line_size at h
  split at h
  · rename_i hcond
    exact ⟨hcond.1, hcond.2, Option.some.inj h⟩
  · exact nomatch h

lemma size_end_of_tail {rest : Bytes} (h : size_tail_ok rest = true) :
    rest.head?.all is_size_end = true := by
  cases rest with
  | nil => rfl
  | cons b rest =>
    unfold size_tail_ok at h
    -- the byte is a blank, or the tail begins with it
    by_cases hblank : is_blank b = true
    · simp [is_size_end, hblank]
    · rw [dropWhile_cons_of_neg hblank] at h
      simp only [Bool.or_eq_true, beq_iff_eq, reduceCtorEq, cons.injEq, head?_cons,
        Option.some.injEq, false_or] at h
      rcases h with ⟨rfl, -⟩ | rfl <;> rfl

lemma chunk_size_of_line {n : ℕ} (h : line_size line = some n) (hfit : n ≤ SIZE_MAX) :
    chunk_size line = some n := by
  obtain ⟨hne, htail, rfl⟩ := line_size_eq_some h
  rw [chunk_size_eq, if_pos ⟨hne, hfit, size_end_of_tail htail⟩]

/-! ## Bodies -/

def Chunked.data {size : Bytes → Option ℕ} (b : Chunked size) : Bytes := b.chunks.flatMap Chunk.data

/-- No chunk is larger than `size_t` can say, and no line is above 16 KiB. -/
structure Chunked.Fits {size : Bytes → Option ℕ} (b : Chunked size) : Prop where
  chunks : ∀ k ∈ b.chunks, k.data.length ≤ SIZE_MAX
  lines : b.Short
  trailers : ∀ t ∈ b.trailers, t.line.length ≤ LINE_MAX

section
variable {mode : Mode} {ph ph' ph'' : Phase UInt8} {x y : Bytes} {a a' : List (Act UInt8)}

def Taken (mode : Mode) (ph : Phase UInt8) (x : Bytes) (a : List (Act UInt8)) (ph' : Phase UInt8) :
    Prop :=
  http_run id mode ph x = { phase := ph', acts := a, verdict := .more, rest := [] }

lemma Taken.nil : Taken mode ph [] [] ph := rfl

lemma Taken.run (h : Taken mode ph x a ph') (y : Bytes) :
    http_run id mode ph (x ++ y)
      = { http_run id mode ph' y with acts := a ++ (http_run id mode ph' y).acts } := by
  rw [http_run_append, h]
  rfl

lemma Taken.append (h : Taken mode ph x a ph') (h' : Taken mode ph' y a' ph'') :
    Taken mode ph (x ++ y) (a ++ a') ph'' := by
  unfold Taken
  rw [h.run, h']

lemma Taken.flatMap {α : Type} {wire : α → Bytes} {acts : α → List (Act UInt8)} (l : List α)
    (h : ∀ k ∈ l, Taken mode ph (wire k) (acts k) ph) :
    Taken mode ph (l.flatMap wire) (l.flatMap acts) ph := by
  induction l with
  | nil => exact Taken.nil
  | cons k l ih =>
    exact (h k (by simp)).append (ih fun k' hk' => h k' (by simp [hk']))

theorem taken_chunk (k : Chunk chunk_size) (e : Bool) :
    Taken mode (.body .CHUNK_SIZE 0 [] e) k.wire (k.data.map .byte) (.body .CHUNK_SIZE 0 [] e) := by
  have hne : k.data.length ≠ 0 := fun h => k.data_ne (length_eq_zero_iff.mp h)
  have hline : Taken mode _ _ _ _ := run_size_line k.line_nolf k.sized 0 e
  rw [if_pos hne] at hline
  have hdata : Taken mode (.body .CHUNK_DATA k.data.length [] e) k.data (k.data.map .byte)
      (.body .CHUNK_CRLF 0 [] e) := by
    have hrun := http_run_chunk_data id mode (n := k.data.length) (l := []) (e := e) k.data k.data_ne
      (Nat.le_refl _)
    rwa [Nat.sub_self, if_pos rfl] at hrun
  have hcrlf : Taken mode (.body .CHUNK_CRLF 0 [] e) [CR, LF] [] (.body .CHUNK_SIZE 0 [] e) := rfl
  have hall := hline.append (hdata.append hcrlf)
  rwa [nil_append, append_nil] at hall

lemma run_blank {blank : Bytes} (h : blank_line blank = true) (e : Bool) (rest : Bytes) :
    http_run id mode (.body .TRAILERS 0 [] e) (blank ++ [LF] ++ rest)
      = { phase := .body .TRAILERS 0 [] e, acts := [], verdict := .complete, rest := rest } := by
  rcases blank_cases h with rfl | rfl <;> rfl

theorem run_chunked (b : Chunked chunk_size) (htrailers : ∀ t ∈ b.trailers, t.line.length ≤ LINE_MAX)
    (e : Bool) (rest : Bytes) :
    http_run id mode (.body .CHUNK_SIZE 0 [] e) (b.wire ++ rest)
      = { phase := .body .TRAILERS 0 [] e, acts := b.data.map .byte, verdict := .complete,
          rest := rest } := by
  have hchunks : Taken mode (.body .CHUNK_SIZE 0 [] e) _ _ _ :=
    Taken.flatMap b.chunks fun k _ => taken_chunk k e
  have hlast : Taken mode (.body .CHUNK_SIZE 0 [] e) (b.last ++ [LF]) [] _ :=
    run_size_line b.last_nolf b.last_sized 0 e
  rw [if_neg (not_not.mpr rfl)] at hlast
  have htrailers : Taken mode (.body .TRAILERS 0 [] e) _ (b.trailers.flatMap fun _ => []) _ :=
    Taken.flatMap b.trailers fun t ht => run_trailer t (htrailers t ht) e
  have hnone : (b.trailers.flatMap fun _ => ([] : List (Act UInt8))) = [] := by simp
  rw [hnone] at htrailers
  have hdata : (b.chunks.flatMap fun k => k.data.map Act.byte) = b.data.map .byte := by
    rw [Chunked.data, map_flatMap]
  rw [hdata] at hchunks
  have hwire : b.wire ++ rest = b.chunks.flatMap Chunk.wire ++ ((b.last ++ [LF])
      ++ (b.trailers.flatMap Trailer.wire ++ (b.blank ++ [LF] ++ rest))) := by
    unfold Chunked.wire
    simp
  rw [hwire, hchunks.run, hlast.run, htrailers.run, run_blank b.blank_blank]
  simp

variable (b : Chunked line_size)

theorem exists_chunked (hfits : b.Fits) :
    ∃ c : Chunked chunk_size, c.wire = b.wire ∧ c.data = b.data ∧ c.Fits := by
  have hc : ∀ k ∈ b.chunks, chunk_size k.line = some k.data.length :=
    fun k hk => chunk_size_of_line k.sized (hfits.chunks k hk)
  have hl : chunk_size b.last = some 0 := chunk_size_of_line b.last_sized (Nat.zero_le _)
  have hmem : ∀ k ∈ (b.read hc hl).chunks, ∃ k' ∈ b.chunks, k.line = k'.line ∧ k.data = k'.data := by
    intro k hk
    obtain ⟨k', hk', rfl⟩ := mem_pmap.mp hk
    exact ⟨k', hk', rfl, rfl⟩
  refine ⟨b.read hc hl, ?_, ?_, ?_, ⟨?_, hfits.lines.2⟩, hfits.trailers⟩
  · exact congrArg (· ++ _) (Chunked.flatMap_read hc hl fun line data => line ++ [LF] ++ (data ++ [CR, LF]))
  · exact Chunked.flatMap_read hc hl fun _ data => data
  · intro k hk
    obtain ⟨k', hk', -, hdata⟩ := hmem k hk
    exact hdata ▸ hfits.chunks k' hk'
  · intro k hk
    obtain ⟨k', hk', hline, -⟩ := hmem k hk
    exact hline ▸ hfits.lines.1 k' hk'

lemma run_body (hfits : b.Fits) (e : Bool) (rest : Bytes) :
    http_run id mode (.body .CHUNK_SIZE 0 [] e) (b.wire ++ rest)
      = { phase := .body .TRAILERS 0 [] e, acts := b.data.map .byte, verdict := .complete,
          rest := rest } := by
  obtain ⟨c, hwire, hdata, hc⟩ := exists_chunked b hfits
  rw [← hwire, ← hdata]
  exact run_chunked c hc.trailers e rest

def Waits (r : Result UInt8) : Prop := r.verdict = .more ∧ ¬ r.phase.overlong

lemma run_body_cut (hfits : b.Fits) (e : Bool) {p q : Bytes}
    (hpq : b.wire = p ++ q) (hq : q ≠ []) : Waits (http_run id mode (.body .CHUNK_SIZE 0 [] e) p) := by
  have hmore : (http_run id mode (.body .CHUNK_SIZE 0 [] e) p).verdict = .more := by
    by_contra hv
    have hwhole : http_run id mode (.body .CHUNK_SIZE 0 [] e) (b.wire ++ []) = _ :=
      run_body b hfits e []
    rw [append_nil, hpq, http_run_append] at hwhole
    unfold Result.andThen at hwhole
    rw [if_neg hv] at hwhole
    exact hq (append_eq_nil_iff.mp (congrArg Result.rest hwhole)).2
  refine ⟨hmore, fun hlong => ?_⟩
  obtain ⟨c, hwire, -, hc⟩ := exists_chunked b hfits
  have hends : Ends mode (.body .CHUNK_SIZE 0 [] e) _ := ends_chunked hc.lines e
  rw [hwire] at hends
  exact (hends.cut p q hpq).2 ⟨hmore, hlong⟩

end

/-! ## Reads of a part of a reply

A part of a reply is read in pieces, of which the first may bring the end of what came
before it. -/

/-- The reads that end inside the part: `x` is what came before it in the first of
them. -/
def first_reads (x : Bytes) : List Bytes → List Bytes
  | [] => []
  | l :: ls => (x ++ l) :: ls

def last_read (x : Bytes) (ls : List Bytes) (last : Bytes) : Bytes :=
  if ls = [] then x ++ last else last

lemma first_reads_take (x : Bytes) (ls : List Bytes) {k : ℕ} (hk : 0 < k)
    (hlen : k ≤ (first_reads x ls).length) :
    ((first_reads x ls).take k).flatten = x ++ (ls.take k).flatten := by
  cases ls with
  | nil =>
    have : (first_reads x []).length = 0 := rfl
    omega
  | cons l ls =>
    obtain ⟨k, rfl⟩ : ∃ j, k = j + 1 := ⟨k - 1, by omega⟩
    rw [first_reads, take_succ_cons, take_succ_cons, flatten_cons, flatten_cons,
      append_assoc]

lemma first_reads_length (x : Bytes) (ls : List Bytes) : (first_reads x ls).length = ls.length := by
  cases ls <;> rfl

lemma all_reads (x : Bytes) (ls : List Bytes) (last : Bytes) :
    (first_reads x ls).flatten ++ last_read x ls last = x ++ (ls.flatten ++ last) := by
  unfold last_read
  cases ls with
  | nil => rfl
  | cons l ls =>
    rw [first_reads, if_neg (by simp)]
    simp

lemma first_reads_ne {x : Bytes} {ls : List Bytes} (h : ∀ l ∈ ls, l ≠ []) :
    ∀ l ∈ first_reads x ls, l ≠ [] := by
  cases ls with
  | nil => exact h
  | cons l ls =>
    intro q hq
    rcases mem_cons.mp hq with rfl | hq
    · exact fun hnil => h l (by simp) (append_eq_nil_iff.mp hnil).2
    · exact h q (by simp [hq])

lemma last_read_ne {x : Bytes} {ls : List Bytes} {last : Bytes} (h : last ≠ []) :
    last_read x ls last ≠ [] := by
  unfold last_read
  split
  · exact fun hnil => h (append_eq_nil_iff.mp hnil).2
  · exact h

variable {p : Bytes} {c : Conn}

theorem Going.reads {s : Side} (h : Going c s p) (qs : List Bytes) (hne : ∀ q ∈ qs, q ≠ [])
    (hcut : ∀ k, 0 < k → k ≤ qs.length → Waits (stream c (p ++ (qs.take k).flatten))) :
    Going c (qs.foldl on_read s) (p ++ qs.flatten) ∨ NoMemory c (qs.foldl on_read s).request := by
  induction qs generalizing s p with
  | nil =>
    rw [flatten_nil, append_nil]
    exact .inl h
  | cons q qs ih =>
    obtain ⟨hmore, hshort⟩ := hcut 1 (by omega) (by simp)
    rw [take_succ_cons, take_zero, flatten_singleton] at hmore hshort
    rw [foldl_cons, flatten_cons, ← append_assoc]
    rcases h.read (hne q (by simp)) with ⟨-, -, hnext⟩ | ⟨-, hlong, -⟩ | ⟨hv, -⟩ | hno
    · refine ih hnext (fun q' hq' => hne q' (by simp [hq'])) fun k hk hlen => ?_
      have hnextcut := hcut (k + 1) (by omega) (by simpa using hlen)
      rwa [take_succ_cons, flatten_cons, ← append_assoc] at hnextcut
    · exact absurd hlong hshort
    · exact absurd hmore hv
    · -- a connection that is gone is not read any more
      rw [reads_dropped hno.dropped]
      exact .inr hno

lemma stream_sticks (h : (stream c p).verdict ≠ .more) (q : Bytes) :
    (stream c (p ++ q)).verdict = (stream c p).verdict := by
  rw [stream_append]
  unfold Result.andThen
  rw [if_neg h]

theorem Going.reads_failed {s : Side} (h : Going c s p) (qs : List Bytes) (hne : ∀ q ∈ qs, q ≠ [])
    {k : ℕ} (hk : 0 < k) (hlen : k ≤ qs.length)
    (hcut : (stream c (p ++ (qs.take k).flatten)).verdict = .fail
      ∨ (stream c (p ++ (qs.take k).flatten)).verdict = .more
        ∧ (stream c (p ++ (qs.take k).flatten)).phase.overlong) :
    (qs.foldl on_read s).request.status = .failed
      ∧ (qs.foldl on_read s).request.current = false := by
  induction qs generalizing s p k with
  | nil =>
    have : ([] : List Bytes).length = 0 := rfl
    omega
  | cons q qs ih =>
    obtain ⟨k, rfl⟩ : ∃ j, k = j + 1 := ⟨k - 1, by omega⟩
    rw [take_succ_cons, flatten_cons, ← append_assoc] at hcut
    rw [foldl_cons]
    rcases h.read (hne q (by simp)) with ⟨hmore, hshort, hnext⟩ | ⟨-, -, hend⟩ | ⟨hv, hend⟩ | hno
    · -- the first read is not the one
      have hpos : 0 < k := by
        by_contra hzero
        obtain rfl : k = 0 := by omega
        rw [take_zero, flatten_nil, append_nil] at hcut
        rcases hcut with hfail | ⟨-, hlong⟩
        · exact nomatch hmore.symm.trans hfail
        · exact hshort hlong
      exact ih hnext (fun q' hq' => hne q' (by simp [hq'])) hpos (by simpa using hlen) hcut
    · rw [reads_dropped hend.dropped]
      exact ⟨hend.failed, hend.over (by decide)⟩
    · have hfail : (stream c (p ++ q)).verdict = .fail := by
        have hstick := stream_sticks hv (qs.take k).flatten
        rcases hcut with hfail | ⟨hmore, -⟩
        · exact hstick.symm.trans hfail
        · exact absurd (hstick.symm.trans hmore) hv
      rw [hfail] at hend
      rw [reads_dropped hend.dropped]
      exact ⟨hend.failed, hend.over (by decide)⟩
    · rw [reads_dropped hno.dropped]
      exact ⟨hno.failed.2, hno.failed.1⟩

/-! ## Decoding -/

lemma reads_append (c : Conn) (before qs : List Bytes) :
    reads c (before ++ qs) = qs.foldl on_read (reads c before) := foldl_append ..

lemma stream_behind {ph : Phase UInt8} (hmore : (stream c p).verdict = .more)
    (hphase : (stream c p).phase = ph) (y : Bytes) :
    stream c (p ++ y) = { http_run id ⟨c.is_head, c.upgrading⟩ ph y with
      acts := (stream c p).acts ++ (http_run id ⟨c.is_head, c.upgrading⟩ ph y).acts } := by
  rw [stream_append, ← hphase]
  unfold Result.andThen
  rw [if_pos hmore]

def plain_request : Conn := fresh plain []

def chunked_reply_head : Bytes := str "HTTP/1.1 200 OK\r\nTransfer-Encoding: chunked\r\n\r\n"

def greeting : Chunked line_size where
  chunks :=
    [⟨str "002\r", str "hi", by decide +kernel, by decide +kernel, by decide +kernel⟩,
     ⟨str "A ;a=b\r", str " good day ", by decide +kernel, by decide +kernel, by decide +kernel⟩]
  last := str "00\r"
  trailers := [⟨str "x: z\r", by decide +kernel, by decide +kernel⟩]
  blank := [CR]
  last_nolf := by decide +kernel
  last_sized := by decide +kernel
  blank_nolf := by decide +kernel
  blank_blank := by decide +kernel

lemma greeting_fits : greeting.Fits :=
  ⟨by decide +kernel, ⟨by decide +kernel, by decide +kernel⟩, by decide +kernel⟩

def closing_head : Bytes :=
  str "HTTP/1.1 200 OK\r\nTransfer-Encoding: chunked\r\nConnection: close\r\n\r\n"

def size_line_strict (line : Bytes) : Bool := size_line_ok line && decide (line.length ≤ LINE_MAX)

/-- A size line is accepted only if it is to be, and every other one ends the reply as a
failure, whatever follows it in the same read. -/
def Judged (c : Conn) (before : List Bytes) (x : Bytes) (ls : List Bytes) (last line : Bytes) : Prop :=
  ((reads c (before ++ (first_reads x ls ++ [last_read x ls last]))).request.current = true →
      size_line_strict line = true)
    ∧ (size_line_strict line = false → ∀ rest,
        (reads c (before ++ (first_reads x ls ++ [last_read x ls (last ++ rest)]))).request.status
          = .failed)

/-- The reader notices what is wrong: there is no digit, `size_t` cannot hold the number,
or the byte behind the digits begins nothing that may stand there. -/
def Noticed (line : Bytes) : Prop :=
  line.takeWhile is_hex = [] ∨ SIZE_MAX < hex_value 0 (line.takeWhile is_hex)
    ∨ ∃ b ∈ (line.dropWhile is_hex).head?, b ≠ SEMICOLON ∧ b ≠ CR ∧ b ≠ SP ∧ b ≠ HT

/-- **Where the reader looks.** The digits or the byte behind them are wrong, or a read
ends in the line above 16 KiB, or there is nothing wrong behind that byte and the line is
not too long. -/
def Looked (ls : List Bytes) (line : Bytes) : Prop :=
  Noticed line ∨ (∃ k ≤ ls.length, LINE_MAX < (ls.take k).flatten.length)
    ∨ (size_tail_ok (line.dropWhile is_hex) = true ∧ line.length ≤ LINE_MAX)

lemma chunk_size_eq_none (line : Bytes) : chunk_size line = none ↔ Noticed line := by
  have hend : (line.dropWhile is_hex).head?.all is_size_end = true
      ↔ ¬ ∃ b ∈ (line.dropWhile is_hex).head?, b ≠ SEMICOLON ∧ b ≠ CR ∧ b ≠ SP ∧ b ≠ HT := by
    cases (line.dropWhile is_hex).head? with
    | none => simp
    | some b => simp [is_size_end, is_blank, or_assoc, imp_iff_not_or]
  rw [chunk_size_eq, ite_eq_right_iff, hend]
  simp only [reduceCtorEq, imp_false, Noticed]
  rw [not_and_or, not_and_or, not_ne_iff, Nat.not_le, not_not]

lemma size_line_ok_of_some {n : ℕ} (h : chunk_size line = some n) :
    size_line_ok line = size_tail_ok (line.dropWhile is_hex) := by
  rw [chunk_size_eq] at h
  split at h
  · rename_i hcond
    unfold size_line_ok line_size
    by_cases htail : size_tail_ok (line.dropWhile is_hex) = true
    · rw [if_pos ⟨hcond.1, htail⟩, htail]
      exact decide_eq_true hcond.2.1
    · rw [if_neg fun hc => htail hc.2]
      exact (Bool.eq_false_iff.mpr htail).symm
  · exact nomatch h

section
variable {c : Conn} {p line : Bytes} {n : ℕ} {e : Bool}

lemma stream_size_open (hmore : (stream c p).verdict = .more)
    (hphase : (stream c p).phase = .body .CHUNK_SIZE n [] e) {y : Bytes} (hy : NoLF y) :
    (stream c (p ++ y)).verdict = .more
      ∧ ((stream c (p ++ y)).phase.overlong ↔ LINE_MAX < y.length) := by
  rw [stream_behind hmore hphase, http_run_size_open id _ y hy]
  exact ⟨rfl, Iff.rfl⟩

lemma stream_size_refused (hmore : (stream c p).verdict = .more)
    (hphase : (stream c p).phase = .body .CHUNK_SIZE n [] e) (hline : NoLF line)
    (hsize : chunk_size line = none) : (stream c (p ++ (line ++ [LF]))).verdict = .fail := by
  have hstep : http_byte id ⟨c.is_head, c.upgrading⟩ (.body .CHUNK_SIZE n ([] ++ line) e) LF
      = (.body .CHUNK_SIZE n ([] ++ line) e, [], .fail) := by
    simp [http_byte, body_byte, id, hsize]
  rw [stream_behind hmore hphase, http_run_append, http_run_size_open id _ line hline]
  unfold Result.andThen
  rw [if_pos rfl]
  rw [http_run_cons_stop hstep (by decide)]

lemma stream_size_taken (hmore : (stream c p).verdict = .more)
    (hphase : (stream c p).phase = .body .CHUNK_SIZE n [] e) (hline : NoLF line) {m : ℕ}
    (hsize : chunk_size line = some m) :
    Waits (stream c (p ++ (line ++ [LF]))) := by
  have htaken : Taken ⟨c.is_head, c.upgrading⟩ _ _ _ _ := run_size_line hline hsize n e
  rw [stream_behind hmore hphase, htaken]
  refine ⟨rfl, ?_⟩
  split <;> exact id

end

structure AtSizeLine (c : Conn) (before : List Bytes) (x line : Bytes) (ls : List Bytes)
    (last : Bytes) : Prop where
  going : Going c (reads c before) before.flatten
  more : (stream c (before.flatten ++ x)).verdict = .more
  phase : ∃ n e, (stream c (before.flatten ++ x)).phase = .body .CHUNK_SIZE n [] e
  nolf : NoLF line
  reads_ne : ∀ l ∈ ls, l ≠ []
  last_ne : last ≠ []
  wire : ls.flatten ++ last = line ++ [LF]

namespace AtSizeLine

variable {c : Conn} {before ls : List Bytes} {x line last : Bytes}

lemma whole (h : AtSizeLine c before x line ls last) (rest : Bytes) :
    before.flatten ++ (first_reads x ls ++ [last_read x ls (last ++ rest)]).flatten
      = before.flatten ++ x ++ (line ++ [LF]) ++ rest := by
  rw [flatten_append, flatten_singleton, all_reads, ← append_assoc ls.flatten, h.wire]
  simp [append_assoc]

lemma all_ne (h : AtSizeLine c before x line ls last) (rest : Bytes) :
    ∀ q ∈ first_reads x ls ++ [last_read x ls (last ++ rest)], q ≠ [] := by
  intro q hq
  rcases mem_append.mp hq with hq | hq
  · exact first_reads_ne h.reads_ne q hq
  · rw [mem_singleton.mp hq]
    exact last_read_ne fun hnil => h.last_ne (append_eq_nil_iff.mp hnil).1

lemma inside (h : AtSizeLine c before x line ls last) {k : ℕ} (hk : 0 < k) (hlen : k ≤ ls.length) :
    (stream c (before.flatten ++ ((first_reads x ls).take k).flatten)).verdict = .more
      ∧ ((stream c (before.flatten ++ ((first_reads x ls).take k).flatten)).phase.overlong
        ↔ LINE_MAX < (ls.take k).flatten.length) := by
  obtain ⟨n, e, hphase⟩ := h.phase
  have hsplit : (ls.take k).flatten ++ ((ls.drop k).flatten ++ last) = line ++ [LF] := by
    rw [← append_assoc, ← flatten_append, take_append_drop, h.wire]
  have hprefix : (ls.take k).flatten <+: line := by
    rcases prefix_line ⟨_, hsplit⟩ with hp | hp
    · exact hp
    · rw [hp] at hsplit
      have hnil := append_cancel_left (hsplit.trans (append_nil _).symm)
      exact absurd (append_eq_nil_iff.mp hnil).2 h.last_ne
  rw [first_reads_take x ls hk (by rw [first_reads_length]; exact hlen), ← append_assoc]
  exact stream_size_open h.more hphase (h.nolf.shorten hprefix)

/-- A line that the reader can read is waited behind, unless a read ends in it too late. -/
lemma accepted (h : AtSizeLine c before x line ls last) (hm : c.mem = []) {m : ℕ}
    (hsize : chunk_size line = some m)
    (hshort : ¬ ∃ k ≤ ls.length, LINE_MAX < (ls.take k).flatten.length) :
    (reads c (before ++ (first_reads x ls ++ [last_read x ls last]))).request.current = true := by
  obtain ⟨n, e, hphase⟩ := h.phase
  have hwhole := h.whole []
  have hne := h.all_ne []
  rw [append_nil] at hwhole hne
  have hcut : ∀ k, 0 < k → k ≤ (first_reads x ls ++ [last_read x ls last]).length →
      Waits (stream c (before.flatten
        ++ ((first_reads x ls ++ [last_read x ls last]).take k).flatten)) := by
    intro k hk hlen
    by_cases hin : k ≤ ls.length
    · rw [take_append_of_le_length (by rw [first_reads_length]; exact hin)]
      obtain ⟨hv, hlong⟩ := h.inside hk hin
      exact ⟨hv, fun ho => hshort ⟨k, hin, hlong.mp ho⟩⟩
    · have hall : (first_reads x ls ++ [last_read x ls last]).length ≤ k := by
        rw [length_append, first_reads_length, length_singleton]
        omega
      rw [take_of_length_le hall, hwhole, append_nil]
      exact stream_size_taken h.more hphase h.nolf hsize
  rw [reads_append]
  rcases h.going.reads _ hne hcut with hend | hno
  · exact hend.called.same.current
  · exact absurd hm hno.mem

lemma refused (h : AtSizeLine c before x line ls last)
    (hbad : chunk_size line = none ∨ ∃ k ≤ ls.length, LINE_MAX < (ls.take k).flatten.length)
    (rest : Bytes) :
    (reads c (before ++ (first_reads x ls ++ [last_read x ls (last ++ rest)]))).request.status = .failed
      ∧ (reads c (before ++ (first_reads x ls
        ++ [last_read x ls (last ++ rest)]))).request.current = false := by
  obtain ⟨n, e, hphase⟩ := h.phase
  rw [reads_append]
  rcases hbad with hnone | ⟨k, hk, hlong⟩
  · refine h.going.reads_failed _ (h.all_ne rest)
      (k := (first_reads x ls ++ [last_read x ls (last ++ rest)]).length) (by simp)
      (Nat.le_refl _) (.inl ?_)
    have hrefused := stream_size_refused h.more hphase h.nolf hnone
    rw [take_length, h.whole, stream_sticks (by rw [hrefused]; decide), hrefused]
  · have hpos : 0 < k := by
      by_contra hzero
      obtain rfl : k = 0 := by omega
      rw [take_zero, flatten_nil, length_nil] at hlong
      omega
    refine h.going.reads_failed _ (h.all_ne rest) hpos
      (by rw [length_append, first_reads_length]; omega) (.inr ?_)
    rw [take_append_of_le_length (by rw [first_reads_length]; exact hk)]
    exact ⟨(h.inside hpos hk).1, (h.inside hpos hk).2.mpr hlong⟩

end AtSizeLine

/-- **Size lines are judged where the reader looks.** For every reply that has come to a
chunk-size line, and every way the line is cut into reads: the line is accepted only if
it consists of hexadecimal digits that `size_t` can hold, blanks, an extension and a
final CR and is at most 16 KiB long, and every other line ends the reply as a failure,
if and only if the reader looked at what is wrong with it. -/
theorem size_line_judged_iff (c : Conn) (hm : c.mem = []) (before : List Bytes)
    (hbefore : ∀ q ∈ before, q ≠ []) (hgo : (reads c before).request.current = true) (x : Bytes)
    (n : ℕ) (e : Bool) (hmore : (stream c (before.flatten ++ x)).verdict = .more)
    (hphase : (stream c (before.flatten ++ x)).phase = .body .CHUNK_SIZE n [] e)
    (line : Bytes) (hline : NoLF line) (ls : List Bytes) (last : Bytes)
    (hls : ∀ l ∈ ls, l ≠ []) (hlast : last ≠ []) (hwire : ls.flatten ++ last = line ++ [LF]) :
    Judged c before x ls last line ↔ Looked ls line := by
  have h : AtSizeLine c before x line ls last :=
    ⟨going_of_current before hbefore hgo, hmore, ⟨n, e, hphase⟩, hline, hls, hlast, hwire⟩
  have hstrict : ∀ {m}, chunk_size line = some m → (size_line_strict line = true
      ↔ size_tail_ok (line.dropWhile is_hex) = true ∧ line.length ≤ LINE_MAX) := by
    intro m hsize
    rw [size_line_strict, Bool.and_eq_true, decide_eq_true_eq, size_line_ok_of_some hsize]
  rw [Looked, ← chunk_size_eq_none]
  by_cases hbad : chunk_size line = none ∨ ∃ k ≤ ls.length, LINE_MAX < (ls.take k).flatten.length
  · refine ⟨fun _ => or_assoc.mp (.inl hbad), fun _ => ⟨fun hcur => ?_, fun _ rest => ?_⟩⟩
    · have hover := (h.refused hbad []).2
      rw [append_nil, hcur] at hover
      exact nomatch hover
    · exact (h.refused hbad rest).1
  · obtain ⟨hnone, hshort⟩ := not_or.mp hbad
    obtain ⟨m, hsize⟩ := Option.ne_none_iff_exists'.mp hnone
    refine ⟨fun hjudged => ?_, fun hlooked => ?_⟩
    · exact .inr (.inr ((hstrict hsize).mp (hjudged.1 (h.accepted hm hsize hshort))))
    · have hok := (hstrict hsize).mpr ((hlooked.resolve_left hnone).resolve_left hshort)
      exact ⟨fun _ => hok, fun hno => nomatch hno.symm.trans hok⟩

theorem size_line_judged_iff_plain :
    Judged plain_request [chunked_reply_head] [] [str "2;"] (str "x\r\n") (str "2;x\r")
      ↔ Looked [str "2;"] (str "2;x\r") :=
  size_line_judged_iff plain_request rfl [chunked_reply_head] (by decide +kernel) (by decide +kernel)
    [] 0 false (by decide +kernel) (by decide +kernel) (str "2;x\r") (by decide +kernel) [str "2;"]
    (str "x\r\n") (by decide +kernel) (by decide +kernel) (by decide +kernel)

/-- Zero, written with `n` digits. -/
def zeros (n : ℕ) : Bytes := replicate n 48

lemma zeros_nolf (n : ℕ) : NoLF (zeros n) := by
  intro b hb
  rw [eq_of_mem_replicate hb]
  decide

lemma chunk_size_zeros (n : ℕ) : chunk_size (zeros (n + 1)) = some 0 := by
  have hhex : ∀ b ∈ zeros (n + 1), is_hex b = true := by
    intro b hb
    rw [eq_of_mem_replicate hb]
    decide
  have hvalue : ∀ m, hex_value 0 (zeros m) = 0 := by
    intro m
    induction m with
    | zero => rfl
    | succ m ih => exact ih
  obtain ⟨htake, hdrop⟩ := ByteScan.takeWhile_append_head (y := []) hhex (by simp)
  rw [append_nil] at htake hdrop
  rw [chunk_size_eq, htake, hdrop, hvalue, if_pos ⟨by simp [zeros], Nat.zero_le _, by simp⟩]

lemma zeros_accepted (n : ℕ) :
    (reads plain_request [chunked_reply_head, zeros (n + 1) ++ [LF]]).request.current = true := by
  have hgoing := going_of_current (c := plain_request) [chunked_reply_head] (by decide)
    (by decide)
  have htaken := stream_size_taken (c := plain_request) (p := chunked_reply_head) (n := 0) (e := false)
    (by decide) (by decide) (zeros_nolf (n + 1)) (chunk_size_zeros n)
  rcases hgoing.read (q := zeros (n + 1) ++ [LF]) (by simp) with ⟨-, -, hnext⟩ | ⟨-, hlong, -⟩
    | ⟨hv, -⟩ | hno
  · exact hnext.called.same.current
  · exact absurd hlong htaken.2
  · exact absurd htaken.1 hv
  · exact absurd rfl hno.mem

/-- A line of garbage behind a digit and a blank, and a line of more than 16 KiB that
comes in one read, are accepted. -/
theorem loose_size_lines_accepted :
    (size_line_strict (str "2 zz") = false
      ∧ (reads plain_request [chunked_reply_head, str "2 zz" ++ [LF]]).request.current = true
      ∧ (reads plain_request [chunked_reply_head, str "2 zz" ++ [LF]]).http.phase
        = .body .CHUNK_DATA 2 [] false) ∧ ∃ line : Bytes, line.length > LINE_MAX
      ∧ (reads plain_request [chunked_reply_head, line ++ [LF]]).request.current = true := by
  exact ⟨by decide, zeros (LINE_MAX + 1), by simp [zeros], zeros_accepted LINE_MAX⟩

end FpmNg.HttpReply
