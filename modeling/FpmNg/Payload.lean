/-
Packed executables: the payload chain of `fpm_payload.c`, the `pack` command of
`fpm_pack.c` that appends to it, and the archive index of `fpm_payload_dist.c`.

A file is its bytes. `read()` may return any non-empty part of a block, so the
copy is a function of the blocks it returned. No file is longer than `off_t`
allows: a `write()` past that fails. SHA-256 is a parameter with the length of
its digest.
-/
import FpmNg.Numbers
import FpmNg.Lib.Binary
import Mathlib.Algebra.Ring.Nat
import Mathlib.Data.List.Chain

open Binary List Bool

namespace FpmNg.Payload

abbrev FPM_PAYLOAD_RECORD_SIZE : ℕ := 72
abbrev FPM_PAYLOAD_MAX_CHAIN : ℕ := 64
abbrev FPM_PAYLOAD_KIND_APPLICATION : ℕ := 2

def FPM_PAYLOAD_MAGIC : Bytes := str "FPMNGPY1"

structure Sha256 where
  digest : Bytes → Bytes
  digest_length : ∀ b, (digest b).length = 32

/-! ## Reading: `fpm_payload.c` -/

structure Entry where
  kind : ℕ
  offset : ℕ
  size : ℕ
  digest : Bytes
  deriving DecidableEq

/-- What `why` points at. -/
inductive Why where
  | record_unreadable
  | not_a_record
  | unknown_flags
  | data_outside
  | not_backwards
  | chain_too_long
  | entry_unreadable
  | digest_differs
  | not_an_archive
  | no_files
  | more_files_than_it_can_hold
  | index_truncated
  | name_out_of_range
  | file_outside
  deriving DecidableEq

/-- The answers of `fpm_payload_find`: 1 with the entry, 0, and -1. -/
inductive Lookup where
  | found (entry : Entry)
  | absent
  | broken (why : Why)
  deriving DecidableEq

def record_at (file : Bytes) (pos : ℕ) : Bytes := slice file pos FPM_PAYLOAD_RECORD_SIZE

def kind_of (record : Bytes) : ℕ := get_le (slice record 8 4)
def flags_of (record : Bytes) : ℕ := get_le (slice record 12 4)
def offset_of (record : Bytes) : ℕ := get_le (slice record 16 8)
def size_of (record : Bytes) : ℕ := get_le (slice record 24 8)
def digest_of (record : Bytes) : Bytes := slice record 32 32
def prev_of (record : Bytes) : ℕ := get_le (slice record 64 8)

/-- One pass of the loop of `fpm_payload_find` over the record at `pos`: its answer, or the
offset of the record before. -/
def find_pass (file : Bytes) (kind : ℕ) (first : Bool) (pos : ℕ) : Lookup ⊕ ℕ :=
  let record := record_at file pos
  if record.length ≠ FPM_PAYLOAD_RECORD_SIZE then .inl (.broken .record_unreadable)
  else if record.take 8 ≠ FPM_PAYLOAD_MAGIC then
    .inl (if first then .absent else .broken .not_a_record)
  else if flags_of record ≠ 0 then .inl (.broken .unknown_flags)
  else if pos < size_of record ∨ pos - size_of record < offset_of record then
    .inl (.broken .data_outside)
  else if kind_of record = kind then
    .inl (.found ⟨kind_of record, offset_of record, size_of record, digest_of record⟩)
  else if prev_of record = 0 then .inl .absent
  else if pos ≤ prev_of record ∨ file.length - FPM_PAYLOAD_RECORD_SIZE < prev_of record then
    .inl (.broken .not_backwards)
  else .inr (prev_of record)

/-- The loop: the passes left, whether this is the first one, and the offset of the record.
With the answer come the offsets at which it read a record. -/
def find_from (file : Bytes) (kind : ℕ) : ℕ → Bool → ℕ → List ℕ × Lookup
  | 0, _, _ => ([], .broken .chain_too_long)
  | n + 1, first, pos =>
    match find_pass file kind first pos with
    | .inl answer => ([pos], answer)
    | .inr prev => (find_from file kind n false prev).map (pos :: ·) id

def find_walk (file : Bytes) (kind : ℕ) : List ℕ × Lookup :=
  if file.length < FPM_PAYLOAD_RECORD_SIZE then ([], .absent)
  else find_from file kind FPM_PAYLOAD_MAX_CHAIN true (file.length - FPM_PAYLOAD_RECORD_SIZE)

def fpm_payload_find (file : Bytes) (kind : ℕ) : Lookup := (find_walk file kind).2

def fpm_payload_read (sha : Sha256) (file : Bytes) (entry : Entry) : Except Why Bytes :=
  let buf := slice file entry.offset entry.size
  if buf.length ≠ entry.size then .error .entry_unreadable
  else if sha.digest buf ≠ entry.digest then .error .digest_differs
  else .ok buf

/-! ## The archive index: `fpm_payload_dist.c` -/

structure Member where
  name : Bytes
  data : Bytes
  deriving DecidableEq

def FPM_PAYLOAD_DIST_MAGIC : Bytes := str "FPMNGAR1"

/-- The loop of `fpm_payload_dist_index`: the members left and the offset in the
index. -/
def index_from (archive : Bytes) : ℕ → ℕ → Except Why (List Member)
  | 0, _ => .ok []
  | n + 1, pos =>
    if archive.length - pos < 20 then .error .index_truncated
    else
      let name_len := get_le (slice archive pos 4)
      let size := get_le (slice archive (pos + 4) 8)
      let offset := get_le (slice archive (pos + 12) 8)
      if name_len = 0 ∨ archive.length - (pos + 20) < name_len then .error .name_out_of_range
      else if archive.length < size ∨ archive.length - size < offset then .error .file_outside
      else
        match index_from archive n (pos + 20 + name_len) with
        | .error why => .error why
        | .ok members => .ok (⟨slice archive (pos + 20) name_len, slice archive offset size⟩ :: members)

def fpm_payload_dist_index (archive : Bytes) : Except Why (List Member) :=
  if archive.length < 12 ∨ archive.take 8 ≠ FPM_PAYLOAD_DIST_MAGIC then .error .not_an_archive
  else
    let member_count := get_le (slice archive 8 4)
    if member_count = 0 then .error .no_files
    else if (archive.length - 12) / 21 < member_count then .error .more_files_than_it_can_hold
    else index_from archive member_count 12

/-! ## Writing: `fpm_pack.c` -/

inductive Refusal where
  | empty_input
  | not_a_phar
  | nul_byte
  | carries_application
  | payload_broken (why : Why)
  | file_too_large
  | no_application_payload
  | application_broken (why : Why)
  | application_differs
  deriving DecidableEq

def fpm_pack_contains (needle : Bytes) : Bytes → Bool
  | [] => needle.isEmpty
  | b :: hay => needle.isPrefixOf (b :: hay) || fpm_pack_contains needle hay

/-- `fpm_pack_read_input` of each file, then `fpm_pack_check_content`. -/
def fpm_pack_check_content (phar ini conf : Bytes) : Except Refusal Unit :=
  if phar = [] ∨ ini = [] ∨ conf = [] then .error .empty_input
  else if !fpm_pack_contains (str "__HALT_COMPILER") phar then .error .not_a_phar
  else if ini.contains 0 || conf.contains 0 then .error .nul_byte
  else .ok ()

/-- The index entries; `pos` is the offset of the first file's data. -/
def archive_index (pos : ℕ) : List Member → Bytes
  | [] => []
  | m :: rest =>
    put_le 4 m.name.length ++ put_le 8 m.data.length ++ put_le 8 pos ++ m.name ++
      archive_index (pos + m.data.length) rest

def index_size (files : List Member) : ℕ := (files.map fun m => 4 + 8 + 8 + m.name.length).sum

def fpm_pack_build_archive (files : List Member) : Bytes :=
  FPM_PAYLOAD_DIST_MAGIC ++ put_le 4 files.length ++ archive_index (12 + index_size files) files ++
    files.flatMap Member.data

def slide (tail block : Bytes) : Bytes :=
  if FPM_PAYLOAD_RECORD_SIZE ≤ block.length then
    block.drop (block.length - FPM_PAYLOAD_RECORD_SIZE)
  else
    let keep := if FPM_PAYLOAD_RECORD_SIZE < tail.length + block.length
      then FPM_PAYLOAD_RECORD_SIZE - block.length else tail.length
    tail.drop (tail.length - keep) ++ block

/-- `fpm_pack_copy_self`: the copy, and whether it ends in a record. -/
def fpm_pack_copy_self (blocks : List Bytes) : Bytes × Bool :=
  let s := blocks.foldl (fun (s : Bytes × Bytes) block => (s.1 ++ block, slide s.2 block)) ([], [])
  (s.1, s.2.length == FPM_PAYLOAD_RECORD_SIZE && s.2.take 8 == FPM_PAYLOAD_MAGIC)

def application_record (sha : Sha256) (self_size : ℕ) (chained : Bool) (archive : Bytes) : Bytes :=
  FPM_PAYLOAD_MAGIC ++ put_le 4 FPM_PAYLOAD_KIND_APPLICATION ++ put_le 4 0 ++ put_le 8 self_size ++
    put_le 8 archive.length ++ sha.digest archive ++
    put_le 8 (if chained then self_size - FPM_PAYLOAD_RECORD_SIZE else 0)

def fpm_pack_verify (sha : Sha256) (file archive : Bytes) : Except Refusal Unit :=
  match fpm_payload_find file FPM_PAYLOAD_KIND_APPLICATION with
  | .found entry =>
    match fpm_payload_read sha file entry with
    | .error why => .error (.application_broken why)
    | .ok data => if data = archive then .ok () else .error .application_differs
  | _ => .error .no_application_payload

def fpm_pack_write_output (sha : Sha256) (blocks : List Bytes) (archive : Bytes) :
    Except Refusal Bytes :=
  let (copy, chained) := fpm_pack_copy_self blocks
  let file := copy ++ archive ++ application_record sha copy.length chained archive
  if LONG_MAX < file.length then .error .file_too_large
  else
    match fpm_pack_verify sha file archive with
    | .error r => .error r
    | .ok _ => .ok file

def sorted (phar ini conf : Bytes) : List Member :=
  [⟨str "fpm.conf", conf⟩, ⟨str "php.ini", ini⟩, ⟨str "app.phar", phar⟩]

/-- `fpm_pack_main` behind its arguments. `self` is the running binary and
`blocks` is what `read()` returns while it is copied. -/
def fpm_pack_main (sha : Sha256) (self : Bytes) (blocks : List Bytes) (phar ini conf : Bytes) :
    Except Refusal Bytes :=
  match fpm_pack_check_content phar ini conf with
  | .error r => .error r
  | .ok _ =>
    match fpm_payload_find self FPM_PAYLOAD_KIND_APPLICATION with
    | .found _ => .error .carries_application
    | .broken why => .error (.payload_broken why)
    | .absent => fpm_pack_write_output sha blocks (fpm_pack_build_archive (sorted phar ini conf))

/-! ## The archive round trip -/

lemma archive_index_length (pos : ℕ) (files : List Member) :
    (archive_index pos files).length = index_size files := by
  induction files generalizing pos with
  | nil => rfl
  | cons m rest ih =>
    have hih := ih (pos + m.data.length)
    unfold index_size at hih ⊢
    simp only [archive_index, length_append, put_le_length, hih, map_cons, sum_cons]

variable (files : List Member)

lemma build_archive_length :
    (fpm_pack_build_archive files).length =
      12 + index_size files + (files.flatMap Member.data).length := by
  unfold fpm_pack_build_archive
  rw [length_append, length_append, length_append, put_le_length,
    archive_index_length]
  rfl

lemma slice_of_eq (front : Bytes) {file part behind : Bytes} {pos n : ℕ}
    (h : file = front ++ (part ++ behind)) (hpos : front.length = pos) (hn : part.length = n) :
    slice file pos n = part := by
  rw [h]
  exact slice_middle hpos hn

lemma slice_part {file part : Bytes} {parts : List Bytes} {pos n : ℕ} (h : file = parts.flatten)
    (i : ℕ) (hi : parts[i]? = some part) (hpos : (parts.take i).flatten.length = pos)
    (hn : part.length = n) : slice file pos n = part := by
  obtain ⟨hlt, hget⟩ := List.getElem?_eq_some_iff.mp hi
  have hsplit : file = (parts.take i).flatten ++ (part ++ (parts.drop (i + 1)).flatten) := by
    rw [h, ← hget, ← flatten_cons, ← drop_eq_getElem_cons hlt, ← flatten_append, take_append_drop]
  exact slice_of_eq _ hsplit hpos hn

/-- The loop reads back the entries that are left; their data lies behind `done`. -/
lemma index_from_spec (front done archive : Bytes)
    (harchive : archive = front ++ (archive_index (front.length + index_size files + done.length)
      files ++ (done ++ files.flatMap Member.data)))
    (hnames : ∀ m ∈ files, m.name ≠ [] ∧ m.name.length < room 4) (hroom : archive.length < room 8) :
    index_from archive files.length front.length = .ok files := by
  induction files generalizing front done with
  | nil => rfl
  | cons m rest ih =>
    obtain ⟨hne, hname⟩ := hnames m mem_cons_self
    have hpos : 0 < m.name.length := length_pos_iff.mpr hne
    -- the entry at the cursor, and the data it points at
    obtain ⟨pos, hposn⟩ : ∃ pos, pos = front.length + index_size (m :: rest) + done.length := ⟨_, rfl⟩
    have hsize : index_size (m :: rest) = 20 + m.name.length + index_size rest := by
      unfold index_size
      rw [map_cons, sum_cons]
    rw [← hposn, archive_index, flatMap_cons] at harchive
    have hlength : archive.length = pos + m.data.length + (rest.flatMap Member.data).length := by
      rw [harchive]
      simp only [length_append, put_le_length, archive_index_length]
      omega
    have hparts : archive = [front, put_le 4 m.name.length, put_le 8 m.data.length, put_le 8 pos,
        m.name, archive_index (pos + m.data.length) rest, done, m.data,
        rest.flatMap Member.data].flatten := by
      rw [harchive]
      simp
    have h4 : slice archive front.length 4 = put_le 4 m.name.length :=
      slice_part hparts 1 rfl (by simp) (put_le_length _ _)
    have h8 : slice archive (front.length + 4) 8 = put_le 8 m.data.length :=
      slice_part hparts 2 rfl (by simp) (put_le_length _ _)
    have h12 : slice archive (front.length + 12) 8 = put_le 8 pos :=
      slice_part hparts 3 rfl (by simp) (put_le_length _ _)
    have h20 : slice archive (front.length + 20) m.name.length = m.name :=
      slice_part hparts 4 rfl (by simp) rfl
    have hdata : slice archive pos m.data.length = m.data :=
      slice_part hparts 7 rfl (by simp [archive_index_length]; omega) rfl
    have hrest : index_from archive rest.length (front.length + 20 + m.name.length) = .ok rest := by
      have hih := ih (front ++ (put_le 4 m.name.length ++ put_le 8 m.data.length ++ put_le 8 pos ++
        m.name)) (done ++ m.data) ?_ fun m' hm' => hnames m' (.tail _ hm')
      · rw [← hih]
        simp only [length_append, put_le_length]
        congr 1
        omega
      · rw [harchive]
        simp only [append_assoc, length_append, put_le_length]
        congr 7
        omega
    rw [length_cons, index_from, if_neg (by omega), h4, h8, h12, get_put_le hname,
      get_put_le (by omega), get_put_le (by omega)]
    rw [if_neg (by omega), if_neg (by omega), hrest, h20, hdata]

theorem archive_round_trip (hfiles : files ≠ [])
    (hcount : files.length < room 4) (hnames : ∀ m ∈ files, m.name ≠ [] ∧ m.name.length < room 4)
    (hroom : (fpm_pack_build_archive files).length < room 8) :
    fpm_payload_dist_index (fpm_pack_build_archive files) = .ok files := by
  have hlength := build_archive_length files
  -- every file has an index entry of 21 bytes at least
  have hindex : 21 * files.length ≤ index_size files := by
    unfold index_size
    clear hfiles hcount hroom hlength
    induction files with
    | nil => exact le_rfl
    | cons m rest ih =>
      have hpos := length_pos_iff.mpr (hnames m mem_cons_self).1
      have hrest := ih fun m' hm' => hnames m' (.tail _ hm')
      rw [map_cons, sum_cons, length_cons]
      omega
  have hcountpos := length_pos_iff.mpr hfiles
  have hmagic : (fpm_pack_build_archive files).take 8 = FPM_PAYLOAD_DIST_MAGIC := by
    unfold fpm_pack_build_archive
    rw [append_assoc, append_assoc]
    exact take_left' rfl
  have hfield : slice (fpm_pack_build_archive files) 8 4 = put_le 4 files.length :=
    slice_of_eq FPM_PAYLOAD_DIST_MAGIC
      (by unfold fpm_pack_build_archive; simp only [append_assoc]; rfl) rfl (put_le_length _ _)
  have hwalk := index_from_spec files (FPM_PAYLOAD_DIST_MAGIC ++ put_le 4 files.length) []
    (fpm_pack_build_archive files) (by unfold fpm_pack_build_archive; simp; rfl) hnames hroom
  unfold fpm_payload_dist_index
  rw [if_neg (by rw [hmagic]; simp; omega), hfield, get_put_le hcount]
  rw [if_neg (by omega), if_neg (by omega)]
  exact hwalk

/-! ## The copy -/

/-- What `read()` may return for a file: non-empty blocks of at most 65536 bytes. -/
structure Reads (file : Bytes) (blocks : List Bytes) : Prop where
  all : blocks.flatten = file
  non_empty : ∀ b ∈ blocks, b ≠ []
  at_most : ∀ b ∈ blocks, b.length ≤ 65536

def ending (file : Bytes) : Bytes := file.drop (file.length - FPM_PAYLOAD_RECORD_SIZE)

lemma slide_ending (seen block : Bytes) : slide (ending seen) block = ending (seen ++ block) := by
  unfold slide ending
  rw [length_append, length_drop]
  split
  · rename_i hlong
    have hnil : seen.drop (seen.length + block.length - FPM_PAYLOAD_RECORD_SIZE) = [] :=
      drop_eq_nil_of_le (by omega)
    rw [drop_append, hnil, nil_append]
    congr 1
    omega
  · rename_i hshort
    dsimp only
    rw [drop_append_of_le_length (by omega), drop_drop]
    congr 2
    split <;> omega

lemma copy_loop (blocks : List Bytes) (seen : Bytes) :
    blocks.foldl (fun (s : Bytes × Bytes) block => (s.1 ++ block, slide s.2 block))
      (seen, ending seen) = (seen ++ blocks.flatten, ending (seen ++ blocks.flatten)) := by
  induction blocks generalizing seen with
  | nil => rw [foldl_nil, flatten_nil, append_nil]
  | cons block blocks ih =>
    rw [foldl_cons, slide_ending, ih, flatten_cons, append_assoc]

variable {file : Bytes}

theorem copy_self_eq {blocks : List Bytes} (h : Reads file blocks) :
    fpm_pack_copy_self blocks = (file, (ending file).length == FPM_PAYLOAD_RECORD_SIZE &&
      (ending file).take 8 == FPM_PAYLOAD_MAGIC) := by
  unfold fpm_pack_copy_self
  have hloop := copy_loop blocks []
  rw [nil_append, h.all] at hloop
  rw [show (([], []) : Bytes × Bytes) = ([], ending []) from rfl, hloop]

/-! ## Chains -/

structure ValidRecord (file : Bytes) (pos : ℕ) : Prop where
  inside : pos + FPM_PAYLOAD_RECORD_SIZE ≤ file.length
  magic : (record_at file pos).take 8 = FPM_PAYLOAD_MAGIC
  no_flags : flags_of (record_at file pos) = 0
  size_before : size_of (record_at file pos) ≤ pos
  data_before : offset_of (record_at file pos) ≤ pos - size_of (record_at file pos)

inductive Chain (file : Bytes) : ℕ → ℕ → Prop where
  | first {pos : ℕ} (record : ValidRecord file pos) (no_prev : prev_of (record_at file pos) = 0) :
    Chain file pos 1
  | append {pos n : ℕ} (record : ValidRecord file pos)
    (some_prev : prev_of (record_at file pos) ≠ 0) (backwards : prev_of (record_at file pos) < pos)
    (before : Chain file (prev_of (record_at file pos)) n) : Chain file pos (n + 1)

def Packable (file : Bytes) : Prop :=
  (ending file).take 8 ≠ FPM_PAYLOAD_MAGIC ∨
    ∃ n, n < FPM_PAYLOAD_MAX_CHAIN ∧ Chain file (file.length - FPM_PAYLOAD_RECORD_SIZE) n

variable {pos : ℕ}

lemma record_at_append (h : pos + FPM_PAYLOAD_RECORD_SIZE ≤ file.length) (more : Bytes) :
    record_at (file ++ more) pos = record_at file pos :=
  slice_append_left h more

lemma find_pass_valid (h : ValidRecord file pos) (kind : ℕ) (first : Bool) :
    find_pass file kind first pos = if kind_of (record_at file pos) = kind then
        .inl (.found ⟨kind_of (record_at file pos), offset_of (record_at file pos),
          size_of (record_at file pos), digest_of (record_at file pos)⟩)
      else if prev_of (record_at file pos) = 0 then .inl .absent
      else if pos ≤ prev_of (record_at file pos) ∨
          file.length - FPM_PAYLOAD_RECORD_SIZE < prev_of (record_at file pos) then
        .inl (.broken .not_backwards) else .inr (prev_of (record_at file pos)) := by
  have hlength : (record_at file pos).length = FPM_PAYLOAD_RECORD_SIZE := slice_length h.inside
  have hbefore : ¬ (pos < size_of (record_at file pos) ∨
      pos - size_of (record_at file pos) < offset_of (record_at file pos)) := by
    have := h.size_before
    have := h.data_before
    omega
  rw [find_pass, if_neg (by simp [hlength]), if_neg (by simp [h.magic]), if_neg (by simp [h.no_flags]),
    if_neg hbefore]

lemma valid_of_pass {kind : ℕ} {first : Bool} (hin : pos + FPM_PAYLOAD_RECORD_SIZE ≤ file.length)
    (h : (∃ e, find_pass file kind first pos = .inl (.found e)) ∨
      ∃ prev, find_pass file kind first pos = .inr prev) : ValidRecord file pos := by
  have hno : ∀ answer, (∀ e, answer ≠ .found e) → find_pass file kind first pos ≠ .inl answer := by
    rintro answer hanswer heq
    rcases h with ⟨e, h⟩ | ⟨prev, h⟩ <;> rw [heq] at h
    · exact hanswer e (Sum.inl.inj h)
    · exact nomatch h
  unfold find_pass at hno
  dsimp only at hno
  split at hno
  · exact absurd rfl (hno _ nofun)
  split at hno
  · refine absurd rfl (hno _ fun e => ?_)
    split <;> exact nofun
  rename_i hmagic
  split at hno
  · exact absurd rfl (hno _ nofun)
  rename_i hflags
  split at hno
  · exact absurd rfl (hno _ nofun)
  exact ⟨hin, not_not.mp hmagic, not_not.mp hflags, by omega, by omega⟩

lemma valid_record_append (h : ValidRecord file pos) (more : Bytes) :
    ValidRecord (file ++ more) pos := by
  have hrecord := record_at_append h.inside more
  refine ⟨?_, hrecord ▸ h.magic, hrecord ▸ h.no_flags, hrecord ▸ h.size_before,
    hrecord ▸ h.data_before⟩
  rw [length_append]
  have := h.inside
  omega

theorem chain_walk {pos n : ℕ} (h : Chain file pos n) (more : Bytes) (kind : ℕ) {fuel fuel' : ℕ}
    (hfuel : n ≤ fuel) (hfuel' : n ≤ fuel') (first first' : Bool) :
    (find_from (file ++ more) kind fuel first pos).2 = (find_from file kind fuel' first' pos).2 := by
  induction h generalizing fuel fuel' first first' with
  | @first pos hrec hprev =>
    obtain ⟨k, rfl⟩ : ∃ k, fuel = k + 1 := ⟨fuel - 1, by omega⟩
    obtain ⟨k', rfl⟩ : ∃ k', fuel' = k' + 1 := ⟨fuel' - 1, by omega⟩
    rw [find_from, find_from, find_pass_valid (valid_record_append hrec more), find_pass_valid hrec,
      record_at_append hrec.inside more, if_pos hprev, if_pos hprev]
    by_cases hkind : kind_of (record_at file pos) = kind
    · rw [if_pos hkind]
    · rw [if_neg hkind]
  | @append pos n hrec hprev hback hchain ih =>
    obtain ⟨k, rfl⟩ : ∃ k, fuel = k + 1 := ⟨fuel - 1, by omega⟩
    obtain ⟨k', rfl⟩ : ∃ k', fuel' = k' + 1 := ⟨fuel' - 1, by omega⟩
    have hinside := hrec.inside
    have hlonger : (file ++ more).length = file.length + more.length := length_append
    rw [find_from, find_from, find_pass_valid (valid_record_append hrec more), find_pass_valid hrec,
      record_at_append hrec.inside more]
    rw [if_neg (c := _ ∨ _) (by omega), if_neg (c := _ ∨ _) (by omega), if_neg hprev]
    by_cases hkind : kind_of (record_at file pos) = kind
    · rw [if_pos hkind]
    · rw [if_neg hkind]
      exact ih (by omega) (by omega) false false

/-! ## The record that is appended -/

lemma application_record_length (sha : Sha256) (self_size : ℕ) (chained : Bool) (archive : Bytes) :
    (application_record sha self_size chained archive).length = FPM_PAYLOAD_RECORD_SIZE := by
  unfold application_record
  simp only [length_append, put_le_length, sha.digest_length]
  rfl

lemma application_record_fields (sha : Sha256) {self_size : ℕ} (chained : Bool) {archive : Bytes}
    (hself : self_size < room 8) (harchive : archive.length < room 8) :
    let record := application_record sha self_size chained archive
    record.take 8 = FPM_PAYLOAD_MAGIC ∧ kind_of record = FPM_PAYLOAD_KIND_APPLICATION ∧
      flags_of record = 0 ∧ offset_of record = self_size ∧ size_of record = archive.length ∧
      digest_of record = sha.digest archive ∧
      prev_of record = if chained then self_size - FPM_PAYLOAD_RECORD_SIZE else 0 := by
  intro record
  have hmagic : FPM_PAYLOAD_MAGIC.length = 8 := rfl
  have hdigest := sha.digest_length archive
  -- the fields lie behind one another, so each is a slice of the record
  have hrecord : record = [FPM_PAYLOAD_MAGIC, put_le 4 FPM_PAYLOAD_KIND_APPLICATION, put_le 4 0,
      put_le 8 self_size, put_le 8 archive.length, sha.digest archive,
      put_le 8 (if chained then self_size - FPM_PAYLOAD_RECORD_SIZE else 0)].flatten := by
    show application_record sha self_size chained archive = _
    unfold application_record
    simp
  have hprev : (if chained then self_size - FPM_PAYLOAD_RECORD_SIZE else 0) < room 8 := by
    split
    · omega
    · exact Nat.lt_of_le_of_lt (Nat.zero_le _) hself
  refine ⟨?_, ?_, ?_, ?_, ?_, ?_, ?_⟩
  · rw [hrecord]
    exact take_left' hmagic
  · unfold kind_of
    rw [slice_part hrecord 1 rfl (by simp [hmagic]) (put_le_length _ _)]
    exact get_put_le (by decide)
  · unfold flags_of
    rw [slice_part hrecord 2 rfl (by simp [hmagic]) (put_le_length _ _)]
    exact get_put_le (by decide)
  · unfold offset_of
    rw [slice_part hrecord 3 rfl (by simp [hmagic]) (put_le_length _ _)]
    exact get_put_le hself
  · unfold size_of
    rw [slice_part hrecord 4 rfl (by simp [hmagic]) (put_le_length _ _)]
    exact get_put_le harchive
  · unfold digest_of
    exact slice_part hrecord 5 rfl (by simp [hmagic]) hdigest
  · unfold prev_of
    rw [slice_part hrecord 6 rfl (by simp [hmagic, hdigest]) (put_le_length _ _)]
    exact get_put_le hprev

/-! ## The packed file -/

/-- What `pack` writes for a base file. -/
def packed (sha : Sha256) (base archive : Bytes) : Bytes :=
  base ++ archive ++ application_record sha base.length
    ((ending base).length == FPM_PAYLOAD_RECORD_SIZE && (ending base).take 8 == FPM_PAYLOAD_MAGIC)
    archive

section

variable (sha : Sha256) {base archive : Bytes} (hfits : (packed sha base archive).length ≤ LONG_MAX)

lemma packed_length (sha : Sha256) (base archive : Bytes) :
    (packed sha base archive).length = base.length + archive.length + FPM_PAYLOAD_RECORD_SIZE := by
  unfold packed
  rw [length_append, length_append, application_record_length]

lemma packed_record (sha : Sha256) (base archive : Bytes) :
    record_at (packed sha base archive) (base.length + archive.length) =
      application_record sha base.length ((ending base).length == FPM_PAYLOAD_RECORD_SIZE &&
        (ending base).take 8 == FPM_PAYLOAD_MAGIC) archive := by
  have hlength := application_record_length sha base.length
    ((ending base).length == FPM_PAYLOAD_RECORD_SIZE && (ending base).take 8 == FPM_PAYLOAD_MAGIC)
    archive
  exact slice_of_eq (base ++ archive) (by rw [packed, append_nil]) length_append hlength

lemma packed_read (sha : Sha256) (base archive : Bytes) :
    fpm_payload_read sha (packed sha base archive)
      ⟨FPM_PAYLOAD_KIND_APPLICATION, base.length, archive.length, sha.digest archive⟩ =
        .ok archive := by
  have hslice : slice (packed sha base archive) base.length archive.length = archive :=
    slice_of_eq base (by unfold packed; rw [append_assoc]) rfl rfl
  unfold fpm_payload_read
  rw [hslice, if_neg (by simp), if_neg (by simp)]

include hfits

lemma packed_rooms : base.length < room 8 ∧ archive.length < room 8 := by
  rw [packed_length] at hfits
  have hroom : LONG_MAX < room 8 := by decide
  omega

lemma packed_valid : ValidRecord (packed sha base archive) (base.length + archive.length) := by
  obtain ⟨hbase, harchive⟩ := packed_rooms sha hfits
  obtain ⟨hmagic, -, hflags, hoffset, hsize, -, -⟩ := application_record_fields sha
    ((ending base).length == FPM_PAYLOAD_RECORD_SIZE && (ending base).take 8 == FPM_PAYLOAD_MAGIC)
    hbase harchive
  have hrecord := packed_record sha base archive
  refine ⟨?_, ?_, ?_, ?_, ?_⟩
  · exact le_of_eq (packed_length sha base archive).symm
  · rw [hrecord]
    exact hmagic
  · rw [hrecord]
    exact hflags
  · rw [hrecord, hsize]
    exact Nat.le_add_left _ _
  · rw [hrecord, hsize, hoffset]
    omega

lemma packed_find (kind : ℕ) :
    fpm_payload_find (packed sha base archive) kind = if FPM_PAYLOAD_KIND_APPLICATION = kind then
        .found ⟨kind, base.length, archive.length, sha.digest archive⟩
      else if (ending base).length = FPM_PAYLOAD_RECORD_SIZE ∧
          (ending base).take 8 = FPM_PAYLOAD_MAGIC ∧ base.length ≠ FPM_PAYLOAD_RECORD_SIZE then
        (find_from (packed sha base archive) kind 63 false
          (base.length - FPM_PAYLOAD_RECORD_SIZE)).2
      else .absent := by
  obtain ⟨hbase, harchive⟩ := packed_rooms sha hfits
  obtain ⟨-, hkind, -, hoffset, hsize, hdigest, hprev⟩ := application_record_fields sha
    ((ending base).length == FPM_PAYLOAD_RECORD_SIZE && (ending base).take 8 == FPM_PAYLOAD_MAGIC)
    hbase harchive
  have hlength := packed_length sha base archive
  unfold fpm_payload_find find_walk
  rw [if_neg (by omega), hlength, Nat.add_sub_cancel, show FPM_PAYLOAD_MAX_CHAIN = 63 + 1 from rfl,
    find_from, find_pass_valid (packed_valid sha hfits), packed_record sha base archive, hkind, hoffset,
    hsize, hdigest, hprev]
  by_cases happ : FPM_PAYLOAD_KIND_APPLICATION = kind
  · rw [if_pos happ, if_pos happ, happ]
  · rw [if_neg happ, if_neg happ]
    -- the record of `pack` points to the one that ended the base file, if it had one
    by_cases hchained : (ending base).length = FPM_PAYLOAD_RECORD_SIZE ∧
        (ending base).take 8 = FPM_PAYLOAD_MAGIC
    · have hflag : ((ending base).length == FPM_PAYLOAD_RECORD_SIZE &&
          (ending base).take 8 == FPM_PAYLOAD_MAGIC) = true := by
        rw [and_eq_true, beq_iff_eq, beq_iff_eq]
        exact hchained
      have h72 : FPM_PAYLOAD_RECORD_SIZE = 72 := rfl
      have hlong : FPM_PAYLOAD_RECORD_SIZE ≤ base.length := by
        have h := hchained.1
        unfold ending at h
        rw [length_drop] at h
        omega
      rw [hflag, if_pos rfl]
      by_cases honly : base.length = FPM_PAYLOAD_RECORD_SIZE
      · rw [if_pos (by omega), if_neg fun h => h.2.2 honly]
      · rw [if_neg (by omega), if_neg (by omega), if_pos ⟨hchained.1, hchained.2, honly⟩]
        rfl
    · have hflag : ((ending base).length == FPM_PAYLOAD_RECORD_SIZE &&
          (ending base).take 8 == FPM_PAYLOAD_MAGIC) = false := by
        rw [eq_false_iff, Ne, and_eq_true, beq_iff_eq, beq_iff_eq]
        exact hchained
      have hnone : ¬ ((ending base).length = FPM_PAYLOAD_RECORD_SIZE ∧
          (ending base).take 8 = FPM_PAYLOAD_MAGIC ∧ base.length ≠ FPM_PAYLOAD_RECORD_SIZE) :=
        fun h => hchained ⟨h.1, h.2.1⟩
      rw [hflag]
      simp [if_neg hnone]

lemma packed_verify : fpm_pack_verify sha (packed sha base archive) archive = .ok () := by
  unfold fpm_pack_verify
  rw [packed_find sha hfits, if_pos rfl]
  dsimp only
  rw [packed_read sha base archive]
  exact if_pos rfl

theorem packed_other (hbase : FPM_PAYLOAD_RECORD_SIZE < base.length) (hpackable : Packable base)
    {kind : ℕ} (hkind : kind ≠ FPM_PAYLOAD_KIND_APPLICATION) :
    fpm_payload_find (packed sha base archive) kind = fpm_payload_find base kind := by
  have hending : record_at base (base.length - FPM_PAYLOAD_RECORD_SIZE) = ending base := by
    unfold record_at slice ending
    rw [take_of_length_le]
    rw [length_drop]
    omega
  have hlength : (ending base).length = FPM_PAYLOAD_RECORD_SIZE := by
    unfold ending
    rw [length_drop]
    omega
  have hfind : fpm_payload_find base kind = (find_from base kind FPM_PAYLOAD_MAX_CHAIN true
      (base.length - FPM_PAYLOAD_RECORD_SIZE)).2 := congrArg Prod.snd (if_neg (by omega))
  rw [packed_find sha hfits, if_neg hkind.symm, hfind]
  rcases hpackable with hnone | ⟨n, hn, hchain⟩
  · rw [if_neg fun h => hnone h.2.1, show FPM_PAYLOAD_MAX_CHAIN = 63 + 1 from rfl, find_from, find_pass,
      hending, if_neg (by simp [hlength]), if_pos hnone]
    rfl
  · have hmagic : (ending base).take 8 = FPM_PAYLOAD_MAGIC := by
      rw [← hending]
      cases hchain with
      | first hrec _ | append hrec _ _ _ => exact hrec.magic
    have hbefore : packed sha base archive = base ++ (archive ++ application_record sha base.length
        ((ending base).length == FPM_PAYLOAD_RECORD_SIZE &&
          (ending base).take 8 == FPM_PAYLOAD_MAGIC) archive) := by
      unfold packed
      rw [append_assoc]
    rw [if_pos ⟨hlength, hmagic, by omega⟩, hbefore]
    exact chain_walk hchain _ kind (Nat.le_of_lt_succ hn) (Nat.le_of_lt hn) false true

end

lemma sorted_archive (phar ini conf : Bytes)
    (hroom : (fpm_pack_build_archive (sorted phar ini conf)).length < room 8) :
    fpm_payload_dist_index (fpm_pack_build_archive (sorted phar ini conf)) =
      .ok (sorted phar ini conf) := by
  have hcount : (sorted phar ini conf).length < room 4 := (by decide : 3 < room 4)
  have hname : ∀ name ∈ [str "fpm.conf", str "php.ini", str "app.phar"],
      name ≠ [] ∧ name.length < room 4 := by decide
  apply archive_round_trip _ (by simp [sorted]) hcount _ hroom
  intro m hm
  apply hname
  exact mem_map_of_mem hm

/-- **The packed executable round trip.** For a base file longer than a record
that ends in no payload or in a chain with room for one more record, input files
`pack` accepts and any sequence of reads: the pack succeeds if the result fits a
file. The result begins with the base file, its application entry is found, read
and indexed to the three files, and every other kind is found as in the base. -/
theorem packed_round_trip (sha : Sha256) (base : Bytes) (blocks : List Bytes) (phar ini conf : Bytes)
    (hbase : FPM_PAYLOAD_RECORD_SIZE < base.length) (hpackable : Packable base)
    (hreads : Reads base blocks) (hinputs : fpm_pack_check_content phar ini conf = .ok ())
    (hunpacked : fpm_payload_find base FPM_PAYLOAD_KIND_APPLICATION = .absent)
    (hfits : base.length + (fpm_pack_build_archive (sorted phar ini conf)).length +
      FPM_PAYLOAD_RECORD_SIZE ≤ LONG_MAX) :
    ∃ file entry archive, fpm_pack_main sha base blocks phar ini conf = .ok file ∧ base <+: file ∧
      fpm_payload_find file FPM_PAYLOAD_KIND_APPLICATION = .found entry ∧
      fpm_payload_read sha file entry = .ok archive ∧ fpm_payload_dist_index archive =
        .ok [⟨str "fpm.conf", conf⟩, ⟨str "php.ini", ini⟩, ⟨str "app.phar", phar⟩] ∧
      ∀ kind, kind ≠ FPM_PAYLOAD_KIND_APPLICATION →
        fpm_payload_find file kind = fpm_payload_find base kind := by
  obtain ⟨archive, harchive⟩ : ∃ a, a = fpm_pack_build_archive (sorted phar ini conf) := ⟨_, rfl⟩
  rw [← harchive, ← packed_length sha] at hfits
  refine ⟨packed sha base archive,
    ⟨FPM_PAYLOAD_KIND_APPLICATION, base.length, archive.length, sha.digest archive⟩, archive,
    ?_, ?_, ?_, packed_read sha base archive, ?_, ?_⟩
  · unfold fpm_pack_main fpm_pack_write_output
    rw [hinputs, hunpacked, copy_self_eq hreads, ← harchive]
    have hsize : ¬ LONG_MAX < (packed sha base archive).length := by omega
    have hverify := packed_verify sha hfits
    unfold packed at hsize hverify
    dsimp only
    rw [if_neg hsize, hverify]
    rfl
  · unfold packed
    rw [append_assoc]
    exact prefix_append _ _
  · rw [packed_find sha hfits, if_pos rfl]
  · rw [harchive]
    exact sorted_archive phar ini conf (harchive ▸ (packed_rooms sha hfits).2)
  · intro kind hkind
    exact packed_other sha hfits hbase hpackable hkind

/-- A digest function of the right length, for a check on a small file. -/
def zero_sha : Sha256 := ⟨fun _ => replicate 32 0, fun _ => rfl⟩

theorem packed_round_trip_plain_binary :
    ∃ file entry archive,
      fpm_pack_main zero_sha (replicate 100 7) [replicate 60 7, replicate 40 7]
        (str "<?php __HALT_COMPILER();") (str "a=1") (str "[www]") = .ok file ∧
      replicate 100 7 <+: file ∧
      fpm_payload_find file FPM_PAYLOAD_KIND_APPLICATION = .found entry ∧
      fpm_payload_read zero_sha file entry = .ok archive ∧
      fpm_payload_dist_index archive = .ok [⟨str "fpm.conf", str "[www]"⟩,
        ⟨str "php.ini", str "a=1"⟩, ⟨str "app.phar", str "<?php __HALT_COMPILER();"⟩] ∧
      ∀ kind, kind ≠ FPM_PAYLOAD_KIND_APPLICATION →
        fpm_payload_find file kind = fpm_payload_find (replicate 100 7) kind :=
  packed_round_trip zero_sha (replicate 100 7) [replicate 60 7, replicate 40 7] _ _ _
    (by decide +kernel) (.inl (by decide +kernel))
    ⟨by decide +kernel, by decide +kernel, by decide +kernel⟩ (by decide +kernel)
    (by decide +kernel) (by decide +kernel)

/-! ## Any file

The same two loops over bytes nobody vouches for. -/

def reads (file : Bytes) (kind : ℕ) : List ℕ := (find_walk file kind).1

/-- **A walk of at most `n` records**: it begins at `pos` and goes strictly backwards inside the
file; what it finds is at its end, and nothing of that kind came before. -/
structure Walked (file : Bytes) (kind n pos : ℕ) (reads : List ℕ) (result : Lookup) : Prop where
  bounded : reads.length ≤ n
  starts : ∀ p ∈ reads.head?, p = pos
  backwards : reads.IsChain fun p q => q = prev_of (record_at file p) ∧ q < p
  inside : ∀ p ∈ reads, p + FPM_PAYLOAD_RECORD_SIZE ≤ file.length
  found : ∀ e, result = .found e → ∃ before p, reads = before ++ [p] ∧
    e = ⟨kind, offset_of (record_at file p), size_of (record_at file p), digest_of (record_at file p)⟩ ∧
    kind_of (record_at file p) = kind ∧ e.offset + e.size ≤ p ∧
    ∀ q ∈ before, kind_of (record_at file q) ≠ kind

/-- **The rows of an index from `pos` on**, each with its name and its data inside the archive. -/
inductive Indexed (archive : Bytes) : ℕ → List Member → Prop where
  | done (pos : ℕ) : Indexed archive pos []
  | row {pos name_len size offset : ℕ} {members : List Member}
      (name_field : name_len = get_le (slice archive pos 4))
      (size_field : size = get_le (slice archive (pos + 4) 8))
      (offset_field : offset = get_le (slice archive (pos + 12) 8))
      (name_inside : pos + 20 + name_len ≤ archive.length)
      (data_inside : offset + size ≤ archive.length)
      (rest : Indexed archive (pos + 20 + name_len) members) :
      Indexed archive pos (⟨slice archive (pos + 20) name_len, slice archive offset size⟩ :: members)

variable {kind n : ℕ} {first : Bool}

theorem find_from_walked (hin : pos + FPM_PAYLOAD_RECORD_SIZE ≤ file.length) :
    Walked file kind n pos (find_from file kind n first pos).1 (find_from file kind n first pos).2 := by
  induction n generalizing pos first with
  | zero => exact ⟨le_rfl, by simp [find_from], .nil, by simp [find_from], nofun⟩
  | succ n ih =>
    rw [find_from]
    cases hpass : find_pass file kind first pos with
    | inl answer =>
      refine ⟨by simp, by simp, .singleton _, by simpa using hin, ?_⟩
      rintro e rfl
      -- an answer comes from a record that passed all checks
      have hvalid := valid_of_pass hin (.inl ⟨e, hpass⟩)
      have hdata := hvalid.data_before
      have hsize := hvalid.size_before
      rw [find_pass_valid hvalid] at hpass
      split at hpass
      · rename_i hkind
        refine ⟨[], pos, rfl, ?_, hkind, ?_, by simp⟩ <;> cases hpass
        · rw [hkind]
        · dsimp only
          omega
      split at hpass
      · exact nomatch hpass
      split at hpass <;> exact nomatch hpass
    | inr prev =>
      -- so does the offset of the record before, which is further down
      have hvalid := valid_of_pass hin (.inr ⟨prev, hpass⟩)
      rw [find_pass_valid hvalid] at hpass
      split at hpass
      · exact nomatch hpass
      rename_i hkind
      split at hpass
      · exact nomatch hpass
      split at hpass
      · exact nomatch hpass
      cases hpass
      obtain ⟨hbound, hstart, hchain, hinside, hfound⟩ : Walked file kind n _ _
        (find_from file kind n false (prev_of (record_at file pos))).2 := ih (by omega)
      refine ⟨by simpa using hbound, by simp, isChain_cons.mpr ⟨fun q hq => ?_, hchain⟩, ?_, fun e h => ?_⟩
      · rw [hstart q hq]
        exact ⟨rfl, by omega⟩
      · intro p hp
        rcases mem_cons.mp hp with rfl | hp
        · exact hin
        · exact hinside p hp
      · obtain ⟨before, p, hreads, he, hp, hbefore, hnone⟩ := hfound e h
        refine ⟨pos :: before, p, congrArg (cons pos) hreads, he, hp, hbefore, fun q hq => ?_⟩
        rcases mem_cons.mp hq with rfl | hq
        · exact hkind
        · exact hnone q hq

lemma index_from_indexed {archive : Bytes} {members : List Member}
    (h : index_from archive n pos = .ok members) : Indexed archive pos members := by
  induction n generalizing pos members with
  | zero =>
    cases h
    exact .done pos
  | succ n ih =>
    rw [index_from] at h
    split at h
    · simp at h
    dsimp only at h
    split at h
    · simp at h
    split at h
    · simp at h
    split at h
    · simp at h
    · rename_i rest hrest
      cases h
      exact .row rfl rfl rfl (by omega) (by omega) (ih hrest)

/-- **The lookup is safe on any file**, and an index that is accepted stays inside its archive. -/
theorem payload_lookup_safe :
    (∀ file kind, Walked file kind FPM_PAYLOAD_MAX_CHAIN (file.length - FPM_PAYLOAD_RECORD_SIZE)
      (reads file kind) (fpm_payload_find file kind)) ∧
    ∀ archive members, fpm_payload_dist_index archive = .ok members → Indexed archive 12 members := by
  constructor
  · intro file kind
    unfold reads fpm_payload_find find_walk
    split
    · exact ⟨by simp, by simp, .nil, by simp, nofun⟩
    · exact find_from_walked (by omega)
  · intro archive members h
    unfold fpm_payload_dist_index at h
    split at h
    · simp at h
    dsimp only at h
    split at h
    · simp at h
    split at h
    · simp at h
    · exact index_from_indexed h

end FpmNg.Payload
