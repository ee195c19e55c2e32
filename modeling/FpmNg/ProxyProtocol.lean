/-
The PROXY protocol header parser of the gateway, `fpm_http_proxy_protocol.c`:
the v1 text line and the v2 binary block, and the two facts the reader above it
rests on. A verdict that is not "need more" does not change when bytes are
appended (`parse_append`), and "need more" is only said of fewer bytes than the
reader's buffer holds (`parse_bounds`).

`inet_pton` and `inet_ntop` are parameters. Nothing below depends on what they
answer, only on the fact that they are functions of the bytes they are given.
-/
import FpmNg.Bytes

open List

namespace FpmNg.ProxyProtocol

abbrev FPM_HTTP_PROXY_V1_MAX : ℕ := 107

abbrev FPM_HTTP_PROXY_V2_BODY_MAX : ℕ := 512

abbrev FPM_HTTP_PROXY_MAX : ℕ := 16 + FPM_HTTP_PROXY_V2_BODY_MAX

/-- `INET6_ADDRSTRLEN`. -/
abbrev INET6_ADDRSTRLEN : ℕ := 46

/-- `AF_INET` and `AF_INET6`. -/
inductive Family where
  | inet
  | inet6
  deriving DecidableEq

structure Inet where
  pton : Family → Bytes → Option Bytes
  ntop : Family → Bytes → Option Bytes

/-- `struct fpm_http_proxy_header_s`. -/
structure Header where
  length : ℕ
  has_source : Bool
  addr : Bytes
  port : ℕ
  deriving DecidableEq

/-- `enum fpm_http_proxy_status`, with the header that is only written on DONE. -/
inductive Status where
  | need_more
  | done (hdr : Header)
  | bad
  deriving DecidableEq

variable (inet : Inet)

/-! ## Version 1 -/

/-- The digit loop of `proxy_v1_port`. -/
def proxy_v1_digits : Bytes → ℕ → Option ℕ
  | [], value => some value
  | b :: tok, value =>
    if b < 48 ∨ b > 57 then none else proxy_v1_digits tok (value * 10 + digit b)

def proxy_v1_port (tok : Bytes) : Option ℕ :=
  if tok.length = 0 ∨ tok.length > 5 then none
  else
    match proxy_v1_digits tok 0 with
    | none => none
    | some value => if value > 65535 then none else some value

def proxy_v1_addr (family : Family) (tok : Bytes) : Option Bytes :=
  if tok.length = 0 ∨ tok.length ≥ INET6_ADDRSTRLEN then none
  else inet.pton family (cstr tok)

def proxy_v1_token (p : Bytes) : Option (Bytes × Bytes) :=
  let tok := p.takeWhile (· != SP)
  if tok.length > 0 then some (tok, p.drop tok.length) else none

def proxy_v1_sep : Bytes → Option Bytes
  | b :: p => if b = SP then some p else none
  | [] => none

/-- The four tokens behind `TCP4 ` or `TCP6 `; `none` is the source's BAD. -/
def proxy_v1_tokens (family : Family) (p : Bytes) : Option (Bytes × ℕ) := do
  let (tok, p) ← proxy_v1_token p
  let src ← proxy_v1_addr inet family tok
  let p ← proxy_v1_sep p
  let (tok, p) ← proxy_v1_token p
  let _dst ← proxy_v1_addr inet family tok
  let p ← proxy_v1_sep p
  let (tok, p) ← proxy_v1_token p
  let sport ← proxy_v1_port tok
  let p ← proxy_v1_sep p
  let (tok, p) ← proxy_v1_token p
  let _dport ← proxy_v1_port tok
  -- a fifth token, or a trailing space
  if p ≠ [] then none
  let addr ← inet.ntop family src
  return (addr, sport)

/-- The v1 line between `PROXY ` and CRLF. The length is the caller's to fill in. -/
def proxy_v1_line (p : Bytes) : Status :=
  if p.length ≥ 7 ∧ p.take 7 = str "UNKNOWN" ∧ (p.length = 7 ∨ p.getD 7 0 = SP) then
    .done { length := 0, has_source := false, addr := [], port := 0 }
  else
    let family :=
      if p.length ≥ 5 ∧ p.take 5 = str "TCP4 " then some Family.inet
      else if p.length ≥ 5 ∧ p.take 5 = str "TCP6 " then some Family.inet6
      else none
    match family.bind fun f => proxy_v1_tokens inet f (p.drop 5) with
    | none => .bad
    | some (addr, sport) => .done { length := 0, has_source := true, addr := addr, port := sport }

def proxy_parse_v1 (buf : Bytes) : Status :=
  let pre := str "PROXY "
  let len := buf.length
  let window := min len FPM_HTTP_PROXY_V1_MAX
  let n := min len pre.length
  if buf.take n ≠ pre.take n then .bad
  else if len < pre.length then .need_more
  else
    let i := (buf.take window).findIdx (· == LF)
    if i = window then
      if len < FPM_HTTP_PROXY_V1_MAX then .need_more else .bad
    else if i = 0 ∨ buf.getD (i - 1) 0 ≠ CR then .bad
    else
      match proxy_v1_line inet ((buf.take (i - 1)).drop pre.length) with
      | .done tmp => .done { tmp with length := i + 1 }
      | status => status

/-! ## Version 2 -/

def proxy_v2_sig : Bytes := [0x0D, 0x0A, 0x0D, 0x0A, 0x00, 0x0D, 0x0A, 0x51, 0x55, 0x49, 0x54, 0x0A]

def proxy_v2_source (buf : Bytes) (family : Family) (total port_at : ℕ) : Status :=
  match inet.ntop family ((buf.drop 16).take (match family with | .inet => 4 | .inet6 => 16)) with
  | none => .bad
  | some addr =>
    .done
      { length := total
        has_source := true
        addr := addr
        port := (buf.getD port_at 0).toNat * 256 + (buf.getD (port_at + 1) 0).toNat }

def proxy_v2_body (buf : Bytes) : ℕ := (buf.getD 14 0).toNat * 256 + (buf.getD 15 0).toNat

def proxy_parse_v2 (buf : Bytes) : Status :=
  let len := buf.length
  let n := min len proxy_v2_sig.length
  if buf.take n ≠ proxy_v2_sig.take n then .bad
  else if len < 16 then .need_more
  else
    let version := (buf.getD 12 0).toNat / 16
    let command := (buf.getD 12 0).toNat % 16
    let family := (buf.getD 13 0).toNat / 16
    let protocol := (buf.getD 13 0).toNat % 16
    let body := proxy_v2_body buf
    if version ≠ 2 ∨ command > 1 ∨ family > 3 ∨ protocol > 1
        ∨ body > FPM_HTTP_PROXY_V2_BODY_MAX then .bad
    else
      let total := 16 + body
      if len < total then .need_more
      -- LOCAL, UNSPEC and UNIX: no client address, the body is skipped
      else if command = 0 ∨ family = 0 ∨ family = 3 then
        .done { length := total, has_source := false, addr := [], port := 0 }
      else if family = 1 then
        if body < 12 then .bad else proxy_v2_source inet buf .inet total 24
      else
        if body < 36 then .bad else proxy_v2_source inet buf .inet6 total 48

def fpm_http_proxy_parse (buf : Bytes) : Status :=
  match buf with
  | [] => .need_more
  | b :: _ =>
    if b = 80 then proxy_parse_v1 inet buf
    else if b = 0x0D then proxy_parse_v2 inet buf
    else .bad

/-! ## Appending bytes

Each step of the parser reads a prefix of the buffer whose length the step
itself bounds, so a step that decided is not moved by bytes behind it. -/

variable (rest : Bytes)

/-- The two comparisons the parsers make against a fixed prefix agree on every
longer buffer once they fail. -/
lemma prefix_mismatch_append {pre buf : Bytes}
    (h : buf.take (min buf.length pre.length) ≠ pre.take (min buf.length pre.length)) :
    (buf ++ rest).take (min (buf ++ rest).length pre.length)
      ≠ pre.take (min (buf ++ rest).length pre.length) := by
  intro heq
  apply h
  have hle : min buf.length pre.length ≤ min (buf ++ rest).length pre.length := by
    rw [length_append]; omega
  have htake := congrArg (take (min buf.length pre.length)) heq
  rw [take_take, take_take, Nat.min_eq_left hle] at htake
  rw [← htake, take_append_of_le_length (Nat.min_le_left _ _)]

lemma prefix_match_append {pre buf : Bytes} (hlen : pre.length ≤ buf.length)
    (h : buf.take (min buf.length pre.length) = pre.take (min buf.length pre.length)) :
    (buf ++ rest).take (min (buf ++ rest).length pre.length)
      = pre.take (min (buf ++ rest).length pre.length) := by
  have hb : min buf.length pre.length = pre.length := Nat.min_eq_right hlen
  have ha : min (buf ++ rest).length pre.length = pre.length := by
    rw [length_append]; omega
  rw [hb] at h
  rw [ha, take_append_of_le_length hlen, h]

variable {buf : Bytes}

lemma getD_append_lt {i : ℕ} (hi : i < buf.length) :
    (buf ++ rest).getD i 0 = buf.getD i 0 := by
  rw [getD_eq_getElem?_getD, getD_eq_getElem?_getD, getElem?_append_left hi]

lemma window_append (buf rest : Bytes) (n : ℕ) :
    (buf ++ rest).take (min (buf ++ rest).length n)
      = buf.take (min buf.length n) ++ rest.take (n - buf.length) := by
  have hmin : ∀ l : Bytes, l.take (min l.length n) = l.take n := by
    intro l
    rw [Nat.min_comm, ← take_take, take_length]
  rw [hmin, hmin, take_append]

lemma line_end_append (n : ℕ)
    (h : (buf.take (min buf.length n)).findIdx (· == LF) < min buf.length n) :
    ((buf ++ rest).take (min (buf ++ rest).length n)).findIdx (· == LF)
      = (buf.take (min buf.length n)).findIdx (· == LF) := by
  rw [window_append, findIdx_append, if_pos]
  rw [length_take]
  omega

lemma line_end_le (buf : Bytes) (n : ℕ) :
    (buf.take (min buf.length n)).findIdx (· == LF) ≤ min buf.length n := by
  have h : (buf.take (min buf.length n)).findIdx (· == LF) ≤ (buf.take (min buf.length n)).length :=
    findIdx_le_length
  rw [length_take] at h
  omega

theorem proxy_parse_v1_append (buf rest : Bytes) (h : proxy_parse_v1 inet buf ≠ .need_more) :
    proxy_parse_v1 inet (buf ++ rest) = proxy_parse_v1 inet buf := by
  unfold proxy_parse_v1 at h ⊢
  by_cases hpre : buf.take (min buf.length (str "PROXY ").length)
      ≠ (str "PROXY ").take (min buf.length (str "PROXY ").length)
  · rw [if_pos hpre, if_pos (prefix_mismatch_append rest hpre)]
  rw [if_neg hpre] at h ⊢
  rw [not_ne_iff] at hpre
  by_cases hlen : buf.length < (str "PROXY ").length
  · rw [if_pos hlen] at h
    exact absurd rfl h
  rw [if_neg hlen] at h ⊢
  have hpre' := prefix_match_append rest (by omega) hpre
  have hlen' : ¬ (buf ++ rest).length < (str "PROXY ").length := by
    rw [length_append]; omega
  rw [if_neg (not_ne_iff.mpr hpre'), if_neg hlen']
  have hle := line_end_le buf FPM_HTTP_PROXY_V1_MAX
  by_cases hnone : (buf.take (min buf.length FPM_HTTP_PROXY_V1_MAX)).findIdx (· == LF)
      = min buf.length FPM_HTTP_PROXY_V1_MAX
  · -- no line end in the window: the verdict was BAD because the window is full
    rw [if_pos hnone] at h ⊢
    by_cases hfull : buf.length < FPM_HTTP_PROXY_V1_MAX
    · rw [if_pos hfull] at h
      exact absurd rfl h
    have hsame : (buf ++ rest).take (min (buf ++ rest).length FPM_HTTP_PROXY_V1_MAX)
        = buf.take (min buf.length FPM_HTTP_PROXY_V1_MAX) := by
      rw [window_append, Nat.sub_eq_zero_of_le (by omega), take_zero, append_nil]
    have hfull' : ¬ (buf ++ rest).length < FPM_HTTP_PROXY_V1_MAX := by
      rw [length_append]; omega
    rw [if_neg hfull, hsame, hnone, if_pos (by rw [length_append]; omega), if_neg hfull']
  · -- the line end is in the window already, and bytes behind it change nothing
    have hlt : (buf.take (min buf.length FPM_HTTP_PROXY_V1_MAX)).findIdx (· == LF)
        < min buf.length FPM_HTTP_PROXY_V1_MAX := by omega
    have hne' : ¬ (buf.take (min buf.length FPM_HTTP_PROXY_V1_MAX)).findIdx (· == LF)
        = min (buf ++ rest).length FPM_HTTP_PROXY_V1_MAX := by
      rw [length_append]; omega
    rw [line_end_append rest _ hlt, if_neg hne', if_neg hnone,
      getD_append_lt rest (by omega), take_append_of_le_length (by omega)]

lemma proxy_v2_source_append (buf rest : Bytes) (family : Family) (total port_at : ℕ)
    (hport : port_at + 1 < buf.length)
    (haddr : 16 + (match family with | .inet => 4 | .inet6 => 16) ≤ buf.length) :
    proxy_v2_source inet (buf ++ rest) family total port_at
      = proxy_v2_source inet buf family total port_at := by
  unfold proxy_v2_source
  rw [drop_append_of_le_length (by omega),
    take_append_of_le_length (by rw [length_drop]; omega),
    getD_append_lt rest (by omega), getD_append_lt rest hport]

lemma proxy_v2_body_append (h : 16 ≤ buf.length) :
    proxy_v2_body (buf ++ rest) = proxy_v2_body buf := by
  unfold proxy_v2_body
  rw [getD_append_lt rest (by omega), getD_append_lt rest (by omega)]

theorem proxy_parse_v2_append (buf rest : Bytes) (h : proxy_parse_v2 inet buf ≠ .need_more) :
    proxy_parse_v2 inet (buf ++ rest) = proxy_parse_v2 inet buf := by
  unfold proxy_parse_v2 at h ⊢
  dsimp only at h ⊢
  by_cases hsig : buf.take (min buf.length proxy_v2_sig.length)
      ≠ proxy_v2_sig.take (min buf.length proxy_v2_sig.length)
  · rw [if_pos hsig, if_pos (prefix_mismatch_append rest hsig)]
  rw [if_neg hsig] at h ⊢
  rw [not_ne_iff] at hsig
  by_cases hlen : buf.length < 16
  · rw [if_pos hlen] at h
    exact absurd rfl h
  have hlen' : ¬ (buf ++ rest).length < 16 := by rw [length_append]; omega
  have hsig' := prefix_match_append rest (by have : proxy_v2_sig.length = 12 := rfl; omega) hsig
  rw [if_neg hlen] at h ⊢
  rw [if_neg (not_ne_iff.mpr hsig'), if_neg hlen',
    getD_append_lt rest (by omega : 12 < buf.length),
    getD_append_lt rest (by omega : 13 < buf.length), proxy_v2_body_append rest (by omega)]
  -- the fixed part is the same, so only the length tests and the address remain
  generalize proxy_v2_body buf = body at h ⊢
  split
  · rfl
  rename_i hfields
  rw [if_neg hfields] at h
  by_cases htotal : buf.length < 16 + body
  · rw [if_pos htotal] at h
    exact absurd rfl h
  rw [if_neg htotal, if_neg (by rw [length_append]; omega)]
  split
  · rfl
  split
  · split
    · rfl
    · exact proxy_v2_source_append inet buf rest .inet _ _ (by omega) (by simp only; omega)
  · split
    · rfl
    · exact proxy_v2_source_append inet buf rest .inet6 _ _ (by omega) (by simp only; omega)

/-- **Stability.** A verdict other than "need more" is the verdict on every
longer buffer, with the same header. -/
theorem parse_append (buf rest : Bytes) (h : fpm_http_proxy_parse inet buf ≠ .need_more) :
    fpm_http_proxy_parse inet (buf ++ rest) = fpm_http_proxy_parse inet buf := by
  cases buf with
  | nil => exact absurd rfl h
  | cons b buf =>
    rw [cons_append]
    unfold fpm_http_proxy_parse at h ⊢
    dsimp only at h ⊢
    by_cases hb : b = 80
    · rw [if_pos hb] at h ⊢
      rw [if_pos hb]
      exact proxy_parse_v1_append inet (b :: buf) rest h
    rw [if_neg hb] at h ⊢
    rw [if_neg hb]
    by_cases hb2 : b = 0x0D
    · rw [if_pos hb2] at h ⊢
      rw [if_pos hb2]
      exact proxy_parse_v2_append inet (b :: buf) rest h
    · rw [if_neg hb2, if_neg hb2]

/-! ## What a verdict bounds -/

lemma proxy_v1_line_ne_need_more (p : Bytes) : proxy_v1_line inet p ≠ .need_more := by
  unfold proxy_v1_line
  dsimp only
  split
  · exact nofun
  split <;> exact nofun

lemma proxy_v2_source_spec (buf : Bytes) (family : Family) (total port_at : ℕ) :
    proxy_v2_source inet buf family total port_at = .bad ∨
      ∃ h, proxy_v2_source inet buf family total port_at = .done h ∧ h.length = total := by
  unfold proxy_v2_source
  split
  · exact .inl rfl
  · exact .inr ⟨_, rfl, rfl⟩

lemma proxy_parse_v1_spec (buf : Bytes) :
    (proxy_parse_v1 inet buf = .need_more → buf.length < FPM_HTTP_PROXY_V1_MAX ∧ (buf.length < 6 ∨
          (buf.take (min buf.length FPM_HTTP_PROXY_V1_MAX)).findIdx (· == LF) = buf.length)) ∧
    ∀ h, proxy_parse_v1 inet buf = .done h →
      h.length = (buf.take (min buf.length FPM_HTTP_PROXY_V1_MAX)).findIdx (· == LF) + 1 ∧
        7 < h.length ∧ h.length ≤ buf.length := by
  have hle := line_end_le buf FPM_HTTP_PROXY_V1_MAX
  have hpre : (str "PROXY ").length = 6 := rfl
  have hmax : FPM_HTTP_PROXY_V1_MAX = 107 := rfl
  unfold proxy_parse_v1
  dsimp only
  generalize (buf.take (min buf.length FPM_HTTP_PROXY_V1_MAX)).findIdx (· == LF) = i at hle ⊢
  split
  · exact ⟨nofun, nofun⟩
  split
  · exact ⟨fun _ => by omega, nofun⟩
  split
  · split
    · exact ⟨fun _ => by omega, nofun⟩
    · exact ⟨nofun, nofun⟩
  split
  · exact ⟨nofun, nofun⟩
  cases hline : proxy_v1_line inet ((buf.take (i - 1)).drop (str "PROXY ").length) with
  | need_more => exact absurd hline (proxy_v1_line_ne_need_more inet _)
  | bad => exact ⟨nofun, nofun⟩
  | done tmp =>
    refine ⟨nofun, ?_⟩
    intro h hdone
    cases hdone
    -- an empty line is BAD, so the line end is behind the prefix
    have hi : 7 ≤ i := by
      by_contra hlt
      rw [drop_eq_nil_of_le (by rw [length_take]; omega)] at hline
      cases hline
    exact ⟨rfl, by simp only; omega, by simp only; omega⟩

lemma proxy_parse_v2_spec (buf : Bytes) :
    (proxy_parse_v2 inet buf = .need_more → buf.length < 16 ∨
        (buf.length < 16 + proxy_v2_body buf ∧ proxy_v2_body buf ≤ FPM_HTTP_PROXY_V2_BODY_MAX)) ∧
    ∀ h, proxy_parse_v2 inet buf = .done h →
      h.length = 16 + proxy_v2_body buf ∧ h.length ≤ buf.length := by
  have hsource : ∀ family port_at, ¬ buf.length < 16 + proxy_v2_body buf →
      (proxy_v2_source inet buf family (16 + proxy_v2_body buf) port_at = .need_more →
        buf.length < 16 ∨
          (buf.length < 16 + proxy_v2_body buf ∧
            proxy_v2_body buf ≤ FPM_HTTP_PROXY_V2_BODY_MAX)) ∧
      ∀ h, proxy_v2_source inet buf family (16 + proxy_v2_body buf) port_at = .done h →
        h.length = 16 + proxy_v2_body buf ∧ h.length ≤ buf.length := by
    intro family port_at htotal
    rcases proxy_v2_source_spec inet buf family _ port_at with hbad | ⟨hdr, hdone, hlen⟩
    · rw [hbad]
      exact ⟨nofun, nofun⟩
    · rw [hdone]
      refine ⟨nofun, ?_⟩
      intro h heq
      cases heq
      omega
  unfold proxy_parse_v2
  dsimp only
  split
  · exact ⟨nofun, nofun⟩
  split
  · exact ⟨fun _ => by omega, nofun⟩
  split
  · exact ⟨nofun, nofun⟩
  rename_i hfields
  split
  · exact ⟨fun _ => by omega, nofun⟩
  rename_i htotal
  -- LOCAL, UNSPEC and UNIX say no address
  split
  · refine ⟨nofun, ?_⟩
    intro h heq
    cases heq
    exact ⟨rfl, Nat.le_of_not_lt htotal⟩
  split
  · split
    · exact ⟨nofun, nofun⟩
    · exact hsource .inet 24 htotal
  · split
    · exact ⟨nofun, nofun⟩
    · exact hsource .inet6 48 htotal

/-- "Need more" is only said of fewer bytes than the reader can hold, and a
header is inside the bytes it was parsed from. -/
lemma parse_bounds (buf : Bytes) :
    (fpm_http_proxy_parse inet buf = .need_more → buf.length < FPM_HTTP_PROXY_MAX) ∧
      ∀ h, fpm_http_proxy_parse inet buf = .done h → h.length ≤ buf.length := by
  have hmax : FPM_HTTP_PROXY_MAX = 528 := rfl
  have hmax1 : FPM_HTTP_PROXY_V1_MAX = 107 := rfl
  have hmax2 : FPM_HTTP_PROXY_V2_BODY_MAX = 512 := rfl
  have hv1 := proxy_parse_v1_spec inet buf
  have hv2 := proxy_parse_v2_spec inet buf
  unfold fpm_http_proxy_parse
  split
  · exact ⟨fun _ => by decide, nofun⟩
  split
  · refine ⟨fun hneed => ?_, fun h hdone => (hv1.2 h hdone).2.2⟩
    have := hv1.1 hneed
    omega
  split
  · refine ⟨fun hneed => ?_, fun h hdone => (hv2.2 h hdone).2⟩
    have := hv2.1 hneed
    omega
  · exact ⟨nofun, nofun⟩

/-- **"Need more" is honest.** Bytes that were called incomplete hold no whole
header, whatever comes behind them. -/
theorem parse_need_more_lt (buf rest : Bytes) (h : Header)
    (hneed : fpm_http_proxy_parse inet buf = .need_more)
    (hdone : fpm_http_proxy_parse inet (buf ++ rest) = .done h) : buf.length < h.length := by
  cases buf with
  | nil =>
    -- the empty buffer: every header has a byte
    unfold fpm_http_proxy_parse at hdone
    split at hdone
    · cases hdone
    split at hdone
    · have := (proxy_parse_v1_spec inet _).2 h hdone
      rw [length_nil]
      omega
    split at hdone
    · have := (proxy_parse_v2_spec inet _).2 h hdone
      rw [length_nil]
      omega
    · cases hdone
  | cons b buf =>
    rw [cons_append] at hdone
    unfold fpm_http_proxy_parse at hneed hdone
    dsimp only at hneed hdone
    by_cases hb : b = 80
    · rw [if_pos hb] at hneed hdone
      rw [← cons_append] at hdone
      obtain ⟨hshort, hnone⟩ := (proxy_parse_v1_spec inet _).1 hneed
      obtain ⟨hlen, hgt, -⟩ := (proxy_parse_v1_spec inet _).2 h hdone
      rcases hnone with hlt | hnone
      · omega
      · rw [window_append, findIdx_append, if_neg] at hlen
        · rw [length_take] at hlen
          omega
        · rw [hnone, length_take]
          omega
    rw [if_neg hb] at hneed hdone
    by_cases hb2 : b = 0x0D
    · rw [if_pos hb2] at hneed hdone
      rw [← cons_append] at hdone
      obtain ⟨hlen, -⟩ := (proxy_parse_v2_spec inet _).2 h hdone
      rcases (proxy_parse_v2_spec inet _).1 hneed with hlt | ⟨hlt, -⟩
      · omega
      · by_cases h16 : 16 ≤ (b :: buf).length
        · rw [proxy_v2_body_append rest h16] at hlen
          omega
        · omega
    · rw [if_neg hb2] at hneed
      cases hneed

end FpmNg.ProxyProtocol
