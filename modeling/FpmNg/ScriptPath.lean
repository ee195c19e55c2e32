/-
From the path of a request to the script: the first part of `fpm_http_build_request` of
`fpm_http_fcgi.c`, with `fpm_http_decoded_path_ok`.

The path is checked and split with substring searches. What they are for is said of
segments: the file that is named, read segment by segment, is below the document root;
and of the rule the source quotes for the split. The split and the rule for a trailing
slash do not know of each other, and a path to which both apply breaks the rule.
-/
import FpmNg.HttpHead
import FpmNg.Lib.Separated

open ByteScan Separated List Option

namespace FpmNg.ScriptPath

open FpmNg.HttpRequest (Request fpm_http_request_path)
open FpmNg.HttpReply (FPM_HTTP_HEADER_NAME_MAX)

/-! ## The source -/

/-- `strstr`, as a position. -/
def strstr (s needle : Bytes) : Option ℕ := findFrom needle.isPrefixOf 0 s

def ends_in_slash (path : Bytes) : Bool := path.getLast? == some SLASH

def fpm_http_decoded_path_ok (decoded : Bytes) : Bool :=
  if decoded.length = 0 ∨ decoded.head? ≠ some SLASH ∨ decoded.length ≠ (cstr decoded).length then false
  else if (strstr decoded (str "/../")).isSome
      ∨ (3 ≤ decoded.length ∧ decoded.drop (decoded.length - 3) = str "/..") then false
  else true

structure Site where
  docroot : Bytes
  front_controller : Bytes
  front_controller_ok : Bool
  deriving DecidableEq

/-- `filename` and `path_info`. -/
structure Script where
  filename : Bytes
  path_info : Option Bytes
  deriving DecidableEq

def split_script (docroot decoded : Bytes) : Script :=
  let path_info := (strstr decoded (str ".php/")).map (· + 4)
  let filename := docroot ++ decoded.take (path_info.getD decoded.length)
  ⟨if ends_in_slash decoded then filename ++ str "index.php" else filename,
    path_info.map decoded.drop⟩

/-- Whether the front controller takes the request. `hint` is `script_missing_hint`, `none`
for -1, and `stat` is true of what is not there or is a directory. -/
def missing (site : Site) (decoded : Bytes) (hint : Option Bool) (stat : Bytes → Bool) : Bool :=
  let script := split_script site.docroot decoded
  site.front_controller_ok &&
    match hint with
    | some m => if script.path_info = none ∧ ends_in_slash decoded = false then m
        else stat script.filename
    | none => stat script.filename

def build_script (uridecode : Bytes → Option Bytes) (stat : Bytes → Bool) (site : Site)
    (req : Request) (hint : Option Bool) : Except ℕ Script :=
  match fpm_http_request_path req.evhttp_uri with
  | none => .error HTTP_BADREQUEST
  | some path =>
    if path = [] then .error HTTP_BADREQUEST
    else if req.headers.any fun h => decide (h.1.length > FPM_HTTP_HEADER_NAME_MAX) then
      .error HTTP_BADREQUEST
    else
      match uridecode path with
      | none => .error HTTP_BADREQUEST
      | some decoded =>
        if !fpm_http_decoded_path_ok decoded then .error HTTP_BADREQUEST
        else if missing site decoded hint stat then
          .ok ⟨site.docroot ++ site.front_controller, some decoded⟩
        else .ok (split_script site.docroot decoded)

/-- The parameters of the script, in the order of the `fpm_http_param` calls. -/
def script_params (site : Site) (script : Script) : List (Bytes × Bytes) :=
  [(str "DOCUMENT_ROOT", site.docroot),
    (str "SCRIPT_NAME", script.filename.drop site.docroot.length),
    (str "SCRIPT_FILENAME", script.filename)]
  ++ (script.path_info.map fun info => (str "PATH_INFO", info)).toList

/-! ## The searches -/

lemma strstr_eq_none {s needle : Bytes} (hne : needle ≠ []) (h : strstr s needle = none) :
    ¬ needle <:+: s := by
  rintro ⟨pre, post, rfl⟩
  have hpos := length_pos_iff.mpr hne
  have hno := findFrom_eq_none_iff.mp h pre.length (Nat.zero_le _) (by simp; omega)
  rw [append_assoc, drop_left, ← Bool.not_eq_true] at hno
  exact hno (List.isPrefixOf_iff_prefix.mpr (prefix_append needle post))

/-- A path that passes the check: it begins with a slash, has no NUL, and no segment that
goes up. -/
structure Accepted (decoded : Bytes) : Prop where
  slash : ∃ rest, decoded = SLASH :: rest
  no_nul : 0 ∉ decoded
  inside : ¬ str "/../" <:+: decoded
  at_end : ¬ str "/.." <:+ decoded

variable {decoded : Bytes}

lemma accepted_of_ok (h : fpm_http_decoded_path_ok decoded = true) : Accepted decoded := by
  unfold fpm_http_decoded_path_ok at h
  split at h
  · cases h
  rename_i hfirst
  split at h
  · cases h
  rename_i hup
  simp only [not_or, not_not] at hfirst hup
  refine ⟨?_, ?_, strstr_eq_none (by decide) (not_isSome_iff_eq_none.mp hup.1), ?_⟩
  · obtain ⟨rest, hrest⟩ := head?_eq_some_iff.mp hfirst.2.1
    exact ⟨rest, hrest⟩
  · -- the C string is as long as the buffer
    intro hzero
    have hsame : cstr decoded = decoded :=
      (takeWhile_sublist _).eq_of_length hfirst.2.2.symm
    rw [← hsame] at hzero
    exact nomatch all_eq_true.mp all_takeWhile 0 hzero
  · rintro ⟨pre, rfl⟩
    refine hup.2 ⟨?_, ?_⟩
    · rw [length_append]
      exact Nat.le_add_left 3 _
    · rw [length_append, show (str "/..").length = 3 from rfl, Nat.add_sub_cancel, drop_left]

/-! ## The rule of the split -/

/-- `^(.+\.php)(/.*)$` matches with `n` bytes in the first group. -/
def SplitsAt (path : Bytes) (n : ℕ) : Prop :=
  ∃ front info, front ≠ [] ∧ path = front ++ str ".php" ++ info ∧ info.head? = some SLASH
    ∧ n = (front ++ str ".php").length

/-- **The documented rule**, with `.+?`: the shortest script, and the rest as PATH_INFO;
without a match the path, with `index.php` behind a slash. -/
structure FollowsRule (docroot path : Bytes) (script : Script) : Prop where
  split : ∀ n, SplitsAt path n → (∀ m, m < n → ¬ SplitsAt path m) →
    script = ⟨docroot ++ path.take n, some (path.drop n)⟩
  whole : (∀ n, ¬ SplitsAt path n) →
    script = ⟨docroot ++ path ++ if ends_in_slash path then str "index.php" else [], none⟩

variable {path : Bytes}

lemma splitsAt_iff (h : Accepted path) (n : ℕ) :
    SplitsAt path n ↔ ∃ i, n = i + 4 ∧ i < path.length ∧ (str ".php/").isPrefixOf (path.drop i) = true := by
  have hneedle : str ".php/" = str ".php" ++ [SLASH] := by decide
  constructor
  · rintro ⟨front, info, -, rfl, hinfo, rfl⟩
    obtain ⟨rest, rfl⟩ := head?_eq_some_iff.mp hinfo
    refine ⟨front.length, by rw [length_append]; rfl, ?_, ?_⟩
    · rw [length_append, length_append, length_cons]
      omega
    · rw [append_assoc, drop_left, hneedle]
      exact isPrefixOf_iff_prefix.mpr ⟨rest, by simp⟩
  · rintro ⟨i, rfl, hi, hat⟩
    obtain ⟨rest, hrest⟩ := isPrefixOf_iff_prefix.mp hat
    refine ⟨path.take i, SLASH :: rest, ?_, ?_, rfl, ?_⟩
    · -- the path begins with a slash, the match with a dot
      intro hnil
      obtain ⟨tail, htail⟩ := h.slash
      rcases take_eq_nil_iff.mp hnil with hzero | hempty
      · rw [hzero, drop_zero, htail, hneedle] at hrest
        exact absurd (cons.inj hrest).1 (by decide)
      · rw [htail] at hempty
        exact nomatch hempty
    · conv_lhs => rw [← take_append_drop i path, ← hrest, hneedle]
      simp
    · rw [length_append, length_take, Nat.min_eq_left (Nat.le_of_lt hi)]
      rfl

lemma strstr_split (h : Accepted path) :
    (strstr path (str ".php/") = none ∧ ∀ n, ¬ SplitsAt path n)
      ∨ ∃ i, strstr path (str ".php/") = some i ∧ SplitsAt path (i + 4)
        ∧ ∀ m, m < i + 4 → ¬ SplitsAt path m := by
  cases hfind : strstr path (str ".php/") with
  | none =>
    refine .inl ⟨rfl, fun n hn => ?_⟩
    obtain ⟨i, -, hi, hat⟩ := (splitsAt_iff h n).mp hn
    rw [findFrom_eq_none_iff.mp hfind i (Nat.zero_le _) hi] at hat
    exact Bool.false_ne_true hat
  | some i =>
    obtain ⟨-, hi, hat, hfirst⟩ := findFrom_eq_some_iff.mp hfind
    refine .inr ⟨i, rfl, (splitsAt_iff h _).mpr ⟨i, rfl, hi, hat⟩, fun m hm hsplit => ?_⟩
    obtain ⟨j, rfl, -, hatj⟩ := (splitsAt_iff h m).mp hsplit
    rw [hfirst j (Nat.zero_le _) (by omega)] at hatj
    exact Bool.false_ne_true hatj

lemma build_script_ok {uridecode : Bytes → Option Bytes} {stat : Bytes → Bool} {site : Site}
    {req : Request} {hint : Option Bool} {script : Script}
    (h : build_script uridecode stat site req hint = .ok script) :
    ∃ path decoded, fpm_http_request_path req.evhttp_uri = some path ∧ uridecode path = some decoded
      ∧ Accepted decoded ∧ script = if missing site decoded hint stat then
          ⟨site.docroot ++ site.front_controller, some decoded⟩ else split_script site.docroot decoded := by
  unfold build_script at h
  split at h
  · exact nomatch h
  rename_i path hpath
  split at h
  · exact nomatch h
  split at h
  · exact nomatch h
  split at h
  · exact nomatch h
  rename_i decoded hdecoded
  split at h
  · exact nomatch h
  rename_i hok
  rw [Bool.not_eq_true', Bool.not_eq_false] at hok
  refine ⟨path, decoded, hpath, hdecoded, accepted_of_ok hok, ?_⟩
  split at h
  · rename_i hmissing
    rw [if_pos hmissing, ← Except.ok.inj h]
  · rename_i hthere
    rw [if_neg hthere, ← Except.ok.inj h]

/-- **Script path split.** Where the front controller does not take the request, the script
follows the documented rule if and only if the path is not both split and ended by a slash. -/
theorem script_split_iff (uridecode : Bytes → Option Bytes) (stat : Bytes → Bool) (site : Site)
    (req : Request) (hint : Option Bool) (path decoded : Bytes) (script : Script)
    (hpath : fpm_http_request_path req.evhttp_uri = some path)
    (hdecoded : uridecode path = some decoded)
    (hbuilt : build_script uridecode stat site req hint = .ok script)
    (hown : missing site decoded hint stat = false) :
    FollowsRule site.docroot decoded script
      ↔ ¬ ((∃ n, SplitsAt decoded n) ∧ ends_in_slash decoded = true) := by
  obtain ⟨path', decoded', hpath', hdecoded', hok, hscript⟩ := build_script_ok hbuilt
  obtain rfl : path' = path := some.inj (hpath'.symm.trans hpath)
  obtain rfl : decoded' = decoded := some.inj (hdecoded'.symm.trans hdecoded)
  rw [if_neg (by simp [hown])] at hscript
  rw [hscript]
  unfold split_script
  rcases strstr_split hok with ⟨hnone, hno⟩ | ⟨i, hsome, hsplit, hfirst⟩
  · -- no match: the rule of the slash is the only one
    rw [hnone]
    refine ⟨fun _ hboth => hno _ hboth.1.choose_spec, fun _ => ⟨fun n hn => absurd hn (hno n), fun _ => ?_⟩⟩
    simp only [map_none, getD_none, take_length]
    split <;> simp
  · rw [hsome]
    dsimp [map_some, getD_some]
    cases hslash : ends_in_slash decoded' with
    | true =>
      refine ⟨fun hrule _ => ?_, fun hboth => absurd ⟨⟨_, hsplit⟩, rfl⟩ hboth⟩
      -- `index.php` is behind the script
      have hname := congrArg Script.filename (hrule.split (i + 4) hsplit hfirst)
      rw [if_pos rfl] at hname
      exact nomatch append_right_eq_self.mp hname
    | false =>
      refine ⟨fun _ hboth => Bool.false_ne_true hboth.2, fun _ => ⟨fun n hn hleast => ?_, fun hno => absurd hsplit (hno _)⟩⟩
      have hn' : n = i + 4 := by
        rcases Nat.lt_trichotomy n (i + 4) with hlt | heq | hgt
        · exact absurd hn (hfirst n hlt)
        · exact heq
        · exact absurd hsplit (hleast _ hgt)
      rw [hn', if_neg Bool.false_ne_true]

/-! ## Below the document root -/

/-- One segment of a path, on the segments in front of it: an empty one and `.` stay, `..`
goes up. -/
def enter (at_ : List Bytes) (segment : Bytes) : List Bytes :=
  if segment = [] ∨ segment = str "." then at_
  else if segment = str ".." then at_.dropLast
  else at_ ++ [segment]

def normalise (path : Bytes) : List Bytes := (path.splitOn SLASH).foldl enter []

def Below (root path : Bytes) : Prop := normalise root <+: normalise path

lemma enter_below {segments : List Bytes} (h : str ".." ∉ segments) (at_ : List Bytes) :
    at_ <+: segments.foldl enter at_ := by
  induction segments generalizing at_ with
  | nil => exact prefix_refl _
  | cons s segments ih =>
    refine IsPrefix.trans ?_ (ih (fun hs => h (.tail _ hs)) _)
    unfold enter
    split
    · exact prefix_refl _
    · rw [if_neg fun hs : s = str ".." => h (hs ▸ mem_cons_self)]
      exact prefix_append ..

lemma below_join (root rest : Bytes) (h : str ".." ∉ rest.splitOn SLASH) :
    Below root (root ++ SLASH :: rest) := by
  unfold Below normalise
  rw [splitOn_append_cons, foldl_append]
  exact enter_below h _

/-- The file name of an accepted path has no segment that goes up: `w` is what is put
behind the part of the path that was kept, and it ends the last segment. -/
lemma no_up {decoded x rest w : Bytes} (h : Accepted decoded) (hx : x <+: decoded)
    (hw : SLASH ∉ w) (hlast : ¬ str "/.." <:+ x ++ w) (heq : x ++ w = SLASH :: rest) :
    str ".." ∉ rest.splitOn SLASH := by
  intro hup
  obtain ⟨pre, post, hsplit, hpost⟩ := mem_splitOn hup
  rw [← heq] at hsplit
  rcases hpost with rfl | ⟨post', rfl⟩
  · exact hlast ⟨pre, by rw [hsplit, append_nil]; rfl⟩
  · -- the slash behind the dots is in the path
    have hdots : x ++ w = (pre ++ str "/..") ++ SLASH :: post' := by
      rw [hsplit]
      simp [str]
    rcases append_eq_append_iff.mp hdots with ⟨a, hpre, hwa⟩ | ⟨c, hxc, hc⟩
    · exact hw (by rw [hwa]; simp)
    · cases c with
      | nil => exact hw (by rw [nil_append] at hc; rw [← hc]; exact mem_cons_self)
      | cons b c =>
        obtain ⟨rfl, -⟩ := cons.inj hc
        refine h.inside (IsInfix.trans ⟨pre, c, ?_⟩ hx.isInfix)
        rw [hxc, show str "/../" = str "/.." ++ [SLASH] by decide]
        simp

lemma not_up_of_last (h : path.getLast? = some 112) : ¬ str "/.." <:+ path := by
  rintro ⟨pre, rfl⟩
  rw [getLast?_append, show (str "/..").getLast? = some 46 from rfl, some_or] at h
  cases h

lemma kept_part (h : Accepted decoded) :
    ∃ n, ((strstr decoded (str ".php/")).map (· + 4)).getD decoded.length = n ∧ 0 < n
      ∧ (decoded.take n = decoded ∨ (decoded.take n).getLast? = some 112) := by
  obtain ⟨tail, htail⟩ := h.slash
  rcases strstr_split h with ⟨hnone, -⟩ | ⟨i, hsome, ⟨front, info, -, hsplit, -, hlen⟩, -⟩
  · rw [hnone]
    exact ⟨_, rfl, by rw [htail]; exact Nat.succ_pos _, .inl take_length⟩
  · rw [hsome]
    refine ⟨i + 4, rfl, Nat.succ_pos _, .inr ?_⟩
    rw [hlen, hsplit, take_left, getLast?_append]
    rfl

/-- The name of the script behind the document root: a part of the path that was accepted,
and `index.php` or nothing. -/
lemma split_filename (docroot : Bytes) (h : Accepted decoded) :
    ∃ x w rest, (split_script docroot decoded).filename = docroot ++ (x ++ w) ∧ x <+: decoded
      ∧ (w = [] ∨ w = str "index.php") ∧ x ++ w = SLASH :: rest ∧ ¬ str "/.." <:+ x ++ w := by
  obtain ⟨tail, htail⟩ := h.slash
  obtain ⟨n, hn, hpos, hcut⟩ := kept_part h
  obtain ⟨k, rfl⟩ : ∃ k, n = k + 1 := ⟨n - 1, by omega⟩
  have hbegin : ∀ w, decoded.take (k + 1) ++ w = SLASH :: (tail.take k ++ w) := by
    intro w
    rw [htail, take_succ_cons, cons_append]
  unfold split_script
  dsimp only
  rw [hn]
  split
  · refine ⟨_, str "index.php", _, by rw [append_assoc], take_prefix _ _, .inr rfl,
      hbegin _, not_up_of_last ?_⟩
    rw [getLast?_append]
    rfl
  · refine ⟨_, [], _, by rw [append_nil], take_prefix _ _, .inl rfl, hbegin _, ?_⟩
    rw [append_nil]
    rcases hcut with hwhole | hlast
    · rw [hwhole]
      exact h.at_end
    · exact not_up_of_last hlast

/-- **SCRIPT_FILENAME never leaves the document root.** For every request, whatever the
target decodes to and whatever is on the disk, with a front controller below the root: if
the request is built, the name it carries is the root or a path below it, and has no NUL. -/
theorem script_below_docroot (uridecode : Bytes → Option Bytes) (stat : Bytes → Bool) (site : Site)
    (req : Request) (hint : Option Bool) (script : Script) (hroot : 0 ∉ site.docroot)
    (hfront : Below site.docroot (site.docroot ++ site.front_controller)
      ∧ 0 ∉ site.front_controller)
    (hbuilt : build_script uridecode stat site req hint = .ok script) :
    (str "SCRIPT_FILENAME", script.filename) ∈ script_params site script
      ∧ Below site.docroot script.filename ∧ 0 ∉ script.filename := by
  refine ⟨by simp [script_params], ?_⟩
  obtain ⟨path, decoded, -, -, hok, hscript⟩ := build_script_ok hbuilt
  rw [hscript]
  split
  · exact ⟨hfront.1, fun hzero => (mem_append.mp hzero).elim hroot hfront.2⟩
  · obtain ⟨x, w, rest, hname, hx, hw, heq, hlast⟩ := split_filename site.docroot hok
    have hplain : SLASH ∉ w ∧ 0 ∉ w := by
      rcases hw with rfl | rfl
      · exact ⟨not_mem_nil, not_mem_nil⟩
      · decide
    rw [hname]
    refine ⟨?_, fun hzero => ?_⟩
    · have hup := no_up hok hx hplain.1 hlast heq
      rw [heq]
      exact below_join site.docroot rest hup
    · rcases mem_append.mp hzero with hzero | hzero
      · exact hroot hzero
      · rcases mem_append.mp hzero with hzero | hzero
        · exact hok.no_nul (hx.subset hzero)
        · exact hplain.2 hzero

def get_path (path : Bytes) : Request where
  command := .GET
  uri := path
  evhttp_uri := some ⟨some path, false, none⟩
  headers := []
  body := []
  upgrade := false
  upstream_uri := none
  pool := str "www"
  request_id_on := false
  request_id := []
  peer_addr := str "10.0.0.1"
  scheme := []
  server_port := []

def plain_site : Site := ⟨str "/srv", str "/index.php", true⟩

theorem script_split_plain :
    FollowsRule (str "/srv") (str "/a.php/b") ⟨str "/srv/a.php", some (str "/b")⟩ := by
  refine (script_split_iff some (fun _ => false) plain_site (get_path (str "/a.php/b")) none
    (str "/a.php/b") (str "/a.php/b") _ rfl rfl (by decide) (by decide)).mpr ?_
  rintro ⟨-, hslash⟩
  exact absurd hslash (by decide)

/-- The rule says `/srv/a.php` with PATH_INFO `/`. -/
theorem split_gets_index :
    build_script some (fun _ => false) plain_site (get_path (str "/a.php/")) none
      = .ok ⟨str "/srv/a.phpindex.php", some (str "/")⟩
    ∧ SplitsAt (str "/a.php/") 6 :=
  ⟨by decide, str "/a", str "/", by decide, by decide, rfl, rfl⟩

theorem script_below_docroot_plain :
    (str "SCRIPT_FILENAME", str "/srv/a/index.php")
        ∈ script_params plain_site ⟨str "/srv/a/index.php", none⟩
      ∧ Below (str "/srv") (str "/srv/a/index.php") ∧ 0 ∉ str "/srv/a/index.php" :=
  script_below_docroot some (fun _ => false) plain_site (get_path (str "/a/")) none
    ⟨str "/srv/a/index.php", none⟩ (by decide)
    ⟨below_join _ (str "index.php") (by decide), by decide⟩ (by decide)

end FpmNg.ScriptPath
