import Mandoc.Cgi.UrlCode

/-!
# Redirections

When a search consists of a single word, `man.cgi` redirects the browser to a path that contains
the manpath unless it is the default, the architecture if there is one, the word, and the section
if there is one. The new request is parsed by `parse_path_info()`.

The main result, `redirect_roundTrip_iff`, says when that function finds what was sent: a section
must begin with a digit and contain neither dots nor slashes, a name without a section must not
look like a name with a section, and the name of an architecture behind the default manpath must
not be the name of a manpath. Architectures that begin with `man` or `cat` are left aside.
-/

namespace Mandoc

/-! ## §1 Manpaths and architectures -/

/-- `validate_urifrag()` -/
def validateUrifrag (frag : CStr) : Bool :=
  frag.all fun c => isalnum c || c = '-' || c = '.' || c = '/' || c = '_'

/-- The available manpaths: `p[0]` is the default. -/
structure ManpathConf where
  first : CStr
  others : List CStr
  safe : ∀ m ∈ first :: others, validateUrifrag m ∧ '/' ∉ m

/-- `parse_manpath_conf()`, for the lines of the file: it fails for unsafe paths, for paths with a
    slash, and for an empty file. -/
def parseManpathConf : List CStr → Option ManpathConf
  | [] => none
  | dp :: dps =>
    if h : ∀ m ∈ dp :: dps, validateUrifrag m ∧ '/' ∉ m then some ⟨dp, dps, h⟩ else none

/-- `validate_manpath()` -/
def validateManpath (conf : ManpathConf) (manpath : CStr) : Bool :=
  (conf.first :: conf.others).contains manpath

/-- `arch_names` -/
def archNames : List CStr :=
  ["amd64", "alpha", "armv7", "arm64", "hppa", "i386", "landisk", "loongson", "luna88k", "macppc",
   "mips64", "octeon", "powerpc64", "riscv64", "sparc64", "amiga", "arc", "armish", "arm32",
   "atari", "aviion", "beagle", "cats", "hppa64", "hp300", "ia64", "mac68k", "mvme68k", "mvme88k",
   "mvmeppc", "palm", "pc532", "pegasos", "pmax", "powerpc", "sgi", "socppc", "solbourne", "sparc",
   "sun3", "vax", "wgrisc", "x68k", "zaurus"].map String.toList

/-- `validate_arch()` -/
def validateArch (arch : CStr) : Bool := archNames.contains arch

/-! ## §2 The query string -/

/-- `struct query` -/
structure Query where
  manpath : Option CStr := none
  arch : Option CStr := none
  sec : Option CStr := none
  query : Option CStr := none
  /-- Match whole names, not substrings. -/
  equal : Bool := true
deriving DecidableEq

/-- `set_query_attr()`: an empty value is no value. -/
def setQueryAttr (val : CStr) : Option CStr := if val = [] then none else some val

/-- The compatibility code for old manpaths, which is used if `COMPAT_OLDURI` is defined. -/
def compatManpath (val : CStr) : CStr :=
  if "OpenBSD ".toList.isPrefixOf val then
    "OpenBSD-".toList ++
      match val.drop 8 with
      | 'C' :: val => 'c' :: val
      | val => val
  else val

/-- Handle a key-value pair. -/
def queryPair (compatOlduri : Bool) (q : Query) (key val : CStr) : Query :=
  if key = "query".toList then { q with query := setQueryAttr val }
  else if key = "apropos".toList then { q with equal := val = "0".toList }
  else if key = "manpath".toList then
    { q with manpath := setQueryAttr (if compatOlduri then compatManpath val else val) }
  else if key = "sec".toList ∨ compatOlduri ∧ key = "sektion".toList then
    { q with sec := setQueryAttr (if val = "0".toList then [] else val) }
  else if key = "arch".toList then
    { q with arch := setQueryAttr (if val = "default".toList then [] else val) }
  else q

/-- The loop of `parse_query_string()`. The first argument bounds the number of iterations. -/
def parseQueryLoop (compatOlduri : Bool) : Nat → CStr → Query → Res Query
  | 0, _, _ => .error .fuel
  | n + 1, qs, q =>
    if qs = [] then .ok q
    else
      let keysz := strcspn qs ['=', ';', '&']
      match qs.drop keysz with
      | '=' :: qs' =>
        let valsz := strcspn qs' [';', '&']
        let q :=
          match httpDecode (qs.take keysz), httpDecode (qs'.take valsz) with
          | some key, some val => queryPair compatOlduri q key val
          -- An encoding error.
          | _, _ => q
        parseQueryLoop compatOlduri n ((qs'.drop valsz).drop 1) q
      | qs' => parseQueryLoop compatOlduri n (qs'.drop 1) q

/-- `parse_query_string()` -/
def parseQueryString (compatOlduri : Bool) (qs : CStr) : Res Query :=
  parseQueryLoop compatOlduri (qs.length + 1) qs {}

/-- The part of `main()` that validates the parsed data and adds the default manpath; nothing is
    returned if the request is answered with an error page. -/
def validateQuery (conf : ManpathConf) (q : Query) : Option Query :=
  match q.manpath with
  | none => if q.arch.all validateArch then some { q with manpath := some conf.first } else none
  | some manpath =>
    if validateManpath conf manpath = false then none
    else if q.arch.all validateArch then some q else none

/-- The loop of `pg_search()` that breaks the query apart at spaces with backslash-escaping. The
    first argument is the part of the current word that has been read. -/
def searchWords : Option CStr → CStr → List CStr
  | word, [] => word.toList
  | word, c :: rp =>
    if isspace c then word.toList ++ searchWords none rp
    else if c = '\\' then
      match rp with
      | [] => [word.getD [] ++ ['\\']]
      | d :: rp => searchWords (some (word.getD [] ++ [d])) rp
    else searchWords (some (word.getD [] ++ [c])) rp

/-! ## §3 The redirection -/

/-- A section after a dot. -/
def sectionSuffix : Option CStr → (CStr → CStr) → CStr
  | none, _ => []
  | some sec, encode => '.' :: encode sec

/-- What `pg_redirect()` prints behind the name of the script. -/
def redirectTarget (conf : ManpathConf) (q : Query) (name : CStr) : CStr :=
  (if q.manpath ≠ some conf.first then q.manpath.getD [] ++ ['/'] else []) ++
    (match q.arch with
      | none => []
      | some arch => arch ++ ['/']) ++
    httpEncode name ++ sectionSuffix q.sec httpEncode

/-- `pg_redirect()` -/
def pgRedirect (scriptname : CStr) (conf : ManpathConf) (q : Query) (name : CStr) : CStr :=
  "Status: 303 See Other\r\nLocation: /".toList ++
    (if scriptname ≠ [] then scriptname ++ ['/'] else []) ++ redirectTarget conf q name ++
    "\r\nContent-Type: text/html; charset=utf-8\r\n\r\n".toList

/-! ## §4 The path -/

/-- The part of a string behind the last occurrence of a byte, or the whole string. -/
def behindLast (c : Char) (s : CStr) : CStr := (s.reverse.takeWhile (· ≠ c)).reverse

/-- The optional trailing section: the name without it, and the section. -/
def splitSection (name : CStr) : CStr × Option CStr :=
  let sec := behindLast '.' name
  if '.' ∈ name ∧ isdigit (charAt sec 0) then
    (name.take (name.length - sec.length - 1), some sec)
  else (name, none)

/-- The end of `parse_path_info()`: an optional architecture. -/
def parsePathArch (q : Query) (path : CStr) : Except String Query :=
  let arch := path.takeWhile (· ≠ '/')
  if '/' ∈ path.drop (arch.length + 1) then
    .error "You specified too many directory components."
  else if validateArch arch = false then
    .error "You specified an invalid directory component."
  else .ok { q with arch := some arch }

/-- The beginning of a directory for a section. -/
def startsSection (path : CStr) : Bool :=
  "man".toList.isPrefixOf path || "cat".toList.isPrefixOf path

/-- The middle of `parse_path_info()`: an optional section. -/
def parsePathSection (q : Query) (path : CStr) : Except String Query :=
  if startsSection path then
    let sec := (path.drop 3).takeWhile (· ≠ '/')
    let path := (path.drop 3).drop (sec.length + 1)
    if '/' ∈ path then parsePathArch { q with sec := some sec } path
    else .ok { q with sec := some sec }
  else parsePathArch q path

/-- `parse_path_info()`: the query, or the message on the error page. The pointers `name` and
    `path` are equal if there is no slash at or behind `path`. -/
def parsePathInfo (conf : ManpathConf) (path : CStr) : Except String Query :=
  let (query, sec) := splitSection (behindLast '/' path)
  let q : Query := { query := some query, sec := sec }
  if '/' ∈ path then
    let manpath := path.takeWhile (· ≠ '/')
    if validateManpath conf manpath then
      let path := path.drop (manpath.length + 1)
      let q := { q with manpath := some manpath }
      if '/' ∈ path then parsePathSection q path else .ok q
    else parsePathSection q path
  else .ok q

/-- Percent-decoding, which the web server does for the path. -/
def percentDecode : CStr → CStr
  | c :: a :: b :: p =>
    if c = '%' ∧ isxdigit a ∧ isxdigit b then hexByte a b :: percentDecode p
    else c :: percentDecode (a :: b :: p)
  | p => p

/-! ## §5 Decoding what was sent -/

theorem percentDecode_cons {c : Char} (hc : c ≠ '%') (p : CStr) :
    percentDecode (c :: p) = c :: percentDecode p := by
  match p with
  | [] => rfl
  | [a] => rfl
  | a :: b :: p => rw [percentDecode, if_neg fun h => hc h.1]

theorem percentDecode_append {s : CStr} (hs : '%' ∉ s) (p : CStr) :
    percentDecode (s ++ p) = s ++ percentDecode p := by
  induction s with
  | nil => rfl
  | cons c s ih =>
    have hc : c ≠ '%' := fun heq => hs (heq ▸ List.mem_cons_self ..)
    rw [List.cons_append, percentDecode_cons hc, ih fun h => hs (List.mem_cons_of_mem c h),
      List.cons_append]

/-- The encoding of a byte. -/
theorem percentDecode_encodeByte {c : Char} (hc : IsStringByte c) (p : CStr) :
    percentDecode (httpEncodeByte c ++ p) = c :: percentDecode p := by
  unfold httpEncodeByte
  split
  · have hne : c.toNat ≠ 0 := fun heq => hc.1 (Char.toNat_inj.mp heq)
    obtain ⟨a, b, hformat, hhex, hval⟩ := formatHex2_spec hc.2 hne
    have hbyte : hexByte a b = c := by rw [hexByte, hval, Char.ofNat_toNat]
    rw [hformat, List.cons_append, List.cons_append, List.cons_append, List.nil_append,
      percentDecode, if_pos ⟨rfl, hhex.1, hhex.2.1⟩, hbyte]
  · rename_i hplain
    have hpercent : c ≠ '%' := by
      rintro rfl
      exact hplain (by decide)
    rw [List.singleton_append, percentDecode_cons hpercent]

/-- The encoding of a string. -/
theorem percentDecode_encode {s : CStr} (hs : ∀ c ∈ s, IsStringByte c) (p : CStr) :
    percentDecode (httpEncode s ++ p) = s ++ percentDecode p := by
  induction s with
  | nil => rfl
  | cons c s ih =>
    rw [List.forall_mem_cons] at hs
    rw [httpEncode, List.flatMap_cons, List.append_assoc, percentDecode_encodeByte hs.1]
    exact congrArg (c :: ·) (ih hs.2)

theorem ManpathConf.notMem (conf : ManpathConf) {m : CStr} (h : validateManpath conf m) :
    '%' ∉ m ∧ '/' ∉ m := by
  obtain ⟨hsafe, hslash⟩ := conf.safe m (List.contains_iff_mem.mp h)
  refine ⟨fun hmem => ?_, hslash⟩
  have hbyte := List.all_eq_true.mp hsafe '%' hmem
  exact absurd hbyte (by decide)

theorem arch_notMem {a : CStr} (h : validateArch a) : '%' ∉ a ∧ '/' ∉ a := by
  have hall : (archNames.all fun a => a.all isalnum) = true := by decide +kernel
  have halnum := List.all_eq_true.mp (List.all_eq_true.mp hall a (List.contains_iff_mem.mp h))
  refine ⟨fun hmem => ?_, fun hmem => ?_⟩
  · exact absurd (halnum '%' hmem) (by decide)
  · exact absurd (halnum '/' hmem) (by decide)

/-! ## §6 Parsing the pieces -/

theorem behindLast_append {c : Char} {s : CStr} (hs : c ∉ s) (p : CStr) :
    behindLast c (p ++ c :: s) = s := by
  have htest : ∀ d ∈ s.reverse, decide (d ≠ c) = true := by
    intro d hd
    exact decide_eq_true fun heq => hs (heq ▸ List.mem_reverse.mp hd)
  rw [behindLast, List.reverse_append, List.reverse_cons, List.append_assoc,
    List.takeWhile_append_of_pos htest, List.singleton_append,
    List.takeWhile_cons_of_neg (by simp), List.append_nil, List.reverse_reverse]

theorem behindLast_of_notMem {c : Char} {s : CStr} (hs : c ∉ s) : behindLast c s = s := by
  have htest : ∀ d ∈ s.reverse, decide (d ≠ c) = true := by
    intro d hd
    exact decide_eq_true fun heq => hs (heq ▸ List.mem_reverse.mp hd)
  rw [behindLast, List.takeWhile_eq_self_iff.mpr htest, List.reverse_reverse]

theorem notMem_behindLast (c : Char) (s : CStr) : c ∉ behindLast c s := by
  intro hmem
  rw [behindLast, List.mem_reverse] at hmem
  simpa using List.mem_takeWhile_imp hmem

/-- The first directory of a path, and what is behind it. -/
theorem takeWhile_slash {m : CStr} (hm : '/' ∉ m) (p : CStr) :
    (m ++ '/' :: p).takeWhile (· ≠ '/') = m ∧ (m ++ '/' :: p).drop (m.length + 1) = p := by
  have htest : ∀ d ∈ m, decide (d ≠ '/') = true := by
    intro d hd
    exact decide_eq_true fun heq => hm (heq ▸ hd)
  constructor
  · rw [List.takeWhile_append_of_pos htest, List.takeWhile_cons_of_neg (by simp), List.append_nil]
  · rw [← List.drop_drop, List.drop_left]
    rfl

/-- The name looks as if it had a section: there is a digit behind the last dot. -/
def LooksSectioned (name : CStr) : Prop := '.' ∈ name ∧ isdigit (charAt (behindLast '.' name) 0)

/-- A name without a section. -/
theorem splitSection_plain_iff (name : CStr) :
    splitSection name = (name, none) ↔ ¬ LooksSectioned name := by
  simp only [splitSection, LooksSectioned]
  constructor
  · intro h hlooks
    rw [if_pos hlooks] at h
    cases congrArg Prod.snd h
  · intro h
    exact if_neg h

/-- A name with a section. -/
theorem splitSection_suffix_iff (name sec : CStr) :
    splitSection (name ++ '.' :: sec) = (name, some sec) ↔ isdigit (charAt sec 0) ∧ '.' ∉ sec := by
  simp only [splitSection]
  constructor
  · intro h
    split at h
    · rename_i hlooks
      have hsec : behindLast '.' (name ++ '.' :: sec) = sec := Option.some.inj (congrArg Prod.snd h)
      rw [hsec] at hlooks
      exact ⟨hlooks.2, hsec ▸ notMem_behindLast '.' _⟩
    · cases congrArg Prod.snd h
  · intro ⟨hdigit, hdot⟩
    have hlen : (name ++ '.' :: sec).length - sec.length - 1 = name.length := by
      rw [List.length_append, List.length_cons]
      omega
    simp only [behindLast_append hdot]
    rw [if_pos ⟨List.mem_append_right _ (List.mem_cons_self ..), hdigit⟩, hlen, List.take_left]

/-- The directory of an architecture begins like the name of the architecture. -/
theorem startsSection_append {arch : CStr} (harch : validateArch arch)
    (hstart : startsSection arch = false) (p : CStr) : startsSection (arch ++ p) = false := by
  have hall : (archNames.all fun a => 3 ≤ a.length) = true := by decide +kernel
  have hlen : 3 ≤ arch.length := by
    simpa using List.all_eq_true.mp hall arch (List.contains_iff_mem.mp harch)
  have hshort : ∀ pre : CStr, pre.length = 3 → pre.isPrefixOf arch = false →
      pre.isPrefixOf (arch ++ p) = false := by
    intro pre hpre hnot
    rw [Bool.eq_false_iff, ne_eq, List.isPrefixOf_iff_prefix] at hnot ⊢
    intro h
    exact hnot (List.prefix_of_prefix_length_le h (List.prefix_append arch p) (hpre ▸ hlen))
  rw [startsSection, Bool.or_eq_false_iff] at hstart ⊢
  exact ⟨hshort _ rfl hstart.1, hshort _ rfl hstart.2⟩

section

variable (conf : ManpathConf) (q : Query)

/-- A single directory that is no section is the architecture. -/
theorem parsePathSection_arch {arch last : CStr} (harch : validateArch arch)
    (hstart : startsSection arch = false) (hlast : '/' ∉ last) :
    parsePathSection q (arch ++ '/' :: last) = .ok { q with arch := some arch } := by
  obtain ⟨htake, hdrop⟩ := takeWhile_slash (arch_notMem harch).2 last
  have hstart' := startsSection_append harch hstart ('/' :: last)
  rw [parsePathSection, if_neg (by rw [hstart']; exact Bool.false_ne_true), parsePathArch]
  simp only [htake, hdrop]
  rw [if_neg hlast, if_neg (by rw [harch]; exact Bool.noConfusion)]

theorem parsePathInfo_name {last : CStr} (hlast : '/' ∉ last) :
    parsePathInfo conf last =
      .ok { query := some (splitSection last).1, sec := (splitSection last).2 } := by
  simp only [parsePathInfo]
  rw [behindLast_of_notMem hlast, if_neg hlast]

/-- The first directory is a manpath. -/
theorem parsePathInfo_manpath {m last : CStr} (hm : validateManpath conf m) (hlast : '/' ∉ last) :
    parsePathInfo conf (m ++ '/' :: last) = .ok {
      manpath := some m, query := some (splitSection last).1, sec := (splitSection last).2 } := by
  obtain ⟨htake, hdrop⟩ := takeWhile_slash (conf.notMem hm).2 last
  simp only [parsePathInfo, htake, hdrop]
  rw [behindLast_append hlast, if_pos (List.mem_append_right _ (List.mem_cons_self ..)), if_pos hm,
    if_neg hlast]

/-- The first directory is no manpath. -/
theorem parsePathInfo_arch {arch last : CStr} (harch : validateArch arch)
    (hstart : startsSection arch = false) (hno : validateManpath conf arch = false)
    (hlast : '/' ∉ last) :
    parsePathInfo conf (arch ++ '/' :: last) = .ok {
      arch := some arch, query := some (splitSection last).1, sec := (splitSection last).2 } := by
  obtain ⟨htake, -⟩ := takeWhile_slash (arch_notMem harch).2 last
  simp only [parsePathInfo, htake]
  rw [behindLast_append hlast, if_pos (List.mem_append_right _ (List.mem_cons_self ..)),
    if_neg (by rw [hno]; exact Bool.false_ne_true), parsePathSection_arch _ harch hstart hlast]

/-- A manpath and an architecture. -/
theorem parsePathInfo_both {m arch last : CStr} (hm : validateManpath conf m)
    (harch : validateArch arch) (hstart : startsSection arch = false) (hlast : '/' ∉ last) :
    parsePathInfo conf (m ++ '/' :: (arch ++ '/' :: last)) = .ok {
      manpath := some m, arch := some arch, query := some (splitSection last).1,
      sec := (splitSection last).2 } := by
  obtain ⟨htake, hdrop⟩ := takeWhile_slash (conf.notMem hm).2 (arch ++ '/' :: last)
  have hassoc : m ++ '/' :: (arch ++ '/' :: last) = (m ++ '/' :: arch) ++ '/' :: last := by
    rw [List.append_assoc, List.cons_append]
  have hname : behindLast '/' (m ++ '/' :: (arch ++ '/' :: last)) = last := by
    rw [hassoc, behindLast_append hlast]
  simp only [parsePathInfo, hname, htake, hdrop]
  rw [if_pos (List.mem_append_right _ (List.mem_cons_self ..)), if_pos hm,
    if_pos (List.mem_append_right _ (List.mem_cons_self ..)),
    parsePathSection_arch _ harch hstart hlast]

end

/-- No slash in the section. -/
def Query.PlainSec (q : Query) : Prop := ∀ sec ∈ q.sec, '/' ∉ sec

/-- The architecture does not change the section. -/
theorem plainSec_parsePathArch {q q' : Query} {path : CStr} (hq : q.PlainSec)
    (h : parsePathArch q path = .ok q') : q'.PlainSec := by
  rw [parsePathArch] at h
  split at h
  · cases h
  · split at h
    · cases h
    · obtain rfl := Except.ok.inj h
      exact hq

/-- The directory of a section ends at the next slash. -/
theorem plainSec_parsePathSection {q q' : Query} {path : CStr} (hq : q.PlainSec)
    (h : parsePathSection q path = .ok q') : q'.PlainSec := by
  have hdir : ∀ s : CStr, Query.PlainSec { q with sec := some (s.takeWhile (· ≠ '/')) } := by
    intro s sec hsec hmem
    obtain rfl := Option.some.inj hsec
    simpa using List.mem_takeWhile_imp hmem
  simp only [parsePathSection] at h
  split at h
  · split at h
    · exact plainSec_parsePathArch (hdir _) h
    · obtain rfl := Except.ok.inj h
      exact hdir _
  · exact plainSec_parsePathArch hq h

/-- A section in a path never contains a slash. -/
theorem plainSec_parsePathInfo {conf : ManpathConf} {path : CStr} {q : Query}
    (h : parsePathInfo conf path = .ok q) : q.PlainSec := by
  have hname : ∀ manpath, Query.PlainSec {
      manpath := manpath, query := some (splitSection (behindLast '/' path)).1,
      sec := (splitSection (behindLast '/' path)).2 } := by
    intro manpath sec hsec hmem
    simp only [splitSection] at hsec
    split at hsec
    · obtain rfl := Option.some.inj hsec
      apply notMem_behindLast '/' path
      rw [behindLast, List.mem_reverse] at hmem
      exact List.mem_reverse.mp ((List.takeWhile_prefix _).subset hmem)
    · cases hsec
  simp only [parsePathInfo] at h
  split at h
  · split at h
    · split at h
      · exact plainSec_parsePathSection (hname _) h
      · obtain rfl := Except.ok.inj h
        exact hname _
    · exact plainSec_parsePathSection (hname _) h
  · obtain rfl := Except.ok.inj h
    exact hname _

/-! ## §7 Accepted queries -/

/-- The attributes of a query are strings. -/
structure Query.Strings (q : Query) : Prop where
  sec : ∀ s ∈ q.sec, ∀ c ∈ s, IsStringByte c
  query : ∀ s ∈ q.query, ∀ c ∈ s, IsStringByte c

/-- Setting an attribute to a string. -/
theorem setQueryAttr_strings {val : CStr} (h : ∀ c ∈ val, IsStringByte c) :
    ∀ s ∈ setQueryAttr val, ∀ c ∈ s, IsStringByte c := by
  intro s hs
  rw [setQueryAttr] at hs
  split at hs
  · cases hs
  · exact Option.some.inj hs ▸ h

/-- Handling a key-value pair. -/
theorem strings_queryPair {compatOlduri : Bool} {q : Query} (hq : q.Strings) {key val : CStr}
    (hval : ∀ c ∈ val, IsStringByte c) : (queryPair compatOlduri q key val).Strings := by
  unfold queryPair
  split
  · exact ⟨hq.sec, setQueryAttr_strings hval⟩
  · split
    · exact ⟨hq.sec, hq.query⟩
    · split
      · exact ⟨hq.sec, hq.query⟩
      · split
        · refine ⟨setQueryAttr_strings ?_, hq.query⟩
          split
          · exact fun c hc => absurd hc List.not_mem_nil
          · exact hval
        · split
          · exact ⟨hq.sec, hq.query⟩
          · exact hq

/-- The loop ends, and the attributes are strings. -/
theorem parseQueryLoop_ok (compatOlduri : Bool) {n : Nat} {qs : CStr} {q : Query}
    (hn : qs.length < n) (hqs : ∀ c ∈ qs, IsStringByte c) (hq : q.Strings) :
    ∃ q', parseQueryLoop compatOlduri n qs q = .ok q' ∧ q'.Strings := by
  induction n generalizing qs q with
  | zero => exact absurd hn (Nat.not_lt_zero _)
  | succ n ih =>
    by_cases hnil : qs = []
    · exact ⟨q, by rw [parseQueryLoop, if_pos hnil], hq⟩
    · have hpos : 0 < n := Nat.lt_of_lt_of_le (List.length_pos_iff.mpr hnil) (Nat.le_of_lt_succ hn)
      -- The rest of the query behind the key is shorter and consists of the same bytes.
      have hdrop : (qs.drop (strcspn qs ['=', ';', '&'])).length ≤ n := by
        rw [List.length_drop]
        omega
      have hmem : ∀ c ∈ qs.drop (strcspn qs ['=', ';', '&']), IsStringByte c :=
        fun c hc => hqs c (List.mem_of_mem_drop hc)
      simp only [parseQueryLoop, if_neg hnil]
      split
      · -- A key with a value, which is decoded if possible.
        rename_i qs' heq
        rw [heq] at hdrop hmem
        have hval : ∀ c ∈ qs', IsStringByte c := fun c hc => hmem c (List.mem_cons_of_mem _ hc)
        apply ih
        · rw [List.length_drop, List.length_drop]
          rw [List.length_cons] at hdrop
          omega
        · exact fun c hc => hval c (List.mem_of_mem_drop (List.mem_of_mem_drop hc))
        · split
          · rename_i key val _ hdecode
            apply strings_queryPair hq
            exact isStringByte_httpDecode (fun c hc => hval c (List.mem_of_mem_take hc)) hdecode
          · exact hq
      · -- A key without a value is skipped.
        apply ih _ (fun c hc => hmem c (List.mem_of_mem_drop hc)) hq
        rw [List.length_drop]
        omega

/-- The words of a query consist of its bytes. -/
theorem mem_searchWords {word : Option CStr} {rp w : CStr} (hw : w ∈ searchWords word rp) {c : Char}
    (hc : c ∈ w) : c ∈ word.getD [] ∨ c ∈ rp := by
  have hword : ∀ {word : Option CStr}, w ∈ word.toList → c ∈ word.getD [] := by
    intro word hmem
    obtain rfl := Option.mem_toList.mp hmem
    exact hc
  fun_induction searchWords word rp with
  | case1 word => exact .inl (hword hw)
  | case2 word d rp _ ih =>
    rcases List.mem_append.mp hw with hold | hnew
    · exact .inl (hword hold)
    · exact .inr (List.mem_cons_of_mem _ ((ih hnew).resolve_left List.not_mem_nil))
  | case3 word _ =>
    obtain rfl := List.mem_singleton.mp hw
    exact List.mem_append.mp hc
  | case4 word _ d rp ih =>
    rcases ih hw with hnew | hrest
    · rcases List.mem_append.mp hnew with hold | hlast
      · exact .inl hold
      · exact .inr (List.mem_cons_of_mem _ (List.mem_singleton.mp hlast ▸ List.mem_cons_self ..))
    · exact .inr (List.mem_cons_of_mem _ (List.mem_cons_of_mem _ hrest))
  | case5 word d rp _ _ ih =>
    rcases ih hw with hnew | hrest
    · rcases List.mem_append.mp hnew with hold | hlast
      · exact .inl hold
      · exact .inr (List.mem_singleton.mp hlast ▸ List.mem_cons_self ..)
    · exact .inr (List.mem_cons_of_mem _ hrest)

/-- `main()` redirects the request with this query string to the page of this name. -/
structure Redirected (compatOlduri : Bool) (conf : ManpathConf) (qs : CStr) (q : Query)
    (name : CStr) : Prop where
  accepted : ∃ q₀, parseQueryString compatOlduri qs = .ok q₀ ∧ validateQuery conf q₀ = some q
  equal : q.equal
  word : searchWords none (q.query.getD []) = [name]

/-! ## §8 The round trip -/

/-- The path that was sent leads to the same query. -/
def RoundTrips (conf : ManpathConf) (q : Query) (name : CStr) : Prop :=
  ∃ q', parsePathInfo conf (percentDecode (redirectTarget conf q name)) = .ok q' ∧
    some (q'.manpath.getD conf.first) = q.manpath ∧ q'.arch = q.arch ∧ q'.sec = q.sec ∧
    q'.query = some name

/-- The name, the section and the architecture cannot be taken for something else. -/
structure Unambiguous (conf : ManpathConf) (q : Query) (name : CStr) : Prop where
  plain : q.sec = none → ¬ LooksSectioned name
  sec : ∀ sec ∈ q.sec, isdigit (charAt sec 0) ∧ '.' ∉ sec ∧ '/' ∉ sec
  arch : ∀ arch ∈ q.arch, q.manpath = some conf.first → validateManpath conf arch = false

/-- What the validation says about an accepted query. -/
theorem validateQuery_spec {conf : ManpathConf} {q₀ q : Query} (h : validateQuery conf q₀ = some q) :
    (∃ m, q.manpath = some m ∧ validateManpath conf m) ∧ (∀ arch ∈ q.arch, validateArch arch) ∧
      q.sec = q₀.sec ∧ q.query = q₀.query := by
  have harch : q₀.arch.all validateArch → ∀ arch ∈ q₀.arch, validateArch arch := by
    intro hall arch hmem
    rw [hmem] at hall
    exact hall
  rw [validateQuery] at h
  split at h
  · split at h
    · rename_i hall
      obtain rfl := Option.some.inj h
      exact ⟨⟨conf.first, rfl, List.contains_iff_mem.mpr (List.mem_cons_self ..)⟩, harch hall, rfl, rfl⟩
    · cases h
  · rename_i m hm
    split at h
    · cases h
    · rename_i hvalid
      split at h
      · rename_i hall
        obtain rfl := Option.some.inj h
        exact ⟨⟨m, hm, Bool.eq_true_of_not_eq_false hvalid⟩, harch hall, rfl, rfl⟩
      · cases h

/-- The name of the page with its section. -/
def lastComponent (q : Query) (name : CStr) : CStr := name ++ sectionSuffix q.sec id

/-- What the web server passes on. -/
theorem percentDecode_redirectTarget {conf : ManpathConf} {q : Query} {name m : CStr}
    (hm : q.manpath = some m) (hvalid : validateManpath conf m)
    (harch : ∀ arch ∈ q.arch, validateArch arch) (hname : ∀ c ∈ name, IsStringByte c)
    (hsec : ∀ sec ∈ q.sec, ∀ c ∈ sec, IsStringByte c) :
    percentDecode (redirectTarget conf q name) =
      (if m ≠ conf.first then m ++ ['/'] else []) ++
        ((match q.arch with
          | none => []
          | some arch => arch ++ ['/']) ++ lastComponent q name) := by
  -- Name and section are encoded, so decoding restores them.
  have hlast : percentDecode (httpEncode name ++ sectionSuffix q.sec httpEncode) =
      lastComponent q name := by
    rw [percentDecode_encode hname, lastComponent]
    cases hs : q.sec with
    | none => rfl
    | some sec =>
      have hencode := percentDecode_encode (hsec sec hs) []
      rw [List.append_nil] at hencode
      replace hencode := hencode.trans (List.append_nil sec)
      rw [sectionSuffix, percentDecode_cons (by decide), hencode]
      rfl
  -- Directories of the manpath and architectures are not encoded, but have nothing to decode.
  have hdir : ∀ d p : CStr, '%' ∉ d →
      percentDecode (d ++ ['/'] ++ p) = d ++ ['/'] ++ percentDecode p := by
    intro d p hd
    apply percentDecode_append
    intro hmem
    rcases List.mem_append.mp hmem with hmem | hmem
    · exact hd hmem
    · cases List.mem_singleton.mp hmem
  have harchs : percentDecode ((match q.arch with
        | none => []
        | some arch => arch ++ ['/']) ++ (httpEncode name ++ sectionSuffix q.sec httpEncode)) =
      (match q.arch with
        | none => []
        | some arch => arch ++ ['/']) ++ lastComponent q name := by
    cases ha : q.arch with
    | none => exact hlast
    | some arch =>
      rw [← hlast]
      exact hdir arch _ (arch_notMem (harch arch ha)).1
  rw [redirectTarget, hm, List.append_assoc, List.append_assoc, Option.getD_some]
  by_cases hdefault : m = conf.first
  · rw [if_neg (by simp [hdefault]), if_neg (not_not.mpr hdefault)]
    exact harchs
  · rw [if_pos (by simp [hdefault]), if_pos hdefault, hdir m _ (conf.notMem hvalid).1, harchs]

/-- The name and the section are found if they cannot be taken for something else. -/
theorem splitSection_lastComponent_iff (q : Query) (name : CStr) :
    splitSection (lastComponent q name) = (name, q.sec) ↔
      (q.sec = none → ¬ LooksSectioned name) ∧
        ∀ sec ∈ q.sec, isdigit (charAt sec 0) ∧ '.' ∉ sec := by
  rw [lastComponent]
  cases hs : q.sec with
  | none =>
    have hnone : splitSection (name ++ sectionSuffix none id) = (name, none) ↔
        ¬ LooksSectioned name := by
      rw [sectionSuffix, List.append_nil]
      exact splitSection_plain_iff name
    simpa using hnone
  | some sec =>
    have hsome : splitSection (name ++ sectionSuffix (some sec) id) = (name, some sec) ↔
        isdigit (charAt sec 0) ∧ '.' ∉ sec := splitSection_suffix_iff name sec
    simpa using hsome

/-- No slash in the last component if there is none in the name and in the section. -/
theorem slash_notMem_lastComponent {q : Query} {name : CStr} (hname : '/' ∉ name) (hq : q.PlainSec) :
    '/' ∉ lastComponent q name := by
  intro hmem
  rcases List.mem_append.mp hmem with hmem | hmem
  · exact hname hmem
  · cases hs : q.sec with
    | none =>
      rw [hs] at hmem
      cases hmem
    | some sec =>
      rw [hs] at hmem
      exact hq sec hs (List.mem_of_ne_of_mem (by decide) hmem)

/-- The round trip in terms of what is found in the path. -/
theorem roundTrips_iff_of_parse {conf : ManpathConf} {q : Query} {name path last : CStr}
    {manpath arch : Option CStr}
    (h : parsePathInfo conf path = .ok {
      manpath, arch, query := some (splitSection last).1, sec := (splitSection last).2 })
    (htarget : percentDecode (redirectTarget conf q name) = path) :
    RoundTrips conf q name ↔ some (manpath.getD conf.first) = q.manpath ∧ arch = q.arch ∧
      splitSection last = (name, q.sec) := by
  rw [RoundTrips, htarget, h]
  constructor
  · rintro ⟨q', hq', hmanpath, harch, hsec, hquery⟩
    obtain rfl := Except.ok.inj hq'
    exact ⟨hmanpath, harch, Prod.ext (Option.some.inj hquery) hsec⟩
  · rintro ⟨hmanpath, harch, hsplit⟩
    refine ⟨_, rfl, hmanpath, harch, ?_, ?_⟩
    · rw [hsplit]
    · rw [hsplit]

/-- **Round trip.** What is sent leads back to the same query exactly if nothing in it can be taken
    for something else. -/
theorem redirect_roundTrip_iff {compatOlduri : Bool} {conf : ManpathConf} {qs : CStr} {q : Query}
    {name : CStr} (hqs : ∀ c ∈ qs, IsStringByte c) (h : Redirected compatOlduri conf qs q name)
    (hslash : '/' ∉ name) (hstart : ∀ arch ∈ q.arch, startsSection arch = false) :
    RoundTrips conf q name ↔ Unambiguous conf q name := by
  obtain ⟨q₀, hparse, haccepted⟩ := h.accepted
  obtain ⟨⟨m, hm, hvalid⟩, harch, hsec₀, hquery₀⟩ := validateQuery_spec haccepted
  obtain ⟨q₁, hparse₁, hstrings⟩ := parseQueryLoop_ok compatOlduri (Nat.lt_succ_self qs.length) hqs
    (q := {}) ⟨fun s hs => (nomatch hs), fun s hs => (nomatch hs)⟩
  obtain rfl := Except.ok.inj (hparse₁.symm.trans hparse)
  have hsec := hsec₀ ▸ hstrings.sec
  have hname : ∀ c ∈ name, IsStringByte c := by
    intro c hc
    have hmem := mem_searchWords (h.word ▸ List.mem_singleton_self name) hc
    cases hq : q.query with
    | none =>
      rw [hq] at hmem
      exact absurd hmem (by simp)
    | some s =>
      rw [hq] at hmem
      exact hstrings.query s (hquery₀ ▸ hq) c (hmem.resolve_left List.not_mem_nil)
  have htarget := percentDecode_redirectTarget hm hvalid harch hname hsec
  by_cases hplain : q.PlainSec
  · have hlast := slash_notMem_lastComponent hslash hplain
    have hsplit := splitSection_lastComponent_iff q name
    have hsections : Unambiguous conf q name ↔ splitSection (lastComponent q name) = (name, q.sec) ∧
        ∀ arch ∈ q.arch, q.manpath = some conf.first → validateManpath conf arch = false := by
      rw [hsplit]
      constructor
      · intro hunamb
        refine ⟨⟨hunamb.plain, fun sec hmem => ?_⟩, hunamb.arch⟩
        obtain ⟨hdigit, hdot, -⟩ := hunamb.sec sec hmem
        exact ⟨hdigit, hdot⟩
      · rintro ⟨⟨hname, hsection⟩, hmanpath⟩
        refine ⟨hname, fun sec hmem => ?_, hmanpath⟩
        obtain ⟨hdigit, hdot⟩ := hsection sec hmem
        exact ⟨hdigit, hdot, hplain sec hmem⟩
    rw [hsections]
    cases ha : q.arch with
    | none =>
      rw [ha] at htarget
      by_cases hdefault : m = conf.first
      · rw [if_neg (not_not.mpr hdefault)] at htarget
        rw [roundTrips_iff_of_parse (parsePathInfo_name conf hlast) htarget, hm, ha]
        simp [hdefault]
      · rw [if_pos hdefault, List.append_assoc] at htarget
        rw [roundTrips_iff_of_parse (parsePathInfo_manpath conf hvalid hlast) htarget, hm, ha]
        simp
    | some arch =>
      have hvalidArch := harch arch ha
      have hstartArch := hstart arch ha
      rw [ha, List.append_assoc] at htarget
      by_cases hdefault : m = conf.first
      · rw [if_neg (not_not.mpr hdefault)] at htarget
        cases hno : validateManpath conf arch with
        | false =>
          rw [roundTrips_iff_of_parse
            (parsePathInfo_arch conf hvalidArch hstartArch hno hlast) htarget, hm, ha]
          simp [hdefault, hno]
        | true =>
          -- The architecture is taken for the manpath.
          rw [roundTrips_iff_of_parse (parsePathInfo_manpath conf hno hlast) htarget, hm, ha]
          simp [hdefault, hno]
      · rw [if_pos hdefault, List.append_assoc] at htarget
        rw [roundTrips_iff_of_parse
          (parsePathInfo_both conf hvalid hvalidArch hstartArch hlast) htarget, hm, ha]
        simp [hdefault]
  · refine iff_of_false ?_ ?_
    · rintro ⟨q', hparse', -, -, hsec', -⟩
      apply hplain
      rw [Query.PlainSec, ← hsec']
      exact plainSec_parsePathInfo hparse'
    · intro hunamb
      exact hplain fun sec hmem => (hunamb.sec sec hmem).2.2

/-- Two manpaths. -/
def sampleConf : ManpathConf where
  first := "OpenBSD-current".toList
  others := ["OpenBSD-7.0".toList]
  safe := by decide +kernel

/-- A query with everything. -/
def sampleQuery : Query where
  manpath := some "OpenBSD-7.0".toList
  arch := some "amd64".toList
  sec := some "3p".toList
  query := some "a+b%".toList

/-- A request for everything. -/
theorem redirect_roundTrip_sample :
    Redirected false sampleConf "query=a%2Bb%25&sec=3p&arch=amd64&manpath=OpenBSD-7.0".toList
      sampleQuery "a+b%".toList ∧
    RoundTrips sampleConf sampleQuery "a+b%".toList := by
  have h : Redirected false sampleConf "query=a%2Bb%25&sec=3p&arch=amd64&manpath=OpenBSD-7.0".toList
      sampleQuery "a+b%".toList := by
    refine ⟨⟨sampleQuery, ?_, ?_⟩, rfl, ?_⟩
    · decide +kernel
    · decide +kernel
    · decide +kernel
  have hiff := redirect_roundTrip_iff (by simp [IsStringByte, NUL]) h (by decide) (by
    intro arch harch
    obtain rfl := Option.some.inj harch
    decide)
  refine ⟨h, hiff.mpr ⟨fun hnone => absurd hnone (by decide), ?_, ?_⟩⟩
  · intro sec hsec
    obtain rfl := Option.some.inj hsec
    decide
  · intro arch _ hfirst
    exact absurd hfirst (by decide)

/-- The name `foo.1` without a section is taken for the name `foo` with a section. -/
theorem redirect_not_roundTrip :
    Redirected false sampleConf "query=foo.1".toList
      { manpath := some sampleConf.first, query := some "foo.1".toList } "foo.1".toList ∧
    ¬ RoundTrips sampleConf { manpath := some sampleConf.first, query := some "foo.1".toList }
      "foo.1".toList := by
  refine ⟨⟨⟨{ query := some "foo.1".toList }, ?_, ?_⟩, rfl, ?_⟩, ?_⟩
  · decide +kernel
  · decide +kernel
  · decide +kernel
  · rintro ⟨q', hq', -, -, -, hquery⟩
    have hparse : parsePathInfo sampleConf (percentDecode (redirectTarget sampleConf
        { manpath := some sampleConf.first, query := some "foo.1".toList } "foo.1".toList)) =
        .ok { query := some "foo".toList, sec := some "1".toList } := by decide +kernel
    obtain rfl := Except.ok.inj (hparse.symm.trans hq')
    exact absurd (Option.some.inj hquery) (by decide)

end Mandoc
