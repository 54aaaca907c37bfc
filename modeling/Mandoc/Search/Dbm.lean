import Mandoc.Search.Dba
import Mandoc.Search.Manmerge

/-!
# The database in a file

`dbm_map.c`, `dbm.c`, and `dba_read.c`: mapping a database file, looking at its pages and
macros, iterating over the pages that match a criterion, and reading the whole file into memory.
An offset in the file is the raw integer found there, in the byte order of the host.
-/

namespace Mandoc

/-! ## §1 Mapping a file -/

/-- A mapped database file, after `dbm_open`. -/
structure Dbm where
  /-- The contents of the file. -/
  base : List UInt8
  /-- `max_offset`: offsets have to lie below. -/
  maxOffset : Int
  /-- The number of pages. -/
  npages : Nat
  /-- For each macro, the number of its values. -/
  nvals : List Int
  /-- For each macro, the place of its pointer pairs. -/
  macros : List Nat
deriving DecidableEq, Repr

/-- `dbm_get`: the place an offset refers to, unless it lies outside the file. -/
def dbmGet (base : List UInt8) (maxOffset : Int) (offset : Nat) : Option Ptr :=
  if toInt32 offset < 0 ∨ maxOffset ≤ toInt32 offset then none
  else some ⟨base, (toInt32 offset).toNat⟩

/-- `be32toh(*dbm_getint(i))`: one of the integers at the beginning of the file. -/
def dbmGetint (base : List UInt8) (i : Nat) : Res Nat := Ptr.uint32 ⟨base, 4 * i⟩

/-- `dbm_map`, where the file exists: the first offset that is too large, or nothing if the
    file is not a database. -/
def dbmMap (base : List UInt8) : Res (Option Int) := do
  if base.length < 5 then return none
  if INT32_MAX < base.length then return none
  let magic ← dbmGetint base 0
  if magic ≠ mandocdbMagic then return none
  let version ← dbmGetint base 1
  if version ≠ mandocdbVersion then return none
  let posEnd ← dbmGetint base 3
  let maxOffset := toInt32 (posEnd + 4)
  if (base.length : Int) ≠ maxOffset then return none
  match dbmGet base maxOffset posEnd with
  | none => return none
  | some p =>
    let magic ← p.uint32
    if magic ≠ mandocdbMagic then return none
    return some maxOffset

/-- The loop of `dbm_open` over the pointers to the macro tables: the numbers of values, and
    the places of the pointer pairs. -/
def dbmOpenMacros (base : List UInt8) (maxOffset : Int) : Nat → Ptr → Res (Option (List (Int × Nat)))
  | 0, _ => return some []
  | n + 1, mp => do
    let ep ← mp.uint32
    match dbmGet base maxOffset ep with
    | none => return none
    | some ep =>
      let nvals ← ep.uint32
      let rest ← dbmOpenMacros base maxOffset n (mp.add 4)
      return rest.map ((toInt32 nvals, (ep.add 4).off) :: ·)

/-- `dbm_open`. -/
def dbmOpen (base : List UInt8) : Res (Option Dbm) := do
  match ← dbmMap base with
  | none => return none
  | some maxOffset =>
    let npages ← dbmGetint base 4
    if toInt32 npages < 0 then return none
    let mp ← dbmGetint base 2
    match dbmGet base maxOffset mp with
    | none => return none
    | some mp =>
      let nmacros ← mp.uint32
      if nmacros ≠ macroMax then return none
      match ← dbmOpenMacros base maxOffset macroMax (mp.add 4) with
      | none => return none
      | some ms =>
        return some ⟨base, maxOffset, (toInt32 npages).toNat, ms.map Prod.fst, ms.map Prod.snd⟩

namespace Dbm

/-- `dbm_get` for this file. -/
def get (db : Dbm) (offset : Nat) : Option Ptr := dbmGet db.base db.maxOffset offset

/-- One of the five offsets in the record of a page. -/
def pageInt (db : Dbm) (ip i : Nat) : Res Nat := Ptr.uint32 ⟨db.base, 20 + 20 * ip + 4 * i⟩

/-- One of the two offsets in a pointer pair of a macro table. -/
def macroInt (db : Dbm) (im iv i : Nat) : Res Nat :=
  match db.macros[im]? with
  | none => .error .abort
  | some place => Ptr.uint32 ⟨db.base, place + 8 * iv + 4 * i⟩

end Dbm

/-! ## §2 Pages and macros -/

/-- `struct dbm_page`. -/
structure DbmPage where
  name : Ptr
  sect : Ptr
  arch : Option Ptr
  desc : Ptr
  file : Ptr

/-- A string constant of the program, with the NUL at its end. -/
def constant (s : String) : Ptr := ⟨s.toUTF8.toList ++ [0], 0⟩

/-- `dbm_page_get`. -/
def dbmPageGet (db : Dbm) (ip : Nat) : Res DbmPage := do
  if db.npages ≤ ip then .error .abort
  let name ← db.pageInt ip 0
  let sect ← db.pageInt ip 1
  let arch ← db.pageInt ip 2
  let desc ← db.pageInt ip 3
  let file ← db.pageInt ip 4
  return {
    name := (db.get name).getD (constant "(NULL)\x00")
    sect := (db.get sect).getD (constant "(NULL)\x00")
    arch := if arch = 0 then none else db.get arch
    desc := (db.get desc).getD (constant "(NULL)")
    file := (db.get file).getD (constant " (NULL)\x00") }

/-- `dbm_macro_get`: pointers to the value and to the list of pages. -/
def dbmMacroGet (db : Dbm) (im iv : Nat) : Res (Option Ptr × Option Ptr) := do
  let value ← db.macroInt im iv 0
  let pages ← db.macroInt im iv 1
  return (db.get value, db.get pages)

/-! ## §3 Reading everything -/

/-- Dereferencing a pointer that may be `NULL`. -/
def nonNull {α : Type} : Option α → Res α
  | none => .error .null
  | some a => .ok a

/-- `dba_page_add` for a list of strings. -/
def addStrings (ie : Dbp) (page : DbaPage) (strs : List Str) : Res DbaPage :=
  strs.foldlM (fun page str => dbaPageAdd page ie (some str)) page

/-- The first architecture, which `dba_page_new` gets. -/
def readFirstArch : Option Ptr → Res (Option Str)
  | none => return none
  | some cp => some <$> cp.str

/-- The loop over the other architectures. -/
def readOtherArchs (fuel : Nat) : Option Ptr → Res (List Str)
  | none => return []
  | some cp => do (← cp.skipStr).strings fuel

/-- The body of the first loop of `dba_read`: the contents of one page. -/
def dbaReadPage (db : Dbm) (ip : Nat) : Res (List DbaPage) := do
  let fuel := db.base.length + 9
  let pdata ← dbmPageGet db ip
  let arch ← readFirstArch pdata.arch
  let desc ← pdata.desc.str
  let form ← pdata.file.get
  let file ← (pdata.file.add 1).str
  let pages := dbaPageNew [] arch desc file form
  let names ← pdata.name.strings fuel
  let sects ← pdata.sect.strings fuel
  let archs ← readOtherArchs fuel pdata.arch
  let files ← (← pdata.file.skipStr).strings fuel
  pages.mapM fun page => do
    let page ← addStrings .name page names
    let page ← addStrings .sect page sects
    let page ← addStrings .arch page archs
    addStrings .file page files

/-- The integers up to the first zero, as `dba_macro_new` walks over them. -/
def integers : Nat → Ptr → Res (List Nat)
  | 0, _ => .error .fuel
  | n + 1, p => do
    let i ← p.uint32
    if i = 0 then return []
    let is ← integers n (p.add 4)
    return i :: is

/-- The page that `dba_macro_new` gets for an offset, as a number.  Offsets below the first
    page yield `NULL`. -/
def pageOfOffset (npages offset : Nat) : Nat :=
  if offset / 5 / 4 = 0 then npages else offset / 5 / 4 - 1

/-- `dba_macro_new`. -/
def dbaMacroNew (npages : Nat) (macro_ : List MacroEntry) (value : Str) (pp : List Nat) :
    List MacroEntry :=
  addToEntry value (pp.map (pageOfOffset npages)) macro_

/-- The body of the inner loop of `dba_read` over the macro values. -/
def dbaReadValue (db : Dbm) (im iv : Nat) : Res (Str × List Nat) := do
  let (value, pp) ← dbmMacroGet db im iv
  let value ← (← nonNull value).str
  let pp ← integers (db.base.length + 1) (← nonNull pp)
  return (value, pp)

/-- The inner loop of `dba_read` over the values of a macro. -/
def dbaReadMacro (db : Dbm) (im : Nat) : Res (List MacroEntry) := do
  let nvals := (db.nvals.getD im 0).toNat
  let values ← (List.range nvals).mapM (dbaReadValue db im)
  return values.foldl (fun macro_ (value, pp) => dbaMacroNew db.npages macro_ value pp) []

/-- `dba_read`. -/
def dbaRead (base : List UInt8) : Res (Option Dba) := do
  match ← dbmOpen base with
  | none => return none
  | some db =>
    let pages ← (List.range db.npages).mapM (dbaReadPage db)
    let macros ← (List.range macroMax).mapM (dbaReadMacro db)
    return some ⟨pages.flatten, macros⟩

/-! ## §4 Filtered iterations -/

/-- `struct dbm_match`: `regexec` with a compiled expression is a function of the string. -/
inductive DbmMatch where
  | exact (str : Str)
  | sub (str : Str)
  | regex (regexec : Str → Bool)

/-- `dbm_match`. -/
def dbmMatch : DbmMatch → Str → Bool
  | .exact str, s => strcmp s str = .eq
  | .sub str, s => strcasestr s str
  | .regex regexec, s => regexec s

/-- The lists that `page_bytitle` can walk over. -/
inductive Title where
  | name
  | sect
  | desc
deriving DecidableEq, Repr

/-- Which of the offsets in the record of a page belongs to a list. -/
def Title.field : Title → Nat
  | .name => 0
  | .sect => 1
  | .desc => 3

/-- `enum iter`, together with the static variables of the function that does the iteration. -/
inductive DbmIter where
  | none
  /-- `page_bytitle`. -/
  | title (kind : Title) (match_ : DbmMatch) (cp : Ptr) (ip : Nat)
  /-- `page_byarch`. -/
  | arch (match_ : DbmMatch) (ip : Nat)
  /-- `page_bymacro`; `iv` is the number of the next value, one more than in the source. -/
  | values (match_ : DbmMatch) (im : Nat) (pp cp : Option Ptr) (iv : Nat)

/-- The start of an iteration in `page_bytitle`. -/
def startTitle (db : Dbm) (kind : Title) (match_ : DbmMatch) : Res DbmIter := do
  let offset ← db.pageInt 0 kind.field
  match db.get offset with
  | none => return .none
  | some cp => return .title kind match_ cp 0

/-- `dbm_page_byname`. -/
def dbmPageByname (db : Dbm) (match_ : DbmMatch) : Res DbmIter := startTitle db .name match_

/-- `dbm_page_bysect`. -/
def dbmPageBysect (db : Dbm) (match_ : DbmMatch) : Res DbmIter := startTitle db .sect match_

/-- `dbm_page_bydesc`. -/
def dbmPageBydesc (db : Dbm) (match_ : DbmMatch) : Res DbmIter := startTitle db .desc match_

/-- `dbm_page_byarch`. -/
def dbmPageByarch (_ : Dbm) (match_ : DbmMatch) : Res DbmIter := return .arch match_ 0

/-- `dbm_page_bymacro`. -/
def dbmPageByMacro (db : Dbm) (im : Nat) (match_ : DbmMatch) : Res DbmIter := do
  if macroMax ≤ im then .error .abort
  if db.nvals.getD im 0 = 0 then return .values match_ im none none 0
  let value ← db.macroInt im 0 0
  return .values match_ im none (db.get value) 0

/-- The search loop of `page_bytitle`: where the search ends, and at which page. -/
def searchTitle (db : Dbm) (kind : Title) (match_ : DbmMatch) :
    Nat → Ptr → Nat → Res (Ptr × Nat)
  | 0, _, _ => .error .fuel
  | n + 1, cp, ip => do
    if db.npages ≤ ip then return (cp, ip)
    let cp := if kind = .name then cp.add 1 else cp
    let s ← cp.str
    if dbmMatch match_ s then return (cp, ip)
    let cp ← cp.skipStr
    if kind = .desc then searchTitle db kind match_ n cp (ip + 1)
    else
      let c ← cp.get
      if c = 0 then searchTitle db kind match_ n (cp.add 1) (ip + 1)
      else searchTitle db kind match_ n cp ip

/-- The loop of `page_bytitle` that skips the remaining strings of a page. -/
def skipTitle (kind : Title) : Nat → Ptr → Res Ptr
  | 0, _ => .error .fuel
  | n + 1, cp => do
    let cp := cp.add 1
    let c1 ← cp.before 1
    if c1 ≠ 0 then skipTitle kind n cp
    else if kind = .desc then return cp
    else
      let c2 ← cp.before 2
      if c2 ≠ 0 then skipTitle kind n cp else return cp

/-- The next result of `page_bytitle`. -/
def nextTitle (db : Dbm) (kind : Title) (match_ : DbmMatch) (cp : Ptr) (ip : Nat) :
    Res (Option DbmRes × DbmIter) := do
  let (cp, ip) ← searchTitle db kind match_ (db.base.length + 1) cp ip
  if ip = db.npages then return (none, .none)
  let bits ← (if kind = .name then cp.before 1 else pure 0)
  let res : DbmRes := ⟨ip, BitVec.ofInt 32 (charValue bits)⟩
  if ip + 1 < db.npages then
    let cp ← skipTitle kind (db.base.length + 1) cp
    return (some res, .title kind match_ cp (ip + 1))
  else return (some res, .title kind match_ cp (ip + 1))

/-- The inner loop of `page_byarch`: does one of the strings match? -/
def anyString (match_ : DbmMatch) : Nat → Ptr → Res Bool
  | 0, _ => .error .fuel
  | n + 1, cp => do
    let c ← cp.get
    if c = 0 then return false
    let s ← cp.str
    if dbmMatch match_ s then return true
    anyString match_ n (← cp.skipStr)

/-- The outer loop of `page_byarch`; the first argument is the number of pages left. -/
def nextArch (db : Dbm) (match_ : DbmMatch) : Nat → Nat → Res (Option DbmRes × DbmIter)
  | 0, _ => return (none, .none)
  | n + 1, ip => do
    let arch ← db.pageInt ip 2
    if arch = 0 then nextArch db match_ n (ip + 1)
    else
      let cp ← nonNull (db.get arch)
      if ← anyString match_ (db.base.length + 1) cp then
        return (some ⟨ip, 0⟩, .arch match_ (ip + 1))
      else nextArch db match_ n (ip + 1)

/-- The page that a pointer into a list of pages refers to: zero at the end of the list, and for
    the `NULL` pointer. -/
def pageAt : Option Ptr → Res Nat
  | none => pure 0
  | some pp => pp.uint32

/-- The search loop of `page_bymacro` and what follows it. -/
def nextMacro (db : Dbm) (match_ : DbmMatch) (im : Nat) :
    Nat → Option Ptr → Option Ptr → Nat → Res (Option DbmRes × DbmIter)
  | 0, _, _, _ => .error .fuel
  | n + 1, pp, cp, iv => do
    let page ← pageAt pp
    if page = 0 then
      if (iv : Int) = db.nvals.getD im 0 then return (none, .none)
      let cp ← nonNull cp
      let cp ← (if iv = 0 then pure cp else cp.skipStr)
      if dbmMatch match_ (← cp.str) then
        let pages ← db.macroInt im iv 1
        nextMacro db match_ im n (db.get pages) (some cp) (iv + 1)
      else nextMacro db match_ im n pp (some cp) (iv + 1)
    else
      let place ← nonNull (db.get page)
      return (some ⟨(place.off - 20) / 20, 0⟩, .values match_ im (pp.map (·.add 4)) cp iv)

/-- `dbm_page_next`. -/
def dbmPageNext (db : Dbm) : DbmIter → Res (Option DbmRes × DbmIter)
  | .none => return (none, .none)
  | .title kind match_ cp ip => nextTitle db kind match_ cp ip
  | .arch match_ ip => nextArch db match_ (db.npages - ip) ip
  | .values match_ im pp cp iv => nextMacro db match_ im (db.base.length + 1) pp cp iv

/-- Calling `dbm_page_next` until it returns `-1` yields the results in the list. -/
inductive Yields (db : Dbm) : DbmIter → List DbmRes → Prop where
  | done {it it' : DbmIter} (h : dbmPageNext db it = .ok (none, it')) : Yields db it []
  | more {it it' : DbmIter} {res : DbmRes} {rest : List DbmRes}
      (h : dbmPageNext db it = .ok (some res, it')) (hrest : Yields db it' rest) :
      Yields db it (res :: rest)

/-! ## §5 The macro values of a page -/

/-- `dbm_addr(pages + ip)`, which `dbm_page_get` stores in the field `addr`. -/
def pageAddr (ip : Nat) : Nat := 20 + 20 * ip

/-- The static variables of `macro_bypage`. -/
structure MacroIter where
  /-- The next page to look at, in the lists of pages of all values. -/
  pp : Option Ptr
  /-- The macro; `MACRO_MAX` when the iteration is over. -/
  im : Nat
  /-- The address of the page that is looked for. -/
  ip : Nat
  /-- The value whose list of pages `pp` points into. -/
  iv : Nat

/-- The search loop of `macro_bypage`: where the search ends, and at which value. -/
def searchPage (db : Dbm) (im ip : Nat) : Nat → Option Ptr → Nat → Res (Option Ptr × Nat)
  | 0, _, _ => .error .fuel
  | n + 1, pp, iv => do
    if db.nvals.getD im 0 ≤ iv then return (pp, iv)
    let page ← (← nonNull pp).uint32
    if page = ip then return (pp, iv)
    searchPage db im ip n (pp.map (·.add 4)) (if page = 0 then iv + 1 else iv)

/-- The loop of `macro_bypage` that skips the remaining pages of an entry. -/
def skipPages : Nat → Option Ptr → Res (Option Ptr)
  | 0, _ => .error .fuel
  | n + 1, pp => do
    let page ← (← nonNull pp).uint32
    let pp := pp.map (·.add 4)
    if page ≠ 0 then skipPages n pp else return pp

/-- `macro_bypage`: the string that it returns, or `NULL`. -/
def macroBypage (db : Dbm) (argIm argIp : Nat) (it : MacroIter) :
    Res (Option Ptr × MacroIter) := do
  if argIm < macroMax ∧ argIp ≠ 0 then
    -- The pages of the first value, even if the table of the macro is empty.
    let pages ← db.macroInt argIm 0 1
    return (none, ⟨db.get pages, argIm, argIp, 0⟩)
  if macroMax ≤ it.im then return (none, it)
  let (pp, iv) ← searchPage db it.im it.ip (db.base.length + 1) it.pp it.iv
  if (iv : Int) = db.nvals.getD it.im 0 then return (none, ⟨none, macroMax, 0, iv⟩)
  let pp ← (if (iv : Int) + 1 < db.nvals.getD it.im 0
    then skipPages (db.base.length + 1) pp else pure pp)
  let value ← db.macroInt it.im iv 0
  return (db.get value, ⟨pp, it.im, it.ip, iv + 1⟩)

/-- `dbm_macro_bypage`. -/
def dbmMacroBypage (db : Dbm) (im ip : Nat) (it : MacroIter) : Res MacroIter := do
  if macroMax ≤ im then .error .abort
  if ip = 0 then .error .abort
  let (_, it) ← macroBypage db im ip it
  return it

/-- `dbm_macro_next`. -/
def dbmMacroNext (db : Dbm) (it : MacroIter) : Res (Option Ptr × MacroIter) :=
  macroBypage db macroMax 0 it

/-- Calling `dbm_macro_next` until it returns `NULL` yields the strings in the list. -/
inductive MacroYields (db : Dbm) : MacroIter → List Str → Prop where
  | done {it it' : MacroIter} (h : dbmMacroNext db it = .ok (none, it')) : MacroYields db it []
  | more {it it' : MacroIter} {p : Ptr} {s : Str} {rest : List Str}
      (h : dbmMacroNext db it = .ok (some p, it')) (hstr : p.str = .ok s)
      (hrest : MacroYields db it' rest) : MacroYields db it (s :: rest)

end Mandoc
