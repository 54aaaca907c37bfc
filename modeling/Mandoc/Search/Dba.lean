import Mandoc.Lib.BackPatch
import Mandoc.Search.Memory
import Mathlib.Data.BitVec

/-!
# The database in memory

`dba.c` and `dba_array.c`: the database as `makewhatis(8)` builds it, and the functions that
write it to a file.  Pages are numbered by their place in the pages table; a macro table lists
such numbers where the source stores pointers.  A number outside the pages table stands for
`NULL`.

The map positions that `dba_array_setpos` stores with the entries of an array are fields of the
page: `em` for its five entries, `pos` for the page itself, and `deleted` for the position `-1`
in the pages table.
-/

namespace Mandoc

open BackPatch (Write put seek tell)

/-! ## §1 Pages and macro tables -/

/-- Map positions of the five entries of a page. -/
structure PageMap where
  name : Nat
  sect : Nat
  arch : Nat
  desc : Nat
  file : Nat
deriving DecidableEq, Repr

/-- A page: an array of `DBP_MAX` entries. -/
structure DbaPage where
  /-- `DBP_NAME`: names, each with its mask byte in front. -/
  name : List Str
  /-- `DBP_SECT`. -/
  sect : List Str
  /-- `DBP_ARCH`: `NULL` for a machine-independent page. -/
  arch : Option (List Str)
  /-- `DBP_DESC`. -/
  desc : Str
  /-- `DBP_FILE`: file names, the first one with the byte for the format in front. -/
  file : List Str
  /-- Map positions of the entries. -/
  em : PageMap := ⟨0, 0, 0, 0, 0⟩
  /-- Map position of the page, zero unless it has been written. -/
  pos : Nat := 0
  /-- The page has been deleted from the pages table. -/
  deleted : Bool := false
deriving DecidableEq, Repr

/-- `struct macro_entry`: a macro value and the pages that contain it. -/
structure MacroEntry where
  value : Str
  pages : List Nat
deriving DecidableEq, Repr

/-- `struct dba`. -/
structure Dba where
  pages : List DbaPage
  /-- One hash table for each macro, keyed by the value. -/
  macros : List (List MacroEntry)
deriving DecidableEq, Repr

/-- `MACRO_MAX`: the number of macro tables. -/
def macroMax : Nat := 36

/-- `enum form`. -/
inductive Form where
  | src
  | cat
  | none
deriving DecidableEq, Repr

/-- The byte in front of the first file name. -/
def Form.byte : Form → UInt8
  | .src => 1
  | .cat => 2
  | .none => 3

/-- `prepend`: a string with one byte in front. -/
def prepend (instr : Str) (inbyte : UInt8) : Str := cstr (inbyte :: instr)

/-- `dba_new`.  The argument of the source only reserves space. -/
def dbaNew : Dba := ⟨[], List.replicate macroMax []⟩

/-- `dba_page_new`: append a page without names and sections. -/
def dbaPageNew (pages : List DbaPage) (arch : Option Str) (desc file : Str) (form : UInt8) :
    List DbaPage :=
  pages ++ [{
    name := []
    sect := []
    arch := match arch with
      | none | some [] => none
      | some arch => some [arch]
    desc := desc
    file := [prepend file form] }]

/-- The entries of a page that are arrays. -/
inductive Dbp where
  | name
  | sect
  | arch
  | file
deriving DecidableEq, Repr

/-- The part of an entry that `dba_page_add` compares: it skips the byte for the format. -/
def comparedPart (ie : Dbp) (entry : Str) : Str :=
  if ie = .file ∧ charValue (entry.headD 0) < 0x20 then entry.tail else entry

/-- The end of `dba_page_add`: append a string that is neither empty nor present. -/
def addString (ie : Dbp) (entries : List Str) (str : Str) : List Str :=
  if str = [] then entries
  else if entries.any fun entry => strcmp (comparedPart ie entry) str = .eq then entries
  else entries ++ [str]

/-- `dba_page_add`. -/
def dbaPageAdd (page : DbaPage) (ie : Dbp) (str : Option Str) : Res DbaPage :=
  match ie, str with
  | .arch, str =>
    match page.arch, str with
    | none, _ => .ok page
    | some _, none => .ok { page with arch := none }
    | some _, some [] => .ok { page with arch := none }
    | some entries, some str => .ok { page with arch := some (addString .arch entries str) }
  | _, none => .error .null
  | .name, some str => .ok { page with name := addString .name page.name str }
  | .sect, some str => .ok { page with sect := addString .sect page.sect str }
  | .file, some str => .ok { page with file := addString .file page.file str }

/-- The loop of `dba_page_alias`: add the mask to the name, or append the name. -/
def aliasName (name : Str) (maskbyte : UInt8) : List Str → List Str
  | [] => [prepend name maskbyte]
  | entry :: entries =>
    if strcmp entry.tail name = .eq then ((entry.headD 0 ||| maskbyte) :: entry.tail) :: entries
    else entry :: aliasName name maskbyte entries

/-- `NAME_MASK` applied to a name mask. -/
def maskByte (mask : BitVec 64) : UInt8 := .ofNat (mask &&& 0x1f).toNat

/-- `dba_page_alias`. -/
def dbaPageAlias (page : DbaPage) (name : Str) (mask : BitVec 64) : DbaPage :=
  if name = [] then page
  else { page with name := aliasName name (maskByte mask) page.name }

/-- `get_macro_entry`, followed by adding pages to the entry. -/
def addToEntry (value : Str) (pages : List Nat) : List MacroEntry → List MacroEntry
  | [] => [⟨value, pages⟩]
  | entry :: entries =>
    if entry.value = value then { entry with pages := entry.pages ++ pages } :: entries
    else entry :: addToEntry value pages entries

/-- `dba_macro_add`. -/
def dbaMacroAdd (macros : List (List MacroEntry)) (im : Nat) (value : Str) (page : Nat) :
    List (List MacroEntry) :=
  if value = [] then macros else macros.modify im (addToEntry value [page])

/-- `dba_array_del` on the pages table, for the current page `ip`. -/
def dbaPageDel (pages : List DbaPage) (ip : Nat) : List DbaPage :=
  pages.modify ip fun page => { page with deleted := true }

/-! ## §2 Sorting -/

/-- `compare_names`: by the mask byte, descending, then by the name. -/
def compareNames (s t : Str) : Ordering :=
  compareLex (fun s t : Str => compare (charValue (t.headD 0)) (charValue (s.headD 0)))
    (compareLex (fun s t => strcasecmp s.tail t.tail) (fun s t => strcmp s.tail t.tail)) s t

/-- `compare_strings`. -/
def compareStrings (s t : Str) : Ordering := strcmp s t

/-- `compare_entries`. -/
def compareEntries (e f : MacroEntry) : Ordering := strcmp e.value f.value

instance : Std.TransCmp compareNames :=
  have := transCmp_comap (fun a b : Int => compare b a) fun s : Str => charValue (s.headD 0)
  have := transCmp_comap strcasecmp (List.tail (α := UInt8))
  have := transCmp_comap strcmp (List.tail (α := UInt8))
  inferInstanceAs (Std.TransCmp (compareLex _ (compareLex _ _)))

instance : Std.TransCmp compareStrings := inferInstanceAs (Std.TransCmp strcmp)

instance : Std.TransCmp compareEntries := transCmp_comap strcmp MacroEntry.value

/-! ## §3 Writing -/

/-- Functions that write to `ofp`.  `err()` ends the program: `Fault.abort`. -/
abbrev DbaWrite := Write Fault UInt8

/-- `dba_tell`: offsets have to fit into `int32_t`. -/
def dbaTell : DbaWrite Nat := tell INT32_MAX .abort id

/-- `dba_align`. -/
def dbaAlign : DbaWrite Nat := do
  let pos ← dbaTell
  put (List.replicate ((4 - pos % 4) % 4) 0)
  return pos + (4 - pos % 4) % 4

/-- `dba_skip`: fill space with NUL bytes. -/
def dbaSkip (nmemb sz : Nat) : DbaWrite Nat := do
  let pos ← dbaTell
  put (List.replicate (sz * (4 * nmemb)) 0)
  return pos

/-- `dba_char_write`. -/
def dbaCharWrite (c : UInt8) : DbaWrite Unit := put [c]

/-- `dba_str_write`. -/
def dbaStrWrite (str : Str) : DbaWrite Unit := put (strBytes str)

/-- `dba_int_write`. -/
def dbaIntWrite (i : Nat) : DbaWrite Unit := put (be32 i)

/-- `dba_array_FOREACH` on the pages table: deleted pages are skipped. -/
def forPages (pages : List DbaPage) (f : DbaPage → DbaWrite DbaPage) :
    DbaWrite (List DbaPage) :=
  pages.mapM fun page => if page.deleted then pure page else f page

/-- `dba_array_writelen`: the number of entries, and space for `nmemb` integers for each. -/
def dbaArrayWritelen (entries nmemb : Nat) : DbaWrite Nat := do
  dbaIntWrite entries
  dbaSkip nmemb entries

/-- `dba_array_writelst`. -/
def dbaArrayWritelst (entries : List Str) : DbaWrite Unit := do
  entries.forM dbaStrWrite
  dbaCharWrite 0

/-- `dba_array_writepos` on a page. -/
def dbaPageWritepos (page : DbaPage) : DbaWrite DbaPage := do
  let pos ← dbaTell
  dbaIntWrite page.em.name
  dbaIntWrite page.em.sect
  dbaIntWrite page.em.arch
  dbaIntWrite page.em.desc
  dbaIntWrite page.em.file
  return { page with pos := pos }

/-- The first loop of `dba_pages_write`: the names of a page. -/
def writeNames (page : DbaPage) : DbaWrite DbaPage := do
  let pos ← dbaTell
  let entry := sortBy compareNames page.name
  dbaArrayWritelst entry
  return { page with name := entry, em.name := pos }

/-- The second loop: the sections of a page. -/
def writeSects (page : DbaPage) : DbaWrite DbaPage := do
  let pos ← dbaTell
  let entry := sortBy compareStrings page.sect
  dbaArrayWritelst entry
  return { page with sect := entry, em.sect := pos }

/-- The third loop: the architectures of a page, if it has any. -/
def writeArchs (page : DbaPage) : DbaWrite DbaPage :=
  match page.arch with
  | some entry => do
    let pos ← dbaTell
    let entry := sortBy compareStrings entry
    dbaArrayWritelst entry
    return { page with arch := some entry, em.arch := pos }
  | none => return { page with em.arch := 0 }

/-- The fourth loop: the description of a page. -/
def writeDesc (page : DbaPage) : DbaWrite DbaPage := do
  let pos ← dbaTell
  dbaStrWrite page.desc
  return { page with em.desc := pos }

/-- The fifth loop: the file names of a page. -/
def writeFiles (page : DbaPage) : DbaWrite DbaPage := do
  let pos ← dbaTell
  dbaArrayWritelst page.file
  return { page with em.file := pos }

/-- `dba_pages_write`. -/
def dbaPagesWrite (pages : List DbaPage) : DbaWrite (List DbaPage) := do
  let posPages ← dbaArrayWritelen (pages.countP fun page => !page.deleted) 5
  let pages ← forPages pages writeNames
  let pages ← forPages pages writeSects
  let pages ← forPages pages writeArchs
  let pages ← forPages pages writeDesc
  let pages ← forPages pages writeFiles
  let posEnd ← dbaAlign
  seek posPages
  let pages ← forPages pages dbaPageWritepos
  seek posEnd
  return pages

/-- `dba_array_getpos` of the pages of a macro entry.  The walk over the entry stops at the
    first `NULL` pointer. -/
def pagePositions (pages : List DbaPage) (entry : MacroEntry) : List Nat :=
  (entry.pages.takeWhile (· < pages.length)).map fun ip => (pages[ip]?.map DbaPage.pos).getD 0

/-- `dba_macro_write`. -/
def dbaMacroWrite (pages : List DbaPage) (macro_ : List MacroEntry) : DbaWrite Unit := do
  let entries := macro_.filter fun entry => (pagePositions pages entry).any (· ≠ 0)
  let entries := sortBy compareEntries entries
  let ne := entries.length
  dbaIntWrite ne
  let posMacro ← dbaSkip 2 ne
  let kpos ← entries.mapM fun entry => do
    let pos ← dbaTell
    dbaStrWrite entry.value
    return pos
  let _ ← dbaAlign
  let dpos ← entries.mapM fun entry => do
    let pos ← dbaTell
    ((pagePositions pages entry).filter (· ≠ 0)).forM dbaIntWrite
    dbaIntWrite 0
    return pos
  let posEnd ← dbaTell
  seek posMacro
  (kpos.zip dpos).forM fun (kp, dp) => do
    dbaIntWrite kp
    dbaIntWrite dp
  seek posEnd

/-- `dba_macros_write`. -/
def dbaMacrosWrite (pages : List DbaPage) (macros : List (List MacroEntry)) :
    DbaWrite Unit := do
  let posMacros ← dbaArrayWritelen macros.length 1
  let em ← macros.mapM fun macro_ => do
    let pos ← dbaTell
    dbaMacroWrite pages macro_
    return pos
  let posEnd ← dbaTell
  seek posMacros
  let _ ← dbaTell
  em.forM dbaIntWrite
  seek posEnd

/-- `MANDOCDB_MAGIC`. -/
def mandocdbMagic : Nat := 0x3a7d0cdb

/-- `MANDOCDB_VERSION`. -/
def mandocdbVersion : Nat := 1

/-- The body of `dba_write`, between opening and closing the file. -/
def dbaWriteBody (dba : Dba) : DbaWrite Dba := do
  dbaIntWrite mandocdbMagic
  dbaIntWrite mandocdbVersion
  let posMacrosPtr ← dbaSkip 1 2
  let pages ← dbaPagesWrite dba.pages
  let posMacros ← dbaTell
  dbaMacrosWrite pages dba.macros
  let posEnd ← dbaTell
  dbaIntWrite mandocdbMagic
  seek posMacrosPtr
  dbaIntWrite posMacros
  dbaIntWrite posEnd
  return { dba with pages := pages }

/-- `dba_write`: the file written, and the database, whose lists have been sorted. -/
def dbaWrite (dba : Dba) : Res (List UInt8 × Dba) := do
  let (dba, ofp) ← (dbaWriteBody dba).run ⟨[], 0⟩
  return (ofp.data, dba)

end Mandoc
