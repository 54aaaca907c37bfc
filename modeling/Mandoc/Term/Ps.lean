import Mandoc.Term.Word

/-!
# The PostScript and PDF Devices

Model of the output device in `term_ps.c`. It is told to print letters, to advance to the right,
and to end lines, and it prints a PostScript or PDF file. A letter is printed only when the next
one is known, because backspaces serve as font instructions and for overstriking. While the header
and the footer are formatted, the text goes to a buffer, which is printed on each page.

What these functions do to `struct termp` (the visible column and the offset of the column buffer)
is left out. The metrics of the fonts, and the coordinates, which are floating point numbers, are
parameters.
-/

namespace Mandoc

/-! ## §1 The device -/

/-- What does not change while a document is printed. -/
structure PsDevice where
  type : TermType
  /-- `fonts[f].name` -/
  fontName : TermFont → CStr
  /-- `fonts[f].gly[i].wx` -/
  wx : TermFont → Nat → Nat
  wx_pos : ∀ f i, 0 < wx f i
  /-- Font scaling factor. -/
  scale : Nat
  /-- For `DocumentMedia` and `PageSize`. -/
  medianame : CStr
  /-- Body left. The paper is at least a millimetre wide. -/
  left : Nat
  left_pos : 0 < left
  /-- Body top. -/
  top : Nat
  /-- Body bottom. -/
  bottom : Nat
  /-- Header position. -/
  header : Nat
  /-- Footer position. -/
  footer : Nat
  lineheight : Nat
  /-- The width of a page, in points. -/
  width : Nat
  /-- The height of a page, in points. -/
  height : Nat
  /-- `AFM2PNT()`, printed with `%.3f`. -/
  points : Nat → CStr

/-- `struct termp_ps`, as far as it changes. -/
structure PsState where
  /-- `PS_INLINE`: we're in a word. -/
  inline : Bool
  /-- `PS_MARGINS`: we're in the margins. -/
  margins : Bool
  /-- `PS_NEWPAGE`: new page, no words yet. -/
  newpage : Bool
  /-- `PS_BACKSP`: last character was backspace. -/
  backsp : Bool
  /-- Visible column. -/
  pscol : Nat
  /-- Used for overstrike. -/
  pscolnext : Nat
  /-- Visible row. -/
  psrow : Nat
  /-- `psrow` of the previous word. -/
  lastrow : Nat
  /-- Margin buffer. -/
  psmarg : CStr
  /-- Last non-backspace seen, unless it is NUL. -/
  last : Option Char
  /-- Last set font. -/
  lastf : TermFont
  /-- Building next font here. -/
  nextf : TermFont
  /-- Number of pages shown. -/
  pages : Nat
  /-- Current output byte. -/
  pdfbytes : Nat
  /-- Byte of last page mark. -/
  pdflastpg : Nat
  /-- Start of body object. -/
  pdfbody : Nat
  /-- Table of object offsets. -/
  pdfobjs : Nat → Nat
  /-- The standard output. -/
  out : CStr
  /-- The calls of `pdf_obj()`. -/
  objs : List Nat

/-- `pspdf_alloc()` -/
def PsState.alloc : PsState where
  inline := false
  margins := false
  newpage := false
  backsp := false
  pscol := 0
  pscolnext := 0
  psrow := 0
  lastrow := 0
  psmarg := []
  last := none
  lastf := .NONE
  nextf := .NONE
  pages := 0
  pdfbytes := 0
  pdflastpg := 0
  pdfbody := 0
  pdfobjs := fun _ => 0
  out := []
  objs := []

/-- Total characters we can handle. -/
def MAXCHAR : Nat := 95

/-- `PS_BUFSLOP` -/
def PS_BUFSLOP : Nat := 128

/-- `enum termfont`, as a number. -/
def TermFont.num : TermFont → Nat
  | .NONE => 0
  | .BOLD => 1
  | .UNDER => 2
  | .BI => 3

/-- All the fonts, up to `TERMFONT_MAX`. -/
def allFonts : List TermFont := [.NONE, .BOLD, .UNDER, .BI]

/-- `TERMFONT_MAX` -/
def TERMFONT_MAX : Nat := allFonts.length

/-- `%zu` or `%d` -/
def dec (n : Nat) : CStr := Nat.toDigits 10 n

/-! ## §2 Printing -/

/-- `ps_printf()`, with the text that results from the format. -/
def psPrintf (s : CStr) (st : PsState) : PsState :=
  if st.margins then { st with psmarg := st.psmarg ++ s.take (PS_BUFSLOP - 1) }
  else { st with out := st.out ++ s, pdfbytes := st.pdfbytes + s.length }

/-- `ps_putchar()` -/
def psPutchar (c : Char) (st : PsState) : PsState :=
  if st.margins then { st with psmarg := st.psmarg ++ [c] }
  else { st with out := st.out ++ [c], pdfbytes := st.pdfbytes + 1 }

/-- What `pdf_obj()` prints. -/
def objHeader (obj : Nat) : CStr := dec obj ++ " 0 obj\n".toList

/-- `pdf_obj()` -/
def pdfObj (obj : Nat) (st : PsState) : Res PsState :=
  if obj = 0 then .error .abort
  else
    .ok (psPrintf (objHeader obj)
      { st with
        pdfobjs := Function.update st.pdfobjs (obj - 1) st.pdfbytes
        objs := st.objs ++ [obj] })

/-- `pdf_obj()`, and what is printed behind it. -/
def pdfObject (obj : Nat) (s : CStr) (st : PsState) : Res PsState := (pdfObj obj st).map (psPrintf s)

variable (d : PsDevice)

/-- `ps_setfont()` -/
def psSetfont (f : TermFont) (st : PsState) : PsState :=
  let st := { st with lastf := f }
  -- At the top of the page, let the font-setting be delayed.
  if st.newpage then st
  else if d.type = .PS then psPrintf ("f".toList ++ dec f.num ++ "\n".toList) st
  else psPrintf ("/F".toList ++ dec f.num ++ " ".toList ++ dec d.scale ++ " Tf\n".toList) st

/-- `ps_pclose()` -/
def psPclose (st : PsState) : PsState :=
  if st.inline then
    if d.type ≠ .PS then { psPrintf ") Tj\nET\n".toList st with inline := false }
    else if st.psrow = st.lastrow then { psPrintf ")c\n".toList st with inline := false }
    else { psPrintf ")s\n".toList st with inline := false, lastrow := st.psrow }
  else st

/-- Output that we're in a new page. -/
def psPageHead (st : PsState) : Res PsState :=
  if d.type = .PS then
    .ok (psPrintf ("%%Page: ".toList ++ dec (st.pages + 1) ++ " ".toList ++ dec (st.pages + 1) ++
      "\nf".toList ++ dec st.lastf.num ++ "\n".toList) st)
  else
    pdfObject (st.pdfbody + st.pages * 4) ("<<\n/Length ".toList ++
      dec (st.pdfbody + 1 + st.pages * 4) ++ " 0 R\n>>\nstream\n".toList) st

/-- The beginning of `ps_pletter()`: open a page context. -/
def psOpenPage (st : PsState) : Res PsState :=
  if st.newpage then
    (psPageHead d st).map fun st => { st with pdflastpg := st.pdfbytes, newpage := false }
  else .ok st

/-- Open a word context at the current cursor. -/
def psOpenWord (st : PsState) : PsState :=
  if st.inline then st
  else if d.type ≠ .PS then
    { psPrintf ("BT\n/F".toList ++ dec st.lastf.num ++ " ".toList ++ dec d.scale ++ " Tf\n".toList ++
        d.points st.pscol ++ " ".toList ++ d.points st.psrow ++ " Td\n(".toList) st with
      inline := true }
  else
    { psPrintf (d.points st.pscol ++
        (if st.psrow ≠ st.lastrow then " ".toList ++ d.points st.psrow else []) ++ "(".toList) st with
      inline := true }

/-- The character that is printed: only the ones that are in the fonts. -/
def psGlyph (c : Char) : Char := if c.toNat ≤ 32 ∨ 32 + MAXCHAR ≤ c.toNat then ' ' else c

/-- Write a character, escaped if that is needed, and adjust where we are on the page. -/
def psShow (c : Char) (st : PsState) : PsState :=
  let st := if c = '(' ∨ c = ')' ∨ c = '\\' then psPutchar '\\' st else st
  let st := psPutchar (psGlyph c) st
  { st with pscol := st.pscol + d.wx st.lastf ((psGlyph c).toNat - 32) }

/-- `ps_pletter()` -/
def psPletter (c : Char) (st : PsState) : Res PsState := do
  let st ← psOpenPage d st
  let st := psOpenWord d st
  if st.newpage then .error .abort else .ok (psShow d c st)

/-! ## §3 Letters -/

/-- The index of a character in the glyph tables. -/
def glyphIndex (c : Char) : Res Nat :=
  if 32 ≤ c.toNat ∧ c.toNat < 32 + MAXCHAR then .ok (c.toNat - 32) else .error .overrun

/-- For an overstrike, if a previous character was wider, advance to center the new one. -/
def psCenter (c : Char) (st : PsState) : Res PsState :=
  if st.pscolnext = 0 then .ok st
  else
    (glyphIndex c).map fun i =>
      let wx := d.wx st.lastf i
      if st.pscol + wx < st.pscolnext then
        { st with pscol := (st.pscol + st.pscolnext - wx) / 2 }
      else st

/-- Check the font mode; open a new scope if it doesn't match. -/
def psSetNextfont (st : PsState) : PsState :=
  let st := if st.nextf ≠ st.lastf then psSetfont d st.nextf (psPclose d st) else st
  { st with nextf := .NONE }

/-- `ps_plast()` -/
def psPlast (st : PsState) : Res PsState :=
  match st.last with
  | none => .ok st
  | some c => do
    let st ← psCenter d c (psSetNextfont d st)
    let st ← psPletter d c st
    let st := { st with last := none }
    -- If a previous character was wider, advance to the end of the old one.
    if st.pscol < st.pscolnext then return { psPclose d st with pscol := st.pscolnext }
    else return st

/-- The argument of `ps_letter()`, reduced to ASCII. -/
def psChar (c : Char) : Char := if 128 ≤ c.toNat ∨ c = NUL then '?' else c

/-- The font requested by a character that is underlined. -/
def TermFont.underline : TermFont → TermFont
  | .BI | .BOLD => .BI
  | _ => .UNDER

/-- The font requested by a character that is printed twice. -/
def TermFont.embolden : TermFont → TermFont
  | .BI | .UNDER => .BI
  | _ => .BOLD

/-- The end of `ps_letter()`: print the previous character, and remember the new one. For an
    overstrike, back up to the position before it. -/
def psRemember (c : Char) (savecol : Option Nat) (st : PsState) : Res PsState := do
  let st ← psPlast d st
  let st := { st with last := some c }
  match savecol with
  | some savecol =>
    let st := { st with pscolnext := max st.pscolnext st.pscol }
    return { psPclose d st with pscol := savecol, backsp := false }
  | none => return { st with pscolnext := 0 }

/-- `ps_letter()` -/
def psLetter (arg : Char) (st : PsState) : Res PsState :=
  let c := psChar arg
  if c = BS then
    if st.last = none ∨ st.backsp then .error .abort else .ok { st with backsp := true }
  else if st.backsp then
    -- Decode font instructions.
    if st.last = some '_' then
      .ok { st with nextf := st.nextf.underline, last := some c, backsp := false }
    else if st.last = some c then .ok { st with nextf := st.nextf.embolden, backsp := false }
    else psRemember d c (some st.pscol) st
  else psRemember d c none st

/-- `ps_advance()` -/
def psAdvance (len : Nat) (st : PsState) : Res PsState := do
  let st ← psPlast d st
  let st := psPclose d st
  return { st with pscol := st.pscol + len }

/-! ## §4 Pages -/

/-- Length of content. -/
def lengthObject (len : Nat) : CStr := dec len ++ "\nendobj\n".toList

/-- Resource for content. -/
def resourceObject : CStr :=
  "<<\n/ProcSet [/PDF /Text]\n/Font <<\n".toList ++
    allFonts.flatMap (fun f => "/F".toList ++ dec f.num ++ " ".toList ++ dec (3 + f.num) ++
      " 0 R\n".toList) ++ ">>\n>>\nendobj\n".toList

/-- Page node. -/
def pageObject (base : Nat) : CStr :=
  "<<\n/Type /Page\n/Parent 2 0 R\n/Resources ".toList ++ dec (base + 2) ++
    " 0 R\n/Contents ".toList ++ dec base ++ " 0 R\n>>\nendobj\n".toList

/-- What `ps_closepage()` prints behind the page. -/
def psClosing (len base : Nat) (st : PsState) : Res PsState :=
  pdfObject (base + 1) (lengthObject len) (psPrintf "endstream\nendobj\n".toList st) >>=
    pdfObject (base + 2) resourceObject >>= pdfObject (base + 3) (pageObject base)

/-- The end of a page, behind the margins. -/
def psPageTail (st : PsState) : Res PsState :=
  if d.type = .PS then .ok (psPrintf "showpage\n".toList st)
  else psClosing (st.pdfbytes - st.pdflastpg) (st.pages * 4 + st.pdfbody) st

/-- `ps_closepage()` -/
def psClosepage (st : PsState) : Res PsState :=
  if st.psmarg = [] then .error .abort
  else do
    let st ← psPageTail d (psPrintf st.psmarg st)
    if st.newpage then .error .abort
    else .ok { st with pages := st.pages + 1, psrow := d.top, newpage := true }

/-- `ps_endline()` -/
def psEndline (st : PsState) : Res PsState := do
  let st ← psPlast d st
  let st := psPclose d st
  -- If we're in the margin, don't try to recalculate our current row.
  if st.margins then .ok st
  else
    -- Left-justify.
    let st := { st with pscol := d.left }
    -- If we haven't printed anything, return.
    if st.newpage then .ok st
    else if d.lineheight + d.bottom ≤ st.psrow then .ok { st with psrow := st.psrow - d.lineheight }
    else psClosepage d st

/-- What the device can be asked for. -/
inductive PsCall where
  | letter (c : Char)
  | advance (len : Nat)
  | endline
deriving DecidableEq, Repr

/-- One request. -/
def psCall : PsCall → PsState → Res PsState
  | .letter c, st => psLetter d c st
  | .advance len, st => psAdvance d len st
  | .endline, st => psEndline d st

/-- One request after the other. -/
def psCalls : List PsCall → PsState → Res PsState
  | [], st => .ok st
  | c :: l, st => psCall d c st >>= psCalls l

/-! ## §5 Documents -/

/-- The prologue of a PostScript file. -/
def psPrologue : CStr :=
  "%!PS-Adobe-3.0\n%%DocumentData: Clean7Bit\n%%Orientation: Portrait\n%%Pages: (atend)\n".toList ++
  "%%PageOrder: Ascend\n%%DocumentMedia: man-".toList ++ d.medianame ++ " ".toList ++ dec d.width ++
  " ".toList ++ dec d.height ++ " 0 () ()\n%%DocumentNeededResources: font".toList ++
  allFonts.flatMap (fun f => " ".toList ++ d.fontName f) ++
  "\n%%DocumentSuppliedResources: procset MandocProcs 1.0 0\n%%EndComments\n".toList ++
  "%%BeginProlog\n%%BeginResource: procset MandocProcs 10170 10170\n/fs ".toList ++ dec d.scale ++
  " def\n".toList ++
  allFonts.flatMap (fun f => "/f".toList ++ dec f.num ++ " \x7b /".toList ++ d.fontName f ++
    " fs selectfont \x7d def\n".toList) ++
  "/s \x7b 3 1 roll moveto show \x7d bind def\n".toList ++
  "/c \x7b exch currentpoint exch pop moveto show \x7d bind def\n".toList ++
  "%%EndResource\n%%EndProlog\n%%BeginSetup\n%%BeginFeature: *PageSize ".toList ++ d.medianame ++
  "\n<</PageSize [".toList ++ dec d.width ++ " ".toList ++ dec d.height ++
  "]>>setpagedevice\n%%EndFeature\n%%EndSetup\n".toList

/-- The object for a font. -/
def fontObject (f : TermFont) : CStr :=
  "<<\n/Type /Font\n/Subtype /Type1\n/Name /F".toList ++ dec f.num ++ "\n/BaseFont /".toList ++
    d.fontName f ++ "\n>>\nendobj\n".toList

/-- The objects for the fonts. -/
def pdfFonts : List TermFont → PsState → Res PsState
  | [], st => .ok st
  | f :: l, st => pdfObject (f.num + 3) (fontObject d f) st >>= pdfFonts l

/-- The first objects of a PDF file. -/
def pdfPrologue (st : PsState) : Res PsState :=
  pdfObject 1 "<<\n>>\nendobj\n".toList (psPrintf "%PDF-1.1\n".toList st) >>= pdfFonts d allFonts

/-- The first part of `ps_begin()`: print margins into the margin buffer. -/
def psMargins (head foot : List PsCall) (st : PsState) : Res PsState := do
  let st := psSetfont d .NONE
    { st with
      psmarg := [], inline := false, margins := true, newpage := false, backsp := false
      pscol := d.left, psrow := d.header, lastrow := 0 }
  let st ← psCalls d (head ++ [.endline]) st
  psCalls d (foot ++ [.endline]) { st with pscol := d.left, psrow := d.footer }

/-- The second part: what comes before the pages. -/
def psPrologues (st : PsState) : Res PsState :=
  if d.type = .PS then .ok (psPrintf (psPrologue d) st) else pdfPrologue d st

/-- `ps_begin()`, with what the header and the footer ask for. -/
def psBegin (head foot : List PsCall) (st : PsState) : Res PsState := do
  let st ← psMargins d head foot st
  let st := { st with margins := false }
  if st.inline ∨ st.newpage ∨ st.backsp ∨ st.psmarg = [] then .error .abort
  else
    let st ← psPrologues d st
    return psSetfont d .NONE
      { st with
        pdfbody := TERMFONT_MAX + 3, pscol := d.left, psrow := d.top, newpage := true }

/-- The number of the catalog. The number of pages may be 0; unsigned arithmetic wraps around and
    back. -/
def catalogObj (st : PsState) : Nat := (((st.pages : Int) - 1) * 4 + st.pdfbody + 4).toNat

/-- The object for the list of pages. -/
def pagesObject (st : PsState) : CStr :=
  "<<\n/Type /Pages\n/MediaBox [0 0 ".toList ++ dec d.width ++ " ".toList ++ dec d.height ++
  "]\n/Count ".toList ++ dec st.pages ++ "\n/Kids [".toList ++
  (List.range st.pages).flatMap (fun i => " ".toList ++ dec (i * 4 + st.pdfbody + 3) ++ " 0 R".toList) ++
  "]\n>>\nendobj\n".toList

/-- `%.10zu` -/
def dec10 (n : Nat) : CStr := (dec n).leftpad 10 '0'

/-- The cross-reference table and the trailer. -/
def pdfTrailer (st : PsState) (base xref : Nat) : CStr :=
  "xref\n0 ".toList ++ dec (base + 1) ++ "\n0000000000 65535 f \n".toList ++
  (List.range base).flatMap (fun i => dec10 (st.pdfobjs i) ++ " 00000 n \n".toList) ++
  "trailer\n<<\n/Size ".toList ++ dec (base + 1) ++ "\n/Root ".toList ++ dec base ++
  " 0 R\n/Info 1 0 R\n>>\nstartxref\n".toList ++ dec xref ++ "\n%%EOF\n".toList

/-- The catalog. -/
def catalogObject : CStr := "<<\n/Type /Catalog\n/Pages 2 0 R\n>>\nendobj\n".toList

/-- The end of `ps_end()`: what comes behind the pages. -/
def psFinish (st : PsState) : Res PsState :=
  if d.type = .PS then
    .ok (psPrintf ("%%Trailer\n%%Pages: ".toList ++ dec st.pages ++ "\n%%EOF\n".toList) st)
  else do
    let base := catalogObj st
    let st ← pdfObject 2 (pagesObject d st) st
    let st ← pdfObject base catalogObject st
    return psPrintf (pdfTrailer st base st.pdfbytes) st

/-- `ps_end()` -/
def psEnd (st : PsState) : Res PsState := do
  let st ← psPlast d st
  let st := psPclose d st
  if st.newpage then psFinish d st
  else if st.inline ∨ st.margins ∨ st.backsp ∨ st.last ≠ none then .error .abort
  else psClosepage d st >>= psFinish d

/-- A whole document. -/
def psDocument (head foot calls : List PsCall) : Res PsState :=
  psBegin d head foot .alloc >>= fun st => psCalls d calls st >>= psEnd d

end Mandoc
