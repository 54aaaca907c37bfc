import Mandoc.Html.Href
import Mandoc.Html.MakeId
import Mandoc.Lib.OpenScopes

/-!
# HTML Elements

The functions of `html.c` that open and close elements. The list that begins at `h->tag` is the
stack of open elements, with the innermost one first. The formatters remember elements of the
stack: a function that formats a node of the syntax tree increments the reference count of the
innermost element, and closes the elements above it when it is done with the node.

- `printOtag` writes a start tag, `printCtag` writes an end tag.
- `printTagq`, `printStagq`, `htmlCloseParagraph`, and `htmlFillmode` close several elements.
- `printTaggedText` writes text. The escape sequences for fonts open and close elements, too.

The stack is the one of `OpenScopes`, which also records the tags that were written. A pointer to an
element is the number of elements that were allocated before it. Memory is not reused.
-/

namespace Mandoc

/-! ## §1 The table of elements -/

/-- `enum htmltag` -/
inductive HtmlTag where
  | HTML | HEAD | META | LINK | STYLE | TITLE | BODY | MAIN | DIV | SECTION | NAV | TABLE | TR | TD
  | LI | UL | OL | DL | DT | DD | H2 | H3 | P | PRE | A | B | CITE | CODE | I | SMALL | SPAN | VAR
  | BR | HR | MARK | MATH | MROW | MI | MN | MO | MSUP | MSUB | MSUBSUP | MFRAC | MSQRT | MFENCED
  | MTABLE | MTR | MTD | MUNDEROVER | MUNDER | MOVER
deriving DecidableEq, Repr

/-- `struct htmldata` -/
structure HtmlData where
  name : String
  /-- Can appear in phrasing context. -/
  inphrase : Bool := false
  /-- Establishes phrasing context. -/
  tophrase : Bool := false
  /-- Does not have an end tag. -/
  nostack : Bool := false
  /-- Output line break before opening. -/
  nlbefore : Bool := false
  /-- Output line break after opening. -/
  nlbegin : Bool := false
  /-- Output line break before closing. -/
  nlend : Bool := false
  /-- Output line break after closing. -/
  nlafter : Bool := false
  /-- Indent content by two spaces. -/
  indent : Bool := false
  /-- Exception: never indent content. -/
  noindent : Bool := false
deriving DecidableEq, Repr

/-- `HTML_NLAROUND` -/
def nlaround (name : String) : HtmlData := { name, nlbefore := true, nlafter := true }

/-- `HTML_NLALL` -/
def nlall (name : String) : HtmlData :=
  { name, nlbefore := true, nlbegin := true, nlend := true, nlafter := true }

/-- `HTML_INPHRASE | HTML_TOPHRASE` -/
def phrasing (name : String) : HtmlData := { name, inphrase := true, tophrase := true }

/-- `htmltags[]` -/
def htmltags : HtmlTag → HtmlData
  | .HTML => nlall "html"
  | .HEAD => { nlall "head" with indent := true }
  | .META => { nlall "meta" with nostack := true }
  | .LINK => { nlall "link" with nostack := true }
  | .STYLE => { nlall "style" with indent := true }
  | .TITLE => nlaround "title"
  | .BODY => nlall "body"
  | .MAIN => nlall "main"
  | .DIV => nlaround "div"
  | .SECTION => nlall "section"
  | .NAV => nlall "nav"
  | .TABLE => { nlall "table" with indent := true }
  | .TR => { nlall "tr" with indent := true }
  | .TD => nlaround "td"
  | .LI => { nlaround "li" with indent := true }
  | .UL => { nlall "ul" with indent := true }
  | .OL => { nlall "ol" with indent := true }
  | .DL => { nlall "dl" with indent := true }
  | .DT => nlaround "dt"
  | .DD => { nlaround "dd" with indent := true }
  | .H2 => { nlaround "h2" with tophrase := true }
  | .H3 => { nlaround "h3" with tophrase := true }
  | .P => { nlaround "p" with tophrase := true, indent := true }
  | .PRE => { nlaround "pre" with tophrase := true, noindent := true }
  | .A => phrasing "a"
  | .B => phrasing "b"
  | .CITE => phrasing "cite"
  | .CODE => phrasing "code"
  | .I => phrasing "i"
  | .SMALL => phrasing "small"
  | .SPAN => phrasing "span"
  | .VAR => phrasing "var"
  | .BR => { nlall "br" with inphrase := true, nostack := true }
  | .HR => { name := "hr", inphrase := true, nostack := true }
  | .MARK => { name := "mark", inphrase := true }
  | .MATH => { nlall "math" with inphrase := true, indent := true }
  | .MROW => { name := "mrow" }
  | .MI => { name := "mi" }
  | .MN => { name := "mn" }
  | .MO => { name := "mo" }
  | .MSUP => { name := "msup" }
  | .MSUB => { name := "msub" }
  | .MSUBSUP => { name := "msubsup" }
  | .MFRAC => { name := "mfrac" }
  | .MSQRT => { name := "msqrt" }
  | .MFENCED => { name := "mfenced" }
  | .MTABLE => { name := "mtable" }
  | .MTR => { name := "mtr" }
  | .MTD => { name := "mtd" }
  | .MUNDEROVER => { name := "munderover" }
  | .MUNDER => { name := "munder" }
  | .MOVER => { name := "mover" }

/-! ## §2 The state of the formatter -/

/-- `struct tag` -/
abbrev OpenTag := OpenScopes.Scope HtmlTag

/-- `struct html`, apart from the output options and from the columns of the current table. -/
structure HtmlDoc where
  /-- The output. -/
  h : Html := {}
  /-- `HTML_IGNDELIM` -/
  igndelim : Bool := false
  /-- `HTML_KEEP` -/
  keep : Bool := false
  /-- `HTML_PREKEEP` -/
  prekeep : Bool := false
  /-- No line break in nofill mode. -/
  nonewline : Bool := false
  /-- The elements that begin at `tag`, and the tags that were written. -/
  scopes : OpenScopes.State HtmlTag := {}
  /-- Current open table scope. -/
  tblt : Option Nat := none
  /-- Current open font scope. -/
  metaf : Option Nat := none
  /-- Last used font. -/
  metal : Esc := .FONTROMAN
  /-- Current font mode. -/
  metac : Esc := .FONTROMAN
  /-- The table `id_unique`. -/
  ids : List IdEntry := []
deriving DecidableEq, Repr

/-- What does not change while a document is printed: the characters and the output options. -/
structure HtmlEnv where
  spec2cp : CStr → Int
  href : HrefEnv

/-- Set or clear the flag `HTML_NOSPACE`. -/
def HtmlDoc.setNospace (d : HtmlDoc) (b : Bool) : HtmlDoc :=
  { d with h := { d.h with flags := { d.h.flags with nospace := b } } }

/-! ## §3 End tags -/

/-- Write an end tag. -/
def printEndTag (h : Html) (data : HtmlData) : Html :=
  let h := if data.indent then { h with indent := h.indent - 1 } else h
  let h := if data.noindent then { h with noindent := h.noindent - 1 } else h
  let h := if data.nlend then printEndline h else h
  let h := printByte (printByte (printIndent h) '<') '/'
  let h := printByte (printWord h data.name.toList) '>'
  if data.nlafter then printEndline h else h

/-- `print_ctag()` -/
def printCtag (d : HtmlDoc) (t : OpenTag) : HtmlDoc :=
  let d := if t.closed then d
    else
      { d with
        h := printEndTag d.h (htmltags t.tag)
        metaf := if d.metaf = some t.addr then none else d.metaf
        tblt := if d.tblt = some t.addr then none else d.tblt }
  { d with scopes := d.scopes.close t }

/-- Close some elements one after another. -/
def printCtags (d : HtmlDoc) (ts : List OpenTag) : HtmlDoc := ts.foldl printCtag d

/-- `print_tagq()` -/
def printTagq (d : HtmlDoc) (last : Option Nat) : HtmlDoc :=
  printCtags d (OpenScopes.throughTag d.scopes.tags last)

/-- The elements that `print_stagq()` closes. -/
def aboveTag : List OpenTag → Option Nat → List OpenTag
  | [], _ => []
  | t :: ts, suntil =>
    if some t.addr = suntil ∨
        (ts.head?.map OpenScopes.Scope.addr = suntil ∧ (t.tag = .P ∨ t.tag = .PRE)) then []
    else t :: aboveTag ts suntil

/-- `print_stagq()`: close out all open elements up to but excluding `suntil`. Note that a
    paragraph just inside stays open together with it because paragraphs include subsequent
    phrasing content. -/
def printStagq (d : HtmlDoc) (suntil : Option Nat) : HtmlDoc :=
  printCtags d (aboveTag d.scopes.tags suntil)

/-- The elements that `html_close_paragraph()` closes. -/
def paragraphTags : List OpenTag → Res (List OpenTag)
  | [] => .error .null
  | t :: ts => do
    let data := htmltags t.tag
    let this := if data.inphrase || data.tophrase then [t] else []
    if data.inphrase then return this ++ (← paragraphTags ts) else return this

/-- `html_close_paragraph()` -/
def htmlCloseParagraph (d : HtmlDoc) : Res HtmlDoc := do
  return printCtags d (← paragraphTags d.scopes.tags)

/-! ## §4 Start tags -/

/-- The value of an attribute, and how it is printed. -/
inductive AttrValue where
  | text (s : CStr)
  /-- `I`: a link to an include file. -/
  | includes (name : CStr)
  /-- `M`: a link to a manual page. -/
  | man (name : CStr) (sec : Option CStr)
  /-- `R`: a link within the page. -/
  | fragment (s : CStr)
deriving DecidableEq, Repr

/-- An attribute. It is only printed if it has a value. -/
structure Attr where
  name : String
  value : Option AttrValue
deriving DecidableEq, Repr

/-- `c` -/
def Attr.cls (s : String) : Attr := ⟨"class", some (.text s.toList)⟩

/-- A CSS property. It is only printed if it has a value. -/
structure Style where
  name : String
  value : Option String
deriving DecidableEq, Repr

section

variable (env : HtmlEnv)

/-- Print an attribute. -/
def printAttr (h : Html) (a : Attr) : Res Html :=
  match a.value with
  | none => .ok h
  | some value => do
    let h := printByte (printByte (printWord (printByte h ' ') a.name.toList) '=') '"'
    let h ← (match value with
      | .text s => do return (← printEncode env.spec2cp h s).1
      | .includes name => printHref env.spec2cp env.href h name none false
      | .man name sec => printHref env.spec2cp env.href h name sec true
      | .fragment s => do return (← printEncode env.spec2cp (printByte h '#') s).1 : Res Html)
    return printByte h '"'

/-- Print some attributes. -/
def printAttrs (h : Html) : List Attr → Res Html
  | [] => .ok h
  | a :: attrs => do printAttrs (← printAttr env h a) attrs

/-- Print the attribute `style`, if there is at least one property with a value. -/
def printStyles (h : Html) (styles : List Style) : Html :=
  let one := fun (h : Html) (s : String × String) =>
    printByte (printWord (printByte (printByte (printWord h s.1.toList) ':') ' ') s.2.toList) ';'
  match styles.filterMap fun s => s.value.map fun v => (s.name, v) with
  | [] => h
  | first :: rest =>
    let h := one (printWord (printByte h ' ') "style=\"".toList) first
    printByte (rest.foldl (fun h s => one (printByte h ' ') s) h) '"'

/-- Separate a start tag from what was printed before. -/
def spaceBeforeTag (d : HtmlDoc) (data : HtmlData) : HtmlDoc :=
  let d := if data.nlbefore then { d with h := printEndline d.h } else d
  let d := if d.h.col = 0 then { d with h := printIndent d.h }
    else if d.h.flags.nospace = false then
      if d.keep then { d with h := printWord d.h "&#x00A0;".toList }
      else { d with keep := d.prekeep, h := printEndword d.h }
    else d
  d.setNospace d.h.flags.nonospace

/-- The main part of `print_otag()`: put the element onto the stack, and write the start tag. -/
def openTag (d : HtmlDoc) (tag : HtmlTag) (attrs : List Attr) (styles : List Style) :
    Res (HtmlDoc × Option Nat) := do
  let data := htmltags tag
  let t := if data.nostack then none else some d.scopes.next
  let d := { d with scopes := if data.nostack then d.scopes.mark tag else d.scopes.push tag }
  let d := spaceBeforeTag d data
  let h ← printAttrs env (printWord (printByte d.h '<') data.name.toList) attrs
  let h := printStyles h styles
  let h := if data.nostack then printByte h '/' else h
  let h := printByte h '>'
  let d := if data.nlbegin then { d with h := printEndline h }
    else { d with h := h }.setNospace true
  let d := if data.indent then { d with h := { d.h with indent := d.h.indent + 1 } } else d
  let d := if data.noindent then { d with h := { d.h with noindent := d.h.noindent + 1 } } else d
  return (d, t)

/-- Flow content is not allowed in phrasing context. -/
def flowAllowed (ts : List OpenTag) : Bool :=
  match ts.find? fun t => !t.closed with
  | none => true
  | some t => !(htmltags t.tag).tophrase

/-- `print_otag()` for an element that cannot appear in phrasing context. -/
def printFlowTag (d : HtmlDoc) (tag : HtmlTag) (attrs : List Attr) (styles : List Style) :
    Res (HtmlDoc × Option Nat) :=
  if flowAllowed d.scopes.tags then openTag env d tag attrs styles else .error .abort

/-- Always wrap phrasing elements and text in a paragraph unless already contained in some flow
    container; never put them directly into a section. -/
def wrapInParagraph (d : HtmlDoc) : Res HtmlDoc :=
  match d.scopes.tags with
  | [] => .error .null
  | t :: _ =>
    if t.tag = .SECTION then do return (← printFlowTag env d .P [.cls "Pp"] []).1 else .ok d

/-- `print_otag()`: the attributes and the styles stand for the format string and its arguments.
    The result includes a pointer to the element. -/
def printOtag (d : HtmlDoc) (tag : HtmlTag) (attrs : List Attr) (styles : List Style) :
    Res (HtmlDoc × Option Nat) :=
  let data := htmltags tag
  if data.inphrase = false then printFlowTag env d tag attrs styles
  else do
    let d ← (if data.tophrase then wrapInParagraph env d else .ok d : Res HtmlDoc)
    openTag env d tag attrs styles

/-- `print_otag()`, when the pointer to the element is not needed. -/
def printTag (d : HtmlDoc) (tag : HtmlTag) (attrs : List Attr) (styles : List Style) :
    Res HtmlDoc := do
  return (← printOtag env d tag attrs styles).1

/-- A permalink. -/
def permalink (href : CStr) : List Attr := [.cls "permalink", ⟨"href", some (.fragment href)⟩]

/-- `html_make_id()` with the table of the state. -/
def HtmlDoc.makeId (d : HtmlDoc) (n : SynTree) (unique : Int) : Option CStr × HtmlDoc :=
  let (id, ids) := htmlMakeId d.ids n unique
  (id, { d with ids := ids })

/-- The macros of man(7): `n->tok > MDOC_MAX`. -/
def isManTok : Tok → Bool
  | .MAN _ => true
  | _ => false

/-- The first node in a list that is not a text node. -/
def firstNonText (ns : List SynTree) : Option SynTree := ns.find? (·.root.type ≠ .TEXT)

/-- The identifier of the node, and the permalink to it. -/
def HtmlDoc.nodeIds (d : HtmlDoc) (n : SynTree) (nodeId nodeHref : Bool) :
    Option CStr × Option CStr × HtmlDoc :=
  let (id, d) := if nodeId then d.makeId n 1 else (none, d)
  let (href, d) := if nodeHref then (if id = none then d.makeId n 2 else (id, d)) else (none, d)
  (id, href, d)

/-- `print_otag_id()`: print an element with an optional `id` attribute. If the element has
    phrasing content and an `id` attribute, also add a permalink: outside if it can be in phrasing
    context, inside otherwise. The flags `NODE_ID` and `NODE_HREF` of the node are arguments. -/
def printOtagId (d : HtmlDoc) (elemtype : HtmlTag) (cattr : Option String) (n : SynTree)
    (nodeId nodeHref : Bool) : Res (HtmlDoc × Option Nat) :=
  let data := htmltags elemtype
  let (id, href, d) := d.nodeIds n nodeId nodeHref
  let attrs : List Attr := [⟨"class", cattr.map (.text ·.toList)⟩, ⟨"id", id.map .text⟩]
  match href with
  | none => printOtag env d elemtype attrs []
  | some href =>
    if data.inphrase then do
      let (d, ret) ← printOtag env d .A (permalink href) []
      return (← printTag env d elemtype attrs [], ret)
    else do
      let (d, ret) ← printOtag env d elemtype attrs []
      if n.children.isEmpty then return (d, ret)
      -- man(7) is safe, it tags phrasing content only. For mdoc(7), beware of nested blocks.
      else if isManTok n.root.tok ∨ data.tophrase ∨ (firstNonText n.children).isNone then
        return (← printTag env d .A (permalink href) [], ret)
      else return (d, ret)

/-! ## §5 Fonts -/

/-- `html_setfont()`: the result is `none` if that is not a font. -/
def htmlSetfont (d : HtmlDoc) (font : Esc) : Option HtmlDoc :=
  if font.isFont then
    let font := match font with
      | .FONTPREV => d.metal
      | .FONT => .FONTROMAN
      | font => font
    some { d with metal := d.metac, metac := font }
  else none

/-- The elements for a font, with the outer one first. -/
def fontTags : Esc → List (HtmlTag × List Attr)
  | .FONTITALIC => [(.I, [])]
  | .FONTBOLD => [(.B, [])]
  | .FONTBI => [(.B, []), (.I, [])]
  | .FONTCR => [(.SPAN, [.cls "Li"])]
  | .FONTCB => [(.SPAN, [.cls "Li"]), (.B, [])]
  | .FONTCI => [(.SPAN, [.cls "Li"]), (.I, [])]
  | _ => []

/-- Close the current font scope, if there is one. -/
def closeFont (d : HtmlDoc) : HtmlDoc :=
  match d.metaf with
  | none => d
  | some metaf => { printTagq d (some metaf) with metaf := none }

/-- `print_metaf()` -/
def printMetaf (d : HtmlDoc) : Res HtmlDoc := do
  let d := closeFont d
  match fontTags d.metac with
  | [] => return d
  | (tag, attrs) :: inner => do
    let (d, metaf) ← printOtag env d tag attrs []
    inner.foldlM (fun d t => printTag env d t.1 t.2 []) { d with metaf := metaf }

/-! ## §6 Text -/

/-- The variables of the main loop of `print_encode()`, where `e.h` is the output. -/
structure TextState where
  d : HtmlDoc
  e : EncodeState

/-- The state of the formatter. -/
def TextState.doc (st : TextState) : HtmlDoc := { st.d with h := st.e.h }

/-- Change the state of the formatter. -/
def TextState.setDoc (st : TextState) (d : HtmlDoc) : TextState :=
  { d := d, e := { st.e with h := d.h } }

section

-- The string, and the end of the part to be printed.
variable (buf : CStr) (pend : Nat)

/-- What an escape sequence does in text: in contrast to attributes, fonts are changed. -/
def textEscape (st : TextState) (r : EscResult) : Res TextState :=
  if r.rval.isFont then do
    let st : TextState := { st with e := { st.e with p := r.rend } }
    let d := st.doc.setNospace true
    let d ← (match htmlSetfont d r.rval with
      | some d => printMetaf env d
      | none => .ok d : Res HtmlDoc)
    return st.setDoc (d.setNospace false)
  else do return { st with e := ← encodeEscape env.spec2cp buf st.e r }

/-- An iteration of the main loop behind the ordinary bytes. -/
def textSpecial (st : TextState) : Res (Loop.Next TextState (HtmlDoc × Bool)) := do
  if st.e.breakline ∧ (pend ≤ st.e.p ∨ isWordEnd (charAt buf st.e.p)) then
    let st := st.setDoc (← printTag env st.doc .BR [] [])
    let n := ((slice buf st.e.p pend).takeWhile isWordEnd).length
    return .again { st with e := { st.e with p := st.e.p + n, breakline := false } }
  else if pend ≤ st.e.p then return .done (st.doc, st.e.nospace)
  else
    let c ← rd buf st.e.p
    if c = ' ' then
      return .again { st with e := { st.e with h := printEndword st.e.h, p := st.e.p + 1 } }
    else
      match printEscape st.e.h c with
      | some h => return .again { st with e := { st.e with h := h, p := st.e.p + 1 } }
      | none => return .again (← textEscape env buf st (← mandocEscape buf st.e.p))

/-- An iteration of the main loop. -/
def textStep (st : TextState) : Res (Loop.Next TextState (HtmlDoc × Bool)) := do
  if pend ≤ st.e.p then return .done (st.doc, st.e.nospace)
  else
    let c ← rd buf st.e.p
    if st.e.h.flags.skipchar ∧ c ≠ '\\' then
      return .again { st with e := { st.e.setSkip false with p := st.e.p + 1 } }
    else textSpecial env buf pend { st with e := encodeRun buf pend st.e }

end

/-- `print_encode(h, word, NULL, 0)` -/
def printEncodeText (d : HtmlDoc) (word : CStr) : Res (HtmlDoc × Bool) :=
  Loop.run (textStep env word word.length) .fuel (word.length + 1) ⟨d, { h := d.h, p := 0 }⟩

/-- Output whitespace before text. -/
def spaceBeforeText (d : HtmlDoc) : HtmlDoc :=
  if d.h.col ≠ 0 ∧ d.h.flags.nospace = false then
    if d.keep then { d with h := printWord d.h "&#x00A0;".toList }
    else { d with keep := d.prekeep, h := printEndword d.h }
  else d

/-- Set the flags for the text that follows. -/
def flagsAfterText (d : HtmlDoc) (nospace : Bool) : HtmlDoc :=
  if nospace then { d.setNospace true with nonewline := true }
  else
    let d := if d.h.flags.nonospace then d else d.setNospace false
    { d with nonewline := false }

/-- The permalink, if the text belongs to a node from which an identifier can be made. -/
def openPermalink (d : HtmlDoc) (n : Option SynTree) : Res (HtmlDoc × Option Nat) :=
  match n with
  | none => .ok (d, none)
  | some n =>
    match d.makeId n 2 with
    | (none, d) => .ok (d, none)
    | (some href, d) => printOtag env d .A (permalink href) []

/-- Close the font scope, or else the permalink. -/
def closeText (d : HtmlDoc) (t : Option Nat) : HtmlDoc :=
  match d.metaf, t with
  | some _, _ => closeFont d
  | none, some t => printTagq d (some t)
  | none, none => d

/-- `print_tagged_text()` until the text is written. The result includes the permalink. -/
def writeText (d : HtmlDoc) (word : CStr) (n : Option SynTree) : Res (HtmlDoc × Option Nat) := do
  let d := spaceBeforeText (← wrapInParagraph env d)
  if d.metaf = none then
    let d ← printMetaf env d
    let (d, t) ← openPermalink env { d with h := printIndent d.h } n
    let (d, nospace) ← printEncodeText env d word
    return (flagsAfterText d nospace, t)
  else .error .abort

/-- `print_tagged_text()` -/
def printTaggedText (d : HtmlDoc) (word : CStr) (n : Option SynTree) : Res HtmlDoc := do
  let (d, t) ← writeText env d word n
  return { closeText d t with igndelim := false }

/-- No font scope is open at the end of the text, and the permalink is not open any more: it was
    closed together with the font scope around it. Then `print_tagq()` does not find it. -/
def LinkLost (d : HtmlDoc) (t : Option Nat) : Prop :=
  d.metaf = none ∧ ∃ a ∈ t, a ∉ OpenScopes.addrs d.scopes.tags

instance (d : HtmlDoc) (t : Option Nat) : Decidable (LinkLost d t) :=
  inferInstanceAs (Decidable (_ ∧ ∃ a ∈ t, a ∉ OpenScopes.addrs d.scopes.tags))

/-- `print_text()` -/
def printText (d : HtmlDoc) (word : CStr) : Res HtmlDoc := printTaggedText env d word none

/-! ## §7 Switching the fill mode -/

/-- `ROFF_fi` and `ROFF_nf` -/
inductive FillMode where
  | fi | nf
deriving DecidableEq, Repr

/-- `html_fillmode()`: the wanted mode is `none` for `TOKEN_NONE`, which does not switch. The old
    mode is returned. -/
def htmlFillmode (d : HtmlDoc) (want : Option FillMode) : Res (HtmlDoc × FillMode) :=
  match d.scopes.tags.find? (·.tag = .PRE), want with
  | some t, some .fi => .ok (printTagq d (some t.addr), .nf)
  | some _, _ => .ok (d, .nf)
  | none, some .nf => do
    return (← printTag env (← htmlCloseParagraph d) .PRE [] [], .fi)
  | none, _ => .ok (d, .fi)

end

end Mandoc
