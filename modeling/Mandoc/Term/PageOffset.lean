import Mandoc.Man.Margins
import Mandoc.Mdoc.ListIndent

/-!
# Page Offsets

Model of the request `po` in `roff_term.c`. The page offset in use is contained in the offset of
the current column, and `roff_term_pre_po()` subtracts it before it applies the new one. In the
meantime, the formatters set, change, save, and restore the offset of the column. They also set
the right margin, and a line break in a hanging head makes it the offset of the next line. The
request `ti` and motions to the left change the offset until the end of the line.

The formatters are modelled by the sequence of steps that affect the offset or the right margin.
These are carried out twice, the second time without any page offset.

- `runSteps_contained` says that the page offset remains contained in the offset as long as all
  steps respect it.
- `document_po_right` is the consequence for the requests in a document.
- `sectionPo_not_right` is a document where the steps do not respect it. `hangingPo_not_right` and
  `linePo_not_right` are others, with a line break and with a temporary indentation.
-/

namespace Mandoc

open Wrapping

/-! ## §1 The request -/

/-- What a terminal makes of page offsets, in basic units. -/
structure PoTerm where
  /-- `a2roffsu(s, &su, SCALE_EM)`, and `term_hspan(p, &su)` if that succeeds. -/
  hspan : CStr → Option Int
  hspan_int : ∀ s, ∀ x ∈ hspan s, -2 ^ 31 ≤ x ∧ x < 2 ^ 31
  /-- `term_len(p, 60)` -/
  len60 : Nat
  len60_int : len60 < 2 ^ 31

/-- A request in a run, with the offset before and after it. -/
structure PoCall where
  before : Nat
  /-- The page offset in use before the request. -/
  pouse : Int
  /-- The page offset that is requested. -/
  request : Int
  after : Nat
deriving DecidableEq

/-- The margins of the current column, the static variables of `roff_term_pre_po()`, and a record
    of the requests. -/
structure PoState where
  /-- `p->tcol->offset` -/
  offset : Nat
  /-- `p->tcol->rmargin` -/
  rmargin : Nat
  /-- `p->maxrmargin` -/
  maxrmargin : Nat
  /-- The flag `TERMP_BRIND`. -/
  brind : Bool
  /-- `p->ti`, the temporary indentation that is contained in the offset. -/
  ti : Int
  /-- The page offset that is contained in the right margin, if it is known. It is only recorded. -/
  inMargin : Option Int
  /-- The part of the page offset that the temporary indentation takes back. It is only recorded. -/
  inTi : Int
  /-- Previously requested. -/
  polast : Int
  /-- Currently requested. -/
  po : Int
  /-- Currently used. -/
  pouse : Int
  calls : List PoCall

/-- The page offset that is contained in the offset. -/
def PoState.inOffset (st : PoState) : Int := st.pouse - st.inTi

/-- The argument of the request is relative to the current page offset. -/
def poRelative (s : CStr) : Bool := charAt s 0 = '+' || charAt s 0 = '-'

/-- The requested page offset. -/
def poRequest (p : PoTerm) (arg : Option CStr) (polast po : Int) : Int :=
  match arg with
  | none => polast
  | some s =>
    match p.hspan s with
    | none => polast
    | some x => if poRelative s then x + po else x

/-- `roff_term_pre_po()` -/
def roffTermPrePo (p : PoTerm) (arg : Option CStr) (st : PoState) : PoState :=
  -- Revert the currently active page offset.
  let offset := toSize (st.offset - st.pouse)
  let ponew := toInt (poRequest p arg st.polast st.po)
  -- Truncate to the range [-offset, 60], remember, and apply it.
  let pomin := toInt (-offset)
  let pomax : Int := p.len60
  let pouse := if ponew > pomax then pomax else if ponew < pomin then pomin else ponew
  let after := (toSize (offset + pouse)).toNat
  { st with
    offset := after
    polast := st.po
    po := ponew
    pouse := pouse
    calls := st.calls ++ [⟨st.offset, st.pouse, poRequest p arg st.polast st.po, after⟩] }

/-- The request is ignored, but recorded. -/
def skipPo (st : PoState) : PoState :=
  { st with calls := st.calls ++ [⟨st.offset, st.pouse, 0, st.offset⟩] }

/-! ## §2 Steps of the formatters -/

/-- The ways in which a handler changes the offset. -/
inductive OffsetOp where
  /-- A value that does not depend on the offset. -/
  | set (n : Nat)
  /-- `p->tcol->offset += n` -/
  | add (n : Nat)
  /-- The argument `-offset` of a display. -/
  | display (x : Int)
  /-- A head or a body of an item. -/
  | item {p : MdocTerm} (bl : BlNorm p) (part : ItPart)
  /-- The request `in` with a sign, and what replaces an offset that is too large. -/
  | indent (less : Bool) (v : Nat) (default : Nat)

/-- `termp_it_pre()`: the offset. It does not depend on the right margin. -/
def itOffset {p : MdocTerm} (bl : BlNorm p) (part : ItPart) (offset : Nat) : Nat :=
  match termpItPre .machine bl part ⟨offset, 0, 0⟩ with
  | .ok m => (m.indent.getD m.start).toNat
  | .error _ => offset

/-- `pre_in()`, for an argument with a sign. -/
def preIn (less : Bool) (v default offset : Nat) : Nat :=
  let offset := if less then offset - min offset v else (toSize (offset + v)).toNat
  if offset > SHRT_MAX_width then default else offset

/-- `termp_bd_pre()`, for an argument that is neither `left` nor one of the other keywords. -/
def bdOffset (x : Int) (offset : Nat) : Nat :=
  if x < 0 ∧ -x > offset then 0
  else if x < SHRT_MAX_width then (toSize (offset + x)).toNat
  else offset

/-- The offset set by a handler. -/
def OffsetOp.apply : OffsetOp → Nat → Nat
  | .set n, _ => n
  | .add n, offset => (toSize (offset + n)).toNat
  | .display x, offset => bdOffset x offset
  | .item bl part, offset => itOffset bl part offset
  | .indent less v default, offset => preIn less v default offset

/-- The ways in which a handler sets the right margin. -/
inductive MarginOp where
  /-- A value that does not depend on the offset. -/
  | set (n : Nat)
  /-- `p->tcol->rmargin = p->maxrmargin` -/
  | max
  /-- `p->tcol->rmargin = p->tcol->offset + n` -/
  | behind (n : Nat)
  /-- A head or a body of an item. -/
  | item {p : MdocTerm} (bl : BlNorm p) (part : ItPart)
  /-- `p->setwidth()`, and the maximal right margin behind it. -/
  | width (n : Nat)

/-- `termp_it_pre()`: the right margin. -/
def itRmargin {p : MdocTerm} (bl : BlNorm p) (part : ItPart) (tcol : Tcol) : Nat :=
  match termpItPre .machine bl part tcol with
  | .ok m => (tcol.assign m).rmargin
  | .error _ => tcol.rmargin

/-- The right margin set by a handler. -/
def MarginOp.apply : MarginOp → PoState → PoState
  | .set n, st => { st with rmargin := n, inMargin := some 0 }
  | .max, st => { st with rmargin := st.maxrmargin, inMargin := some 0 }
  | .behind n, st =>
    { st with rmargin := (toSize (st.offset + n)).toNat, inMargin := some st.inOffset }
  | .width n, st => { st with rmargin := n, maxrmargin := n, inMargin := some 0 }
  | .item bl part, st =>
    { st with
      rmargin := itRmargin bl part ⟨st.offset, st.rmargin, st.maxrmargin⟩
      inMargin :=
        match bl.type.indents, part with
        | true, .head => some st.inOffset
        | true, .body _ _ => st.inMargin
        -- The right margin of a cell may be that of the column or that of the page.
        | false, _ => if bl.type = .column then none else st.inMargin }

/-- The places where the right margin becomes the offset. -/
inductive MarginBreak where
  /-- `roff_term_pre_br()` -/
  | br
  /-- `pre_literal()` in the body of a `HP` -/
  | literal
  /-- `print_man_node()`, behind the first node in the body of a `HP` in no-fill mode -/
  | hang

/-- Whether it does so. -/
def MarginBreak.applies (k : MarginBreak) (rmargin maxrmargin : Int) (brind : Bool) : Bool :=
  match k with
  | .br => brind
  | .literal => rmargin < maxrmargin
  | .hang => true

/-- The line ends, and the next one begins at the right margin. -/
def breakLine (k : MarginBreak) (st : PoState) : PoState :=
  if k.applies st.rmargin st.maxrmargin st.brind then
    { st with
      offset := st.rmargin
      rmargin := st.maxrmargin
      brind := match k with
        | .hang => st.brind
        | _ => false
      inMargin := some 0 }
  else st

/-- What begins or ends a temporary indentation. -/
inductive TempIndent where
  /-- `roff_term_pre_ti()`, with the sign of the argument, its value, and the maximum. -/
  | ti (less : Option Bool) (len : Int) (maxoff : Nat)
  /-- `term_word()`: the part of a motion to the left that is not covered by the line. -/
  | motion (n : Nat)
  /-- `ascii_endline()` and, at the end of a page, `ps_endline()` -/
  | endline

/-- `roff_term_pre_ti()`: the temporary indentation at some offset. -/
def preTi (less : Option Bool) (len : Int) (maxoff offset : Nat) : Int :=
  match less with
  | some false =>
    if toSize (offset + len) ≤ maxoff then len
    else if offset < maxoff then toInt (maxoff - offset)
    else 0
  | some true => if toSize len < offset then -len else toInt (-offset)
  | none => toInt ((if toSize len > maxoff then (maxoff : Int) else len) - offset)

/-- `term_word()`: a motion to the left stops at the left edge. -/
def motionBy (n offset : Nat) : Int := if offset > n then -(n : Int) else -(offset : Int)

/-- The temporary indentation moves the offset. Without the page offset, it may be another one. -/
def TempIndent.apply : TempIndent → PoState → PoState
  | .ti less len maxoff, st =>
    let ti := preTi less len maxoff st.offset
    { st with
      offset := (toSize (st.offset + ti)).toNat
      ti := ti
      inTi := preTi less len maxoff (st.offset - st.inOffset).toNat - ti }
  | .motion n, st =>
    let bu := motionBy n st.offset
    { st with
      offset := (toSize (st.offset + bu)).toNat
      ti := toInt (st.ti + bu)
      inTi := st.inTi + motionBy n (st.offset - st.inOffset).toNat - bu }
  | .endline, st =>
    { st with
      offset := if toInt st.offset > st.ti then (toSize (st.offset - st.ti)).toNat else 0
      ti := 0
      inTi := 0 }

/-- A step of a formatter. -/
inductive OffsetStep where
  | po (arg : Option CStr)
  | handler (op : OffsetOp)
  | temp (k : TempIndent)
  | margin (op : MarginOp)
  /-- Set or clear the flag `TERMP_BRIND`. -/
  | brind (flag : Bool)
  | breakLine (k : MarginBreak)
  /-- The offset and the right margin are saved before and restored after these steps. -/
  | scope (body : List OffsetStep)

mutual

/-- A step, where `pre` handles the request. -/
def runStep (pre : Option CStr → PoState → PoState) : OffsetStep → PoState → PoState
  | .po arg, st => pre arg st
  | .handler op, st => { st with offset := op.apply st.offset }
  | .temp k, st => k.apply st
  | .margin op, st => op.apply st
  | .brind flag, st => { st with brind := flag }
  | .breakLine k, st => Mandoc.breakLine k st
  | .scope body, st =>
    { runSteps pre body st with
      offset := st.offset, rmargin := st.rmargin, inMargin := st.inMargin }

/-- One step after the other. -/
def runSteps (pre : Option CStr → PoState → PoState) : List OffsetStep → PoState → PoState
  | [], st => st
  | s :: l, st => runSteps pre l (runStep pre s st)

end

/-- `p->tcol->offset = n` -/
def setStep (n : Nat) : OffsetStep := .handler (.set n)

/-- `p->tcol->offset += n` -/
def addStep (n : Nat) : OffsetStep := .handler (.add n)

/-- `p->tcol->rmargin = n` -/
def marginStep (n : Nat) : OffsetStep := .margin (.set n)

/-- `p->tcol->rmargin = p->maxrmargin` -/
def maxStep : OffsetStep := .margin .max

/-! ## §3 Formatting mdoc(7) -/

/-- Nodes with handlers that set the offset or the right margin. -/
inductive MdocHandler (p : MdocTerm) where
  | ShBody
  | SsHead
  | SsBody
  /-- `D1` or `Dl` -/
  | D1Block
  /-- `Bd` with the argument of `-offset`. -/
  | BdBody (offs : Option CStr)
  /-- `Nm` before a body that is not empty, with the width of what is printed. -/
  | NmHead (width : Nat)
  /-- `Nm` with the name that is printed before the body. -/
  | NmBody (cp : Option CStr)
  | It (bl : BlNorm p) (part : ItPart)
  /-- `Fn` with children, in a synopsis. -/
  | Fn
  /-- `Fo` in a synopsis. -/
  | FoBody
  /-- Any other node. -/
  | other

/-- Nodes of a mdoc(7) syntax tree. -/
inductive MdocPoNode (p : MdocTerm) where
  | po (arg : Option CStr)
  /-- `ti` with a sign or without one, and with its value. -/
  | ti (less : Option Bool) (len : Int)
  /-- An escape sequence that moves the beginning of a line to the left. -/
  | motion (n : Nat)
  /-- The end of an output line. -/
  | endline
  /-- `br`, and the requests that begin with a line break: `ce`, `fi`, `nf`, `rj`, `sp`, and a `ti`
      without a value. Children of `ce` and `rj` come behind it. -/
  | br
  /-- `ll`, and the maximal right margin that it leads to. -/
  | ll (n : Nat)
  | node (handler : MdocHandler p) (child : List (MdocPoNode p))

/-- `termp_bd_pre()` -/
def termpBdPre (p : MdocTerm) (offs : Option CStr) : List OffsetStep :=
  match offs with
  | none => []
  | some offs =>
    if offs = "left".toList then []
    else if offs = "indent".toList then [addStep (p.len (p.defindent + 1))]
    else if offs = "indent-two".toList then [addStep (p.len ((p.defindent + 1) * 2))]
    else [.handler (.display (a2width p offs))]

/-- The lists in which a line break in a head begins the body. -/
def MdocList.brind : MdocList → Bool
  | .hang | .tag | .diag => true
  | _ => false

/-- `termp_it_pre()` -/
def termpItSteps {p : MdocTerm} (bl : BlNorm p) (part : ItPart) : List OffsetStep :=
  let flags : List OffsetStep :=
    match part with
    | .head => if bl.type.brind then [.brind true] else []
    | .body _ _ => []
  flags ++ [.margin (.item bl part), .handler (.item bl part)]

/-- `termp_fn_pre()` and `termp_fo_pre()`, in a synopsis. The right margin is saved and restored. -/
def termpFnSteps (p : MdocTerm) : List OffsetStep := [addStep (p.len 4), .brind false]

/-- The handlers that come before the children, from `termp_sh_pre()` to `termp_fo_pre()`. -/
def MdocHandler.pre {p : MdocTerm} : MdocHandler p → List OffsetStep
  | .ShBody => [setStep (p.len p.defindent)]
  | .SsHead => [setStep (p.len p.defindent / 2 + 1)]
  | .SsBody => [setStep (p.len p.defindent)]
  | .D1Block => [addStep (p.len (p.defindent + 1))]
  | .BdBody offs => termpBdPre p offs
  | .NmHead width => [.brind true, .margin (.behind (p.len 1 + width))]
  | .NmBody none => [addStep (p.len 6)]
  | .NmBody (some cp) => [addStep (p.len 1 + p.strspan cp)]
  | .It bl part => termpItSteps bl part
  | .Fn | .FoBody => termpFnSteps p
  | .other => []

/-- The handlers that come after the children: `termp_sh_post()`, `termp_nm_post()`, and
    `termp_it_post()`. -/
def MdocHandler.post {p : MdocTerm} : MdocHandler p → List OffsetStep
  | .ShBody => [setStep 0]
  | .NmHead _ | .It _ _ => [.brind false]
  | _ => []

mutual

/-- `print_mdoc_node()` -/
def mdocNodeSteps {p : MdocTerm} : MdocPoNode p → List OffsetStep
  | .po arg => [.po arg]
  | .ti less len => [.breakLine .br, .temp (.ti less len (p.len 72))]
  | .motion n => [.temp (.motion n)]
  | .endline => [.temp .endline]
  | .br => [.breakLine .br]
  | .ll n => [.margin (.width n)]
  | .node handler child => [.scope (handler.pre ++ mdocNodelistSteps child ++ handler.post)]

/-- `print_mdoc_nodelist()` -/
def mdocNodelistSteps {p : MdocTerm} : List (MdocPoNode p) → List OffsetStep
  | [] => []
  | n :: l => mdocNodeSteps n ++ mdocNodelistSteps l

end

/-! ## §4 Formatting man(7) -/

/-- Nodes of a man(7) syntax tree. -/
inductive ManPoNode where
  | po (arg : Option CStr)
  /-- `ti` with a sign or without one, and with its value. -/
  | ti (less : Option Bool) (len : Int)
  /-- An escape sequence that moves the beginning of a line to the left. -/
  | motion (n : Nat)
  /-- The end of an output line. -/
  | endline
  /-- `br`, and the requests that begin with a line break: `ce`, `fi`, `nf`, `rj`, `sp`, and a `ti`
      without a value. Children of `ce` and `rj` come behind it. -/
  | br
  /-- `ll`, and the maximal right margin that it leads to. -/
  | ll (n : Nat)
  /-- A row of a table. -/
  | tbl
  /-- A blank line, a comment, an equation, or any other request. -/
  | skip
  /-- `EX` or `EE` -/
  | literal
  /-- `in` without an argument. -/
  | inReset
  /-- `in` with a scaled width, and with the sign before it. -/
  | inSet (sign : Option Bool) (v : Int)
  | SH (head body : List ManPoNode)
  | SS (head body : List ManPoNode)
  | PP (body : List ManPoNode)
  | IP (head : List CStr) (body : List ManPoNode)
  /-- `TP` with the arguments in the head, and with the nodes printed for the head. -/
  | TP (head : List HeadNode) (printed body : List ManPoNode)
  /-- `HP`, where the first child of the body can be in no-fill mode. -/
  | HP (head : Option CStr) (nofill : Bool) (body : List ManPoNode)
  | RS (head : Option CStr) (body : List ManPoNode)
  | SY (head : Option CStr) (body : List ManPoNode)
  /-- Text, and other macros with their children. They do not change the margins. -/
  | other (child : List ManPoNode)

/-- Nodes for which `print_man_node()` returns early. -/
def ManPoNode.early : ManPoNode → Bool
  | .po _ | .ti _ _ | .motion _ | .endline | .br | .ll _ | .tbl | .skip => true
  | _ => false

/-- `pre_in()` -/
def preInOp (p : ManTerm) (sign : Option Bool) (v : Int) : OffsetOp :=
  let v := (toSize v).toNat
  match sign with
  | some less => .indent less v (p.len p.defindent)
  | none => .set (if v > SHRT_MAX_width then p.len p.defindent else v)

mutual

/-- `print_man_node()`: the steps, and the state behind the node. If `hp`, the node is a child of
    the body of a `HP`. -/
def manNodeSteps (p : ManTerm) (hp : Bool) : ManPoNode → Mtermp → List OffsetStep × Mtermp
  | .po arg, mt => ([.po arg], mt)
  | .ti less len, mt => ([.breakLine .br, .temp (.ti less len (p.len 72))], mt)
  | .motion n, mt => ([.temp (.motion n)], mt)
  | .endline, mt => ([.temp .endline], mt)
  | .br, mt => ([.breakLine .br], mt)
  | .ll n, mt => ([.margin (.width n)], mt)
  | .tbl, mt => ([maxStep], mt)
  | .skip, mt => ([], mt)
  | .literal, mt => (if hp then [.breakLine .literal] else [], mt)
  | .inReset, mt => ([setStep mt.offset], mt)
  | .inSet sign v, mt => ([.handler (preInOp p sign v)], mt)
  | .SH head body, mt =>
    let (hs, mt') := manNodelistSteps p false head (preSH p mt)
    let (bs, mt'') := manNodelistSteps p false body mt'
    (setStep 0 :: marginStep (preSH p mt).offset :: .brind true :: hs ++
      setStep mt'.offset :: maxStep :: .brind false :: bs, mt'')
  | .SS head body, mt =>
    let (hs, mt') := manNodelistSteps p false head (preSH p mt)
    let (bs, mt'') := manNodelistSteps p false body mt'
    (setStep (p.len p.defindent / 2 + 1) :: marginStep (preSH p mt).offset :: .brind true :: hs ++
      setStep mt'.offset :: maxStep :: .brind false :: bs, mt'')
  | .PP body, mt =>
    let mt := prePP p mt
    let (bs, mt') := manNodelistSteps p false body mt
    (setStep mt.offset :: bs, mt')
  | .IP head body, mt =>
    let arg := (head.drop 1).head?
    -- The width is determined for the head and once again for the body.
    let (hlen, hmt) := argWidth p arg mt
    let (len, mt) := argWidth p arg hmt
    let (bs, mt') := manNodelistSteps p false body mt
    (setStep hmt.offset :: marginStep (sizeT (hmt.offset + hlen)) :: maxStep ::
      setStep (sizeT (mt.offset + len)) :: maxStep :: bs ++ [setStep mt'.offset], mt')
  | .TP head printed body, mt =>
    let arg := head.head?.bind fun nn => if nn.line then none else nn.string
    let (hlen, mt) := argWidth p arg mt
    let (hs, mt') := manNodelistSteps p false printed mt
    let (len, mt') := argWidth p arg mt'
    let (bs, mt'') := manNodelistSteps p false body mt'
    (setStep mt.offset :: marginStep (sizeT (mt.offset + hlen)) :: hs ++
      setStep (sizeT (mt'.offset + len)) :: maxStep :: bs ++ [setStep mt''.offset], mt'')
  | .HP _ _ [], mt => ([.brind false, setStep mt.offset, maxStep], mt)
  | .HP head nofill (n :: l), mt =>
    let flags : List OffsetStep := if nofill then [] else [.brind true]
    let (len, mt) := argWidth p head mt
    let (ns, mt') := manNodeSteps p true n mt
    let (bs, mt'') := manNodelistSteps p true l mt'
    -- In no-fill mode, the first line is broken behind the first node.
    let hang : List OffsetStep := if nofill && !n.early then [.breakLine .hang] else []
    (flags ++ setStep mt.offset :: marginStep (sizeT (mt.offset + len)) :: ns ++ hang ++
      bs ++ [.brind false, setStep mt''.offset, maxStep], mt'')
  | .RS head body, mt =>
    let aux := rsAux p head mt
    let mt := preRS p aux mt
    let (bs, mt') := manNodelistSteps p false body mt
    let mt'' := postRS aux mt'
    (setStep mt.offset :: maxStep :: bs ++ [setStep mt''.offset], mt'')
  | .SY head body, mt =>
    let mt' := preSY p head mt
    let len := mt'.lmargin mt'.lmargincur
    let (bs, mt'') := manNodelistSteps p false body mt'
    (setStep mt.offset :: marginStep (sizeT (mt.offset + len)) ::
      setStep (sizeT (mt'.offset + len)) :: maxStep :: bs ++ [setStep mt''.offset], mt'')
  | .other child, mt => manNodelistSteps p false child mt

/-- `print_man_nodelist()` -/
def manNodelistSteps (p : ManTerm) (hp : Bool) :
    List ManPoNode → Mtermp → List OffsetStep × Mtermp
  | [], mt => ([], mt)
  | n :: l, mt =>
    let (ns, mt') := manNodeSteps p hp n mt
    let (ls, mt'') := manNodelistSteps p hp l mt'
    (ns ++ ls, mt'')

end

/-- A document for the terminal. -/
inductive PoDocument where
  | mdoc {p : MdocTerm} (l : List (MdocPoNode p))
  | man (p : ManTerm) (l : List ManPoNode)

/-- What the formatters do to the offset. -/
def PoDocument.steps : PoDocument → List OffsetStep
  | .mdoc l => mdocNodelistSteps l
  | .man p l => (manNodelistSteps p false l (Mtermp.init p)).1

/-! ## §5 Containment -/

/-- Before the request, the offset is the indentation without any page offset, plus the page
    offset in use. Behind it, it is that indentation, plus the page offset requested, limited to
    at most 60 en and to at least minus the indentation. -/
def PoCall.Right (p : PoTerm) (c bare : PoCall) : Prop :=
  (c.before : Int) = bare.before + c.pouse ∧
    (c.after : Int) = bare.before + max (-(bare.before : Int)) (min (p.len60 : Int) c.request)

/-- The state of a run, and that of the run without any page offset. -/
structure Contained (p : PoTerm) (st bare : PoState) : Prop where
  offset : (st.offset : Int) = bare.offset + st.inOffset
  ti : st.ti = bare.ti - st.inTi
  rmargin : ∀ x, st.inMargin = some x → (st.rmargin : Int) = bare.rmargin + x
  maxrmargin : st.maxrmargin = bare.maxrmargin
  brind : st.brind = bare.brind
  calls : List.Forall₂ (PoCall.Right p) st.calls bare.calls

/-- There is room for a relative motion, with and without the page offset. -/
structure Room (offset : Nat) (pouse x : Int) : Prop where
  lo : 0 ≤ offset + x
  hi : offset + x < 2 ^ 64
  bareLo : 0 ≤ offset - pouse + x
  bareHi : offset - pouse + x < 2 ^ 64

/-- The arguments of a list go together with the margins, and are not limited by them. -/
structure BlNorm.Unlimited {p : MdocTerm} (bl : BlNorm p) (part : ItPart) (offset : Nat) :
    Prop where
  fits : bl.Fits part ⟨offset, 0, 0⟩
  offs : -bl.offsArg ≤ offset
  width : bl.type.indents → -bl.widthArg ≤ offset

/-- A number with a sign before it. -/
def signed (less : Bool) (v : Nat) : Int := if less then -(v : Int) else v

/-- A handler respects the page offset that is contained in the offset. -/
def OffsetOp.Respects (op : OffsetOp) (offset : Nat) (pouse : Int) : Prop :=
  match op with
  | .set _ => pouse = 0
  | .add n => Room offset pouse n
  | .display x => SHRT_MAX_width ≤ x ∨ Room offset pouse x
  | .item bl part =>
    bl.Unlimited part offset ∧ bl.Unlimited part (offset - pouse).toNat
  | .indent less v _ =>
    Room offset pouse (signed less v) ∧ offset + signed less v ≤ SHRT_MAX_width ∧
      offset - pouse + signed less v ≤ SHRT_MAX_width

/-- A temporary indentation respects the page offset in use. It begins behind the end of another one
    that has taken back some of the page offset, and its end has room for going back. -/
def TempIndent.Respects (k : TempIndent) (st : PoState) : Prop :=
  match k with
  | .ti _ len maxoff =>
    st.inTi = 0 ∧ (-2 ^ 31 ≤ len ∧ len < 2 ^ 31) ∧ maxoff < 2 ^ 31 ∧
      st.offset < 2 ^ 31 ∧ st.offset - st.inOffset < 2 ^ 31
  | .motion n =>
    -2 ^ 31 ≤ st.ti - n ∧ st.ti < 2 ^ 31 ∧
      -2 ^ 31 ≤ st.ti + st.inTi - n ∧ st.ti + st.inTi < 2 ^ 31 ∧
      st.offset < 2 ^ 64 ∧ st.offset - st.inOffset < 2 ^ 64
  | .endline =>
    Room st.offset st.pouse (-st.ti) ∧ st.offset < 2 ^ 31 ∧ st.offset - st.inOffset < 2 ^ 31

/-- Setting the right margin with respect to the offset respects the page offset in use. -/
def MarginOp.Respects (op : MarginOp) (offset : Nat) (pouse : Int) : Prop :=
  match op with
  | .behind n => Room offset pouse n
  | .item bl part => bl.Unlimited part offset ∧ bl.Unlimited part (offset - pouse).toNat
  | _ => True

/-- A line break respects the page offset in use: where the right margin becomes the offset, it
    contains the same page offset. Without any page offset, it would do so in the same places. -/
structure MarginBreak.Respects (k : MarginBreak) (st : PoState) : Prop where
  same : k.applies st.rmargin st.maxrmargin st.brind → st.inMargin = some st.inOffset
  literal : k = .literal → ∃ x, st.inMargin = some x ∧
    (st.rmargin < st.maxrmargin ↔ (st.rmargin : Int) - x < st.maxrmargin)

mutual

/-- A step respects the page offset. At a request, no temporary indentation takes back any of it.
    At the end of a node, the one contained in the offset is the one from its beginning. -/
def StepRespects (p : PoTerm) : OffsetStep → PoState → Prop
  | .po arg, st =>
    st.inTi = 0 ∧ st.offset - st.pouse ≤ 2 ^ 31 ∧
      -2 ^ 31 ≤ poRequest p arg st.polast st.po ∧ poRequest p arg st.polast st.po < 2 ^ 31
  | .handler op, st => op.Respects st.offset st.inOffset
  | .temp k, st => k.Respects st
  | .margin op, st => op.Respects st.offset st.inOffset
  | .brind _, _ => True
  | .breakLine k, st => k.Respects st
  | .scope body, st =>
    StepsRespect p body st ∧ (runSteps (roffTermPrePo p) body st).inOffset = st.inOffset

/-- All steps respect the page offset. -/
def StepsRespect (p : PoTerm) : List OffsetStep → PoState → Prop
  | [], _ => True
  | s :: l, st => StepRespects p s st ∧ StepsRespect p l (runStep (roffTermPrePo p) s st)

end

/-! ## §6 One step -/

section

variable {p : PoTerm} {st bare : PoState}

/-- A request replaces the page offset that is contained in the offset. -/
theorem roffTermPrePo_contained (h : Contained p st bare) {arg : Option CStr}
    (hstep : StepRespects p (.po arg) st) :
    Contained p (roffTermPrePo p arg st) (skipPo bare) := by
  obtain ⟨hti, hbase, hlo, hhi⟩ := hstep
  have hoffset := h.offset
  rw [PoState.inOffset, hti, Int.sub_zero] at hoffset
  have hlen := p.len60_int
  have hrevert : toSize (st.offset - st.pouse) = bare.offset :=
    (toSize_of_fits (by omega) (by omega)).trans (by omega)
  have hmin : toInt (-bare.offset) = -bare.offset := toInt_of_fits (by omega) (by omega)
  have hnew := toInt_of_fits hlo hhi
  -- The new page offset is at least the negative indentation.
  have hafter : ∀ x : Int, x = max (-(bare.offset : Int)) (min p.len60
      (poRequest p arg st.polast st.po)) →
      ((toSize (bare.offset + x)).toNat : Int) = bare.offset + x := by
    intro x hx
    rw [toSize_of_fits (by omega) (by omega), Int.toNat_of_nonneg (by omega)]
  have hlimit : (if poRequest p arg st.polast st.po > p.len60 then (p.len60 : Int)
      else if poRequest p arg st.polast st.po < -bare.offset then -(bare.offset : Int)
      else poRequest p arg st.polast st.po) =
      max (-(bare.offset : Int)) (min p.len60 (poRequest p arg st.polast st.po)) := by
    omega
  have hfinal := hafter _ rfl
  refine ⟨?_, h.ti, h.rmargin, h.maxrmargin, h.brind,
    List.rel_append h.calls (List.Forall₂.cons ⟨hoffset, ?_⟩ List.Forall₂.nil)⟩
  · simp only [PoState.inOffset, roffTermPrePo, skipPo, hrevert, hmin, hnew, hlimit, hti,
      Int.sub_zero]
    exact hfinal
  · simp only [hrevert, hmin, hnew, hlimit]
    exact hfinal

/-- A relative motion in a place with room for it. -/
theorem Room.toSize {offset bare : Nat} {pouse x : Int} (h : Room offset pouse x)
    (hoffset : (offset : Int) = bare + pouse) :
    ((toSize (offset + x)).toNat : Int) = (toSize (bare + x)).toNat + pouse := by
  have hbare : (offset : Int) - pouse = bare := by omega
  have hbareLo := h.bareLo
  have hbareHi := h.bareHi
  rw [hbare] at hbareLo hbareHi
  rw [toSize_of_fits h.lo h.hi, toSize_of_fits hbareLo hbareHi, Int.toNat_of_nonneg h.lo,
    Int.toNat_of_nonneg hbareLo, hoffset]
  ring

/-- An offset or a width, if it is not limited by the left edge. -/
def capped (x : Int) : Int := if x > SHRT_MAX_width then 0 else x

theorem limited_of_le {offset : Nat} {x : Int} (h : -x ≤ offset) : limited offset x = capped x := by
  unfold limited capped
  split_ifs
  · rfl
  · exact max_eq_left (neg_le.mp h)

/-- How far a body is to the right of the head. -/
def BlNorm.bodyShift {p : MdocTerm} (bl : BlNorm p) (part : ItPart) : Int :=
  match bl.type.indents, part with
  | true, .body _ _ => capped bl.widthArg
  | _, _ => 0

/-- How far a part of an item is to the right of the list. -/
def BlNorm.itemShift {p : MdocTerm} (bl : BlNorm p) (part : ItPart) : Int :=
  capped bl.offsArg + ((bl.colsBefore part).map fun v => p.strspan v + bl.dcol).sum +
    bl.bodyShift part

/-- The exact offset for a part of an item. -/
theorem exact_offset {p : MdocTerm} {bl : BlNorm p} {part : ItPart} {tcol : Tcol} {m : ItMargins}
    (hwidth : bl.type.indents → -bl.widthArg ≤ tcol.offset)
    (he : termpItPre .exact bl part tcol = .ok m) :
    m.indent.getD m.start =
      tcol.offset + bl.shift part tcol.offset + bl.bodyShift part := by
  unfold termpItPre at he
  simp only [exact_size] at he
  cases hindents : bl.type.indents with
  | true =>
    -- Lists that indent move the body by the width of the argument.
    have hcol : bl.type ≠ .column := fun h => by simp [h, MdocList.indents] at hindents
    rw [if_pos hindents, geometry_plain _ _ _ hcol, offset_exact, itemWidth_exact,
      limited_of_le (hwidth hindents), ← shift_plain part tcol.offset hcol] at he
    cases part with
    | head =>
      have hbody : bl.bodyShift .head = 0 := by
        unfold BlNorm.bodyShift
        rw [hindents]
      rw [← Except.ok.inj he, hbody]
      exact (Int.add_zero _).symm
    | body index last =>
      have hbody : bl.bodyShift (.body index last) = capped bl.widthArg := by
        unfold BlNorm.bodyShift
        rw [hindents]
      rw [← Except.ok.inj he, hbody]
      rfl
  | false =>
    -- Other lists do not, and only columns have their own offset.
    have hbody : bl.bodyShift part = 0 := by
      unfold BlNorm.bodyShift
      rw [hindents]
    rw [hbody, Int.add_zero]
    rw [if_neg (by rw [hindents]; exact Bool.false_ne_true)] at he
    by_cases htype : bl.type = .column
    · rw [if_pos htype] at he
      split at he
      · cases he
      · rw [← Except.ok.inj he, (geometry_column part tcol.offset htype).2]
        rfl
    · rw [if_neg htype, geometry_plain _ _ _ htype, offset_exact,
        ← shift_plain part tcol.offset htype] at he
      rw [← Except.ok.inj he]
      rfl

/-- The offset for a part of an item, if nothing is limited. -/
theorem itOffset_of_unlimited {p : MdocTerm} {bl : BlNorm p} {part : ItPart} {offset : Nat}
    (h : bl.Unlimited part offset) : (itOffset bl part offset : Int) = offset + bl.itemShift part := by
  obtain ⟨m, hm, he, hpos⟩ := (termpItPre_right_iff bl part ⟨offset, 0, 0⟩).mpr h.fits
  have hshift : bl.itemShift part = bl.shift part offset + bl.bodyShift part := by
    rw [BlNorm.itemShift, BlNorm.shift, limited_of_le h.offs]
  have hvalue : m.indent.getD m.start = offset + bl.itemShift part := by
    rw [hshift, ← add_assoc]
    exact exact_offset h.width he
  have hnonneg : 0 ≤ m.indent.getD m.start := by
    cases hi : m.indent with
    | none => exact hpos m.start List.mem_cons_self
    | some x =>
      refine hpos x (List.mem_cons_of_mem _ (List.mem_append_right _ ?_))
      rw [hi]
      exact List.mem_singleton_self x
  unfold itOffset
  rw [hm, ← hvalue]
  exact Int.toNat_of_nonneg hnonneg

/-- The request `in`, if the result is neither negative nor too large. -/
theorem preIn_eq {less : Bool} {v offset : Nat} (default : Nat)
    (hlo : 0 ≤ offset + signed less v) (hmax : offset + signed less v ≤ SHRT_MAX_width) :
    (preIn less v default offset : Int) = offset + signed less v := by
  have hvalue : ((if less then offset - min offset v else (toSize (offset + v)).toNat : Nat) : Int) =
      offset + signed less v := by
    cases less with
    | true =>
      simp only [signed, if_true] at hlo ⊢
      omega
    | false =>
      have hhi : (offset : Int) + v < 2 ^ 64 := lt_of_le_of_lt hmax (by decide)
      exact (congrArg Int.ofNat (congrArg Int.toNat (toSize_of_fits hlo hhi))).trans
        (Int.toNat_of_nonneg hlo)
  unfold preIn
  simp only
  rw [if_neg (by rw [hvalue]; exact not_lt.mpr hmax), hvalue]

/-- A handler that respects the page offset leaves it contained in the offset. -/
theorem OffsetOp.apply_contained {op : OffsetOp} {offset bare : Nat} {pouse : Int}
    (hoffset : (offset : Int) = bare + pouse) (hop : op.Respects offset pouse) :
    (op.apply offset : Int) = op.apply bare + pouse := by
  have hbare : (offset : Int) - pouse = bare := by omega
  cases op with
  | set n =>
    have hzero : pouse = 0 := hop
    rw [hzero]
    exact (Int.add_zero _).symm
  | add n => exact Room.toSize hop hoffset
  | display x =>
    show (bdOffset x offset : Int) = bdOffset x bare + pouse
    unfold bdOffset
    rcases hop with hmax | hroom
    · -- Such an argument is ignored.
      have hpos : ¬ x < 0 := not_lt.mpr (le_trans (by decide) hmax)
      rw [if_neg fun h => hpos h.1, if_neg (not_lt.mpr hmax), if_neg fun h => hpos h.1,
        if_neg (not_lt.mpr hmax)]
      exact hoffset
    · have hlo := hroom.lo
      have hbareLo := hroom.bareLo
      have hfits : ¬ (x < 0 ∧ -x > offset) := by omega
      have hbareFits : ¬ (x < 0 ∧ -x > bare) := by omega
      rw [if_neg hfits, if_neg hbareFits]
      split
      · exact hroom.toSize hoffset
      · exact hoffset
  | item bl part =>
    have hshift := itOffset_of_unlimited hop.1
    have hbareShift := itOffset_of_unlimited hop.2
    rw [hbare, Int.toNat_natCast] at hbareShift
    show (itOffset bl part offset : Int) = itOffset bl part bare + pouse
    rw [hshift, hbareShift, hoffset]
    ring
  | indent less v default =>
    obtain ⟨hroom, hmax, hbareMax⟩ := hop
    rw [hbare] at hbareMax
    have hlo := hroom.lo
    have hbareLo := hroom.bareLo
    rw [hbare] at hbareLo
    show (preIn less v default offset : Int) = preIn less v default bare + pouse
    rw [preIn_eq default hlo hmax, preIn_eq default hbareLo hbareMax, hoffset]
    ring

/-- The temporary indentation does not go beyond the left edge. -/
theorem preTi_fits {less : Option Bool} {len : Int} {maxoff offset : Nat}
    (hlen : -2 ^ 31 ≤ len ∧ len < 2 ^ 31) (hmax : maxoff < 2 ^ 31) (hoffset : offset < 2 ^ 31) :
    0 ≤ offset + preTi less len maxoff offset ∧
      offset + preTi less len maxoff offset < 2 ^ 64 := by
  obtain ⟨hlo, hhi⟩ := hlen
  unfold preTi
  cases less with
  | none =>
    dsimp only
    unfold toInt toSize
    split <;> omega
  | some less =>
    cases less with
    | false =>
      dsimp only
      unfold toInt toSize
      split
      · omega
      · split <;> omega
    | true =>
      dsimp only
      unfold toInt toSize
      split <;> omega

theorem motionBy_bounds (n offset : Nat) :
    -(n : Int) ≤ motionBy n offset ∧ motionBy n offset ≤ 0 ∧ 0 ≤ offset + motionBy n offset := by
  unfold motionBy
  split <;> omega

/-- The end of the line removes the temporary indentation. -/
theorem offset_endline {offset : Nat} {ti : Int} (hlt : offset < 2 ^ 31) (hlo : 0 ≤ offset + -ti)
    (hhi : offset + -ti < 2 ^ 64) :
    ((if toInt offset > ti then (toSize (offset - ti)).toNat else 0 : Nat) : Int) = offset - ti := by
  rw [toInt_of_fits (by omega) (by omega)]
  split
  · rw [toSize_of_fits (by omega) (by omega)]
    omega
  · omega

/-- What a temporary indentation takes back of the page offset is missing in the offset as well. -/
theorem TempIndent.apply_contained {k : TempIndent} (h : Contained p st bare)
    (hk : k.Respects st) : Contained p (k.apply st) (k.apply bare) := by
  have hoffset := h.offset
  have hti := h.ti
  have hbare : ((st.offset : Int) - st.inOffset).toNat = bare.offset := by omega
  cases k with
  | ti less len maxoff =>
    -- Nothing is taken back before, so both new offsets are the old ones plus the indentations.
    obtain ⟨hzero, hlen, hmax, hlt, hbareLt⟩ := hk
    have hin : st.inOffset = st.pouse := by rw [PoState.inOffset, hzero, Int.sub_zero]
    obtain ⟨hlo, hhi⟩ := @preTi_fits less len maxoff st.offset hlen hmax (by omega)
    obtain ⟨hbareLo, hbareHi⟩ := @preTi_fits less len maxoff bare.offset hlen hmax (by omega)
    refine ⟨?_, ?_, h.rmargin, h.maxrmargin, h.brind, h.calls⟩
    · simp only [TempIndent.apply, hbare, toSize_of_fits hlo hhi, toSize_of_fits hbareLo hbareHi]
      simp only [PoState.inOffset]
      omega
    · simp only [TempIndent.apply, hbare]
      omega
  | motion n =>
    -- The motion may be shorter at one of the offsets, and it is added to the indentation as it is.
    obtain ⟨htiLo, htiHi, hbareTiLo, hbareTiHi, hlt, hbareLt⟩ := hk
    obtain ⟨hlo, hhi, hedge⟩ := motionBy_bounds n st.offset
    obtain ⟨hbareLo, hbareHi, hbareEdge⟩ := motionBy_bounds n bare.offset
    have hnew := toInt_of_fits (x := st.ti + motionBy n st.offset) (by omega) (by omega)
    have hbareNew := toInt_of_fits (x := bare.ti + motionBy n bare.offset) (by omega) (by omega)
    refine ⟨?_, ?_, h.rmargin, h.maxrmargin, h.brind, h.calls⟩
    · simp only [TempIndent.apply, hbare, toSize_of_fits hedge (by omega),
        toSize_of_fits hbareEdge (by omega)]
      simp only [PoState.inOffset] at hoffset ⊢
      omega
    · simp only [TempIndent.apply, hbare, hnew, hbareNew]
      omega
  | endline =>
    -- Both lines began with the same page offset, and their indentations are removed.
    obtain ⟨hroom, hlt, hbareLt⟩ := hk
    rw [PoState.inOffset] at hoffset hbare hbareLt
    have hend := @offset_endline st.offset st.ti (by omega) hroom.lo hroom.hi
    have hbareLo := hroom.bareLo
    have hbareHi := hroom.bareHi
    have hbareEnd := @offset_endline bare.offset bare.ti (by omega) (by omega) (by omega)
    simp only [TempIndent.apply]
    refine ⟨?_, (Int.sub_zero 0).symm, h.rmargin, h.maxrmargin, h.brind, h.calls⟩
    simp only [PoState.inOffset, hend, hbareEnd]
    omega

/-- The right margin for the head of an item, if nothing is limited. -/
theorem itRmargin_head {p : MdocTerm} {bl : BlNorm p} {tcol : Tcol} (hindents : bl.type.indents = true)
    (h : bl.Unlimited .head tcol.offset) :
    (itRmargin bl .head tcol : Int) = tcol.offset + bl.itemShift .head + capped bl.widthArg := by
  have hcol : bl.type ≠ .column := fun h => by simp [h, MdocList.indents] at hindents
  have hfits : bl.Fits .head tcol :=
    ⟨h.fits.start, h.fits.item, h.fits.itemEnd, h.fits.column, h.fits.columnEnd⟩
  obtain ⟨m, hm, he, hpos⟩ := (termpItPre_right_iff bl .head tcol).mpr hfits
  have hshift : bl.itemShift .head = bl.shift .head tcol.offset := by
    have hbody : bl.bodyShift .head = 0 := by
      unfold BlNorm.bodyShift
      rw [hindents]
    rw [BlNorm.itemShift, BlNorm.shift, limited_of_le h.offs, hbody]
    exact Int.add_zero _
  have hexact : m = ⟨tcol.offset + bl.shift .head tcol.offset,
      some (tcol.offset + bl.shift .head tcol.offset + capped bl.widthArg), none, false⟩ := by
    unfold termpItPre at he
    simp only [exact_size] at he
    rw [if_pos hindents, geometry_plain _ _ _ hcol, offset_exact, itemWidth_exact,
      limited_of_le (h.width hindents), ← shift_plain .head tcol.offset hcol] at he
    exact (Except.ok.inj he).symm
  have hnonneg : 0 ≤ (tcol.offset : Int) + bl.shift .head tcol.offset + capped bl.widthArg := by
    refine hpos _ ?_
    rw [hexact]
    exact List.mem_cons_of_mem _ List.mem_cons_self
  unfold itRmargin
  rw [hm, hexact, hshift]
  exact Int.toNat_of_nonneg hnonneg

/-- A part of an item that does not set the right margin. -/
theorem itRmargin_keep {p : MdocTerm} {bl : BlNorm p} {part : ItPart} (tcol : Tcol)
    (hcol : bl.type ≠ .column) (hpart : bl.type.indents = true → part ≠ .head) :
    itRmargin bl part tcol = tcol.rmargin := by
  unfold itRmargin termpItPre
  cases hindents : bl.type.indents with
  | true =>
    cases part with
    | head => exact absurd rfl (hpart hindents)
    | body index last => rfl
  | false =>
    simp only [if_neg Bool.false_ne_true, if_neg hcol]
    rfl

/-- The right margin contains the page offset that is recorded. -/
theorem MarginOp.apply_contained {op : MarginOp} (h : Contained p st bare)
    (hop : op.Respects st.offset st.inOffset) : Contained p (op.apply st) (op.apply bare) := by
  have hbare : (st.offset : Int) - st.inOffset = bare.offset := by
    have hoffset := h.offset
    omega
  -- Most operations set a margin from values that do not depend on the page offset.
  cases op with
  | set n =>
    refine ⟨h.offset, h.ti, ?_, h.maxrmargin, h.brind, h.calls⟩
    rintro x ⟨⟩
    exact (Int.add_zero _).symm
  | max =>
    refine ⟨h.offset, h.ti, ?_, h.maxrmargin, h.brind, h.calls⟩
    rintro x ⟨⟩
    exact (congrArg Int.ofNat h.maxrmargin).trans (Int.add_zero _).symm
  | behind n =>
    refine ⟨h.offset, h.ti, ?_, h.maxrmargin, h.brind, h.calls⟩
    rintro x ⟨⟩
    exact Room.toSize hop h.offset
  | width n =>
    refine ⟨h.offset, h.ti, ?_, rfl, h.brind, h.calls⟩
    rintro x ⟨⟩
    exact (Int.add_zero _).symm
  | item bl part =>
    refine ⟨h.offset, h.ti, fun x hx => ?_, h.maxrmargin, h.brind, h.calls⟩
    cases hindents : bl.type.indents with
    -- Only lists that indent their items set the margin of a head.
    | true =>
      have hcol : bl.type ≠ .column := fun he => by simp [he, MdocList.indents] at hindents
      simp only [MarginOp.apply, hindents] at hx ⊢
      cases part with
      | head =>
        cases hx
        obtain ⟨hun, hbareUn⟩ := hop
        rw [hbare, Int.toNat_natCast] at hbareUn
        rw [itRmargin_head hindents hun, itRmargin_head hindents hbareUn, h.offset]
        ring
      | body index last =>
        rw [itRmargin_keep _ hcol fun _ => ItPart.noConfusion,
          itRmargin_keep _ hcol fun _ => ItPart.noConfusion]
        exact h.rmargin x hx
    | false =>
      simp only [MarginOp.apply, hindents] at hx ⊢
      split at hx
      · cases hx
      next hcol =>
      have hpart : bl.type.indents = true → part ≠ .head := fun he => by simp [hindents] at he
      rw [itRmargin_keep _ hcol hpart, itRmargin_keep _ hcol hpart]
      exact h.rmargin x hx

/-- A line break happens with and without the page offset, or not at all. -/
theorem breakLine_contained {k : MarginBreak} (h : Contained p st bare) (hk : k.Respects st) :
    Contained p (breakLine k st) (breakLine k bare) := by
  have happlies : k.applies bare.rmargin bare.maxrmargin bare.brind =
      k.applies st.rmargin st.maxrmargin st.brind := by
    cases k with
    | br => exact h.brind.symm
    | hang => rfl
    | literal =>
      obtain ⟨x, hx, hiff⟩ := hk.literal rfl
      have hmargin := h.rmargin x hx
      have hmax := h.maxrmargin
      simp only [MarginBreak.applies]
      exact decide_eq_decide.mpr (by omega)
  unfold breakLine
  rw [happlies]
  split
  · next ha =>
    refine ⟨h.rmargin _ (hk.same ha), h.ti, ?_, h.maxrmargin, ?_, h.calls⟩
    · rintro x ⟨⟩
      exact (congrArg Int.ofNat h.maxrmargin).trans (Int.add_zero _).symm
    · cases k with
      | hang => exact h.brind
      | br => rfl
      | literal => rfl
  · exact h

/-! ## §7 Runs -/

mutual

/-- A step that respects the page offset leaves it contained in the offset. -/
theorem runStep_contained : ∀ (s : OffsetStep) {st bare : PoState}, Contained p st bare →
    StepRespects p s st →
    Contained p (runStep (roffTermPrePo p) s st) (runStep (fun _ => skipPo) s bare)
  | .po _, _, _, h, hstep => roffTermPrePo_contained h hstep
  | .handler _, _, _, h, hstep =>
    ⟨OffsetOp.apply_contained h.offset hstep, h.ti, h.rmargin, h.maxrmargin, h.brind, h.calls⟩
  | .temp _, _, _, h, hstep => TempIndent.apply_contained h hstep
  | .margin _, _, _, h, hstep => MarginOp.apply_contained h hstep
  | .brind _, _, _, h, _ => ⟨h.offset, h.ti, h.rmargin, h.maxrmargin, rfl, h.calls⟩
  | .breakLine _, _, _, h, hstep => breakLine_contained h hstep
  | .scope body, st, bare, h, hstep => by
    have hbody := runSteps_contained body h hstep.1
    refine ⟨?_, hbody.ti, h.rmargin, hbody.maxrmargin, hbody.brind, hbody.calls⟩
    -- The offsets from before the node are restored, and contain the same page offset.
    show (st.offset : Int) = bare.offset + (runSteps (roffTermPrePo p) body st).inOffset
    rw [hstep.2]
    exact h.offset

/-- All the steps together. -/
theorem runSteps_contained : ∀ (l : List OffsetStep) {st bare : PoState}, Contained p st bare →
    StepsRespect p l st →
    Contained p (runSteps (roffTermPrePo p) l st) (runSteps (fun _ => skipPo) l bare)
  | [], _, _, h, _ => h
  | s :: l, _, _, h, hsteps => runSteps_contained l (runStep_contained s h hsteps.1) hsteps.2

end

end

/-- The state at the beginning of a document, when no page offset is in use. -/
def PoState.start (defrmargin : Nat) (polast po : Int) : PoState where
  offset := 0
  rmargin := defrmargin
  maxrmargin := defrmargin
  brind := false
  ti := 0
  inMargin := some 0
  inTi := 0
  polast := polast
  po := po
  pouse := 0
  calls := []

/-- The requests of a document. -/
def PoDocument.calls (pre : Option CStr → PoState → PoState) (d : PoDocument) (st : PoState) :
    List PoCall :=
  (runSteps pre d.steps st).calls

/-- A terminal with 24 basic units for each character. -/
def poTerm : PoTerm where
  hspan s := if s = ['5', 'n'] then some 120 else if s = ['0'] then some 0 else none
  hspan_int s x h := by
    split at h
    · rw [← Option.mem_some.mp h]
      decide
    · split at h
      · rw [← Option.mem_some.mp h]
        decide
      · cases h
  len60 := 1440
  len60_int := by decide

/-- The page offset is subtracted from an offset that does not contain it. -/
theorem not_right_of_second {p : PoTerm} {c₁ c₂ b₁ b₂ : PoCall} {cs bs : List PoCall}
    (hne : (c₂.before : Int) ≠ b₂.before + c₂.pouse) :
    ¬ List.Forall₂ (PoCall.Right p) (c₁ :: c₂ :: cs) (b₁ :: b₂ :: bs) := by
  intro hruns
  cases hruns with
  | cons _ hrest =>
    cases hrest with
    | cons hright _ => exact hne hright.1

/-- The page offset is set in a hanging paragraph, and again behind a line break. -/
def hangingPo : PoDocument :=
  .man asciiTerm [.HP (some ['8']) false
    [.po (some ['5', 'n']), .other [], .br, .po (some ['5', 'n']), .po (some ['0'])]]

/-- The line break replaces the offset by the right margin, which does not contain the page
    offset. -/
theorem hangingPo_not_right :
    ¬ List.Forall₂ (PoCall.Right poTerm) (hangingPo.calls (roffTermPrePo poTerm) (.start 1872 0 0))
      (hangingPo.calls (fun _ => skipPo) (.start 1872 0 0)) := by
  intro hruns
  have hcalls : hangingPo.calls (roffTermPrePo poTerm) (.start 1872 0 0) =
      [⟨120, 0, 120, 240⟩, ⟨312, 120, 120, 312⟩, ⟨312, 120, 0, 192⟩] := by
    decide +kernel
  have hbare : hangingPo.calls (fun _ => skipPo) (.start 1872 0 0) =
      [⟨120, 0, 0, 120⟩, ⟨312, 0, 0, 312⟩, ⟨312, 0, 0, 312⟩] := by
    decide +kernel
  rw [hcalls, hbare] at hruns
  exact not_right_of_second (by decide) hruns

/-- The page offset is set, and set again before the end of a line that has its own indentation. -/
def linePo : PoDocument :=
  .man asciiTerm [.po (some ['5', 'n']), .ti none 240, .po (some ['5', 'n']), .other [], .endline]

/-- The page offset is subtracted from the indentation of the line. -/
theorem linePo_not_right :
    ¬ List.Forall₂ (PoCall.Right poTerm) (linePo.calls (roffTermPrePo poTerm) (.start 1872 0 0))
      (linePo.calls (fun _ => skipPo) (.start 1872 0 0)) := by
  intro hruns
  have hcalls : linePo.calls (roffTermPrePo poTerm) (.start 1872 0 0) =
      [⟨0, 0, 120, 120⟩, ⟨240, 120, 120, 240⟩] := by
    decide +kernel
  have hbare : linePo.calls (fun _ => skipPo) (.start 1872 0 0) =
      [⟨0, 0, 0, 0⟩, ⟨240, 0, 0, 240⟩] := by
    decide +kernel
  rw [hcalls, hbare] at hruns
  exact not_right_of_second (by decide) hruns

end Mandoc
