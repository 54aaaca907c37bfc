import Mandoc.Eqn.Next
import Mandoc.Roff.Escape
import Mandoc.Lib.Loop

/-!
# The Equation Parser

Model of `eqn_parse()`. The tokens are processed one after the other; the parser keeps a
cursor `parent`, the box that gets the next child.

The cursor is moved up the tree by following `parent` pointers. In the model, a cursor that
becomes NULL counts as a failure right away, no matter whether it is used later on.
-/

namespace Mandoc

/-! ## §1 The parser state -/

/-- The variables of `eqn_parse()` that live from one token to the next one. -/
structure EqnParse where
  ep : EqnNode
  tree : EqnTree := eqnBoxNew
  /-- The box to append to. -/
  parent : Nat := 0
  /-- The trees left by the calls of `eqn_box_makebinary()` so far, the last one first. -/
  binaries : List EqnTree := []

/-- `parent = eqn_box_alloc(ep, parent)`, followed by assignments to the new box. -/
def eqnOpen (st : EqnParse) (parent : Nat) (set : EqnBox → EqnBox) : EqnRes EqnParse := do
  let tree ← eqnBoxAlloc st.ep.gsize st.tree parent
  return { st with tree := tree.modify st.tree.count set, parent := st.tree.count }

/-- `parent = eqn_box_makebinary(ep, parent)`, followed by assignments to the new box. -/
def eqnPivot (st : EqnParse) (set : EqnBox → EqnBox) : EqnRes EqnParse := do
  let tree ← eqnBoxMakebinary st.ep.gsize st.tree st.parent
  return { st with
    tree := tree.modify st.tree.count set
    parent := st.tree.count
    binaries := tree :: st.binaries }

/-- An operator that lacks an operand gets an empty text box. -/
def eqnNobox (st : EqnParse) : EqnRes EqnParse := do
  if (st.tree.links st.parent).last = none then
    let tree ← eqnBoxAlloc st.ep.gsize st.tree st.parent
    return { st with
      tree := tree.modify st.tree.count ({ · with type := .TEXT, text := some [] }) }
  else return st

/-- `parent = parent->parent` -/
def eqnUp (st : EqnParse) : EqnRes EqnParse := do
  let parent ← eqnParent st.tree st.parent
  return { st with parent := parent }

/-- `while (parent->args == parent->expectargs) parent = parent->parent;` -/
def eqnRewind (st : EqnParse) : EqnRes EqnParse := do
  let parent ← eqnClimb st.tree EqnBox.full st.parent
  return { st with parent := parent }

/-! ## §2 Operators -/

/-- The symbol that a diacritic puts above or below a box. -/
def eqnMark (tok : EqnTok) (b : EqnBox) : EqnBox :=
  match tok with
  | .DOTDOT => { b with top := some "\\[ad]".toList }
  | .VEC => { b with top := some "\\[->]".toList }
  | .DYAD => { b with top := some "\\[<>]".toList }
  | .TILDE => { b with top := some "\\[a~]".toList }
  | .UNDER => { b with bottom := some "\\[ul]".toList }
  | .BAR => { b with top := some "\\[rn]".toList }
  | .DOT => { b with top := some "\\[a.]".toList }
  | _ => { b with top := some "\\[ha]".toList }

/-- `case EQN_TOK_DYAD` up to `case EQN_TOK_DOTDOT` -/
def eqnDiacritic (tok : EqnTok) (st : EqnParse) : EqnRes EqnParse := do
  let st ← eqnNobox st
  let st ← eqnPivot st fun b =>
    eqnMark tok { b with type := .LIST, expectargs := some 1, font := .ROMAN }
  eqnUp st

/-- A list that expects one element. -/
def eqnList (set : EqnBox → EqnBox) (st : EqnParse) : EqnRes EqnParse := do
  let st ← eqnRewind st
  eqnOpen st st.parent fun b => set { b with type := .LIST, expectargs := some 1 }

/-- `mandoc_strntoi(p, sz, 10)`: convert a decimal number, unless it is invalid. -/
def mandocStrntoi (p : CStr) : Int :=
  let s := p.dropWhile isspace
  let neg := s.head? = some '-'
  let digits := if neg || s.head? = some '+' then s.drop 1 else s
  if 31 < p.length || digits = [] || !digits.all isdigit then -1
  else
    let v : Nat := digits.foldl (fun v c => 10 * v + (c.toNat - '0'.toNat)) 0
    if neg then max (-(v : Int)) (-2147483648) else min v 2147483647

/-- `case EQN_TOK_SIZE` and `case EQN_TOK_GSIZE` -/
def eqnSize (tok : EqnTok) (st : EqnParse) : EqnRes EqnParse := do
  let n ← eqnNext .SUB st.ep
  let st := { st with ep := n.ep }
  if n.tok = .EOF then return st
  else
    let size := mandocStrntoi n.text
    if size = -1 then return st
    else if tok = .GSIZE then return { st with ep := { st.ep with gsize := size } }
    else eqnList ({ · with size := size }) st

/-- The positions that a limit of a sum does not belong to. -/
def EqnBox.script (b : EqnBox) : Bool :=
  b.pos = .SUB || b.pos = .SUP || b.pos = .SUBSUP || b.pos = .SQRT || b.pos = .OVER

/-- The position that an operator gives to its operands. -/
def eqnPost (tok : EqnTok) : EqnPost :=
  match tok with
  | .FROM => .FROM
  | .TO => .TO
  | .SUP => .SUP
  | _ => .SUB

/-- Where `from` and `to` leave a subexpression. -/
def eqnLeave (tok : EqnTok) (tree : EqnTree) (parent : Nat) : EqnRes Nat := do
  if tok = .FROM || tok = .TO then
    match ← eqnFind tree EqnBox.script parent with
    | none => return parent
    | some cur => eqnParent tree cur
  else return parent

/-- `case EQN_TOK_FROM` up to `case EQN_TOK_SUP` -/
def eqnScript (tok : EqnTok) (st : EqnParse) : EqnRes EqnParse := do
  let st ← eqnNobox st
  let parent ← eqnClimb st.tree EqnBox.single st.parent
  let parent ← eqnLeave tok st.tree parent
  let st := { st with parent := parent }
  if tok = .SUP && (st.tree.box parent).pos = .SUB then
    return { st with
      tree := st.tree.modify parent ({ · with expectargs := some 3, pos := .SUBSUP }) }
  else if tok = .TO && (st.tree.box parent).pos = .FROM then
    return { st with
      tree := st.tree.modify parent ({ · with expectargs := some 3, pos := .FROMTO }) }
  else eqnPivot st ({ · with pos := eqnPost tok })

/-- `case EQN_TOK_SQRT` -/
def eqnSqrt (st : EqnParse) : EqnRes EqnParse := do
  let st ← eqnRewind st
  eqnOpen st st.parent ({ · with type := .SUBEXPR, pos := .SQRT, expectargs := some 1 })

/-- `case EQN_TOK_OVER` -/
def eqnOver (st : EqnParse) : EqnRes EqnParse := do
  let st ← eqnNobox st
  let st ← eqnRewind st
  let parent ← eqnClimb st.tree (fun b => b.type = .SUBEXPR) st.parent
  eqnPivot { st with parent := parent } ({ · with pos := .OVER })

/-! ## §3 Brackets and piles -/

/-- A fence. -/
def eqnFence (left : Bool) (text : CStr) : CStr :=
  if text = "ceiling".toList then (if left then "\\[lc]" else "\\[rc]").toList
  else if text = "floor".toList then (if left then "\\[lf]" else "\\[rf]").toList
  else text

/-- The list that a closing bracket closes. -/
def EqnBox.bracket (tok : EqnTok) (b : EqnBox) : Bool :=
  b.type = .LIST && b.several && (tok = .BRACE_CLOSE || b.left ≠ none)

/-- The end of closing a bracket: leave the list, the pile it is an element of, and lists
    that are complete. -/
def eqnLeaveList (tok : EqnTok) (st : EqnParse) : EqnRes EqnParse := do
  let st ← eqnUp st
  let type := (st.tree.box st.parent).type
  let st ← (if tok = .BRACE_CLOSE && (type = .PILE || type = .MATRIX) then eqnUp st else pure st)
  -- Close out any "singleton" lists.
  let parent ← eqnClimb st.tree (fun b => b.type = .LIST && b.single) st.parent
  return { st with parent := parent }

/-- `case EQN_TOK_RIGHT` and `case EQN_TOK_BRACE_CLOSE` -/
def eqnClose (tok : EqnTok) (st : EqnParse) : EqnRes EqnParse := do
  match ← eqnFind st.tree (EqnBox.bracket tok) st.parent with
  | none => return st
  | some cur =>
    let st := { st with parent := cur }
    if tok = .RIGHT then
      let n ← eqnNext .SUB st.ep
      let st := { st with ep := n.ep }
      if n.tok = .EOF then return st
      else eqnLeaveList tok { st with
        tree := st.tree.modify cur ({ · with right := some (eqnFence false n.text) }) }
    else eqnLeaveList tok st

/-- `case EQN_TOK_BRACE_OPEN` and `case EQN_TOK_LEFT` -/
def eqnBracket (tok : EqnTok) (st : EqnParse) : EqnRes EqnParse := do
  let st ← eqnRewind st
  if tok = .LEFT then
    let n ← eqnNext .SUB st.ep
    let st := { st with ep := n.ep }
    if n.tok = .EOF then return st
    else eqnOpen st st.parent ({ · with type := .LIST, left := some (eqnFence true n.text) })
  else eqnOpen st st.parent ({ · with type := .LIST })

/-- `case EQN_TOK_PILE` up to `case EQN_TOK_RCOL`, and `case EQN_TOK_MATRIX` -/
def eqnPile (type : EqnBoxt) (st : EqnParse) : EqnRes EqnParse := do
  let st ← eqnRewind st
  eqnOpen st st.parent ({ · with type := type, expectargs := some 1 })

/-- `case EQN_TOK_ABOVE` -/
def eqnAbove (st : EqnParse) : EqnRes EqnParse := do
  match ← eqnFind st.tree (fun b => b.type = .PILE) st.parent with
  | none => return st
  | some cur => eqnOpen st cur ({ · with type := .LIST })

/-! ## §4 Words -/

/-- The classes of characters that get different fonts. -/
inductive CharClass where
  | LET | DIG | PUN
deriving DecidableEq, Repr

/-- The class of the character at an index, after a character of the given class. -/
def charClass (p : CStr) (i : Nat) (ccl : CharClass) : CharClass :=
  let c := charAt p i
  if isalpha c then .LET
  else if isdigit c || (c = '.' && (ccl = .DIG || isdigit (charAt p (i + 1)))) then .DIG
  else .PUN

/-- The index after the character at an index, which may be an escape sequence. -/
def skipChar (p : CStr) (i : Nat) : EqnRes Nat :=
  if charAt p i = '\\' then
    match mandocEscape p i with
    | .error fault => .error (.escape p i fault)
    | .ok res => if res.rend ≤ p.length then .ok res.rend else .error (.escape p i .overrun)
  else .ok (i + 1)

/-- What is found out about the beginning of a word: the font, and the index where a part
    in another font begins. -/
structure WordPart where
  font : EqnFontt
  boundary : Option Nat
deriving DecidableEq, Repr

/-- The loop over the characters of a word, up to the first boundary. The character at `cp`
    has the class `ccl`. -/
def scanWord (p : CStr) : Nat → Nat → CharClass → EqnRes WordPart
  | 0, _, _ => .error .fuel
  | steps + 1, cp, ccl => do
    let ccln := charClass p (cp + 1) ccl
    let font := if ccl = .LET then .ITALIC else .ROMAN
    let cpn ← skipChar p cp
    -- No boundary after last character.
    if charAt p cpn = NUL then return { font := font, boundary := none }
    else if ccln = ccl && charAt p cp ≠ ',' && charAt p cpn ≠ ',' then
      scanWord p steps cpn ccln
    else return { font := font, boundary := some cpn }

/-- The first part of a word. -/
def wordPart (p : CStr) : EqnRes WordPart :=
  scanWord p (p.length + 1) 0 (charClass p 0 .LET)

/-- Make room for a new text box: if `parent` has got all the children it expects, a list
    takes the place of the last child `cur` and becomes the parent. -/
def eqnSplit (st : EqnParse) (cur : Nat) : EqnRes (EqnParse × Option Nat) := do
  if (st.tree.box st.parent).full then
    let tree ← eqnBoxEnlist st.ep.gsize st.tree st.parent cur
    return ({ st with tree := tree, parent := st.tree.count }, some st.tree.count)
  else return (st, none)

/-- The loop that splits the text `p` of the box `cur` into parts of the same font. -/
def eqnWordLoop : Nat → EqnParse → Nat → CStr → Option Nat → EqnRes EqnParse
  | 0, _, _, _, _ => .error .fuel
  | steps + 1, st, cur, p, split => do
    let part ← wordPart p
    let st := { st with tree := st.tree.modify cur ({ · with font := part.font }) }
    match part.boundary with
    | none =>
      match split with
      | none => return st
      | some split => eqnUp { st with parent := split }
    | some cpn =>
      let (st, list) ← eqnSplit st cur
      -- Append a new text box.
      let nbox := st.tree.count
      let tree ← eqnBoxAlloc st.ep.gsize st.tree st.parent
      let tree := tree.modify nbox ({ · with type := .TEXT, text := some (p.drop cpn) })
      -- Truncate the old box.
      let tree := tree.modify cur ({ · with text := some (p.take cpn) })
      eqnWordLoop steps { st with tree := tree } nbox (p.drop cpn) (list.or split)

/-- The font of a new text box, unless it is found out from the text. -/
def eqnTextFont (tok : EqnTok) (font : EqnFontt) : EqnFontt :=
  match tok with
  | .FUNC => .ROMAN
  | .QUOTED => if font = .NONE then .ITALIC else font
  | _ => font

/-- `case EQN_TOK__MAX` up to `case EQN_TOK_SYM` -/
def eqnText (tok : EqnTok) (p : CStr) (st : EqnParse) : EqnRes EqnParse := do
  let st ← eqnRewind st
  let cur := st.tree.count
  let tree ← eqnBoxAlloc st.ep.gsize st.tree st.parent
  let st := { st with tree := tree.modify cur fun b =>
    { b with type := .TEXT, text := some p, font := eqnTextFont tok b.font } }
  if tok ≠ .TOK__MAX || (st.tree.box cur).font ≠ .NONE || charAt p 0 = NUL then return st
  else eqnWordLoop (p.length + 1) st cur p none

/-! ## §5 The loop over the tokens -/

/-- The control statements, which do not change the tree. -/
def eqnControl (tok : EqnTok) (ep : EqnNode) : EqnRes EqnNode := do
  match tok with
  | .UNDEF => eqnUndef ep
  | .NDEFINE | .DEFINE => eqnDef ep
  | .TDEFINE =>
    let n ← eqnNext .NOSUB ep
    if n.tok = .EOF then return n.ep
    else
      let n ← eqnNext .QUOTED n.ep
      return n.ep
  | .DELIM => return eqnDelim ep
  | .GFONT | .FWD | .BACK | .DOWN | .UP =>
    let n ← eqnNext .SUB ep
    return n.ep
  | _ => return ep

/-- `switch (tok)`: process one token. -/
def eqnProcess (tok : EqnTok) (text : CStr) (st : EqnParse) : EqnRes EqnParse :=
  match tok with
  | .UNDEF | .NDEFINE | .DEFINE | .TDEFINE | .DELIM | .GFONT | .MARK | .LINEUP
  | .FWD | .BACK | .DOWN | .UP => do
    let ep ← eqnControl tok st.ep
    return { st with ep := ep }
  | .DYAD | .VEC | .UNDER | .BAR | .TILDE | .HAT | .DOT | .DOTDOT => eqnDiacritic tok st
  | .FAT => eqnList ({ · with font := .FAT }) st
  | .ROMAN => eqnList ({ · with font := .ROMAN }) st
  | .ITALIC => eqnList ({ · with font := .ITALIC }) st
  | .BOLD => eqnList ({ · with font := .BOLD }) st
  | .SIZE | .GSIZE => eqnSize tok st
  | .FROM | .TO | .SUB | .SUP => eqnScript tok st
  | .SQRT => eqnSqrt st
  | .OVER => eqnOver st
  | .RIGHT | .BRACE_CLOSE => eqnClose tok st
  | .BRACE_OPEN | .LEFT => eqnBracket tok st
  | .PILE | .LPILE | .RPILE | .CPILE | .CCOL | .LCOL | .RCOL => eqnPile .PILE st
  | .ABOVE => eqnAbove st
  | .MATRIX => eqnPile .MATRIX st
  | .EOF => .ok st
  | .TOK__MAX | .FUNC | .QUOTED | .SYM => eqnText tok text st

/-- `next_tok`: read one token and process it. This is the only place where `eqn_next()` can begin
    with a dangling `end`: the other calls are made right after a token has been found. -/
def eqnToken (st : EqnParse) : EqnRes (Loop.Next EqnParse EqnParse) := do
  if st.ep.dangling then .error .dangling
  let n ← eqnNext .TOK st.ep
  let st := { st with ep := n.ep }
  if n.tok = .EOF then return .done st
  else return .again (← eqnProcess n.tok n.text st)

/-- The state of `eqn_parse()` when it begins to read the text `data`. -/
def eqnParseStart (ep : EqnNode) (data : CStr) : EqnParse :=
  { ep := { ep with
      data := data, start := 0, next := 0, sublen := 0, subcnt := 0, dangling := false } }

/-- `eqn_parse()`, called with `ep->data`, for at most the given number of tokens. -/
def eqnParse (steps : Nat) (ep : EqnNode) (data : Option CStr) : EqnRes EqnParse :=
  match data with
  | none => .ok { ep := ep }
  | some data => Loop.run eqnToken .fuel steps (eqnParseStart ep data)

end Mandoc
