import Mandoc.Roff.CharNames
import Mandoc.Roff.Tables

/-!
# The man(7) Parser

Model of `man.c` and `man_macro.c`. Macros open and close blocks, and some of them only open a
next-line scope for an element or for the head of a block, which the following line completes or
breaks.

The syntax tree only grows and shrinks at the last node. It is kept as that node together with
its ancestors, each of them with its completed children. Nodes on the path from the last node to
the root are identified by the number of steps from the last node.

Reading the words of a line is the business of `roff_getarg()`, so a macro line comes with the
list of its arguments. Quick mode, messages, and the flags used for formatting only are left out.
The requests of `roff.c` that can break a next-line scope are included.
-/

namespace Mandoc

/-! ## §1 Macros -/

/-- The macros of `man_macros[]`. -/
inductive ManTok where
  | TH | SH | SS | TP | TQ | LP | PP | P | IP | HP | SM | SB | BI | IB | BR | RB | R | B | I | IR
  | RI | RE | RS | DT | UC | PD | AT | in_ | SY | YS | OP | EX | EE | UR | UE | MT | ME | MR
deriving DecidableEq, Repr

/-- The functions that handle macros. -/
inductive ManHandler where
  | blkClose | blkExp | blkImp | inLineEoln
deriving DecidableEq, Repr

/-- `struct man_macro` -/
structure ManMacro where
  fp : ManHandler
  /-- Optional next-line block scope. -/
  bscoped : Bool := false
  /-- Optional next-line element scope. -/
  escoped : Bool := false
  /-- Allowed in next-line element scope. -/
  nscoped : Bool := false
  /-- Exit next-line block scope. -/
  xscope : Bool := false
  /-- Join arguments together. -/
  join : Bool := false

/-- `man_macros[]` -/
def manMacros : ManTok → ManMacro
  | .TH => { fp := .inLineEoln, xscope := true }
  | .SH | .SS | .TP | .TQ => { fp := .blkImp, xscope := true, bscoped := true }
  | .LP | .PP | .P | .IP | .HP | .SY => { fp := .blkImp, xscope := true }
  | .SM | .SB | .R | .B | .I =>
    { fp := .inLineEoln, nscoped := true, escoped := true, join := true }
  | .BI | .IB | .BR | .RB | .IR | .RI | .OP | .MR => { fp := .inLineEoln }
  | .RE | .YS | .UE | .ME => { fp := .blkClose, xscope := true }
  | .RS | .UR | .MT => { fp := .blkExp, xscope := true }
  | .DT | .UC | .PD | .AT | .in_ => { fp := .inLineEoln, nscoped := true }
  | .EX | .EE => { fp := .inLineEoln, xscope := true }

/-- The tokens of nodes: text, requests, and macros. -/
inductive ManNodeTok where
  | TOKEN_NONE
  | ROFF_br | ROFF_sp | ROFF_ti | ROFF_nf | ROFF_fi | ROFF_ce | ROFF_rj | ROFF_TS | ROFF_EQ
  | MAN (tok : ManTok)
deriving DecidableEq, Repr

/-- `man_macro()`, with its assertion `tok >= MAN_TH && tok <= MAN_MAX`. -/
def manMacro : ManNodeTok → Res ManMacro
  | .MAN tok => .ok (manMacros tok)
  | _ => .error .abort

/-! ## §2 The syntax tree -/

/-- `struct roff_node`, with the children that are complete, the latest one first. -/
structure ManTree where
  tok : ManNodeTok := .TOKEN_NONE
  type : RoffType
  string : CStr := []
  /-- Decoded width of the argument, in a head. -/
  aux : Int := 0
  /-- The bit `NODE_VALID` of the flags. -/
  valid : Bool := false
  child : List ManTree := []

/-- The node gets another child. -/
def ManTree.add (p n : ManTree) : ManTree := { p with child := n :: p.child }

/-- `n->flags |= NODE_VALID` -/
def ManTree.complete (n : ManTree) : ManTree := { n with valid := true }

/-- `n->head` -/
def ManTree.head (n : ManTree) : Option ManTree := n.child.find? (·.type = .HEAD)

/-- A block with the given macro. -/
def ManTree.isBlock (tok : ManTok) (n : ManTree) : Bool := n.tok = .MAN tok && n.type = .BLOCK

/-- `struct roff_man`: the last node, its ancestors, and the state of the parser. -/
structure ManParser where
  last : ManTree
  /-- The parent of the last node, and so on up to the root. -/
  parents : List ManTree
  next : RoffNext
  /-- Next-line element scope. -/
  eline : Bool
  /-- Next-line block scope. -/
  bline : Bool
  /-- Fill mode switched off. -/
  nofill : Bool
  /-- Number registers. -/
  regtab : List Reg
  /-- `roffce_node`, as the number of its ancestors, and `roffce_lines`. -/
  ce : Option (Nat × Int)

/-- The state at the beginning of a document. -/
def ManParser.init : ManParser where
  last := { type := .ROOT }
  parents := []
  next := .CHILD
  eline := false
  bline := false
  nofill := false
  regtab := []
  ce := none

/-- `roff_node_append()` -/
def ManParser.append (man : ManParser) (n : ManTree) : Res ManParser :=
  match man.next, man.parents with
  | .CHILD, ps => .ok { man with last := n, parents := man.last :: ps }
  | .SIBLING, p :: ps => .ok { man with last := n, parents := p.add man.last :: ps }
  | .SIBLING, [] => .error .null

/-- `roff_elem_alloc()`, `roff_block_alloc()`, `roff_head_alloc()`, and `roff_body_alloc()` -/
def ManParser.alloc (man : ManParser) (type : RoffType) (tok : ManNodeTok) : Res ManParser := do
  let man ← man.append { tok := tok, type := type }
  return { man with next := .CHILD }

/-- A node is appended that is not going to have children. -/
def ManParser.appendLeaf (man : ManParser) (n : ManTree) : Res ManParser := do
  let man ← man.append n
  return { man with next := .SIBLING }

/-- `roff_word_alloc()` -/
def ManParser.wordAlloc (man : ManParser) (word : CStr) : Res ManParser :=
  man.appendLeaf { type := .TEXT, string := word, valid := true }

/-- `roff_word_append()` -/
def ManParser.wordAppend (man : ManParser) (word : CStr) : ManParser :=
  { man with
    last := { man.last with string := man.last.string ++ ' ' :: word }
    next := .SIBLING }

/-- `roff_node_delete()` for the node the given number of steps above the last one. -/
def ManParser.delete (man : ManParser) (k : Nat) : Res ManParser :=
  match man.parents.drop k with
  | [] => .error .null
  | p :: ps =>
    match p.child with
    | [] => .ok { man with last := p, parents := ps, next := .CHILD }
    | c :: cs =>
      .ok { man with last := c, parents := { p with child := cs } :: ps, next := .SIBLING }

/-! ## §3 Closing scopes -/

/-- Go up the given number of steps, and complete all the nodes on the way. -/
def rewind : Nat → ManTree → List ManTree → Res (ManTree × List ManTree)
  | 0, n, ps => .ok (n.complete, ps)
  | k + 1, n, p :: ps => rewind k (p.add n.complete) ps
  | _ + 1, _, [] => .error .null

/-- `man_unscope()` for the node the given number of steps above the last one, which is not the
    root. -/
def manUnscope (man : ManParser) (k : Nat) : Res ManParser := do
  let (last, parents) ← rewind k man.last man.parents
  return { man with last := last, parents := parents, next := .SIBLING }

/-- Closing scopes in favour of a macro stops at this block. -/
def stops (tok : ManTok) (n : ManTree) : Res Bool :=
  if tok = .SH then .ok false
  else if n.tok = .MAN .SH then .ok true
  else if tok = .SS then .ok false
  else if n.tok = .MAN .SS then .ok true
  else do
    let m ← manMacro n.tok
    return m.fp = .blkExp

/-- The loop of `rew_scope()`, at the node the given number of steps above the last one. -/
def rewScopeLoop (tok : ManTok) : Nat → ManParser → Nat → Res ManParser
  | 0, _, _ => .error .fuel
  | fuel + 1, man, k =>
    match (man.last :: man.parents).drop k with
    | [] => .error .null
    | n :: ps =>
      if n.type = .ROOT then .ok man
      else if n.valid then rewScopeLoop tok fuel man (k + 1)
      else if n.type ≠ .BLOCK then
        match ps with
        | [] => .error .null
        | p :: _ =>
          if p.type = .ROOT then manUnscope man k
          else rewScopeLoop tok fuel man (k + 1)
      else do
        let stop ← stops tok n
        if stop then return man
        else
          let man ← manUnscope man k
          rewScopeLoop tok fuel man 0

/-- The macros `P`, `PP`, and `LP`. -/
def ManNodeTok.isPar (tok : ManNodeTok) : Bool :=
  tok = .MAN .LP || tok = .MAN .PP || tok = .MAN .P

/-- `rew_scope()` -/
def rewScope (man : ManParser) (tok : ManTok) : Res ManParser :=
  -- Preserve empty paragraphs before RS.
  if tok = .RS && man.last.child.isEmpty && man.last.tok.isPar then .ok man
  else rewScopeLoop tok (3 * man.parents.length + 3) man 0

/-- Close out all next-line element scopes: the loop of `man_descope()`. -/
def descopeLoop : Nat → ManParser → Res ManParser
  | 0, _ => .error .fuel
  | fuel + 1, man =>
    match man.parents with
    | [] => .error .null
    | p :: _ =>
      if p.type = .ROOT then .ok man
      else do
        let m ← manMacro p.tok
        if m.escoped then
          let man ← manUnscope man 1
          descopeLoop fuel man
        else return man

/-- Whether `man_hasc()` finds a `\c` at the end of the string. -/
def manHasc (start : CStr) : Bool :=
  match start.reverse with
  | 'c' :: '\\' :: s => (s.takeWhile (· = '\\')).length % 2 = 0
  | _ => false

/-- Switch from the head of a block, the given number of steps above the last node, to its
    body. -/
def ManParser.body (man : ManParser) (k : Nat) : Res ManParser := do
  let man ← manUnscope man k
  let man ← man.alloc .BODY man.last.tok
  return { man with bline := false }

/-- Close out the next-line element scopes, if any. -/
def descopeElems (man : ManParser) : Res ManParser :=
  if man.eline then do
    let man ← descopeLoop (man.parents.length + 1) man
    return { man with eline := false }
  else .ok man

/-- `man_descope()` -/
def manDescope (man : ManParser) (start : Option CStr) : Res ManParser := do
  let man ← descopeElems man
  -- Trailing \c keeps next-line block scope open.
  if start.any manHasc || !man.bline then return man
  else man.body 1

/-! ## §4 Breaking scopes -/

/-- `n->tok < MAN_TH`, or the flags of the macro meet the condition. -/
def ManNodeTok.orMacro (tok : ManNodeTok) (p : ManMacro → Bool) : Bool :=
  match tok with
  | .MAN tok => p (manMacros tok)
  | _ => true

/-- The ancestor from which next-line element scopes are no longer open, at the node the given
    number of steps above the last one. -/
def outerElem : Nat → List ManTree → Res Nat
  | _, [] => .error .null
  | k, p :: ps =>
    if p.type ≠ .ELEM then .ok k
    else do
      let m ← manMacro p.tok
      if m.escoped then outerElem (k + 1) ps else return k

/-- The innermost open element or head: the parent of the last node instead of the last node
    if that is text, and also if it is not what is being broken. -/
def brokenScope (man : ManParser) (skip : ManMacro → Bool) : Res Nat :=
  let k := if man.last.type = .TEXT then 1 else 0
  match (man.last :: man.parents).drop k with
  | [] => .error .null
  | n :: _ => .ok (if n.tok.orMacro skip then k + 1 else k)

/-- Delete the element that is being broken. -/
def breakElem (man : ManParser) (tok : ManNodeTok) : Res ManParser :=
  if man.eline && tok.orMacro (!·.nscoped) then do
    let k ← brokenScope man fun m => m.nscoped && !m.escoped
    let k ← outerElem k (man.parents.drop k)
    let man ← man.delete k
    return { man with eline := false }
  else .ok man

/-- Switching fill mode closes section headers. -/
def breakFill (man : ManParser) (tok : ManNodeTok) : Res ManParser :=
  if man.bline && (tok = .ROFF_nf || tok = .ROFF_fi) &&
      (man.last.tok = .MAN .SH || man.last.tok = .MAN .SS) then
    man.body 0
  else .ok man

/-- Delete the block whose head is being broken. -/
def breakBlock (man : ManParser) (tok : ManNodeTok) : Res ManParser :=
  if man.bline && tok ≠ .ROFF_nf && tok ≠ .ROFF_fi && tok.orMacro (·.xscope) then do
    let k ← brokenScope man (!·.xscope)
    match (man.last :: man.parents).drop k with
    | n :: p :: _ =>
      -- assert(n->type == ROFFT_HEAD), and assert(n->type == ROFFT_BLOCK) for its parent.
      if n.type ≠ .HEAD ∨ p.type ≠ .BLOCK then .error .abort
      else do
        -- assert(man_macro(n->tok)->flags & MAN_BSCOPED)
        let m ← manMacro p.tok
        if m.bscoped then
          let man ← man.delete (k + 1)
          return { man with bline := false }
        else .error .abort
    | _ => .error .null
  else .ok man

/-- `man_breakscope()` -/
def manBreakscope (man : ManParser) (tok : ManNodeTok) : Res ManParser := do
  let man ← breakElem man tok
  let man ← breakFill man tok
  breakBlock man tok

/-! ## §5 Handlers of macros -/

/-- An argument: what `man_args()` returns, and the text of the line from there on. -/
structure ManArg where
  p : CStr
  text : CStr

/-- The value of `strtod(p, NULL) * 24.0` as an `int`. -/
abbrev WidthOf := CStr → Int

/-- `roff_setreg()` -/
def roffSetreg (regtab : List Reg) (name : String) (val : Int) (sign : Char) : List Reg :=
  roffSetregn regtab name.toList val sign none

/-- `roff_getreg()` for a register that is not read-only: an undefined register is defined to be
    zero. -/
def roffGetreg (regtab : List Reg) (name : String) : Int × List Reg :=
  match regtab.find? (·.key = name.toList) with
  | some reg => (reg.val, regtab)
  | none => (0, roffSetreg regtab name 0 NUL)

/-- The line arguments of a macro, as words of their own. -/
def wordsLoop : List ManArg → ManParser → Res ManParser
  | [], man => .ok man
  | a :: args, man => do
    let man ← man.wordAlloc a.p
    wordsLoop args man

/-- Steps from the last node to the node that got the arguments. -/
def ownerOf (args : List ManArg) : Nat := if args.isEmpty then 0 else 1

/-- The macros `SH` and `SS`. -/
def ManTok.isHeading (tok : ManTok) : Bool := tok = .SH || tok = .SS

/-- `blk_imp()` -/
def blkImp (tok : ManTok) (args : List ManArg) (man : ManParser) : Res ManParser := do
  let man ← rewScope man tok
  let man := { man with nofill := man.nofill && !tok.isHeading }
  let man ← man.alloc .BLOCK (.MAN tok)
  let man ← man.alloc .HEAD (.MAN tok)
  -- Add line arguments.
  let man ← wordsLoop args man
  -- Keep the head open if there were no arguments, and for TP and TQ always.
  if (manMacros tok).bscoped && (tok = .TP || tok = .TQ || args.isEmpty) then
    return { man with bline := true }
  else
    -- Close out the head and open the body.
    let man ← manUnscope man (ownerOf args)
    man.alloc .BODY (.MAN tok)

/-- The node with the given width. -/
def ManTree.withAux (n : ManTree) (aux : Int) : ManTree := { n with aux := aux }

/-- The register starts out with the default margin, and a positive width increments it. -/
def openMargin (width : Int) (regtab : List Reg) : List Reg :=
  let (val, regtab) := roffGetreg regtab "an-margin"
  let regtab := if val = 0 then roffSetreg regtab "an-margin" (5 * 24) '=' else regtab
  if width > 0 then roffSetreg regtab "an-margin" width '+' else regtab

/-- The width of an `RS` block is put down in its head, and counts for the register. -/
def setMargin (width : WidthOf) (p : CStr) (man : ManParser) : ManParser :=
  { man with
    regtab := openMargin (width p) man.regtab
    parents := man.parents.modifyHead (·.withAux (width p)) }

/-- The optional argument of an explicit block. -/
def expArg (width : WidthOf) (tok : ManTok) (args : List ManArg) (man : ManParser) :
    Res ManParser :=
  match args with
  | [] => .ok man
  | a :: _ => do
    let man ← man.wordAlloc a.p
    return if tok = .RS then setMargin width a.p man else man

/-- `blk_exp()` -/
def blkExp (width : WidthOf) (tok : ManTok) (args : List ManArg) (man : ManParser) :
    Res ManParser := do
  let man ← (if tok = .RS then rewScope man tok else .ok man : Res ManParser)
  let man ← man.alloc .BLOCK (.MAN tok)
  let man ← man.alloc .HEAD (.MAN tok)
  let man ← expArg width tok args man
  let man ← manUnscope man (ownerOf args)
  man.alloc .BODY (.MAN tok)

/-- How many blocks to find before the one to close, counting that one, and the arguments that
    are left. The list contains the blocks to choose from. -/
def reTarget (args : List ManArg) (blocks : List ManTree) : Option Nat × List ManArg :=
  match args with
  | [] => (some 1, [])
  | a :: args =>
    -- The number is converted to int.
    let target := Int.bmod (strtol a.p 10).1 (2 ^ 32)
    let target := if target = 0 then 1 else target
    let nrew := 1 + (blocks.countP (·.isBlock .RS) : Int) - target
    (if nrew < 1 then none else some nrew.toNat, args)

/-- How many blocks to find for the macro, and the arguments that are left. -/
def closeTarget (tok : ManTok) (args : List ManArg) (blocks : List ManTree) :
    Option Nat × List ManArg :=
  if tok = .RE then reTarget args blocks else (some 1, args)

/-- Find the block to close: the nodes that are passed before it is found. -/
def findBlock (tok : ManTok) : Nat → List ManTree → Option (List ManTree)
  | _, [] => none
  | nrew, nn :: ps =>
    if nn.isBlock tok then
      if nrew - 1 = 0 then some []
      else (findBlock tok (nrew - 1) ps).map (nn :: ·)
    else (findBlock tok nrew ps).map (nn :: ·)

/-- The macro that opens the block which a macro closes. -/
def ManTok.ntok : ManTok → Option ManTok
  | .RE => some .RS
  | .YS => some .SY
  | .UE => some .UR
  | .ME => some .MT
  | _ => none

/-- A positive width decrements the register. -/
def closeMargin (width : Int) (regtab : List Reg) : List Reg :=
  if width > 0 then roffSetreg regtab "an-margin" width '-' else regtab

/-- Subtract the width of the block that has been closed: `nn->head->aux`. -/
def subMargin (man : ManParser) : Res ManParser :=
  match man.last.head with
  | none => .error .null
  | some head => .ok { man with regtab := closeMargin head.aux man.regtab }

/-- Trailing text: `buf + *pos` as one word. -/
def trailText (args : List ManArg) (man : ManParser) : Res ManParser :=
  match args with
  | [] => .ok man
  | a :: _ => man.wordAlloc a.text

/-- An element without arguments that counts as complete. -/
def ManParser.emptyElem (man : ManParser) (tok : ManNodeTok) : Res ManParser :=
  man.appendLeaf { tok := tok, type := .ELEM, valid := true }

/-- No block to close has been found. -/
def notOpen (tok : ManTok) (man : ManParser) : Res ManParser := do
  let man ← rewScope man .PP
  if tok = .RE then man.emptyElem .ROFF_br else return man

/-- Move a trailing paragraph behind the block that has been closed. -/
def movePar (ctok : ManNodeTok) (man : ManParser) : Res ManParser :=
  match ctok with
  | .MAN tok => if ctok.isPar then blkImp tok [] man else .ok man
  | _ => .ok man

/-- Close the block that has been found, the given number of steps above the last node. -/
def closeBlock (tok : ManTok) (args : List ManArg) (k : Nat) (man : ManParser) :
    Res ManParser := do
  let ctok := man.last.tok
  let man ← manUnscope man k
  let man ← (if tok = .RE then subMargin man else .ok man : Res ManParser)
  let man ← trailText args man
  let man ← movePar ctok man
  -- Synopsis blocks need an explicit end marker, if the block is still the last node.
  if tok = .YS && args.isEmpty && !ctok.isPar then
    let man ← man.alloc .ELEM (.MAN tok)
    manUnscope man 0
  else return man

/-- `blk_close()` -/
def blkClose (tok : ManTok) (args : List ManArg) (man : ManParser) : Res ManParser :=
  match tok.ntok with
  | none => .error .abort
  | some ntok =>
    let (nrew, args) := closeTarget tok args man.parents
    match nrew with
    -- Fewer than that many blocks are open.
    | none => .ok man
    | some nrew =>
      match findBlock ntok nrew man.parents with
      | none => notOpen tok man
      | some below => closeBlock tok args (below.length + 1) man

/-- The arguments of an element. -/
def elemWords (tok : ManTok) : List ManArg → ManParser → Res ManParser
  | [], man => .ok man
  | a :: args, man => do
    let man ← (if (manMacros tok).join && man.last.type = .TEXT then .ok (man.wordAppend a.p)
      else man.wordAlloc a.p : Res ManParser)
    -- Excess arguments of PD are dropped.
    if tok = .PD then return man
    else elemWords tok args man

/-- `in_line_eoln()` -/
def inLineEoln (tok : ManTok) (args : List ManArg) (man : ManParser) : Res ManParser := do
  let man ← man.alloc .ELEM (.MAN tok)
  let man := { man with nofill := (man.nofill || tok = .EX) && !(tok = .EE) }
  let man ← elemWords tok args man
  -- Without arguments, wait for terms to load into the context.
  if args.isEmpty && (manMacros tok).escoped then return { man with eline := true }
  else
    -- Rewind our element scope.
    let man ← manUnscope man (ownerOf args)
    -- Rewind next-line scoped ancestors, if any.
    if (manMacros tok).escoped then manDescope man none else return man

/-! ## §6 Requests -/

/-- Leave the nodes below the one with the given number of ancestors as they are, and make that
    node the last one. -/
def popTo (depth : Nat) : ManTree → List ManTree → ManTree × List ManTree
  | n, [] => (n, [])
  | n, p :: ps => if (p :: ps).length = depth then (n, p :: ps) else popTo depth (p.add n) ps

/-- `man->last = roffce_node`, and the next node becomes a sibling of it. -/
def ManParser.leaveCe (man : ManParser) (depth : Nat) : ManParser :=
  { man with
    last := (popTo depth man.last man.parents).1
    parents := (popTo depth man.last man.parents).2
    next := .SIBLING }

/-- Macros, tables, and equations abort centering: `roff_req_or_macro()`. -/
def abortCentering (man : ManParser) : ManParser :=
  match man.ce with
  | none => man
  | some (depth, _) => { man.leaveCe depth with ce := none }

/-- Another line of text is centered: `roff_parsetext()`. -/
def countCentered (buf : CStr) (man : ManParser) : ManParser :=
  match man.ce with
  | none => man
  | some (depth, lines) =>
    if buf = [] then man
    else if lines < 1 then { man.leaveCe depth with ce := none }
    else { man with ce := some (depth, lines - 1) }

/-- Requests break next-line scopes only while there are any. -/
def requestBreak (tok : ManNodeTok) (man : ManParser) : Res ManParser :=
  if man.bline || man.eline then manBreakscope man tok else .ok man

/-- `roff_noarg()` for `br`, `nf`, and `fi`. -/
def manNoarg (tok : ManNodeTok) (man : ManParser) : Res ManParser := do
  let man ← requestBreak tok man
  let man ← man.emptyElem tok
  return { man with nofill := (man.nofill || tok = .ROFF_nf) && !(tok = .ROFF_fi) }

/-- `roff_onearg()` for `sp` and `ti`. -/
def manOnearg (tok : ManNodeTok) (word : CStr) (man : ManParser) : Res ManParser := do
  let man ← requestBreak tok man
  let man ← man.alloc .ELEM tok
  if word = [] then manUnscope man 0
  else
    let man ← man.wordAlloc word
    manUnscope man 1

/-- `roff_onearg()` for `ce` and `rj`, where `roff_evalnum()` yields a number of lines: what
    follows becomes part of the element while there are lines to center. -/
def manCentering (tok : ManNodeTok) (word : CStr) (lines : Int) (man : ManParser) :
    Res ManParser := do
  let man ← requestBreak tok man
  let man := abortCentering man
  let man ← man.alloc .ELEM tok
  let man ← man.wordAlloc (if word = [] then ['1'] else word)
  let depth := man.parents.length - 1
  if lines < 1 then return man.leaveCe depth
  else return { man with ce := some (depth, lines) }

/-- The rows of a table are appended. -/
def appendSpans : Nat → ManParser → Res ManParser
  | 0, man => .ok man
  | n + 1, man => do
    let man ← man.appendLeaf { type := .TBL, valid := true }
    appendSpans n man

/-- `roff_addtbl()` -/
def manAddtbl (spans : Nat) (man : ManParser) : Res ManParser := do
  let man ← manBreakscope (abortCentering man) .ROFF_TS
  appendSpans spans man

/-- `roff_EQ()` -/
def manEQ (man : ManParser) : Res ManParser := do
  let man ← manBreakscope (abortCentering man) .ROFF_EQ
  man.appendLeaf { type := .EQN }

/-! ## §7 Input lines -/

/-- The lines of a man(7) document: macros, text, and the requests that break next-line
    scopes. -/
inductive ManLine where
  | mac (tok : ManTok) (args : List ManArg)
  | text (buf : CStr)
  /-- `br` -/
  | br
  /-- `nf` -/
  | nf
  /-- `fi` -/
  | fi
  /-- `sp` with an argument, or without one. -/
  | sp (word : CStr)
  /-- `ti` -/
  | ti (word : CStr)
  /-- `ce` with the number of lines that is found in its argument. -/
  | ce (word : CStr) (lines : Int)
  /-- `rj` -/
  | rj (word : CStr) (lines : Int)
  /-- A table with the given number of rows. -/
  | tbl (spans : Nat)
  /-- The beginning of an equation. -/
  | eqn

/-- Spin back to the last byte that is not a blank. -/
def spinBack (s : CStr) : Nat → Nat
  | 0 => 0
  | i + 1 => if charAt s (i + 1) = ' ' then spinBack s i else i + 1

/-- Strip away trailing white space (tabs stay). -/
def stripEnd (s : CStr) : CStr :=
  let c := charAt s (s.length - 1)
  if c = ' ' ∨ c = '\t' then
    let i := spinBack s (s.length - 1)
    -- Jump ahead of escaped whitespace.
    s.take (i + if charAt s i = '\\' then 2 else 1)
  else s

/-- A blank line in `man_ptext()`. -/
def blankLine (man : ManParser) : Res ManParser :=
  if man.eline || man.bline then .ok man
  else if man.last.tok = .MAN .SH || man.last.tok = .MAN .SS then .ok man
  else if man.last.type = .TEXT && manHasc man.last.string then
    .ok { man with last := { man.last with string := man.last.string.dropLast.dropLast } }
  else man.appendLeaf { tok := .ROFF_sp, type := .ELEM }

/-- `man_ptext()` -/
def manPtext (buf : CStr) (man : ManParser) : Res ManParser :=
  -- In no-fill mode, whitespace is preserved on text lines.
  if man.nofill then do
    let man ← man.wordAlloc buf
    manDescope man (some buf)
  else if buf.all (· = ' ') then blankLine man
  else do
    let man ← man.wordAlloc (stripEnd buf)
    manDescope man (some (stripEnd buf))

/-- The function that handles a macro. -/
def manHandler (width : WidthOf) (tok : ManTok) (args : List ManArg) (man : ManParser) :
    Res ManParser :=
  match (manMacros tok).fp with
  | .blkClose => blkClose tok args man
  | .blkExp => blkExp width tok args man
  | .blkImp => blkImp tok args man
  | .inLineEoln => inLineEoln tok args man

/-- `man_pmacro()` -/
def manPmacro (width : WidthOf) (tok : ManTok) (args : List ManArg) (man : ManParser) :
    Res ManParser := do
  let man ← manBreakscope man (.MAN tok)
  -- A trailing \c keeps the next-line scope open.
  let bline := man.bline && !(args.head?.any (manHasc ·.text))
  let man ← manHandler width tok args man
  -- Close out the next-line scope for a block head unless it is allowed to continue.
  if !bline || !man.bline || man.eline || (manMacros tok).nscoped then return man
  else man.body 1

/-- Parse one line. -/
def manLine (width : WidthOf) (man : ManParser) : ManLine → Res ManParser
  | .mac tok args => manPmacro width tok args (abortCentering man)
  | .text buf => manPtext buf (countCentered buf man)
  | .br => manNoarg .ROFF_br man
  | .nf => manNoarg .ROFF_nf man
  | .fi => manNoarg .ROFF_fi man
  | .sp word => manOnearg .ROFF_sp word man
  | .ti word => manOnearg .ROFF_ti word man
  | .ce word lines => manCentering .ROFF_ce word lines man
  | .rj word lines => manCentering .ROFF_rj word lines man
  | .tbl spans => manAddtbl spans man
  | .eqn => manEQ man

/-- Parse the lines one after the other. -/
def manLines (width : WidthOf) (lines : List ManLine) : Res ManParser :=
  lines.foldlM (manLine width) ManParser.init

/-! ## §8 The end of the document -/

/-- Whether the end of the document breaks a next-line scope at this node. -/
def breaksAtEnd (man : ManParser) (n : ManTree) : Res Bool :=
  if n.valid then .ok false
  else if man.bline || man.eline then do
    let m ← manMacro n.tok
    return m.bscoped || m.nscoped
  else .ok false

/-- Whether an element with the given parent is the outermost one in next-line scope. -/
def isOuter (p : ManTree) : Res Bool :=
  if p.type = .ROOT then .ok true
  else do
    let m ← manMacro p.tok
    return !m.escoped

/-- The loop of `man_unscope()` up to the end of the document, at the node `n` with the given
    ancestors. Broken nodes are deleted. The number of iterations is bounded. -/
def endLoop : Nat → ManParser → ManTree → List ManTree → Res ManParser
  | 0, _, _, _ => .error .fuel
  | fuel + 1, man, n, ps => do
    let broken ← breaksAtEnd man n
    if broken then
      match ps with
      | [] => .error .null
      | p :: ps =>
        if man.eline then
          let outer ← isOuter p
          endLoop fuel { man with eline := !outer } p ps
        -- assert(n->type == ROFFT_HEAD)
        else if n.type ≠ .HEAD then .error .abort
        else
          match ps with
          | [] => .error .null
          | q :: ps => endLoop fuel { man with bline := false } q ps
    else
      match ps with
      | [] => return { man with last := n.complete, parents := [], next := .SIBLING }
      | p :: ps => endLoop fuel man (p.add n.complete) ps

/-- `man_endparse()` -/
def manEndparse (man : ManParser) : Res ManParser :=
  endLoop (man.parents.length + 1) man man.last man.parents

end Mandoc
