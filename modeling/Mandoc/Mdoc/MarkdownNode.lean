import Mandoc.Mdoc.ListIndent
import Mandoc.Roff.Node

/-!
# Markdown Containers

Markdown code blocks, block quotes, and list items are indented or marked at the beginning of each
line. The formatter `mdoc_markdown.c` keeps the markup in a stack, and it counts the blocks of each
kind. This file models `md_node()`, as far as the stack and the counters are concerned. The text that
is printed, and the flags for white space, do not influence them, and they are left out.
-/

namespace Mandoc

/-! ## §1 The syntax tree -/

/-- The mdoc(7) macros in `enum roff_tok`. -/
inductive MdocTok where
  | Dd | Dt | Os | Sh | Ss | Pp | D1 | Dl | Bd | Ed | Bl | El | It | Ad | An | Ap | Ar | Cd | Cm
  | Dv | Er | Ev | Ex | Fa | Fd | Fl | Fn | Ft | Ic | In | Li | Nd | Nm | Op | Ot | Pa | Rv | St
  | Va | Vt | Xr | _A | _B | _D | _I | _J | _N | _O | _P | _R | _T | _V | Ac | Ao | Aq | At | Bc
  | Bf | Bo | Bq | Bsx | Bx | Db | Dc | Do | Dq | Ec | Ef | Em | Eo | Fx | Ms | No | Ns | Nx | Ox
  | Pc | Pf | Po | Pq | Qc | Ql | Qo | Qq | Re | Rs | Sc | So | Sq | Sm | Sx | Sy | Tn | Ux | Xc
  | Xo | Fo | Fc | Oo | Oc | Bk | Ek | Bt | Hf | Fr | Ud | Lb | Lp | Lk | Mt | Brq | Bro | Brc
  | _C | Es | En | Dx | _Q | _U | Ta | Tg
deriving DecidableEq, Repr

/-- The token of a node. -/
inductive MdTok where
  /-- A request that generates nodes. -/
  | roff
  /-- `TOKEN_NONE` -/
  | none
  | mdoc (tok : MdocTok)
deriving DecidableEq, Repr

/-- `enum mdoc_disp` -/
inductive MdocDisp where
  | none | centered | ragged | unfilled | filled | literal
deriving DecidableEq, Repr

/-- `enum mdoc_auth` -/
inductive MdocAuth where
  | none | split | nosplit
deriving DecidableEq, Repr

/-- `union mdoc_data`: the normalized arguments. -/
inductive MdocData where
  | none
  | Bd (type : MdocDisp)
  | Bl (type : MdocList)
  | An (auth : MdocAuth)
deriving DecidableEq, Repr

/-- `struct roff_node`, apart from the pointers that form the tree. -/
structure MdInfo where
  /-- The identity of the node. -/
  id : Nat
  type : RoffType
  tok : MdTok
  /-- `NODE_NOPRT` -/
  noprt : Bool
  /-- `n->body`, if the node is an end marker. -/
  endBody : Option Nat
  norm : MdocData
  string : CStr
deriving DecidableEq, Repr

/-- A node with its children. -/
inductive MdNode where
  | mk (n : MdInfo) (child : List MdNode)

/-- The data of a node. -/
def MdNode.info : MdNode → MdInfo
  | .mk n _ => n

/-- The children of a node. -/
def MdNode.child : MdNode → List MdNode
  | .mk _ child => child

/-! ## §2 The stack and the counters -/

/-- The static variables. -/
structure MdState where
  /-- The string in `md_stack()`. -/
  stack : CStr
  codeBlocks : Int
  quoteBlocks : Int
  listBlocks : Int
  /-- `NODE_ENDED` -/
  ended : Nat → Bool
  /-- The values that the three counters had. -/
  seen : List (Int × Int × Int)

/-- The static variables at the beginning. -/
def MdState.init : MdState := ⟨[], 0, 0, 0, fun _ => false, []⟩

namespace MdState

/-- Record the values of the counters. -/
def record (st : MdState) : MdState :=
  { st with seen := st.seen ++ [(st.codeBlocks, st.quoteBlocks, st.listBlocks)] }

/-- `code_blocks += k` -/
def addCode (k : Int) (st : MdState) : MdState := { st with codeBlocks := st.codeBlocks + k }.record

/-- `quote_blocks += k` -/
def addQuote (k : Int) (st : MdState) : MdState := { st with quoteBlocks := st.quoteBlocks + k }.record

/-- `list_blocks += k` -/
def addList (k : Int) (st : MdState) : MdState := { st with listBlocks := st.listBlocks + k }.record

/-- `md_stack(c)` -/
def push (c : Char) (st : MdState) : MdState := { st with stack := st.stack ++ [c] }

/-- `md_stack((char)-1)` -/
def pop (st : MdState) : Res MdState :=
  if st.stack = [] then .error .abort else .ok { st with stack := st.stack.dropLast }

/-- Set or clear `NODE_ENDED`. -/
def setEnded (id : Nat) (b : Bool) (st : MdState) : MdState :=
  { st with ended := Function.update st.ended id b }

end MdState

/-! ## §3 Handlers -/

/-- `md_cond_*()` -/
inductive MdCond where
  | head | body
deriving DecidableEq, Repr

/-- `md_pre_*()` -/
inductive MdPre where
  | abort | raw | word | skip | An | Ap | Bd | Bk | Bl | D1 | Dl | En | Eo | Fa | Fd | Fn | Fo | In
  | It | Lk | Mt | Nd | Nm | No | Ns | Pp | Rs | Sh | Sm | Vt | Xr | _R | _T
deriving DecidableEq, Repr

/-- `md_post_*()` -/
inductive MdPost where
  | raw | word | pc | Bk | Bl | D1 | En | Eo | Fa | Fd | Fl | Fn | Fo | In | It | Lb | Nm | Pf | Vt
  | _T
deriving DecidableEq, Repr

/-- `struct md_act` -/
structure MdAct where
  cond : Option MdCond
  pre : Option MdPre
  post : Option MdPost
  /-- Pre-node string constant. -/
  before : Option String
  /-- Post-node string constant. -/
  after : Option String
deriving DecidableEq, Repr

/-- `md_acts[]` -/
def mdActs : MdocTok → MdAct
  | .Dd => ⟨none, none, none, none, none⟩
  | .Dt => ⟨none, none, none, none, none⟩
  | .Os => ⟨none, none, none, none, none⟩
  | .Sh => ⟨none, some .Sh, none, none, none⟩
  | .Ss => ⟨none, some .Sh, none, none, none⟩
  | .Pp => ⟨none, some .Pp, none, none, none⟩
  | .D1 => ⟨some .body, some .D1, some .D1, none, none⟩
  | .Dl => ⟨some .body, some .Dl, some .D1, none, none⟩
  | .Bd => ⟨some .body, some .Bd, some .D1, none, none⟩
  | .Ed => ⟨none, none, none, none, none⟩
  | .Bl => ⟨some .body, some .Bl, some .Bl, none, none⟩
  | .El => ⟨none, none, none, none, none⟩
  | .It => ⟨none, some .It, some .It, none, none⟩
  | .Ad => ⟨none, some .raw, some .raw, some "*", some "*"⟩
  | .An => ⟨none, some .An, none, none, none⟩
  | .Ap => ⟨none, some .Ap, none, none, none⟩
  | .Ar => ⟨none, some .raw, some .raw, some "*", some "*"⟩
  | .Cd => ⟨none, some .raw, some .raw, some "**", some "**"⟩
  | .Cm => ⟨none, some .raw, some .raw, some "**", some "**"⟩
  | .Dv => ⟨none, some .raw, some .raw, some "`", some "`"⟩
  | .Er => ⟨none, some .raw, some .raw, some "`", some "`"⟩
  | .Ev => ⟨none, some .raw, some .raw, some "`", some "`"⟩
  | .Ex => ⟨none, none, none, none, none⟩
  | .Fa => ⟨none, some .Fa, some .Fa, none, none⟩
  | .Fd => ⟨none, some .Fd, some .Fd, some "**", some "**"⟩
  | .Fl => ⟨none, some .raw, some .Fl, some "**-", some "**"⟩
  | .Fn => ⟨none, some .Fn, some .Fn, none, none⟩
  | .Ft => ⟨none, some .Fd, some .raw, some "*", some "*"⟩
  | .Ic => ⟨none, some .raw, some .raw, some "**", some "**"⟩
  | .In => ⟨none, some .In, some .In, none, none⟩
  | .Li => ⟨none, some .raw, some .raw, some "`", some "`"⟩
  | .Nd => ⟨some .head, some .Nd, none, none, none⟩
  | .Nm => ⟨none, some .Nm, some .Nm, some "**", some "**"⟩
  | .Op => ⟨some .body, some .word, some .word, some "[", some "]"⟩
  | .Ot => ⟨none, some .abort, none, none, none⟩
  | .Pa => ⟨none, some .raw, some .raw, some "*", some "*"⟩
  | .Rv => ⟨none, none, none, none, none⟩
  | .St => ⟨none, none, none, none, none⟩
  | .Va => ⟨none, some .raw, some .raw, some "*", some "*"⟩
  | .Vt => ⟨none, some .Vt, some .Vt, some "*", some "*"⟩
  | .Xr => ⟨none, some .Xr, none, none, none⟩
  | ._A => ⟨none, none, some .pc, none, none⟩
  | ._B => ⟨none, some .raw, some .pc, some "*", some "*"⟩
  | ._D => ⟨none, none, some .pc, none, none⟩
  | ._I => ⟨none, some .raw, some .pc, some "*", some "*"⟩
  | ._J => ⟨none, some .raw, some .pc, some "*", some "*"⟩
  | ._N => ⟨none, none, some .pc, none, none⟩
  | ._O => ⟨none, none, some .pc, none, none⟩
  | ._P => ⟨none, none, some .pc, none, none⟩
  | ._R => ⟨none, some ._R, some .pc, none, none⟩
  | ._T => ⟨none, some ._T, some ._T, none, none⟩
  | ._V => ⟨none, none, some .pc, none, none⟩
  | .Ac => ⟨none, none, none, none, none⟩
  | .Ao => ⟨some .body, some .word, some .word, some "<", some ">"⟩
  | .Aq => ⟨some .body, some .word, some .word, some "<", some ">"⟩
  | .At => ⟨none, none, none, none, none⟩
  | .Bc => ⟨none, none, none, none, none⟩
  | .Bf => ⟨none, none, none, none, none⟩
  | .Bo => ⟨some .body, some .word, some .word, some "[", some "]"⟩
  | .Bq => ⟨some .body, some .word, some .word, some "[", some "]"⟩
  | .Bsx => ⟨none, none, none, none, none⟩
  | .Bx => ⟨none, none, none, none, none⟩
  | .Db => ⟨none, none, none, none, none⟩
  | .Dc => ⟨none, none, none, none, none⟩
  | .Do => ⟨some .body, some .word, some .word, some "\"", some "\""⟩
  | .Dq => ⟨some .body, some .word, some .word, some "\"", some "\""⟩
  | .Ec => ⟨none, none, none, none, none⟩
  | .Ef => ⟨none, none, none, none, none⟩
  | .Em => ⟨none, some .raw, some .raw, some "*", some "*"⟩
  | .Eo => ⟨some .body, some .Eo, some .Eo, none, none⟩
  | .Fx => ⟨none, none, none, none, none⟩
  | .Ms => ⟨none, some .raw, some .raw, some "**", some "**"⟩
  | .No => ⟨none, some .No, none, none, none⟩
  | .Ns => ⟨none, some .Ns, none, none, none⟩
  | .Nx => ⟨none, none, none, none, none⟩
  | .Ox => ⟨none, none, none, none, none⟩
  | .Pc => ⟨none, none, none, none, none⟩
  | .Pf => ⟨none, none, some .Pf, none, none⟩
  | .Po => ⟨some .body, some .word, some .word, some "(", some ")"⟩
  | .Pq => ⟨some .body, some .word, some .word, some "(", some ")"⟩
  | .Qc => ⟨none, none, none, none, none⟩
  | .Ql => ⟨some .body, some .raw, some .raw, some "'`", some "`'"⟩
  | .Qo => ⟨some .body, some .word, some .word, some "\"", some "\""⟩
  | .Qq => ⟨some .body, some .word, some .word, some "\"", some "\""⟩
  | .Re => ⟨none, none, none, none, none⟩
  | .Rs => ⟨some .body, some .Rs, none, none, none⟩
  | .Sc => ⟨none, none, none, none, none⟩
  | .So => ⟨some .body, some .word, some .word, some "'", some "'"⟩
  | .Sq => ⟨some .body, some .word, some .word, some "'", some "'"⟩
  | .Sm => ⟨none, some .Sm, none, none, none⟩
  | .Sx => ⟨none, some .raw, some .raw, some "*", some "*"⟩
  | .Sy => ⟨none, some .raw, some .raw, some "**", some "**"⟩
  | .Tn => ⟨none, some .raw, some .raw, some "`", some "`"⟩
  | .Ux => ⟨none, none, none, none, none⟩
  | .Xc => ⟨none, none, none, none, none⟩
  | .Xo => ⟨none, none, none, none, none⟩
  | .Fo => ⟨none, some .Fo, some .Fo, some "**", some "**"⟩
  | .Fc => ⟨none, none, none, none, none⟩
  | .Oo => ⟨some .body, some .word, some .word, some "[", some "]"⟩
  | .Oc => ⟨none, none, none, none, none⟩
  | .Bk => ⟨none, some .Bk, some .Bk, none, none⟩
  | .Ek => ⟨none, none, none, none, none⟩
  | .Bt => ⟨none, none, none, none, none⟩
  | .Hf => ⟨none, none, none, none, none⟩
  | .Fr => ⟨none, some .raw, some .raw, some "*", some "*"⟩
  | .Ud => ⟨none, none, none, none, none⟩
  | .Lb => ⟨none, none, some .Lb, none, none⟩
  | .Lp => ⟨none, some .abort, none, none, none⟩
  | .Lk => ⟨none, some .Lk, none, none, none⟩
  | .Mt => ⟨none, some .Mt, none, none, none⟩
  | .Brq => ⟨some .body, some .word, some .word, some "\x7b", some "\x7d"⟩
  | .Bro => ⟨some .body, some .word, some .word, some "\x7b", some "\x7d"⟩
  | .Brc => ⟨none, none, none, none, none⟩
  | ._C => ⟨none, none, some .pc, none, none⟩
  | .Es => ⟨none, some .skip, none, none, none⟩
  | .En => ⟨some .body, some .En, some .En, none, none⟩
  | .Dx => ⟨none, none, none, none, none⟩
  | ._Q => ⟨none, none, some .pc, none, none⟩
  | ._U => ⟨none, some .Lk, some .pc, none, none⟩
  | .Ta => ⟨none, none, none, none, none⟩
  | .Tg => ⟨none, some .skip, none, none, none⟩

/-- How the children of a node are processed: by `md_nodelist()`, or by the handler itself. -/
inductive MdKids where
  /-- The handler returns one. -/
  | all
  /-- The handler returns zero. -/
  | skip
  /-- `md_pre_Fn()` calls `md_node()` itself. -/
  | args
  /-- `md_pre_Xr()` calls `md_node()` for the first two. -/
  | two
deriving DecidableEq, Repr

/-- `md_cond_head()` and `md_cond_body()` -/
def MdCond.holds (n : MdInfo) : MdCond → Bool
  | .head => n.type = .HEAD
  | .body => n.type = .BODY

/-- The string constant begins or ends code. -/
def hasTick (s : Option String) : Bool := s.any fun s => '`' ∈ s.toList

/-- `md_pre_raw()` -/
def mdPreRaw (act : MdAct) (st : MdState) : MdState := if hasTick act.before then st.addCode 1 else st

/-- `md_post_raw()` -/
def mdPostRaw (act : MdAct) (st : MdState) : MdState :=
  if hasTick act.after then st.addCode (-1) else st

/-- `md_pre_D1()`. Markdown blockquote syntax does not work inside code blocks. The best we can do is
    fall back to another nested code block. -/
def mdPreD1 (st : MdState) : MdState :=
  if st.codeBlocks ≠ 0 then (st.push '\t').addCode 1 else (st.push '>').addQuote 1

/-- `md_post_D1()` -/
def mdPostD1 (st : MdState) : Res MdState :=
  st.pop.map fun st => if st.codeBlocks ≠ 0 then st.addCode (-1) else st.addQuote (-1)

/-- `md_pre_Dl()`. Markdown code block syntax does not work inside blockquotes. The best we can do is
    fall back to another nested blockquote. -/
def mdPreDl (st : MdState) : MdState :=
  if st.quoteBlocks ≠ 0 then (st.push '>').addQuote 1 else (st.push '\t').addCode 1

/-- `md_pre_Bd()` -/
def mdPreBd (n : MdInfo) (st : MdState) : Res MdState :=
  match n.norm with
  | .Bd .unfilled | .Bd .literal => .ok (mdPreDl st)
  | .Bd _ => .ok (mdPreD1 st)
  | _ => .error .null

/-- `md_pre_Bl()` -/
def mdPreBl (n : MdInfo) (st : MdState) : Res MdState :=
  match n.norm with
  | .Bl .column => .ok (mdPreDl st)
  | .Bl _ => .ok st
  | _ => .error .null

/-- `md_post_Bl()` -/
def mdPostBl (n : MdInfo) (st : MdState) : Res MdState :=
  match n.norm with
  | .Bl .column => mdPostD1 st
  | .Bl _ => .ok st
  | _ => .error .null

/-- `n->parent->parent->norm->Bl.type` -/
def listType (anc : List MdInfo) : Res MdocList :=
  match anc with
  | _ :: bln :: _ =>
    match bln.norm with
    | .Bl type => .ok type
    | _ => .error .null
  | _ => .error .null

/-- `md_pre_It()` for the head. -/
def mdPreItHead (type : MdocList) (st : MdState) : MdState × MdKids :=
  match type with
  | .item | .column => (st, .skip)
  | .inset | .diag | .ohang | .tag | .hang => (st, .all)
  | .bullet | .dash | .hyphen | .enum =>
    let st := st.push '\t'
    (if st.codeBlocks ≠ 0 ∨ st.quoteBlocks ≠ 0 then st.addList 1 else st, .skip)

/-- `md_pre_It()` for a body. -/
def mdPreItBody (type : MdocList) (st : MdState) : MdState :=
  match type with
  | .tag | .hang => mdPreD1 st
  | _ => st

/-- `md_pre_It()` -/
def mdPreIt (anc : List MdInfo) (n : MdInfo) (st : MdState) : Res (MdState × MdKids) :=
  match n.type with
  | .BLOCK => .ok (st, .all)
  | .HEAD => (listType anc).map fun type => mdPreItHead type st
  | .BODY => (listType anc).map fun type => (mdPreItBody type st, .all)
  | _ => .ok (st, .skip)

/-- `md_post_It()` -/
def mdPostIt (anc : List MdInfo) (n : MdInfo) (st : MdState) : Res MdState :=
  if n.type ≠ .BODY then .ok st
  else do
    match ← listType anc with
    | .bullet | .dash | .hyphen | .enum =>
      let st ← st.pop
      return if st.codeBlocks ≠ 0 ∨ st.quoteBlocks ≠ 0 then st.addList (-1) else st
    | .tag | .hang => mdPostD1 st
    | _ => return st

/-- The argument of `%R` is the number of a RFC. -/
def isRfc (s : CStr) : Bool := "RFC ".toList <+: s && (s.drop 4).all Char.isDigit

/-- The function `pre` of a `struct md_act`, and how the children are processed. -/
def mdPre (act : MdAct) (anc : List MdInfo) (n : MdInfo) (child : List MdNode) (st : MdState) :
    MdPre → Res (MdState × MdKids)
  | .abort => .error .abort
  | .raw | .Fd => .ok (mdPreRaw act st, .all)
  | .word | .En | .Eo | .In | .Nd | .No | .Rs | .Sh | ._T => .ok (st, .all)
  | .skip | .Ap | .Lk | .Mt | .Ns | .Pp | .Sm => .ok (st, .skip)
  | .An =>
    match n.norm with
    | .An .none => .ok (st, .all)
    | .An _ => .ok (st, .skip)
    | _ => .error .null
  | .Bd => (mdPreBd n st).map (·, .all)
  | .Bk => .ok (st, if n.type = .BLOCK ∨ n.type = .BODY then .all else .skip)
  | .Bl => (mdPreBl n st).map (·, .all)
  | .D1 => .ok (mdPreD1 st, .all)
  | .Dl => .ok (mdPreDl st, .all)
  | .Fa => .ok (st, .all)
  | .Fn => .ok (st, .args)
  | .Fo =>
    if n.type = .HEAD then
      if child.isEmpty then .ok (st, .skip) else .ok (mdPreRaw act st, .all)
    else .ok (st, .all)
  | .It => mdPreIt anc n st
  | .Nm => .ok (if n.type = .HEAD ∨ n.type = .ELEM then mdPreRaw act st else st, .all)
  | .Vt =>
    match n.type with
    | .BLOCK => .ok (st, .all)
    | .BODY | .ELEM => .ok (mdPreRaw act st, .all)
    | _ => .ok (st, .skip)
  | .Xr => .ok (st, .two)
  | ._R =>
    match child with
    | [] => .error .null
    | arg :: _ => .ok (st, if isRfc arg.info.string then .skip else .all)

/-- The function `post` of a `struct md_act`. -/
def mdPost (act : MdAct) (anc : List MdInfo) (n : MdInfo) (child : List MdNode) (st : MdState) :
    MdPost → Res MdState
  | .raw | .pc | .Fd | .Fl | ._T => .ok (mdPostRaw act st)
  | .word | .Bk | .En | .Eo | .Fa | .Fn | .In | .Lb | .Pf => .ok st
  | .Bl => mdPostBl n st
  | .D1 => mdPostD1 st
  | .Fo => .ok (if n.type = .HEAD ∧ !child.isEmpty then mdPostRaw act st else st)
  | .It => mdPostIt anc n st
  | .Nm => .ok (if n.type = .HEAD ∨ n.type = .ELEM then mdPostRaw act st else st)
  | .Vt => .ok (if n.type = .BODY ∨ n.type = .ELEM then mdPostRaw act st else st)

/-! ## §4 Nodes -/

/-- The condition of the action holds. -/
def MdAct.applies (act : MdAct) (n : MdInfo) : Bool := act.cond.all fun cond => cond.holds n

/-- What `md_node()` does before the children are processed. There are no actions for tables and
    equations. -/
def mdOpen (anc : List MdInfo) (n : MdInfo) (child : List MdNode) (st : MdState) :
    Res (MdState × MdKids) :=
  if n.type = .TEXT then .ok (st, .all)
  else
    match n.tok with
    | .roff => .ok (st, .skip)
    | .none => .error .abort
    | .mdoc tok =>
      match (mdActs tok).pre with
      | some pre =>
        if (mdActs tok).applies n ∧ (n.endBody = none ∨ !child.isEmpty) then
          mdPre (mdActs tok) anc n child st pre
        else .ok (st, .all)
      | none => .ok (st, .all)

/-- What `md_node()` does behind the children. -/
def mdClose (anc : List MdInfo) (n : MdInfo) (child : List MdNode) (st : MdState) : Res MdState :=
  if n.type = .TEXT then .ok st
  else
    match n.tok with
    | .mdoc tok =>
      match (mdActs tok).post with
      | some post => if (mdActs tok).applies n then mdPost (mdActs tok) anc n child st post else .ok st
      | none => .ok st
    | _ => .ok st

/-- The body that a marker refers to is ended. -/
def mdMark : Option Nat → MdState → MdState
  | some body, st => st.setEnded body true
  | none, st => st

/-- The node is not printed. -/
def MdInfo.hidden (n : MdInfo) : Bool := n.type = .COMMENT || n.noprt

mutual

/-- `md_node()` -/
def mdNode (anc : List MdInfo) : MdNode → MdState → Res MdState
  | .mk n child, st =>
    if n.hidden then .ok st
    else do
      let (st, kids) ← mdOpen anc n child (st.setEnded n.id false)
      let st ← match kids with
        | .all => mdNodelist (n :: anc) child st
        | .skip => .ok st
        | .args => mdFn (n :: anc) child st
        | .two => mdXr (n :: anc) child st
      if st.ended n.id then return st
      else return mdMark n.endBody (← mdClose anc n child st)

/-- `md_nodelist()` -/
def mdNodelist (anc : List MdInfo) : List MdNode → MdState → Res MdState
  | [], st => .ok st
  | n :: l, st => mdNode anc n st >>= mdNodelist anc l

/-- The children in `md_pre_Fn()`. -/
def mdFn (anc : List MdInfo) : List MdNode → MdState → Res MdState
  | [], st => .ok st
  | n :: l, st => mdNode anc n st >>= mdFa anc l

/-- `md_pre_Fa()`, called from `md_pre_Fn()`. -/
def mdFa (anc : List MdInfo) : List MdNode → MdState → Res MdState
  | [], st => .ok st
  | n :: l, st =>
    if n.info.tok = .mdoc .Fa then mdChild anc n st
    else mdNode anc n st >>= mdNodelist anc l

/-- The children of a node. -/
def mdChild (anc : List MdInfo) : MdNode → MdState → Res MdState
  | .mk n child, st => mdNodelist (n :: anc) child st

/-- The children in `md_pre_Xr()`. -/
def mdXr (anc : List MdInfo) : List MdNode → MdState → Res MdState
  | [], st => .ok st
  | n :: l, st => mdNode anc n st >>= mdFirst anc l

/-- The second child in `md_pre_Xr()`. -/
def mdFirst (anc : List MdInfo) : List MdNode → MdState → Res MdState
  | [], st => .ok st
  | n :: _, st => mdNode anc n st

end

end Mandoc
