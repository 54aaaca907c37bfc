import Mandoc.Eqn.Box
import Mandoc.Roff.Number

/-!
# Tokens of Equations

Model of `eqn_next()` and of the functions that read and change definitions.

The text of an equation is rewritten while it is read: a defined name is replaced with its
value, and reading goes on at the beginning of the value. Two counters keep this from
going on forever. `subcnt` counts the replacements, and is reset when reading gets beyond
`sublen`, the end of the rightmost replacement.

The pointers `start` and `end` are offsets into the text. When nothing but an expansion to
blanks is left, `end` may remain behind the terminating NUL of the shortened text, where
the buffer still contains the old NUL.

When a name is replaced with a longer value, `mandoc_realloc()` puts the text into another
buffer, and only `start` is moved there. The next token sets `end`, but if there is none, `end`
is left `dangling`.
-/

namespace Mandoc

/-! ## §1 Tokens -/

/-- `enum eqn_tok` -/
inductive EqnTok where
  | DYAD | VEC | UNDER | BAR | TILDE | HAT | DOT | DOTDOT | FWD | BACK | DOWN | UP | FAT
  | ROMAN | ITALIC | BOLD | SIZE | SUB | SUP | SQRT | OVER | FROM | TO | BRACE_OPEN
  | BRACE_CLOSE | GSIZE | GFONT | MARK | LINEUP | LEFT | RIGHT | PILE | LPILE | RPILE | CPILE
  | MATRIX | CCOL | LCOL | RCOL | DELIM | DEFINE | TDEFINE | NDEFINE | UNDEF | ABOVE | TOK__MAX
  | FUNC | QUOTED | SYM | EOF
deriving DecidableEq, Repr

/-- `eqn_toks` -/
def eqnToks : List (String × EqnTok) := [
  ("dyad", .DYAD), ("vec", .VEC), ("under", .UNDER), ("bar", .BAR), ("tilde", .TILDE),
  ("hat", .HAT), ("dot", .DOT), ("dotdot", .DOTDOT), ("fwd", .FWD), ("back", .BACK),
  ("down", .DOWN), ("up", .UP), ("fat", .FAT), ("roman", .ROMAN), ("italic", .ITALIC),
  ("bold", .BOLD), ("size", .SIZE), ("sub", .SUB), ("sup", .SUP), ("sqrt", .SQRT),
  ("over", .OVER), ("from", .FROM), ("to", .TO), ("\x7b", .BRACE_OPEN), ("\x7d", .BRACE_CLOSE),
  ("gsize", .GSIZE), ("gfont", .GFONT), ("mark", .MARK), ("lineup", .LINEUP), ("left", .LEFT),
  ("right", .RIGHT), ("pile", .PILE), ("lpile", .LPILE), ("rpile", .RPILE), ("cpile", .CPILE),
  ("matrix", .MATRIX), ("ccol", .CCOL), ("lcol", .LCOL), ("rcol", .RCOL), ("delim", .DELIM),
  ("define", .DEFINE), ("tdefine", .TDEFINE), ("ndefine", .NDEFINE), ("undef", .UNDEF),
  ("above", .ABOVE)]

/-- `eqn_func` -/
def eqnFunc : List String := [
  "acos", "acsc", "and", "arc", "asec", "asin", "atan", "cos", "cosh", "coth", "csc", "det",
  "exp", "for", "if", "lim", "ln", "log", "max", "min", "sec", "sin", "sinh", "tan", "tanh", "Im",
  "Re"]

/-- `eqnsyms` -/
def eqnsyms : List (String × String) := [
  ("alpha", "*a"), ("beta", "*b"), ("chi", "*x"), ("delta", "*d"), ("epsilon", "*e"),
  ("eta", "*y"), ("gamma", "*g"), ("iota", "*i"), ("kappa", "*k"), ("lambda", "*l"), ("mu", "*m"),
  ("nu", "*n"), ("omega", "*w"), ("omicron", "*o"), ("phi", "*f"), ("pi", "*p"), ("psi", "*q"),
  ("rho", "*r"), ("sigma", "*s"), ("tau", "*t"), ("theta", "*h"), ("upsilon", "*u"), ("xi", "*c"),
  ("zeta", "*z"), ("DELTA", "*D"), ("GAMMA", "*G"), ("LAMBDA", "*L"), ("OMEGA", "*W"),
  ("PHI", "*F"), ("PI", "*P"), ("PSI", "*Q"), ("SIGMA", "*S"), ("THETA", "*H"), ("UPSILON", "*U"),
  ("XI", "*C"), ("inter", "ca"), ("union", "cu"), ("prod", "product"), ("int", "integral"),
  ("sum", "sum"), ("grad", "gr"), ("del", "gr"), ("times", "mu"), ("cdot", "pc"),
  ("nothing", "&"), ("approx", "~~"), ("prime", "fm"), ("half", "12"), ("partial", "pd"),
  ("inf", "if"), (">>", ">>"), ("<<", "<<"), ("<-", "<-"), ("->", "->"), ("+-", "+-"),
  ("!=", "!="), ("==", "=="), ("<=", "<="), (">=", ">="), ("-", "mi")]

/-- The text of a token that stands for itself. -/
def EqnTok.name (tok : EqnTok) : String :=
  ((eqnToks.find? (·.2 = tok)).map (·.1)).getD ""

/-- Look up a token in the list of tokens. -/
def eqnKeyword (text : CStr) : Option EqnTok :=
  (eqnToks.find? (·.1.toList = text)).map (·.2)

/-- `enum parse_mode` -/
inductive ParseMode where
  | QUOTED | NOSUB | SUB | TOK
deriving DecidableEq, Repr

/-! ## §2 The tokenizer -/

/-- `EQN_NEST_MAX`: maximum nesting of defines. -/
abbrev EQN_NEST_MAX : Nat := 128

/-- `struct eqn_def`. A free place of the array has an empty key. -/
structure EqnDef where
  key : CStr := []
  val : CStr := []
deriving DecidableEq, Repr

/-- `struct eqn_node`, apart from the syntax tree node and the size of the buffer. -/
structure EqnNode where
  /-- Array of definitions. -/
  defs : List EqnDef := []
  /-- Source code of this equation. -/
  data : CStr := []
  /-- First byte of the current token. -/
  start : Nat := 0
  /-- First byte of the next token. -/
  next : Nat := 0
  /-- Length of the current token. -/
  toksz : Nat := 0
  /-- End of rightmost substitution, so far. -/
  sublen : Nat := 0
  /-- Number of recursive substitutions. -/
  subcnt : Nat := 0
  /-- `end` points into a buffer that has been freed. -/
  dangling : Bool := false
  /-- Default point size. -/
  gsize : Int := -2147483648
  /-- In-line delimiters enabled. -/
  delim : Bool := false
  /-- In-line opening delimiter. -/
  odelim : Char := NUL
  /-- In-line closing delimiter. -/
  cdelim : Char := NUL
deriving DecidableEq, Repr

/-- The bytes of the current token. -/
def EqnNode.token (ep : EqnNode) : CStr := (ep.data.drop ep.start).take ep.toksz

/-- `eqn_def_find()`: the place of the definition of the current token. -/
def eqnDefFind (ep : EqnNode) : Option Nat :=
  ep.defs.findIdx? fun d => d.key ≠ [] && d.key = ep.token

/-- The bytes that separate tokens. -/
def eqnBlank (c : Char) : Bool := c = ' ' || c = '\t' || c = '~' || c = '^'

/-- The bytes that end a token. -/
def eqnBreak (c : Char) : Bool := eqnBlank c || c = '"' || c = '\x7b' || c = '\x7d'

/-- One round of the loop of `eqn_next()` up to the end of the token: whether the token is
    quoted, and the new positions. At the end of the text, there is no token. -/
def eqnDelimit (mode : ParseMode) (ep : EqnNode) : Option Bool × EqnNode :=
  let d := ep.data
  let start := if mode = .QUOTED then ep.start else skipWhile eqnBlank d ep.start
  let c := charAt d start
  if c = NUL then (none, { ep with start := start, toksz := 0 })
  else if mode = .QUOTED || c = '"' then
    -- A missing closing quote is implied at the end of the text.
    let tokend := skipWhile (· ≠ c) d (start + 1)
    let next := if charAt d tokend = NUL then tokend else tokend + 1
    (some true, { ep with
      start := start + 1, toksz := tokend - (start + 1), next := skipWhile eqnBlank d next })
  else
    let tokend :=
      if c = '\x7b' || c = '\x7d' then start + 1
      else skipWhile (fun c => !eqnBreak c) d (start + 1)
    (some false, { ep with
      start := start, toksz := tokend - start, next := skipWhile eqnBlank d tokend })

/-- Replace a defined name with its string value. -/
def eqnSubstitute (ep : EqnNode) (val : CStr) : EqnNode :=
  let diff := val.length - ep.toksz
  let newlen := ep.start + val.length
  { ep with
    data := ep.data.take ep.start ++ val ++ ep.data.drop (ep.start + ep.toksz)
    sublen := max (ep.sublen + diff) newlen }

/-- A token together with the string it stands for. -/
structure EqnNext where
  tok : EqnTok
  /-- `ep->start`, up to the length of the token. -/
  text : CStr
  ep : EqnNode
deriving DecidableEq, Repr

/-- The end of `eqn_next()`, after all substitutions. -/
def eqnClassify (mode : ParseMode) (quoted : Bool) (ep : EqnNode) : EqnNext :=
  let text := ep.token
  if quoted then { tok := .QUOTED, text := text, ep := ep }
  else if mode ≠ .TOK then { tok := .TOK__MAX, text := text, ep := ep }
  else
    match eqnKeyword text with
    | some tok => { tok := tok, text := text, ep := ep }
    | none =>
      match eqnsyms.find? (·.1.toList = text) with
      | some sym => { tok := .SYM, text := "\\[".toList ++ sym.2.toList ++ [']'], ep := ep }
      | none =>
        { tok := if eqnFunc.any (·.toList = text) then .FUNC else .TOK__MAX, text := text, ep := ep }

/-- The loop of `eqn_next()`, for at most the given number of rounds. If `moved`, the text has been
    moved to another buffer since `end` was set. -/
def eqnNextLoop (mode : ParseMode) : Nat → Bool → EqnNode → EqnRes EqnNext
  | 0, _, _ => .error .fuel
  | rounds + 1, moved, ep =>
    match eqnDelimit mode ep with
    | (none, ep) => .ok { tok := .EOF, text := [], ep := { ep with dangling := moved } }
    | (some true, ep) => .ok (eqnClassify mode true ep)
    | (some false, ep) =>
      if mode = .NOSUB then .ok { tok := .TOK__MAX, text := ep.token, ep := ep }
      else
        match (eqnDefFind ep).bind (ep.defs[·]?) with
        | none => .ok (eqnClassify mode false ep)
        | some d =>
          let ep := { ep with subcnt := ep.subcnt + 1 }
          if EQN_NEST_MAX < ep.subcnt then .ok (eqnClassify mode false ep)
          else eqnNextLoop mode rounds (ep.toksz < d.val.length) (eqnSubstitute ep d.val)

/-- `eqn_next()`: parse a token from the input text. It begins at `end`, which must not be
    dangling; see `eqnToken`. -/
def eqnNext (mode : ParseMode) (ep : EqnNode) : EqnRes EqnNext :=
  let ep := if ep.sublen ≤ ep.next then { ep with subcnt := 0 } else ep
  eqnNextLoop mode (EQN_NEST_MAX + 1) false { ep with start := ep.next }

/-! ## §3 Control statements -/

/-- `eqn_delim()`: parse the "delim" control statement. -/
def eqnDelim (ep : EqnNode) : EqnNode :=
  let c := charAt ep.data ep.next
  let c' := charAt ep.data (ep.next + 1)
  if c = NUL || c' = NUL then
    if c = NUL then ep else { ep with next := ep.next + 1 }
  else if (ep.data.drop ep.next).take 3 = "off".toList then
    { ep with delim := false, next := ep.next + 3 }
  else if (ep.data.drop ep.next).take 2 = "on".toList then
    let on := ep.odelim ≠ NUL && ep.cdelim ≠ NUL
    { ep with delim := ep.delim || on, next := ep.next + 2 }
  else
    { ep with odelim := c, cdelim := c', delim := true, next := ep.next + 2 }

/-- `eqn_undef()`: undefine a previously-defined string. -/
def eqnUndef (ep : EqnNode) : EqnRes EqnNode := do
  let n ← eqnNext .NOSUB ep
  if n.tok = .EOF then return n.ep
  else
    match eqnDefFind n.ep with
    | none => return n.ep
    | some i => return { n.ep with defs := n.ep.defs.set i {} }

/-- The place for a definition of the current token: the one it already has, a hole in the
    array, or a new one. -/
def eqnDefPlace (ep : EqnNode) : Nat × EqnNode :=
  match eqnDefFind ep with
  | some i => (i, ep)
  | none =>
    match ep.defs.findIdx? (·.key = []) with
    | some i => (i, { ep with defs := ep.defs.modify i ({ · with key := ep.token }) })
    | none => (ep.defs.length, { ep with defs := ep.defs ++ [{ key := ep.token }] })

/-- `eqn_def()` -/
def eqnDef (ep : EqnNode) : EqnRes EqnNode := do
  let n ← eqnNext .NOSUB ep
  if n.tok = .EOF then return n.ep
  else
    let (i, ep) := eqnDefPlace n.ep
    let n ← eqnNext .QUOTED ep
    let ep := n.ep
    if n.tok = .EOF then return { ep with defs := ep.defs.set i {} }
    else return { ep with defs := ep.defs.modify i ({ · with val := ep.token }) }

end Mandoc
