import Mandoc.Search.Dbm

/-!
# Compiling a search expression

`exprcomp`, `expr_and`, and `exprterm` of `mansearch.c` turn the arguments of `apropos(1)` into an
expression tree.  The groups for `AND` and `OR` are made when the second member turns up, and the
members are appended with a pointer to the last one.

The warnings about ignored arguments are left out, and so is the flag `needterm` of `exprcomp`,
which nothing else depends on.
-/

namespace Mandoc

/-! ## §1 Terms -/

/-- `enum argmode`: the interpretation of the arguments. -/
inductive ArgMode where
  | FILE | NAME | WORD | EXPR
deriving DecidableEq, Repr

/-- How a regular expression is made to match whole words, from the configuration. -/
inductive Rewb where
  | bsd | sysv | none
deriving DecidableEq, Repr

/-- The bytes of a string constant. -/
def bytesOf (s : String) : Str := s.toUTF8.toList

/-- What the compilation depends on. -/
structure SearchEnv where
  /-- `search->argmode`. -/
  argmode : ArgMode
  rewb : Rewb
  /-- `regcomp()` with `REG_EXTENDED | REG_NOSUB`, and maybe with `REG_ICASE`: what `regexec()` does
      with the compiled expression. -/
  regcomp : Str → Bool → Option (Str → Bool)

/-- `mansearch_keynames`. -/
def mansearchKeynames : List String :=
  ["arch", "sec", "Xr", "Ar", "Fa", "Fl", "Dv", "Fn",
   "Ic", "Pa", "Cm", "Li", "Em", "Cd", "Va", "Ft",
   "Tn", "Er", "Ev", "Sy", "Sh", "In", "Ss", "Ox",
   "An", "Mt", "St", "Bx", "At", "Nx", "Fx", "Lk",
   "Ms", "Bsx", "Dx", "Rs", "Vt", "Lb", "Nm", "Nd"]

/-- `TYPE_Nm`. -/
def TYPE_Nm : BitVec 64 := 0x4000000000

/-- `TYPE_Nd`. -/
def TYPE_Nd : BitVec 64 := 0x8000000000

/-- The regular expression for a whole word. -/
def wordPattern : Rewb → Str → Str
  | .bsd, a => bytesOf "[[:<:]]" ++ a ++ bytesOf "[[:>:]]"
  | .sysv, a => bytesOf "\\<" ++ a ++ bytesOf "\\>"
  | .none, a => bytesOf "(^|[^a-zA-Z01-9_])" ++ a ++ bytesOf "([^a-zA-Z01-9_]|$)"

/-- The bit of a key, or all bits if the key is unknown. -/
def keyBits (key : Str) : BitVec 64 :=
  match mansearchKeynames.findIdx? (fun name => strcasecmp key (bytesOf name) = .eq) with
  | some i => 1#64 <<< i
  | none => BitVec.allOnes 64

/-- All fields, separated by commas. -/
def fieldBits (keys : Str) : BitVec 64 :=
  ((keys.splitOn 0x2c).filter (· ≠ [])).foldl (fun bits key => bits ||| keyBits key) 0

/-- The compilation of a regular expression. -/
def compileRegex (env : SearchEnv) (cs : Bool) (val : Str) (bits : BitVec 64) :
    Option (Expr DbmMatch) :=
  (env.regcomp val !cs).map fun regexec => .term (.regex regexec) bits

/-- The part of `exprterm` behind the parentheses and the option: one argument becomes a term. -/
def compileTerm (env : SearchEnv) (cs : Bool) (a : Str) : Option (Expr DbmMatch) :=
  match env.argmode with
  | .NAME => some (.term (.exact a) TYPE_Nm)
  | .WORD => compileRegex env false (wordPattern env.rewb a) TYPE_Nm
  | _ =>
    -- Separate macro keys from search string.
    let key := a.takeWhile fun c => c ≠ 0x3d ∧ c ≠ 0x7e
    match a.drop key.length with
    | [] => compileRegex env false a (TYPE_Nm ||| TYPE_Nd)
    | c :: val =>
      let cs := if bytesOf "arch" <:+: key then false else cs
      let bits := if key = [] then TYPE_Nm ||| TYPE_Nd else fieldBits key
      if c = 0x3d then some (.term (.sub val) bits) else compileRegex env cs val bits

/-! ## §2 Groups -/

section

variable {μ : Type}

/-- A chain of siblings. -/
def Exprs.ofList (e : Expr μ) : List (Expr μ) → Exprs μ
  | [] => .last e
  | e' :: es => .link e (.ofList e' es)

/-- A group with some children. -/
def groupOf (type : Exprs μ → Expr μ) : List (Expr μ) → Option (Expr μ)
  | [] => none
  | e :: es => some (type (.ofList e es))

/-- The variables of `expr_and`. -/
structure AndState (μ : Type) where
  /-- The terms that can be reached from `parent`, or from `child` if that is the only one.  While
      there are any, `child` points to the last one. -/
  terms : List (Expr μ) := []
  /-- Whether `parent` is not `NULL`. -/
  parent : Bool := false
  needterm : Bool := true

/-- `expr_and` gets the value of `exprterm`. -/
def AndState.add (st : AndState μ) (e : Option (Expr μ)) : AndState μ :=
  match st.terms, e with
  | [], none => st
  | [], some e => { st with terms := [e], needterm := false }
  | _ :: _, e => { terms := st.terms ++ e.toList, parent := true, needterm := false }

/-- `parent == NULL ? child : parent` -/
def AndState.result (st : AndState μ) : Option (Expr μ) :=
  if st.parent then groupOf .and st.terms else st.terms.head?

/-- Where the variable `child` of `exprcomp` points to. -/
inductive OrChild where
  /-- It is `NULL`. -/
  | null
  /-- The last one of the clauses that the function returns. -/
  | attached
  /-- A clause that cannot be reached from `parent`. -/
  | detached
deriving DecidableEq, Repr

/-- The variables of `exprcomp`. -/
structure OrState (μ : Type) where
  /-- The clauses that can be reached from `parent`, or from `child` if `parent` is `NULL`. -/
  clauses : List (Expr μ) := []
  /-- Whether `parent` is not `NULL`. -/
  parent : Bool := false
  child : OrChild := .null

/-- `exprcomp` gets the value of `expr_and`. -/
def OrState.add (st : OrState μ) (e : Option (Expr μ)) : OrState μ :=
  match st.child with
  | .null =>
    -- child = expr_and(...)
    if st.parent then { st with child := if e.isSome then .detached else .null }
    else { st with clauses := e.toList, child := if e.isSome then .attached else .null }
  | .attached =>
    -- child->next = expr_and(...); child = child->next
    { clauses := st.clauses ++ e.toList, parent := true
      child := if e.isSome then .attached else .null }
  | .detached => { st with child := if e.isSome then .detached else .null }

/-- `parent == NULL ? child : parent` -/
def OrState.result (st : OrState μ) : Option (Expr μ) :=
  if st.parent then groupOf .or st.clauses else st.clauses.head?

end

/-! ## §3 Expressions -/

/-- The value of a function, and the arguments from `argv[*argi]` on. -/
abbrev Compiled := Option (Expr DbmMatch) × List Str

mutual

/-- `exprcomp`, with a bound on the depth of the calls.  The flag `nested` says that arguments
    have been read before. -/
def exprcomp (env : SearchEnv) : Nat → Bool → List Str → Res Compiled
  | 0, _, _ => .error .fuel
  | n + 1, nested, argv =>
    if argv = [] then .ok (none, []) else exprcompLoop env n nested {} argv

/-- The loop of `exprcomp`. -/
def exprcompLoop (env : SearchEnv) : Nat → Bool → OrState DbmMatch → List Str → Res Compiled
  | 0, _, _, _ => .error .fuel
  | _ + 1, _, st, [] => .ok (st.result, [])
  | n + 1, nested, st, a :: argv =>
    if a = bytesOf ")" then
      if nested then .ok (st.result, a :: argv)
      -- Ignoring unmatched right parenthesis.
      else exprcompLoop env n nested st argv
    else if a = bytesOf "-o" then exprcompLoop env n nested st argv
    else do
      let (e, argv) ← exprAnd env n {} (a :: argv)
      exprcompLoop env n nested (st.add e) argv

/-- `expr_and`, that is its loop. -/
def exprAnd (env : SearchEnv) : Nat → AndState DbmMatch → List Str → Res Compiled
  | 0, _, _ => .error .fuel
  | _ + 1, st, [] => .ok (st.result, [])
  | n + 1, st, a :: argv =>
    if a = bytesOf ")" ∨ a = bytesOf "-o" then .ok (st.result, a :: argv)
    else if a = bytesOf "-a" then exprAnd env n { st with needterm := true } argv
    else if !st.needterm then .ok (st.result, a :: argv)
    else do
      let (e, argv) ← exprterm env n (a :: argv)
      exprAnd env n (st.add e) argv

/-- `exprterm` -/
def exprterm (env : SearchEnv) : Nat → List Str → Res Compiled
  | 0, _ => .error .fuel
  | _ + 1, [] => .error .null
  | n + 1, a :: argv =>
    if a = bytesOf "(" then do
      let (e, argv) ← exprcomp env n true argv
      match argv with
      -- Unclosed parenthesis.
      | [] => return (e, [])
      | b :: argv => if b = bytesOf ")" then return (e, argv) else .error .abort
    else
      match argv with
      | [] => .ok (compileTerm env true a, [])
      | b :: rest =>
        if a = bytesOf "-i" then .ok (compileTerm env false b, rest)
        else .ok (compileTerm env true a, argv)

end

/-- The call of `exprcomp` for all arguments. -/
def exprcompArgs (env : SearchEnv) (argv : List Str) : Res Compiled :=
  exprcomp env (4 * argv.length + 5) false argv

end Mandoc
