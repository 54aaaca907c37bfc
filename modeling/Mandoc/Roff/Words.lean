import Mandoc.Roff.Expand

/-!
# Words, Elements, and Tables

The functions by which request handlers add nodes to the syntax tree, including the
character translation done by `roff_strdup()`, and the interface to the table parser.
-/

namespace Mandoc

variable {X : Type}

/-! ## §1 Character translation -/

/-- The loop of `roff_strdup()`, with a bound on the number of iterations: translate the
    string `p`. -/
def strdupLoop (r : Roff X) : Nat → CStr → Res CStr
  | 0, _ => .error .fuel
  | _ + 1, [] => .ok []
  | steps + 1, c :: p =>
    -- assert((unsigned int)*p < 128)
    if 128 ≤ c.toNat then
      .error .abort
    else if c ≠ '\\' then do
      let res := (r.xtab.bind (· c)).getD [c]
      return res ++ (← strdupLoop r steps p)
    else
      -- Search for term matches.
      match r.xmbtab.find? fun cp => cp.key.isPrefixOf (c :: p) with
      | some cp => do
        return cp.val.getD [] ++ (← strdupLoop r steps ((c :: p).drop cp.key.length))
      | none => do
        -- Handle escapes carefully: copy over just the escape itself.
        let s ← mandocEscape (c :: p) 0
        if s.rval = .ERROR then
          return []
        else
          let _ ← rd (c :: p) s.rend
          return (c :: p).take s.rend ++ (← strdupLoop r steps ((c :: p).drop s.rend))

/-- `roff_strdup()` -/
def roffStrdup (r : Roff X) (p : CStr) : Res CStr :=
  if r.xmbtab = [] ∧ r.xtab.isNone then .ok p else strdupLoop r (p.length + 1) p

/-! ## §2 Words and elements -/

/-- `roff_word_alloc()` -/
def roffWordAlloc (r : Roff X) (line pos : Nat) (word : CStr) : Res (Roff X) := do
  let string ← roffStrdup r word
  let man ← addLeaf r.man line pos .TEXT fun n => { n with string := some string }
  return { r with man := man }

/-- `roff_elem_alloc()`: also return the new node. -/
def roffElemAlloc (r : Roff X) (line pos : Nat) (tok : Tok) : Res (Nat × Roff X) := do
  let n := r.man.count
  let man ← roffNodeAppend (roffNodeAlloc r.man line pos .ELEM tok) n
  return (n, { r with man := { man with next := .CHILD } })

/-- `man->last`, where a null pointer is a fault. -/
def RoffMan.lastNode (man : RoffMan) : Res Nat :=
  match man.last with
  | some n => .ok n
  | none => .error .null

/-- `n->parent`, where a null pointer is a fault. -/
def RoffMan.parentNode (man : RoffMan) (n : Nat) : Res Nat :=
  match (man.links n).parent with
  | some p => .ok p
  | none => .error .null

/-- Set `NODE_LINE`, and maybe `NODE_VALID | NODE_ENDED`, in an element, and let it be the
    last node, so that the next node becomes its sibling. -/
def finishElem (r : Roff X) (n : Nat) : Roff X :=
  let man := r.man.modify n fun d => { d.complete with flags := { d.complete.flags with line := true } }
  { r with man := { man with last := some n, next := .SIBLING } }

/-- `man_breakscope()` -/
def breakscope (env : Env X) (r : Roff X) (tok : Tok) : Roff X :=
  let (x, man) := env.manBreakscope r.x r.man tok
  { r with x := x, man := man }

/-! ## §3 Tables -/

/-- `while ((span = tbl_span(tbl)) != NULL) { ... }` -/
def addSpans (line : Nat) : List Nat → RoffMan → Res RoffMan
  | [], man => .ok man
  | span :: spans, man => do
    let man ← addLeaf man line 0 .TBL fun n => { n with span := some span }
    addSpans line spans man

/-- `roff_addtbl()` -/
def roffAddtbl (env : Env X) (r : Roff X) (line : Nat) : Res (Roff X) := do
  let r := if r.man.macroset = .MAN then breakscope env r .ROFF_TS else r
  let (spans, x) := env.tblSpans r.x
  let man ← addSpans line spans r.man
  return { r with man := man, x := x }

/-- `tbl_read()`, followed by `roff_addtbl()`. -/
def readTbl (env : Env X) (r : Roff X) (ln : Nat) (buf : CStr) (offs : Nat) : Res (Roff X) :=
  roffAddtbl env { r with x := env.tblRead r.x ln buf offs } ln

/-- `while (n->prev != NULL && n->prev->span != NULL)`, with a bound on the number of
    iterations: skip the rows of the table. -/
def skipSpans (man : RoffMan) : Nat → Nat → Res Nat
  | 0, _ => .error .fuel
  | steps + 1, n =>
    match (man.links n).prev with
    | none => .ok n
    | some p => if (man.node p).span.isSome then skipSpans man steps p else .ok n

/-- Whether vertical space is allowed before the table starting with the node `n`. -/
def spaceBefore (man : RoffMan) (n : Nat) : Res Bool := do
  if (man.links n).prev = none then
    let p ← man.parentNode n
    return !([Tok.MAN "LP", .MAN "PP", .MAN "P"].contains (man.node p).tok)
  else
    return true

/-- `roff_endtbl()` -/
def roffEndtbl (env : Env X) (r : Roff X) (stillOpen : Bool) : Res (Bool × Roff X) := do
  let n ← skipSpans r.man (r.man.count + 1) (← r.man.lastNode)
  let spaceAllowed ← spaceBefore r.man n
  let (irc, x) := env.tblEnd r.x spaceAllowed stillOpen
  return (irc, { r with tbl := false, x := x })

end Mandoc
