import Mandoc.Roff.Cond

/-!
# Requests and Macros

The handler functions of roff requests and of user-defined and renamed macros, except for
the conditional requests and those that open and close a block.

All handlers have the same arguments, `ROFF_ARGS`. The buffer returned by a handler matters
only if its result code asks for the line to be used again; a handler returning `ROFF_IGN`
on its own is modelled as leaving it alone.
-/

namespace Mandoc

variable {X : Type}

/-! ## §1 Requests without effect on the document -/

/-- `roff_line_ignore()`, `roff_insec()`, `roff_unsupp()`, and `roff_break()` only differ in
    the diagnostic messages they issue. -/
def roffIgnored (a : Args X) : Res (Out X) := .ok (a.out ROFF_IGN a.r)

/-- `roff_line_ignore()` -/
def roffLineIgnore (a : Args X) : Res (Out X) := roffIgnored a

/-- `roff_insec()` -/
def roffInsec (a : Args X) : Res (Out X) := roffIgnored a

/-- `roff_unsupp()` -/
def roffUnsupp (a : Args X) : Res (Out X) := roffIgnored a

/-- `roff_break()`: the request only makes sense inside conditionals, and that case is
    already handled in `roff_cond_sub()`. -/
def roffBreak (a : Args X) : Res (Out X) := roffIgnored a

/-- `roff_nop()` -/
def roffNop (a : Args X) : Res (Out X) :=
  .ok ⟨ROFF_RERUN, a.r, a.buf, skipBlanks a.buf.buf a.pos⟩

/-- `roff_cc()` -/
def roffCc (a : Args X) : Res (Out X) :=
  let c := charAt a.buf.buf a.pos
  .ok (a.out ROFF_IGN { a.r with control := if c = '.' then NUL else c })

/-- `roff_ec()` -/
def roffEc (a : Args X) : Res (Out X) :=
  let c := charAt a.buf.buf a.pos
  .ok (a.out ROFF_IGN { a.r with escape := if c = NUL then '\\' else c })

/-- `roff_eo()` -/
def roffEo (a : Args X) : Res (Out X) := .ok (a.out ROFF_IGN { a.r with escape := NUL })

/-- `roff_it()` -/
def roffIt (env : Env X) (a : Args X) : Res (Out X) := do
  let n ← roffEvalnum env a.buf.buf false a.pos NUL false
  if n.ok = false then
    return a.out ROFF_IGN a.r
  else
    let macroLine := a.buf.buf.drop (skipWhile isspace a.buf.buf n.pos)
    -- Special-casing "an-trap" is an ugly workaround.
    let itMacro := if n.val ≠ 1 ∨ macroLine ≠ "an-trap".toList then macroLine else "br".toList
    return a.out ROFF_IGN { a.r with itLines := n.val, itMacro := itMacro }

/-- Unset the strings with the given names. -/
def unsetStrs (r : Roff X) (names : List String) : Roff X :=
  names.foldl (fun r name => roffSetstr r name.toList none 0) r

/-- `roff_Dd()` -/
def roffDd (a : Args X) : Res (Out X) :=
  match a.tok with
  | .ROFF_Dd =>
    let r := if a.r.format = .NONE then { a.r with format := .MDOC } else a.r
    .ok (a.out ROFF_CONT (if r.optMdoc || r.optQuick then r else unsetStrs r mdocNames))
  | .ROFF_TH =>
    let r := if a.r.format = .NONE then { a.r with format := .MAN } else a.r
    .ok (a.out ROFF_CONT (if r.optQuick then r else unsetStrs r manNames))
  | _ => .error .abort

/-! ## §2 Strings and registers -/

/-- Whether the byte ending an identifier aborts a request. -/
def endsName (c : Char) : Bool := c = '\\' || c = '\t'

/-- `roff_als()` -/
def roffAls (a : Args X) : Res (Out X) := do
  if charAt a.buf.buf a.pos = NUL then
    return a.out ROFF_IGN a.r
  else
    let newn ← roffGetname a.buf.buf a.pos
    if endsName (charAt newn.buf (a.pos + newn.namesz)) || charAt newn.buf newn.cp = NUL then
      return a.out ROFF_IGN a.r
    else
      let oldn ← roffGetname newn.buf newn.cp
      if oldn.namesz = 0 then
        return a.out ROFF_IGN a.r
      else
        let value := '.' :: oldn.name newn.cp ++ " \\$@\\\"\n".toList
        return a.out ROFF_IGN (roffSetstr a.r (newn.name a.pos) (some value) 0)

/-- `roff_ds()`: append if the request is `.as` or `.as1`. -/
def roffDs (a : Args X) : Res (Out X) := do
  if charAt a.buf.buf a.pos = NUL then
    return a.out ROFF_IGN a.r
  else
    let st ← roffGetname a.buf.buf a.pos
    let c := charAt st.buf (a.pos + st.namesz)
    if c = '\\' then
      return a.out ROFF_IGN a.r
    else
      let pos := if c = '\t' then a.pos + st.namesz else st.cp
      -- Read past the initial double-quote, if any.
      let pos := if charAt st.buf pos = '"' then pos + 1 else pos
      let append := if a.tok = .ROFF_as ∨ a.tok = .ROFF_as1 then 1 else 0
      return a.out ROFF_IGN (roffSetstr a.r (st.name a.pos) (some (st.buf.drop pos)) append)

/-- The loop of `roff_rm()`, with a bound on the number of iterations. -/
def rmLoop : Nat → Roff X → CStr → Nat → Res (Roff X)
  | 0, _, _, _ => .error .fuel
  | steps + 1, r, buf, cp =>
    if charAt buf cp = NUL then
      .ok r
    else do
      let st ← roffGetname buf cp
      let r := roffSetstr r (st.name cp) none 0
      if endsName (charAt st.buf (cp + st.namesz)) then
        return r
      else
        rmLoop steps r st.buf st.cp

/-- `roff_rm()` -/
def roffRm (a : Args X) : Res (Out X) := do
  return a.out ROFF_IGN (← rmLoop (a.buf.buf.length + 1) a.r a.buf.buf a.pos)

/-- `switch (deftype)` in `roff_rn()`: the definition `g` moves from the old name to the new
    one. -/
def renameTo (g : GetStr X) (oldn newn : CStr) : Roff X :=
  let r := g.r
  match g.deftype with
  | .USER =>
    { r with
      strtab := roffSetstrn (roffSetstrn r.strtab newn g.res 0) oldn none 0
      rentab := roffSetstrn r.rentab newn none 0 }
  | .PRE => roffSetstr r newn g.res 0
  | .REN =>
    { r with
      rentab := roffSetstrn (roffSetstrn r.rentab newn g.res 0) oldn none 0
      strtab := roffSetstrn r.strtab newn none 0 }
  | .STD =>
    { r with
      rentab := roffSetstrn r.rentab newn (some oldn) 0
      strtab := roffSetstrn r.strtab newn none 0 }
  | _ => roffSetstr r newn none 0

/-- `roff_rn()` -/
def roffRn (a : Args X) : Res (Out X) := do
  if charAt a.buf.buf a.pos = NUL then
    return a.out ROFF_IGN a.r
  else
    let oldn ← roffGetname a.buf.buf a.pos
    if endsName (charAt oldn.buf (a.pos + oldn.namesz)) || charAt oldn.buf oldn.cp = NUL then
      return a.out ROFF_IGN a.r
    else
      let newn ← roffGetname oldn.buf oldn.cp
      if newn.namesz = 0 then
        return a.out ROFF_IGN a.r
      else
        let g := roffGetstrn a.r (oldn.name a.pos) DefType.any
        return a.out ROFF_IGN (renameTo g (oldn.name a.pos) (newn.name oldn.cp))

/-- Change the first entry with the given name that has a value, in place. -/
def mapValue (f : Char → Char) (name : CStr) : List Kv → List Kv
  | [] => []
  | n :: tab =>
    if n.key = name ∧ n.val.isSome then { n with val := n.val.map (·.map f) } :: tab
    else n :: mapValue f name tab

/-- `roff_stringup()`: convert a string to upper or to lower case. -/
def roffStringup (a : Args X) : Res (Out X) := do
  let st ← roffGetname a.buf.buf a.pos
  let g := roffGetstrn a.r (st.name a.pos) [.USER]
  let f := if a.tok = .ROFF_stringup then toupper else tolower
  return a.out ROFF_IGN <| match g.res with
    | some _ => { g.r with strtab := mapValue f (st.name a.pos) g.r.strtab }
    | none => g.r

/-- `roff_nr()` -/
def roffNr (env : Env X) (a : Args X) : Res (Out X) := do
  if charAt a.buf.buf a.pos = NUL then
    return a.out ROFF_IGN a.r
  else
    let st ← roffGetname a.buf.buf a.pos
    if endsName (charAt st.buf (a.pos + st.namesz)) then
      return a.out ROFF_IGN a.r
    else
      let sign := charAt st.buf st.cp
      let val := if sign = '+' ∨ sign = '-' then st.cp + 1 else st.cp
      let iv ← roffEvalnum env st.buf false val 'u' false
      if iv.ok = false then
        return a.out ROFF_IGN a.r
      else
        let is ← roffEvalnum env st.buf false (skipWhile isspace st.buf iv.pos) NUL false
        let step := if is.ok then some is.val else none
        return a.out ROFF_IGN
          { a.r with regtab := roffSetregn a.r.regtab (st.name a.pos) iv.val sign step }

/-- `roff_rr()` -/
def roffRr (a : Args X) : Res (Out X) := do
  if charAt a.buf.buf a.pos = NUL then
    return a.out ROFF_IGN a.r
  else
    let st ← roffGetname a.buf.buf a.pos
    return a.out ROFF_IGN { a.r with regtab := removeReg a.r.regtab (st.name a.pos) }

/-! ## §3 Character translation -/

/-- Whether a replacement string contains a font escape sequence, with a bound on the number of
    iterations. -/
def hasFont (buf : CStr) : Nat → Nat → Res Bool
  | 0, _ => .error .fuel
  | steps + 1, p => do
    let c ← rd buf p
    if c = NUL then
      return false
    else if c ≠ '\\' then
      hasFont buf steps (p + 1)
    else
      let s ← mandocEscape buf p
      let font ← hasFont buf steps s.rend
      return s.rval.isFont || font

/-- Set an entry of the single-byte translation table. -/
def setXtab (xtab : Option (Char → Option CStr)) (c : Char) (s : CStr) :
    Option (Char → Option CStr) :=
  some (Function.update (xtab.getD fun _ => none) c (some s))

/-- The index after the character or special character at `pos`. -/
def charItem (buf : CStr) (pos : Nat) (c : Char) : Res (Option Nat) :=
  if c = '\\' then do
    let s ← mandocEscape buf pos
    return if s.rval = .SPECIAL then some s.rend else none
  else
    return some (pos + 1)

/-- The index after the character to be replaced, if it is valid: the check at the beginning
    of `roff_char()`. -/
def charEnd (buf : CStr) (pos : Nat) : Res (Option Nat) := do
  let c ← rd buf pos
  if c = NUL then
    return none
  else
    match ← charItem buf pos c with
    | none => return none
    | some p =>
      let d ← rd buf p
      return if d = ' ' ∨ d = NUL then some p else none

/-- `roff_char()` -/
def roffChar (a : Args X) : Res (Out X) := do
  match ← charEnd a.buf.buf a.pos with
  | none => return a.out ROFF_IGN a.r
  | some p =>
    let key := slice a.buf.buf a.pos p
    let vp := skipBlanks a.buf.buf p
    let val := a.buf.buf.drop vp
    let font ← hasFont a.buf.buf (a.buf.buf.length + 2) vp
    match key with
    | [c] =>
      -- assert((unsigned int)*kp < 128)
      if 128 ≤ c.toNat then .error .abort
      else
        let xtab := setXtab a.r.xtab c (val ++ if font then "\x0cP".toList else [])
        return a.out ROFF_IGN { a.r with xtab := xtab }
    | _ =>
      let xmbtab := roffSetstrn a.r.xmbtab key (some val) 0
      return a.out ROFF_IGN
        { a.r with
          xmbtab := if font then roffSetstrn xmbtab key (some "\\fP".toList) 1 else xmbtab }

/-- The loop of `roff_tr()`, with a bound on the number of iterations. -/
def trLoop (buf : CStr) : Nat → Roff X → Nat → Res (Roff X)
  | 0, _, _ => .error .fuel
  | steps + 1, r, p => do
    let c ← rd buf p
    if c = NUL then
      return r
    else
      match ← trItem buf p with
      | none => return r
      | some q =>
        let first := slice buf p q
        let d ← rd buf q
        -- A missing second character is replaced by a blank.
        match ← (if d = NUL then .ok (some q) else trItem buf q : Res (Option Nat)) with
        | none => return r
        | some e =>
          let second := if d = NUL then [' '] else slice buf q e
          if 1 < first.length then
            trLoop buf steps { r with xmbtab := roffSetstrn r.xmbtab first (some second) 0 } e
          else
            trLoop buf steps { r with xtab := setXtab r.xtab c second } e
where
  /-- The index after a character or escape sequence, unless the latter is invalid. -/
  trItem (buf : CStr) (p : Nat) : Res (Option Nat) :=
    if charAt buf p = '\\' then do
      let s ← mandocEscape buf p
      return if s.rval = .ERROR then none else some s.rend
    else
      return some (p + 1)

/-- `roff_tr()` -/
def roffTr (a : Args X) : Res (Out X) := do
  return a.out ROFF_IGN (← trLoop a.buf.buf (a.buf.buf.length + 2) a.r a.pos)

/-! ## §4 Requests producing nodes -/

/-- `roff_noarg()` -/
def roffNoarg (env : Env X) (a : Args X) : Res (Out X) := do
  let r := if a.r.man.flags.bline || a.r.man.flags.eline then breakscope env a.r a.tok else a.r
  let tok := if a.tok = .ROFF_brp then .ROFF_br else a.tok
  let (n, r) ← roffElemAlloc r a.ln a.ppos tok
  let nofill := if tok = .ROFF_nf then true else if tok = .ROFF_fi then false else r.man.flags.nofill
  let r := { r with man := { r.man with flags := { r.man.flags with nofill := nofill } } }
  return a.out ROFF_IGN (finishElem r n)

/-- End centering: let the next node become a sibling of the active request. -/
def leaveCe (r : Roff X) (n : Nat) : Roff X :=
  { r with man := { r.man with last := some n, next := .SIBLING } }

/-- The default argument of `.ce` and `.rj`. -/
def defaultCe (r : Roff X) (ln pos : Nat) : Res (Roff X) := do
  let last ← r.man.lastNode
  if (r.man.node last).type = .ELEM then
    let r ← roffWordAlloc r ln pos ['1']
    let last ← r.man.lastNode
    return { r with
      man := r.man.modify last fun d => { d with flags := { d.flags with nosrc := true } } }
  else
    return r

/-- The argument of `.ce` or `.rj` in `roff_onearg()`: set the number of lines, for the
    element `n`. -/
def startCe (env : Env X) (r : Roff X) (ln pos n : Nat) : Res (Roff X) := do
  let r ← defaultCe r ln pos
  let last ← r.man.lastNode
  match (r.man.node last).string with
  | none => .error .null
  | some s =>
    let num ← roffEvalnum env s false 0 NUL false
    let ceLines := if num.ok then num.val else 1
    let parent ← r.man.parentNode last
    let r :=
      if ceLines < 1 then { leaveCe r parent with ceNode := none, ceLines := 0 }
      else { leaveCe r last with ceNode := some parent, ceLines := ceLines }
    return { r with man := r.man.modify n fun d => { d with flags := { d.flags with line := true } } }

/-- Requests that center or right-adjust input lines. -/
def Tok.isCe (tok : Tok) : Bool := tok = .ROFF_ce || tok = .ROFF_rj

/-- The beginning of `roff_onearg()`: break next-line scope, and end the active request. -/
def oneargStart (env : Env X) (a : Args X) : Roff X :=
  let breaks := (a.r.man.flags.bline || a.r.man.flags.eline) &&
    (a.tok.isCe || a.tok = .ROFF_sp || a.tok = .ROFF_ti)
  let r := if breaks then breakscope env a.r a.tok else a.r
  match r.ceNode with
  | some n => if a.tok.isCe then leaveCe r n else r
  | none => r

/-- `roff_onearg()` -/
def roffOnearg (env : Env X) (a : Args X) : Res (Out X) := do
  let r := oneargStart env a
  let (n, r) ← roffElemAlloc r a.ln a.ppos a.tok
  let word := a.rest.takeWhile (· ≠ ' ')
  let r ← (if a.rest = [] then .ok r else roffWordAlloc r a.ln a.pos word : Res (Roff X))
  if a.tok.isCe then
    return a.out ROFF_IGN (← startCe env r a.ln a.pos n)
  else
    return a.out ROFF_IGN (finishElem r n)

/-- The words of a line from an index on, with their indices. -/
def splitWords (buf : CStr) : Nat → Nat → List (Nat × CStr)
  | 0, _ => []
  | steps + 1, sp =>
    if charAt buf sp = NUL then []
    else
      let ep := skipWhile (· ≠ ' ') buf sp
      (sp, slice buf sp ep) :: splitWords buf steps (skipBlanks buf ep)

/-- Allocate nodes for some words. -/
def allocWords (ln : Nat) : List (Nat × CStr) → Roff X → Res (Roff X)
  | [], r => .ok r
  | (pos, word) :: words, r => do
    let r ← roffWordAlloc r ln pos word
    allocWords ln words r

/-- `roff_manyarg()` -/
def roffManyarg (a : Args X) : Res (Out X) := do
  let (n, r) ← roffElemAlloc a.r a.ln a.ppos a.tok
  let r ← allocWords a.ln (splitWords a.buf.buf (a.buf.buf.length + 1) a.pos) r
  return a.out ROFF_IGN (finishElem r n)

/-- The first argument of `.mc`, or nothing if it is not a character. -/
def mcWord (buf : CStr) (pos : Nat) : Res CStr :=
  if charAt buf pos = NUL then .ok []
  else if charAt buf pos = '\\' then do
    let s ← mandocEscape buf pos
    return match s.rval with
      | .SPECIAL | .UNICODE | .NUMBERED => slice buf pos s.rend
      | _ => []
  else .ok [charAt buf pos]

/-- `roff_mc()` -/
def roffMc (a : Args X) : Res (Out X) := do
  let word ← mcWord a.buf.buf a.pos
  let (n, r) ← roffElemAlloc a.r a.ln a.ppos a.tok
  let r ← (if word = [] then .ok r else roffWordAlloc r a.ln a.pos word : Res (Roff X))
  return a.out ROFF_IGN (finishElem r n)

/-! ## §5 Tables and equations -/

/-- `roff_TE()` -/
def roffTE (env : Env X) (a : Args X) : Res (Out X) := do
  let r := { a.r with man := { a.r.man with flags := { a.r.man.flags with nonofill := false } } }
  if r.tbl = false then
    return a.out ROFF_IGN r
  else
    let (irc, r) ← roffEndtbl env r false
    if irc then return a.out ROFF_IGN r
    else return ⟨ROFF_REPARSE, r, ⟨".sp".toList, 4⟩, 0⟩

/-- `roff_T_()` -/
def roffT_ (env : Env X) (a : Args X) : Res (Out X) :=
  .ok (a.out ROFF_IGN (if a.r.tbl then { a.r with x := env.tblRestart a.r.x a.ln a.ppos } else a.r))

/-- `roff_TS()` -/
def roffTS (env : Env X) (a : Args X) : Res (Out X) := do
  let (_, r) ← (if a.r.tbl then roffEndtbl env a.r false else .ok (true, a.r) : Res (Bool × Roff X))
  return a.out ROFF_IGN
    { r with
      man := { r.man with flags := { r.man.flags with nonofill := true } }
      tbl := true
      x := env.tblAlloc r.x a.ppos a.ln }

/-- `roff_EQ()` -/
def roffEQ (env : Env X) (a : Args X) : Res (Out X) := do
  let r := if a.r.man.macroset = .MAN then breakscope env a.r .ROFF_EQ else a.r
  let n := r.man.count
  let last ← r.man.lastNode
  let man := roffNodeAlloc r.man a.ln a.ppos .EQN .TOKEN_NONE
  let man :=
    if (man.node last).line < a.ln then
      man.modify n fun d => { d with flags := { d.flags with line := true } }
    else man
  let man ← roffNodeAppend man n
  -- assert(r->eqn == NULL)
  if r.eqn then
    .error .abort
  else
    return a.out ROFF_IGN
      { r with
        man := { man with next := .SIBLING }
        eqn := true
        lastEqn := true
        x := env.eqnStart r.x r.lastEqn n }

/-- `roff_EN()` -/
def roffEN (env : Env X) (a : Args X) : Res (Out X) :=
  .ok (a.out ROFF_IGN (if a.r.eqn then { a.r with x := env.eqnParse a.r.x, eqn := false } else a.r))

/-- `roff_eqndelim()`: handle in-line equation delimiters. Return nothing if the line does
    not contain the delimiter. -/
def roffEqndelim (r : Roff X) (delims : Char × Char) (buf : Buf) (pos : Nat) :
    Option (Roff X × Buf) :=
  match strchrFrom buf.buf pos (if r.eqn then delims.2 else delims.1) with
  | none => none
  | some i =>
    let bef := buf.buf.take i
    let aft := buf.buf.drop (i + 1)
    -- Drop leading white space from the equation.
    let aft := if r.eqn then aft else aft.dropWhile (· = ' ')
    let befPr := if bef = [] then [] else (if r.eqn then [] else "\\&".toList) ++ ['\n']
    let aftPr := if aft = [] then [] else '\n' :: (if r.eqn then "\\&".toList else [])
    let name := if r.eqn then ".EN".toList else ".EQ".toList
    some ({ r with eqnInline := !r.eqn }, Buf.ofStr (bef ++ befPr ++ name ++ aftPr ++ aft))

/-! ## §6 User-defined macros -/

/-- `roff_return()`: there is no need to call `roff_userret()` from here. The read module
    will call that after rewinding the reader stack. -/
def roffReturn (a : Args X) : Res (Out X) :=
  .ok (a.out (if a.r.mstack = [] then ROFF_IGN else ROFF_IGN ||| ROFF_USERRET) a.r)

/-- `roff_shift()` -/
def roffShift (env : Env X) (a : Args X) : Res (Out X) := do
  let n ← roffEvalnum env a.buf.buf false a.pos NUL false
  let levels := if a.rest ≠ [] ∧ n.ok then n.val else 1
  return a.out ROFF_IGN <| match a.r.mstack with
    | [] => a.r
    | argv :: mstack => { a.r with mstack := argv.drop levels.toNat :: mstack }

/-- Whether a file name contains a string. -/
def hasInfix (pat : String) (name : CStr) : Bool := (strstr pat.toList name).isSome

/-- `roff_so()`: explicitly disallow traversing up the file-system or using absolute
    paths. -/
def roffSo (a : Args X) : Res (Out X) :=
  let name := a.rest
  if name.head? = some '/' ∨ hasInfix "../" name ∨ hasInfix "/.." name then
    .ok ⟨ROFF_REPARSE, a.r,
      Buf.ofStr (".sp\nSee the file ".toList ++ name ++ ".\n.sp".toList), 0⟩
  else
    .ok ⟨ROFF_SO, a.r, a.buf, a.pos⟩

/-- Escape quotes in a macro argument. -/
def escapeQuotes (arg : CStr) : CStr :=
  arg.flatMap fun c => if c = '"' then "\\(dq".toList else [c]

/-- Add an argument to the current macro context. -/
def pushArg (r : Roff X) (arg : CStr) : Roff X :=
  match r.mstack with
  | [] => r
  | argv :: mstack => { r with mstack := (argv ++ [arg]) :: mstack }

/-- Collect the macro argument strings, with a bound on their number. -/
def collectArgs (env : Env X) (fuel : Nat) : Nat → Roff X → CStr → Nat → Res (Roff X)
  | 0, _, _, _ => .error .fuel
  | _ + 1, r, [], _ => .ok r
  | steps + 1, r, c :: src, pos => do
    let g ← roffGetarg env fuel r (c :: src) pos
    collectArgs env fuel steps (pushArg g.r (escapeQuotes g.arg)) g.rest g.pos

/-- `roff_userdef()` -/
def roffUserdef (env : Env X) (fuel : Nat) (a : Args X) : Res (Out X) :=
  match a.r.currentString with
  | none => .error .null
  -- If the macro is empty, ignore it altogether.
  | some [] => .ok (a.out ROFF_IGN a.r)
  | some (c :: cs) => do
    -- Initialize a new macro stack context.
    let r := { a.r with mstack := [] :: a.r.mstack }
    let r ← collectArgs env fuel (a.buf.buf.length + 1) r a.rest a.pos
    -- Replace the macro invocation by the macro definition.
    return ⟨if (c :: cs).getLast? = some '\n' then ROFF_REPARSE ||| ROFF_USERCALL
        else ROFF_IGN ||| ROFF_APPEND,
      r, Buf.ofStr (c :: cs), 0⟩

/-- `roff_renamed()` -/
def roffRenamed (a : Args X) : Res (Out X) :=
  match a.r.currentString with
  | none => .error .null
  | some name =>
    .ok ⟨ROFF_CONT, a.r,
      Buf.ofStr ('.' :: name ++ (if a.rest = [] then [] else [' ']) ++ a.rest), 0⟩

end Mandoc
