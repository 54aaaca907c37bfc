import Mandoc.Roff.Words

/-!
# Scopes and Conditions

The stack of request blocks, the evaluation of conditions, and the requests `.if`, `.ie`,
`.el`, and `.while`.

A scope ends in one of three ways: when its counter of input lines reaches zero
(`roffnode_cleanscope()`), at a closing brace anywhere in a line
(`roff_cond_checkend()`), or, for a macro definition or an ignored block, at its end
marker.
-/

namespace Mandoc

variable {X : Type}

/-- `ROFF_ARGS`: the arguments of the handler functions. -/
structure Args (X : Type) where
  r : Roff X
  tok : Tok
  buf : Buf
  /-- Line number. -/
  ln : Nat
  /-- Beginning of the line or of the request. -/
  ppos : Nat
  /-- The parse point. -/
  pos : Nat
  offs : Nat

/-- Return a result code without changing the buffer. -/
def Args.out (a : Args X) (code : Code) (r : Roff X) : Out X := ⟨code, r, a.buf, a.offs⟩

/-- The rest of the line. -/
def Args.rest (a : Args X) : CStr := a.buf.buf.drop a.pos

/-! ## §1 The stack of scopes -/

/-- `roffnode_push()` -/
def roffnodePush (r : Roff X) (tok : Tok) (name : Option CStr) (line col : Nat) : Roff X :=
  let rule := match r.last with
    | [] => false
    | p :: _ => p.rule
  { r with last := ⟨tok, name, line, col, none, 0, rule⟩ :: r.last }

/-- `roffnode_pop()`, called with an open scope: also return the number of loops ended. -/
def roffnodePop (r : Roff X) : Nat × Roff X :=
  match r.last with
  | [] => (0, r)
  | p :: parents => (if p.tok = .ROFF_while then 1 else 0, { r with last := parents })

/-- `roffnode_cleanscope()`, on the stack of scopes: pop all nodes ending at the end of the
    current input line. Also return the number of loops ended. -/
def cleanscope : List Scope → Nat × List Scope
  | [] => (0, [])
  | p :: parents =>
    if 0 < p.endspan then
      if p.endspan - 1 ≠ 0 then
        (0, { p with endspan := p.endspan - 1 } :: parents)
      else
        let (inloop, last) := cleanscope parents
        (inloop + (if p.tok = .ROFF_while then 1 else 0), last)
    else
      (0, p :: parents)

/-- `roffnode_cleanscope()` -/
def roffnodeCleanscope (r : Roff X) : Nat × Roff X :=
  let (inloop, last) := cleanscope r.last
  (inloop, { r with last := last })

/-- The requests opening a conditional scope. -/
def Tok.isCond : Tok → Bool
  | .ROFF_el | .ROFF_ie | .ROFF_if | .ROFF_while => true
  | _ => false

/-- `roff_ccond()`: handle the closing brace of a conditional block. -/
def roffCcond (r : Roff X) : Nat × Roff X :=
  match r.last with
  | [] => (0, r)
  | p :: _ =>
    if p.tok.isCond ∧ p.endspan < 0 then
      let (inloop, r) := roffnodePop r
      let (inloop', r) := roffnodeCleanscope r
      (inloop + inloop', r)
    else
      (0, r)

/-! ## §2 Closing braces -/

/-- The loop of `roff_cond_checkend()` over the rest of the line. Return the text that
    replaces it, the state, and whether a loop ended. The flag `rr` says that text following
    a closing brace is preserved. -/
def checkendLoop (rr : Bool) : Roff X → CStr → CStr × Roff X × Bool
  | r, [] => ([], r, false)
  | r, [c] => ([c], r, false)
  | r, c :: d :: s =>
    if c ≠ '\\' then
      let (s, r, ended) := checkendLoop rr r (d :: s)
      (c :: s, r, ended)
    else if d = '\x7d' then
      let (inloop, r) := roffCcond r
      let ended := inloop ≠ 0
      match s with
      -- The brace ends the line.
      | [] => ([], r, ended)
      | e :: s =>
        let (s, r, ended') := checkendLoop rr r (e :: s)
        (if rr then '\\' :: '&' :: s else s, r, ended || ended')
    else
      let (s, r, ended) := checkendLoop rr r s
      (c :: d :: s, r, ended)

/-- What `roff_cond_checkend()` returns: the result code, the state, the buffer, and whether
    the caller shall use the input line. -/
structure Checkend (X : Type) where
  irc : Code
  r : Roff X
  buf : Buf
  rr : Bool

/-- `roff_cond_checkend()`, called with an open scope: check for a closing brace and handle
    it. The flag `preserve` says that the caller wants to preserve text following the
    brace. -/
def roffCondCheckend (r : Roff X) (tok : Tok) (buf : Buf) (pos : Nat) (preserve : Bool) :
    Res (Checkend X) :=
  match r.last with
  | [] => .error .null
  | p :: _ =>
    let endloop :=
      if tok ≠ .ROFF_while then ROFF_IGN else if p.rule then ROFF_LOOPCONT else ROFF_LOOPEXIT
    let (inloop, r) := roffnodeCleanscope r
    let s := buf.buf.drop pos
    -- If the brace occurs on a macro line without a preceding macro or a text line contains
    -- nothing else, drop the line completely.
    let drop := s.take 2 = "\\\x7d".toList ∧ (s.length = 2 ∨ preserve = false)
    let rr := p.rule && !drop
    let (s, r, ended) := checkendLoop rr r s
    .ok ⟨if inloop ≠ 0 ∨ ended then endloop else ROFF_IGN, r,
      { buf with buf := buf.buf.take pos ++ s }, rr⟩

/-! ## §3 Conditions -/

/-- `strchr(s + i, c)`: the index of the first occurrence from `i` on. -/
def strchrFrom (s : CStr) (i : Nat) (c : Char) : Option Nat :=
  let j := skipWhile (· ≠ c) s i
  if j < s.length then some j else none

/-- The loop of `roff_evalstrcond()`, with a bound on the number of iterations: compare the
    strings at `s2` and behind `s3`. Return whether they match, and the final value of
    `s3`. -/
def strcondLoop (v : CStr) (delim : Char) : Nat → Nat → Nat → Bool × Option Nat
  | 0, _, s3 => (false, some s3)
  | steps + 1, s2, s3 =>
    let s3 := s3 + 1
    if charAt v s3 = NUL then (false, some s3)
    else if charAt v s2 ≠ charAt v s3 then (false, strchrFrom v s3 delim)
    else if charAt v s3 = delim then (true, some s3)
    else strcondLoop v delim steps (s2 + 1) s3

/-- `roff_evalstrcond()`: evaluate a string comparison condition. Return the result and the
    index after the condition. -/
def roffEvalstrcond (v : CStr) (pos : Nat) : Bool × Nat :=
  let delim := charAt v pos
  let (isMatch, s3) := match strchrFrom v (pos + 1) delim with
    | none => (false, none)
    | some s3 => strcondLoop v delim (v.length + 1) (pos + 1) s3
  match s3 with
  | none => (isMatch, v.length)
  | some s3 => (isMatch, if charAt v s3 ≠ NUL then s3 + 1 else s3)

/-- What `roff_evalcond()` returns: the result, the state, the buffer, and the index after the
    condition. -/
structure Cond (X : Type) where
  res : Bool
  r : Roff X
  buf : CStr
  pos : Nat

/-- The case `'c'`: whether a character is available. -/
def evalcondChar (env : Env X) (v : CStr) (pos : Nat) (wanttrue : Bool) : Res (Bool × Nat) := do
  let pos := skipBlanks v (pos + 1)
  -- The horizontal tab is neither available nor unavailable.
  if charAt v pos = '\t' then
    return (false, pos + 1)
  -- Printable ASCII characters are available.
  else if charAt v pos ≠ '\\' then
    return (wanttrue, pos + 1)
  else
    let s ← mandocEscape v pos
    let arg := slice v s.rarg s.rendarg
    let istrue := match s.rval with
      | .SPECIAL => decide (env.spec2cp arg ≠ -1)
      | .UNICODE => true
      | .NUMBERED => decide (env.num2char arg ≠ -1)
      | _ => !wanttrue
    return (istrue = wanttrue, s.rend)

/-- The cases `'d'` and `'r'`: whether a string or a register is defined. -/
def evalcondName (r : Roff X) (v : CStr) (pos : Nat) (wanttrue : Bool) : Res (Cond X) := do
  let start := skipBlanks v (pos + 1)
  let st ← roffGetname v start
  let name := st.name start
  let (istrue, r) :=
    if st.namesz = 0 then (false, r)
    else if charAt v pos = 'r' then (roffHasregn r name, r)
    else
      let g := roffGetstrn r name DefType.any
      (decide (g.deftype ≠ .none), g.r)
  return ⟨istrue = wanttrue, r, st.buf, start + st.namesz⟩

/-- `roff_evalcond()`: evaluate an optionally negated single character, numerical, or string
    condition. -/
def roffEvalcond (env : Env X) (r : Roff X) (v : CStr) (pos : Nat) : Res (Cond X) := do
  let wanttrue : Bool := charAt v pos ≠ '!'
  let pos := if wanttrue then pos else pos + 1
  let c := charAt v pos
  if c = NUL then
    return ⟨false, r, v, pos⟩
  else if c = 'n' ∨ c = 'o' then
    return ⟨wanttrue, r, v, pos + 1⟩
  else if c = 'e' ∨ c = 't' ∨ c = 'v' then
    return ⟨!wanttrue, r, v, pos + 1⟩
  else if c = 'c' then
    let (res, pos) ← evalcondChar env v pos wanttrue
    return ⟨res, r, v, pos⟩
  else if c = 'd' ∨ c = 'r' then
    evalcondName r v pos wanttrue
  else
    let n ← roffEvalnum env v false pos 'u' false
    if n.ok then
      return ⟨decide (0 < n.val) = wanttrue, r, v, n.pos⟩
    else if n.pos = pos then
      let (isMatch, pos) := roffEvalstrcond v pos
      return ⟨isMatch = wanttrue, r, v, pos⟩
    else
      return ⟨false, r, v, n.pos⟩

/-! ## §4 The conditional requests -/

/-- The rule of a new conditional, for an optional parent and the evaluated condition. -/
def condRule (parents : List Scope) (res : Bool) : Bool :=
  match parents with
  | [] => res
  | p :: _ => p.rule && res

/-- Determine scope: the scope of a conditional that is followed by the text at `pos`, and the
    index where processing of the line continues. -/
def condScope (tok : Tok) (buf : CStr) (pos : Nat) : Int × Nat :=
  -- If there is nothing on the line after the conditional, use next-line scope. Except that
  -- .while does not support next-line scope.
  if charAt buf pos = NUL ∧ tok ≠ .ROFF_while then
    (2, pos)
  else
    let pos := skipBlanks buf pos
    -- An opening brace requests multiline scope.
    if charAt buf pos = '\\' ∧ charAt buf (pos + 1) = '\x7b' then
      (-1, skipBlanks buf (pos + 2))
    -- Anything else following the conditional causes single-line scope.
    else
      (1, pos)

/-- The value of the condition: an `.el` consumes the value of the current stack entry set in
    a prior `.ie` call. -/
def condValue (env : Env X) (a : Args X) : Res (Cond X) :=
  if a.tok = .ROFF_el then
    match a.r.rstack with
    | [] => .ok ⟨false, a.r, a.buf.buf, a.pos⟩
    | rule :: rstack => .ok ⟨rule, { a.r with rstack := rstack }, a.buf.buf, a.pos⟩
  else
    roffEvalcond env a.r a.buf.buf a.pos

/-- `roff_cond()` -/
def roffCond (env : Env X) (a : Args X) : Res (Out X) := do
  let c ← condValue env a
  -- An if-else will put the NEGATION of the current evaluated conditional into the stack of
  -- rules.
  let rstack := if a.tok = .ROFF_ie then (!c.res) :: c.r.rstack else c.r.rstack
  let _ ← rd c.buf c.pos
  let (endspan, pos) := condScope a.tok c.buf c.pos
  let node : Scope := ⟨a.tok, none, a.ln, a.ppos, none, endspan, condRule a.r.last c.res⟩
  return ⟨if a.tok = .ROFF_while then ROFF_RERUN ||| ROFF_WHILE else ROFF_RERUN,
    { c.r with rstack := rstack, last := node :: c.r.last }, { a.buf with buf := c.buf }, pos⟩

end Mandoc
