import Mandoc.Roff.Tables

/-!
# Identifiers and Numeric Expressions

The functions of `roff.c` that parse identifiers (`roff_getname()`) and numeric
expressions (`roff_evalnum()`).
-/

namespace Mandoc

/-- The first index from `i` on with a byte that does not satisfy a test. -/
def skipWhile (p : Char → Bool) (s : CStr) (i : Nat) : Nat :=
  i + ((s.drop i).takeWhile p).length

theorem le_skipWhile (p : Char → Bool) (s : CStr) (i : Nat) : i ≤ skipWhile p s i :=
  Nat.le_add_right _ _

theorem skipWhile_le (p : Char → Bool) {s : CStr} {i : Nat} (hi : i ≤ s.length) :
    skipWhile p s i ≤ s.length := by
  have h := (List.takeWhile_prefix (l := s.drop i) p).length_le
  simp only [List.length_drop] at h
  unfold skipWhile
  omega

/-- The text after some skipped bytes. -/
theorem drop_skipWhile (p : Char → Bool) (s : CStr) (i : Nat) :
    s.drop (skipWhile p s i) = (s.drop i).dropWhile p := by
  have hdrop : ∀ l : CStr, l.drop (l.takeWhile p).length = l.dropWhile p := by
    intro l
    induction l with
    | nil => rfl
    | cons c l ih =>
      cases hc : p c with
      | true => rw [List.takeWhile_cons_of_pos hc, List.dropWhile_cons_of_pos hc, ← ih]; rfl
      | false =>
        rw [List.takeWhile_cons_of_neg (by simp [hc]), List.dropWhile_cons_of_neg (by simp [hc])]
        rfl
  rw [skipWhile, ← List.drop_drop, hdrop]

/-- Skip blanks. -/
def skipBlanks (s : CStr) (i : Nat) : Nat := skipWhile (· = ' ') s i

/-- The bytes from one index to another one. -/
def slice (s : CStr) (i j : Nat) : CStr := (s.drop i).take (j - i)

theorem slice_append (v : CStr) {i j k : Nat} (hij : i ≤ j) (hjk : j ≤ k) :
    slice v i k = slice v i j ++ slice v j k := by
  have hk : k - i = (j - i) + (k - j) := by omega
  have hj : v.drop j = (v.drop i).drop (j - i) := by rw [List.drop_drop, Nat.add_sub_cancel' hij]
  rw [slice, hk, List.take_add, slice, slice, hj]

/-- The bytes of a part of the string. -/
theorem exists_of_mem_slice {v : CStr} {i j : Nat} {c : Char} (h : c ∈ slice v i j) :
    ∃ k, i ≤ k ∧ k < j ∧ charAt v k = c := by
  obtain ⟨m, hm, hget⟩ := List.getElem_of_mem h
  simp only [slice, List.length_take, List.length_drop] at hm
  refine ⟨i + m, Nat.le_add_right i m, by omega, ?_⟩
  rw [← hget, charAt_eq_getElem (by omega)]
  simp [slice]

theorem slice_succ {v : CStr} {i : Nat} (hi : i < v.length) : slice v i (i + 1) = [charAt v i] := by
  rw [slice, Nat.add_sub_cancel_left, List.drop_eq_getElem_cons hi, List.take_succ_cons,
    List.take_zero, charAt_eq_getElem hi]

/-! ## §1 Identifiers -/

/-- State of `roff_getname()`: the buffer, where escape sequences in the name are reduced in
    place, the length of the name, and the index of the next byte. -/
structure GetName where
  buf : CStr
  namesz : Nat
  cp : Nat
deriving DecidableEq, Repr

/-- In an identifier, `\\\\`, `\\.`, `\\G` and so on are reduced to `\\`, `.`, `G` and so on: store
    the byte `c` at the end of the name, and blank out the bytes up to `iend` that no longer
    belong to it. -/
def reduceInName (name : Nat) (st : GetName) (c : Char) (iend : Nat) : GetName :=
  let buf := st.buf.set (name + st.namesz) c
  let namesz := st.namesz + 1
  { buf := buf.mapIdx fun i d => if st.cp ≤ i ∧ i < iend ∧ name + namesz ≤ i then ' ' else d
    namesz := namesz
    cp := iend }

/-- The loop of `roff_getname()`, with a bound on the number of iterations: advance to the
    byte after the end of the name. -/
def getnameLoop (name : Nat) : Nat → GetName → Res GetName
  | 0, _ => .error .fuel
  | steps + 1, st => do
    let c ← rd st.buf st.cp
    if c = NUL then
      return st
    else if c = ' ' || c = '\t' then
      return { st with cp := st.cp + 1 }
    else if c ≠ '\\' then
      let buf :=
        if name + st.namesz < st.cp then (st.buf.set (name + st.namesz) c).set st.cp ' '
        else st.buf
      getnameLoop name steps ⟨buf, st.namesz + 1, st.cp + 1⟩
    else
      let d ← rd st.buf (st.cp + 1)
      if d = '\x7b' || d = '\x7d' then
        return st
      else
        let e ← roffEscapeNull st.buf st.cp
        if e.rval ≠ .UNDEF then
          return { st with cp := e.rend }
        else
          -- For a backslash at the end of the buffer, the NUL becomes a part of the name.
          let c ← rd st.buf e.rnam
          getnameLoop name steps (reduceInName name st c e.rend)

/-- `roff_getname()`: measure the length of the identifier at an index, and advance to the
    next word. -/
def roffGetname (buf : CStr) (name : Nat) : Res GetName := do
  if (← rd buf name) = NUL then
    return ⟨buf, 0, name⟩
  else
    let st ← getnameLoop name (buf.length + 1) ⟨buf, 0, name⟩
    let _ ← rd st.buf st.cp
    -- Read past spaces.
    return { st with cp := skipBlanks st.buf st.cp }

/-- The identifier found. -/
def GetName.name (st : GetName) (name : Nat) : CStr := slice st.buf name (name + st.namesz)

/-! ## §2 Numbers and operators -/

/-- What the parsers of numbers return: whether they succeeded, the parse point, and the
    value. -/
structure Num where
  ok : Bool
  pos : Nat
  val : Int
deriving DecidableEq, Repr

section

variable {X : Type} (env : Env X) (v : CStr)

/-- `roff_getnum()`: parse a single signed decimal number with an optional scaling unit. -/
def roffGetnum (pos : Nat) (unit : Char) (skipspace : Bool) : Num :=
  let n := charAt v pos = '-'
  let p := if n ∨ charAt v pos = '+' then pos + 1 else pos
  let p := if skipspace then skipWhile isspace v p else p
  let ip := skipWhile isdigit v p
  let fp := if charAt v ip = '.' then skipWhile isdigit v (ip + 1) else ip
  if fp = pos + (if n then 1 else 0) then ⟨false, pos, 0⟩
  else
    -- Each number may be followed by one optional scaling unit.
    let scaled := "ficvPmnpuM".toList.contains (charAt v fp)
    let unit := if scaled ∧ unit ≠ NUL then charAt v fp else unit
    ⟨true, if scaled then fp + 1 else fp,
      env.numValue n (slice v p ip) (slice v (ip + 1) fp) unit⟩

/-- `roff_getop()`: parse a single operator, one or two characters long. -/
def roffGetop (pos : Nat) : Option (Char × Nat) :=
  let c := charAt v pos
  let d := charAt v (pos + 1)
  if "+-*/%&:".toList.contains c then some (c, pos + 1)
  else if c = '<' then
    if d = '=' then some ('l', pos + 2)
    else if d = '>' then some ('!', pos + 2)
    else if d = '?' then some ('i', pos + 2)
    else some ('<', pos + 1)
  else if c = '>' then
    if d = '=' then some ('g', pos + 2)
    else if d = '?' then some ('a', pos + 2)
    else some ('>', pos + 1)
  else if c = '=' then
    if d = '=' then some ('=', pos + 2) else some ('=', pos + 1)
  else none

/-- A truth value as a number. -/
def ofBool (b : Prop) [Decidable b] : Int := if b then 1 else 0

/-- The operators `/` and `%`, where division by zero is guarded against. The instruction that
    computes both the quotient and the remainder traps if the quotient is not an `int`. -/
def divOp (res operand2 result : Int) : Res Int :=
  if operand2 = 0 then .ok 0
  else if wrapInt (res.tdiv operand2) ≠ res.tdiv operand2 then .error .trap
  else .ok result

/-- `switch (operator)` in `roff_evalnum()`. -/
def evalOp (operator : Char) (res operand2 : Int) : Res Int :=
  if operator = '+' then .ok (wrapInt (res + operand2))
  else if operator = '-' then .ok (wrapInt (res - operand2))
  else if operator = '*' then .ok (wrapInt (res * operand2))
  else if operator = '/' then divOp res operand2 (res.tdiv operand2)
  else if operator = '%' then divOp res operand2 (res.tmod operand2)
  else if operator = '<' then .ok (ofBool (res < operand2))
  else if operator = '>' then .ok (ofBool (res > operand2))
  else if operator = 'l' then .ok (ofBool (res ≤ operand2))
  else if operator = 'g' then .ok (ofBool (res ≥ operand2))
  else if operator = '=' then .ok (ofBool (res = operand2))
  else if operator = '!' then .ok (ofBool (res ≠ operand2))
  else if operator = '&' then .ok (ofBool (res ≠ 0 ∧ operand2 ≠ 0))
  else if operator = ':' then .ok (ofBool (res ≠ 0 ∨ operand2 ≠ 0))
  else if operator = 'i' then .ok (min res operand2)
  else .ok (max res operand2)

/-! ## §3 Expressions -/

/-- Skip white space, if required. -/
def skipSpace (skipspace : Bool) (pos : Nat) : Nat :=
  if skipspace then skipWhile isspace v pos else pos

/-- `roff_evalpar()`: either a parenthesized numeric expression or a single signed number.
    The call of `roff_evalnum()` goes through the parameter `sub`. The flag `validate` says
    that the result pointer is null. -/
def roffEvalpar (sub : Nat → Res Num) (validate : Bool) (pos : Nat) (unit : Char)
    (skipspace : Bool) : Res Num :=
  if charAt v pos ≠ '(' then
    .ok (roffGetnum env v pos unit skipspace)
  else do
    let n ← sub (pos + 1)
    if n.ok = false then
      return n
    -- Omission of the closing parenthesis is an error in validation mode.
    else if charAt v n.pos = ')' then
      return { n with pos := n.pos + 1 }
    else
      return { n with ok := !validate }

mutual

/-- `roff_evalnum()`, with a bound on the number of calls and iterations: evaluate a
    complete numeric expression from left to right. -/
def evalnum (validate : Bool) : Nat → Nat → Char → Bool → Res Num
  | 0, _, _, _ => .error .fuel
  | steps + 1, pos, unit, skipspace => do
    let n ← roffEvalpar env v (fun p => evalnum validate steps p unit true) validate
      (skipSpace v skipspace pos) unit skipspace
    if n.ok = false then
      return n
    else
      evalRest validate steps n unit skipspace

/-- The loop of `roff_evalnum()` over the operators and operands. Each operand after the first
    one is evaluated into a variable of its own, even in validation mode. -/
def evalRest (validate : Bool) : Nat → Num → Char → Bool → Res Num
  | 0, _, _, _ => .error .fuel
  | steps + 1, n, unit, skipspace => do
    let pos := skipSpace v skipspace n.pos
    match roffGetop v pos with
    | none => return { n with pos := pos }
    | some (operator, pos) =>
      let m ← roffEvalpar env v (fun p => evalnum false steps p unit true) false
        (skipSpace v skipspace pos) unit skipspace
      if m.ok = false then
        return m
      else
        let pos := skipSpace v skipspace m.pos
        if validate then
          evalRest validate steps ⟨true, pos, n.val⟩ unit skipspace
        else
          evalRest validate steps ⟨true, pos, ← evalOp operator n.val m.val⟩ unit skipspace

end

/-- `roff_evalnum()` -/
def roffEvalnum (validate : Bool) (pos : Nat) (unit : Char) (skipspace : Bool) : Res Num :=
  evalnum env v validate (2 * v.length + 2) pos unit skipspace

end

end Mandoc
