import Mandoc.Roff.State

/-!
# Strings and Registers

The tables of user-defined and renamed strings and macros, the predefined strings, and
the number registers of `roff.c`.
-/

namespace Mandoc

/-! ## §1 Setting strings -/

/-- Rudimentary roff copy mode: handle escaped backslashes. -/
def copyMode : CStr → CStr
  | [] => []
  | [c] => [c]
  | c :: d :: s =>
    if c = '\\' ∧ d = '\\' then '\\' :: copyMode s
    else c :: copyMode (d :: s)

/-- The new value of a table entry: `append` is 0 for replace mode, 1 for single-line
    append mode, and 2 for multiline append mode. -/
def setVal (string : Option CStr) (append : Nat) (old : Option CStr) : Option CStr :=
  let val := if append = 0 then none else old
  match string with
  | none => val
  | some s => some (val.getD [] ++ copyMode s ++ if 1 < append then ['\n'] else [])

/-- `roff_setstrn()` -/
def roffSetstrn : List Kv → CStr → Option CStr → Nat → List Kv :=
  fun tab name string append =>
    if tab.any (·.key = name) then change tab name string append
    -- Create a new string table entry.
    else ⟨name, setVal string append none⟩ :: tab
where
  /-- Change the first entry with the given name. -/
  change : List Kv → CStr → Option CStr → Nat → List Kv
    | [], _, _, _ => []
    | n :: tab, name, string, append =>
      if n.key = name then ⟨n.key, setVal string append n.val⟩ :: tab
      else n :: change tab name string append

section

variable {X : Type}

/-- `roff_setstr()` -/
def roffSetstr (r : Roff X) (name : CStr) (string : Option CStr) (append : Nat) : Roff X :=
  { r with
    strtab := roffSetstrn r.strtab name string append
    rentab := roffSetstrn r.rentab name none 0 }

/-! ## §2 Looking strings up -/

/-- The predefined strings: `predefs.in`. -/
def predefs : List (String × String) := [
  ("Am", "&"), ("Ba", "\\fR|\\fP"), ("Ge", "\\(>="), ("Gt", ">"), ("If", "infinity"),
  ("Le", "\\(<="), ("Lq", "\\(lq"), ("Lt", "<"), ("Na", "NaN"), ("Ne", "\\(!="),
  ("Pi", "pi"), ("Pm", "\\(+-"), ("Rq", "\\(rq"), ("left-bracket", "["),
  ("left-parenthesis", "("), ("lp", "("), ("left-singlequote", "\\(oq"), ("q", "\\(dq"),
  ("quote-left", "\\(oq"), ("quote-right", "\\(cq"), ("R", "\\(rg"), ("right-bracket", "]"),
  ("right-parenthesis", ")"), ("rp", ")"), ("right-singlequote", "\\(cq"), ("Tm", "(Tm)"),
  ("Px", "POSIX"), ("Ai", "ANSI"), ("'", "\\'"), ("aa", "\\(aa"), ("ga", "\\(ga"),
  ("`", "\\`"), ("lq", "\\(lq"), ("rq", "\\(rq"), ("ua", "\\(ua"), ("va", "\\(va"),
  ("<=", "\\(<="), (">=", "\\(>=")]

/-- Types of definitions of macros and strings. -/
inductive DefType where
  /-- User-defined. -/
  | USER
  /-- Predefined. -/
  | PRE
  /-- Renamed standard macro. -/
  | REN
  /-- mdoc(7) or man(7) macro. -/
  | STD
  /-- Completely undefined. -/
  | UNDEF
  /-- None of the types asked for. -/
  | none
deriving DecidableEq, Repr

/-- `ROFFDEF_ANY` -/
def DefType.any : List DefType := [.USER, .PRE, .REN, .STD]

/-- The value of the first entry with the given name that has one. -/
def lookup (tab : List Kv) (name : CStr) : Option CStr :=
  match tab.find? fun n => n.key = name && n.val.isSome with
  | some n => n.val
  | none => none

/-- Whether the name is the name of a standard macro. -/
def isStd (macroset : MacroSet) (name : CStr) : Bool :=
  (macroset ≠ .MAN && mdocNames.any (·.toList = name)) ||
    (macroset ≠ .MDOC && manNames.any (·.toList = name))

/-- What `roff_getstrn()` returns: the value, the type of the definition, and the state. -/
structure GetStr (X : Type) where
  res : Option CStr
  deftype : DefType
  r : Roff X

/-- `roff_getstrn()`. The tables are searched one after the other. A definition of a type
    that was not asked for only counts as found. -/
def roffGetstrn (r : Roff X) (name : CStr) (want : List DefType) : GetStr X :=
  let user := lookup r.strtab name
  let ren := lookup r.rentab name
  let pre := predefs.find? (·.1.toList = name)
  let std := isStd r.man.macroset name
  if user.isSome && want.contains .USER then ⟨user, .USER, r⟩
  else if ren.isSome && want.contains .REN then ⟨ren, .REN, r⟩
  else if pre.isSome && want.contains .PRE then ⟨pre.map (·.2.toList), .PRE, r⟩
  else if std && want.contains .STD then ⟨none, .STD, r⟩
  else if (user.isSome || ren.isSome || pre.isSome || std) = false ∧ want ≠ DefType.any then
    -- This might still be a request, so do not treat it as undefined yet.
    if want.contains .REN then ⟨none, .UNDEF, r⟩
    -- Using an undefined string defines it to be empty.
    else ⟨none, .none, roffSetstr r name (some []) 0⟩
  else ⟨none, .none, r⟩

/-! ## §3 Registers -/

/-- The value of type `int` that wrapping arithmetic computes. -/
def wrapInt (x : Int) : Int := x.bmod (2 ^ 32)

/-- `roff_setregn()`: the sign is `+`, `-`, or anything else to set the value, and the step
    is optional. -/
def roffSetregn (regtab : List Reg) (name : CStr) (val : Int) (sign : Char)
    (step : Option Int) : List Reg :=
  let regtab :=
    if regtab.any (·.key = name) then regtab
    -- Create a new register.
    else ⟨name, 0, 0⟩ :: regtab
  change regtab
where
  /-- Change the first register with the given name. -/
  change : List Reg → List Reg
    | [] => []
    | reg :: regtab =>
      if reg.key = name then
        { reg with
          val :=
            if sign = '+' then wrapInt (reg.val + val)
            else if sign = '-' then wrapInt (reg.val - val)
            else val
          step := step.getD reg.step } :: regtab
      else reg :: change regtab

/-- `roff_getregro()`: some predefined read-only number registers. -/
def roffGetregro (r : Roff X) (name : Char) : Option Int :=
  if name = '$' then some (match r.mstack with | [] => 0 | ctx :: _ => ctx.length)
  else if name = 'A' then some 0
  else if name = 'g' then some 1
  else if name = 'H' then some 24
  else if name = 'j' then some 0
  else if name = 'l' then some (78 * 24)
  else if name = 'T' then some 1
  else if name = 'V' then some 40
  else none

/-- The read-only register with the given name, if there is one. -/
def readOnly (r : Roff X) : CStr → Option Int
  | ['.', c] => roffGetregro r c
  | _ => none

/-- `roff_getregn()`: a sign increments or decrements the register by its step, and an
    undefined register is defined to be zero. -/
def roffGetregn (r : Roff X) (name : CStr) (sign : Char) : Int × Roff X :=
  match readOnly r name with
  | some val => (val, r)
  | none =>
    match r.regtab.find? (·.key = name) with
    | some reg =>
      let val :=
        if sign = '+' then reg.val + reg.step
        else if sign = '-' then reg.val - reg.step
        else reg.val
      (val, { r with regtab := roffSetregn r.regtab name val NUL none })
    | none => (0, { r with regtab := roffSetregn r.regtab name 0 NUL none })

/-- `roff_hasregn()` -/
def roffHasregn (r : Roff X) (name : CStr) : Bool :=
  (readOnly r name).isSome || r.regtab.any (·.key = name)

/-- Remove the first register with the given name: the loop of `roff_rr()`. -/
def removeReg (regtab : List Reg) (name : CStr) : List Reg :=
  regtab.eraseP (·.key = name)

end

end Mandoc
