import Mandoc.CString

/-!
# Escape Sequence Parser

Model of `roff_escape.c`: the function `roff_escape()` used by the roff parser, and
`mandoc_escape()`, the entry point for the formatters.

## Shape of the model

- `escName` sorts the name byte of a sequence into its syntax category, as the big
  `switch` at the top of the function does.
- `standardArg`, `quotedArg`, and `sizeArg` find the beginning of the argument and
  decide how to end it.
- `argLoop` advances to the end of the argument.
- `postProcess` inspects the argument.
- `escapeAt` is the body of the function. Its recursive calls go through the
  parameter `sub`, and `escapeRec` ties the knot with a bound on the recursion depth.

All bytes of the buffer are read with `rd`. The diagnostic messages, which are only
issued when the line number is not zero, are left out.
-/

namespace Mandoc

/-! ## §1 Classification -/

/-- The type of an escape sequence: `enum mandoc_esc`. -/
inductive Esc where
  | EXPAND | ERROR | UNSUPP | IGNORE | UNDEF | SPECIAL
  | FONT | FONTBOLD | FONTITALIC | FONTBI | FONTROMAN | FONTCR | FONTCB | FONTCI | FONTPREV
  | NUMBERED | UNICODE | DEVICE | BREAK | NOSPACE | HORIZ | HLINE | SKIPCHAR | OVERSTRIKE
deriving DecidableEq, Repr

/-- The types of the sequences that select a font. -/
def Esc.isFont : Esc → Bool
  | .FONT | .FONTROMAN | .FONTITALIC | .FONTBOLD | .FONTBI | .FONTCR | .FONTCB | .FONTCI
  | .FONTPREV => true
  | _ => false

/-- Syntax category of an escape name. -/
inductive EscName where
  /-- No argument at all. -/
  | noarg (rval : Esc)
  /-- The end of the line right after the escape character. -/
  | nul
  /-- An undefined sequence. -/
  | undefined
  /-- The name itself is the name of a glyph. -/
  | glyph
  /-- Standard argument format. -/
  | standard (rval : Esc)
  /-- The special characters `\(` and `\[`, where the argument starts at the name. -/
  | bracket
  /-- Quoted argument. -/
  | quoted (rval : Esc)
  /-- Sizes support both forms. -/
  | size
deriving DecidableEq, Repr

/-- `switch (buf[inam])` -/
def escName (c : Char) : EscName :=
  -- Escape sequences taking no arguments at all.
  if "!?r".toList.contains c then .noarg .UNSUPP
  else if "%&),/^adtu\x7b|\x7d".toList.contains c then .noarg .IGNORE
  else if c = NUL then .nul
  else if " '-0:_`e~".toList.contains c then .glyph
  else if c = 'p' then .noarg .BREAK
  else if c = 'c' then .noarg .NOSPACE
  else if c = 'z' then .noarg .SKIPCHAR
  -- Standard argument format.
  else if "$*Vgn".toList.contains c then .standard .EXPAND
  else if "FMOYkm".toList.contains c then .standard .IGNORE
  else if "([".toList.contains c then .bracket
  else if c = 'f' then .standard .FONT
  -- Quoted arguments.
  else if "ABw".toList.contains c then .quoted .EXPAND
  else if "DHLRSXZbvx".toList.contains c then .quoted .IGNORE
  else if c = 'C' then .quoted .SPECIAL
  else if c = 'N' then .quoted .NUMBERED
  else if c = 'h' then .quoted .HORIZ
  else if c = 'l' then .quoted .HLINE
  else if c = 'o' then .quoted .OVERSTRIKE
  -- Sizes.
  else if c = 's' then .size
  else .undefined

/-- What `roff_escape()` returns: its value and the five indices it stores. -/
structure EscResult where
  rval : Esc
  resc : Nat
  rnam : Nat
  rarg : Nat
  rendarg : Nat
  rend : Nat
deriving DecidableEq, Repr

/-- Index of the name: `do { inam++; } while (buf[inam] == 'E')`. -/
def nameIndex (buf : CStr) (aesc : Nat) : Nat :=
  aesc + 1 + strspn (buf.drop (aesc + 1)) "E"

/-! ## §2 The beginning of the argument -/

/-- How to read the argument, once its beginning is known. -/
structure ArgStart where
  rval : Esc
  /-- Index beginning the argument. -/
  iarg : Nat
  /-- Value of `iend` before the argument is scanned. -/
  iend : Nat
  /-- Byte terminating the argument, or NUL. -/
  term : Char
  /-- Whether the terminator is escaped. -/
  escterm : Bool
  /-- Expected length of the argument, or `none` for `INT_MAX`. -/
  maxl : Option Nat
deriving DecidableEq, Repr

/-- Either the function is done, or the argument remains to be scanned. -/
inductive Stage where
  | out (res : EscResult)
  | scan (start : ArgStart)
deriving DecidableEq, Repr

section

-- The recursive call for a nested escape sequence, and the line being parsed.
variable (sub : Nat → Res EscResult) (buf : CStr)

/-- A nested escape sequence requiring expansion is reported to the caller. -/
def outSub (s : EscResult) : EscResult := { s with rval := .EXPAND }

/-- Length of the optional sign before the argument of `\\s`. -/
def sizeSign (c : Char) : Nat := if c = '+' || c = '-' || c = ASCII_HYPH then 1 else 0

/-- Length of the optional sign before the argument of `\\n`. -/
def regSign (name c : Char) : Nat := if name = 'n' && (c = '+' || c = '-') then 1 else 0

/-- `switch (buf[iarg])` in the case `'s'`: the beginning of the argument,
    its terminator, and its maximal length. -/
def sizeForm (iarg : Nat) : Res (Nat × Char × Option Nat) := do
  let c ← rd buf iarg
  if c = '(' then
    return (iarg + 1, NUL, some 2)
  else if c = '[' then
    return (iarg + 1, ']', none)
  else if c = '\'' then
    return (iarg + 1, '\'', none)
  else if c = '1' || c = '2' || c = '3' then
    let before ← rd buf (iarg - 1)
    let after ← rd buf (iarg + 1)
    return (iarg, NUL, some (if before = 's' && isdigit after then 2 else 1))
  else
    return (iarg, NUL, some 1)

/-- The case `'s'` of the first `switch`, including a missing argument. -/
def sizeArg (iesc inam : Nat) : Res Stage := do
  let c ← rd buf (inam + 1)
  let (iarg, term, maxl) ← sizeForm buf (inam + 1 + sizeSign c)
  let c ← rd buf iarg
  if c = NUL then
    return .out ⟨.IGNORE, iesc, inam, iarg, iarg, iarg⟩
  else
    return .scan ⟨.IGNORE, iarg, iarg, term, false, maxl⟩

/-- `switch (buf[iarg])` for arguments in standard format: `X`, `(XX`, and `[XXX]`. -/
def standardForm (iesc inam start : Nat) (rval : Esc) : Res Stage := do
  let name ← rd buf inam
  let c ← rd buf start
  let iarg := start + regSign name c
  let c ← rd buf iarg
  if c = '(' then
    return .scan ⟨rval, iarg + 1, start, NUL, false, some 2⟩
  else if c = '[' then
    let c ← rd buf (iarg + 1)
    if c = ' ' then
      return .out ⟨.ERROR, iesc, inam, iarg + 1, iarg + 2, iarg + 2⟩
    else
      return .scan ⟨rval, iarg + 1, start, ']', false, none⟩
  else
    return .scan ⟨rval, iarg, start, NUL, false, some 1⟩

/-- Arguments in standard format, which may begin with a nested escape sequence. -/
def standardArg (iesc inam start : Nat) (rval : Esc) : Res Stage := do
  let c ← rd buf start
  let ec ← rd buf iesc
  if c = ec then
    let s ← sub start
    if s.rval = .EXPAND then
      return .out (outSub s)
    else
      standardForm buf iesc inam start rval
  else
    standardForm buf iesc inam start rval

/-- The byte at `iarg` is the delimiter of a quoted argument. -/
def plainDelim (iesc inam iarg : Nat) (name : Char) (rval : Esc) : Res Stage := do
  let c ← rd buf iarg
  -- Note that strchr(3) finds the terminating NUL, too.
  if strchr "BDHLRSvxNhl" name && strchr " %&()*+-./0123456789:<=>" c then
    let rval := if rval = .EXPAND then rval else .ERROR
    if name = 'D' then
      return .scan ⟨rval, iarg + 1, inam + 1, c, false, none⟩
    else
      return .out ⟨rval, iesc, inam, iarg, iarg + 1, iarg + 1⟩
  else
    return .scan ⟨rval, iarg + 1, inam + 1, c, false, none⟩

/-- Quoted arguments: the delimiter is a byte or an escape sequence. -/
def quotedArg (iesc inam : Nat) (rval : Esc) : Res Stage := do
  let iarg := inam + 1
  let name ← rd buf inam
  let ec ← rd buf iesc
  let c ← rd buf iarg
  if c = NUL then
    return .out ⟨rval, iesc, inam, iarg, iarg, iarg⟩
  else if c = ec then
    let s ← sub iarg
    if s.rval = .EXPAND then
      return .out (outSub s)
    else if s.rval = .UNDEF then
      plainDelim buf iesc inam (iarg + 1) name rval
    else
      let sname ← rd buf s.rnam
      if strchr "BHLRSNhlvx" name && strchr " ,.0DLOXYZ^abdhlortuvx|~" sname then
        return .out ⟨rval, iesc, inam, s.resc, s.resc, s.rend⟩
      else
        return .scan ⟨rval, s.rend, inam + 1, sname, true, none⟩
  else
    plainDelim buf iesc inam iarg name rval

/-! ## §3 The end of the argument -/

/-- What the scan of an argument finds. -/
inductive ArgEnd where
  /-- A nested escape sequence that requires expansion. -/
  | sub (s : EscResult)
  /-- The end of the argument. -/
  | done (rval : Esc) (iendarg iend : Nat) (validA : Bool)
deriving DecidableEq, Repr

/-- `while (maxl > 0) { ... }`, with a bound on the number of iterations. -/
def argLoop (iesc : Nat) (name : Char) (a : ArgStart) :
    Nat → Option Nat → Nat → Nat → Bool → Res ArgEnd
  | 0, _, _, _, _ => .error .fuel
  | steps + 1, maxl, iendarg, iend, validA =>
    if maxl = some 0 then
      .ok (.done a.rval iendarg iend validA)
    else do
      let ec ← rd buf iesc
      let c ← rd buf iendarg
      if c = NUL then
        let rval := if a.rval ≠ .EXPAND ∧ a.rval ≠ .OVERSTRIKE then .ERROR else a.rval
        -- Usually, ignore an incomplete argument.
        let iendarg := if strchr "Aow" name then iendarg else a.iarg
        return .done rval iendarg iend validA
      else if a.escterm = false && c = a.term then
        return .done a.rval iendarg (iendarg + 1) validA
      else if c = ec then
        let s ← sub iendarg
        let sname ← rd buf s.rnam
        if s.rval = .EXPAND then
          return .sub s
        else if a.escterm && (sname = a.term || name = 'N') then
          return .done a.rval iendarg s.rend validA
        else
          argLoop iesc name a steps maxl s.rend s.rend (validA && s.rval = .UNDEF)
      else if name = 'N' && isdigit c = false then
        return .done a.rval iendarg (iendarg + 1) validA
      else
        argLoop iesc name a steps (maxl.map (· - 1)) (iendarg + 1) (iendarg + 1)
          (validA && !(c = ' ' || c = '\t'))

end

/-! ## §4 The content of the argument -/

/-- `mandoc_font()`: the font selected by the argument of `\f`. -/
def mandocFont : CStr → Esc
  | [] => .FONTPREV
  | ['B'] | ['3'] => .FONTBOLD
  | ['I'] | ['2'] => .FONTITALIC
  | ['P'] => .FONTPREV
  | ['R'] | ['1'] => .FONTROMAN
  | ['4'] => .FONTBI
  | ['B', 'I'] => .FONTBI
  | ['C', 'B'] => .FONTCB
  | ['C', 'I'] => .FONTCI
  | ['C', 'R'] | ['C', 'W'] => .FONTCR
  | _ => .ERROR

/-- The argument of `\O`. -/
def outputArg (buf : CStr) (iarg argl : Nat) : Esc :=
  let c := charAt buf iarg
  if c = '0' then .UNSUPP
  else if c = '1' || c = '2' || c = '3' || c = '4' then
    if argl = 1 then .IGNORE else .ERROR
  else if c = '5' then
    if charAt buf (iarg - 1) = '[' then .UNSUPP else .ERROR
  else
    .ERROR

/-- `c = 10 * c + (buf[i] - '0')` over the bytes of an argument. -/
def decimal (arg : CStr) : Int :=
  arg.foldl (fun c d => 10 * c + ((d.toNat : Int) - '0'.toNat)) 0

/-- Treat `\[char...]` as an alias for `\N'...'`: the test on the argument that
    precedes the return value `ESCAPE_NUMBERED`. -/
def isCharAlias (arg : CStr) : Bool :=
  6 ≤ arg.length && arg.length ≤ 7 && arg.take 4 = "char".toList
  && arg.length ≤ strspn (arg.drop 4) "0123456789" + 4
  && !(decimal arg < 0x21 || (0x7e < decimal arg && decimal arg < 0xa0) || 0xff < decimal arg)

/-- Unicode escapes contain a valid codepoint in four to six hexadecimal digits. The argument is
    the beginning of `s`. The digits are counted without looking at its end, so a delimiter that
    is a digit is counted, too. -/
def isUnicode (s : CStr) (argl : Nat) : Bool :=
  charAt s 0 = 'u' && 5 ≤ argl && argl ≤ 7
  && !(argl = 7 && (charAt s 1 ≠ '1' || charAt s 2 ≠ '0'))
  && !(argl = 6 && charAt s 1 = '0')
  && !(argl = 5 && toupper (charAt s 1) = 'D' && strchr "89ABCDEFabcdef" (charAt s 2))
  && strspn (s.drop 1) "0123456789ABCDEFabcdef" + 1 = argl

/-- The case `ESCAPE_SPECIAL` of the last `switch`, where the argument is the beginning of `s`: the
    type of the sequence, and how far the beginning of the argument moves. -/
def specialArg (s : CStr) (argl : Nat) (term : Char) : Esc × Nat :=
  if argl = 0 then (.ERROR, 0)
  else if term ≠ NUL && argl = 1 && charAt s 0 ≠ '-' then (.ERROR, 0)
  else if charAt s 0 = 'c' then
    if isCharAlias (s.take argl) then (.NUMBERED, 4) else (.SPECIAL, 0)
  else if isUnicode s argl then (.UNICODE, 0)
  else (.SPECIAL, 0)

/-- Post-process depending on the content of the argument. The flag `nullResc` says
    that `resc` is a null pointer, that is, that a formatter is the caller. -/
def postProcess (buf : CStr) (nullResc : Bool) (iesc inam : Nat) (name : Char)
    (a : ArgStart) (rval : Esc) (iendarg iend : Nat) (validA : Bool) : EscResult :=
  let argl := iendarg - a.iarg
  let rval :=
    if name = '*' && nullResc && argl = 2 && charAt buf a.iarg = '.'
        && charAt buf (a.iarg + 1) = 'T' then .DEVICE
    else if name = 'O' then outputArg buf a.iarg argl
    else rval
  let iendarg := if name = 'A' && !validA then a.iarg else iendarg
  let s := buf.drop a.iarg
  match rval with
  | .FONT => ⟨mandocFont (s.take argl), iesc, inam, a.iarg, iendarg, iend⟩
  | .SPECIAL =>
    ⟨(specialArg s argl a.term).1, iesc, inam, a.iarg + (specialArg s argl a.term).2, iendarg,
      iend⟩
  | _ => ⟨rval, iesc, inam, a.iarg, iendarg, iend⟩

/-! ## §5 The escape sequence at an index -/

section

variable (sub : Nat → Res EscResult) (buf : CStr)

/-- The name and the beginning of the argument of the sequence at `aesc`. -/
def escapeStart (aesc : Nat) : Res Stage := do
  let inam := nameIndex buf aesc
  match escName (← rd buf inam) with
  | .noarg rval => return .out ⟨rval, aesc, inam, inam + 1, inam + 1, inam + 1⟩
  | .nul => return .out ⟨.UNDEF, aesc, inam, inam, inam, inam⟩
  | .undefined => return .out ⟨.UNDEF, aesc, inam, inam, inam + 1, inam + 1⟩
  | .glyph => return .out ⟨.SPECIAL, aesc, inam, inam, inam + 1, inam + 1⟩
  | .standard rval => standardArg sub buf aesc inam (inam + 1) rval
  | .bracket => standardArg sub buf aesc inam inam .SPECIAL
  | .quoted rval => quotedArg sub buf aesc inam rval
  | .size => sizeArg buf aesc inam

/-- The body of `roff_escape()`. -/
def escapeAt (aesc : Nat) (nullResc : Bool) : Res EscResult := do
  match ← escapeStart sub buf aesc with
  | .out res => return res
  | .scan a =>
    let name ← rd buf (nameIndex buf aesc)
    match ← argLoop sub buf aesc name a (buf.length + 1) a.maxl a.iarg a.iend true with
    | .sub s => return outSub s
    | .done rval iendarg iend validA =>
      return postProcess buf nullResc aesc (nameIndex buf aesc) name a rval iendarg iend validA

end

/-- `roff_escape()` with a bound on the depth of its recursion. -/
def escapeRec (buf : CStr) : Nat → Nat → Bool → Res EscResult
  | 0, _, _ => .error .fuel
  | depth + 1, aesc, nullResc =>
    escapeAt (fun i => escapeRec buf depth i false) buf aesc nullResc

/-- `roff_escape(buf, ln, aesc, &resc, ...)`: a call by the roff parser. -/
def roffEscape (buf : CStr) (aesc : Nat) : Res EscResult :=
  escapeRec buf (buf.length + 1) aesc false

/-- `roff_escape(buf, 0, aesc, NULL, ...)`: a call that is not interested in the
    position of a nested escape sequence. -/
def roffEscapeNull (buf : CStr) (aesc : Nat) : Res EscResult :=
  escapeRec buf (buf.length + 1) aesc true

/-- `mandoc_escape()`, called with `*rendarg` right after the escape character at `i`. -/
def mandocEscape (buf : CStr) (i : Nat) : Res EscResult := do
  let res ← roffEscapeNull buf i
  if res.rval = .EXPAND then .error .abort else return res

end Mandoc
