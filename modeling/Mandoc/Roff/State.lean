import Mandoc.Roff.Escape
import Mandoc.Roff.Node

/-!
# Roff Parser State

The data types of `roff.c`: the result codes shared with the line reader, the input
buffer, the scope stack, the tables of strings and registers, and `struct roff`.

The roff parser hands tables, equations, and high-level macros to other modules of the
program. Their state is the type parameter `X`, and the functions that the roff parser
calls are collected in `Env`. All results of this development hold for any such
functions.
-/

namespace Mandoc

/-! ## §1 Result codes -/

/-- Result codes are bit sets: one main instruction, and optional flags. -/
abbrev Code := BitVec 12

/-- Don't do anything with it. -/
abbrev ROFF_IGN : Code := 0x000
/-- Give it to the high-level parser. -/
abbrev ROFF_CONT : Code := 0x001
/-- Re-run the roff parser with an offset. -/
abbrev ROFF_RERUN : Code := 0x002
/-- Recursively run the main parser on it. -/
abbrev ROFF_REPARSE : Code := 0x004
/-- Include the named file. -/
abbrev ROFF_SO : Code := 0x008
/-- Only one of these bits should be set. -/
abbrev ROFF_MASK : Code := 0x00f
/-- Append the next line to this one. -/
abbrev ROFF_APPEND : Code := 0x010
/-- Start execution of a new macro. -/
abbrev ROFF_USERCALL : Code := 0x020
/-- Abort execution of the current macro. -/
abbrev ROFF_USERRET : Code := 0x040
/-- Start a new .while loop. -/
abbrev ROFF_WHILE : Code := 0x100
/-- Iterate the current .while loop. -/
abbrev ROFF_LOOPCONT : Code := 0x200
/-- Exit the current .while loop. -/
abbrev ROFF_LOOPEXIT : Code := 0x400
abbrev ROFF_LOOPMASK : Code := 0xf00

/-- `code & flag`, as a condition. -/
def Code.has (code flag : Code) : Bool := code &&& flag != 0

/-! ## §2 Buffers and tables -/

/-- `struct buf`: the text and the size of the memory holding it. -/
structure Buf where
  buf : CStr
  sz : Nat
deriving DecidableEq, Repr

/-- A buffer that has just been allocated for a string. -/
def Buf.ofStr (s : CStr) : Buf := ⟨s, s.length + 1⟩

/-- `struct roffkv`: an entry of a table of strings. -/
structure Kv where
  key : CStr
  val : Option CStr
deriving DecidableEq, Repr

/-- `struct roffreg`: a number register. -/
structure Reg where
  key : CStr
  val : Int
  step : Int
deriving DecidableEq, Repr

/-- `struct roffnode`: a macro definition, condition, or ignored block. -/
structure Scope where
  /-- Type of node. -/
  tok : Tok
  /-- Node name, e.g. macro name. -/
  name : Option CStr
  line : Nat
  col : Nat
  /-- Custom end macro of the block. -/
  endMacro : Option CStr
  /-- Scope to: 1=eol 2=next line -1=\} -/
  endspan : Int
  /-- Content is evaluated or skipped. -/
  rule : Bool
deriving DecidableEq

/-- The high-level format of the current file. -/
inductive Format where
  | NONE | MDOC | MAN
deriving DecidableEq, Repr

/-! ## §3 The state -/

/-- `struct roff`, together with the static variables of `roff.c`. -/
structure Roff (X : Type) where
  /-- mdoc or man parser -/
  man : RoffMan
  /-- State of the table, equation, and high-level parsers. -/
  x : X
  /-- Stack of request blocks, the leaf first. -/
  last : List Scope := []
  /-- Stack of macro contexts, the current one first: the arguments of each call. -/
  mstack : List (List CStr) := []
  /-- Stack of inverted `ie` values, the last one first. -/
  rstack : List Bool := []
  /-- Number registers. -/
  regtab : List Reg := []
  /-- User-defined strings and macros. -/
  strtab : List Kv := []
  /-- Renamed strings and macros. -/
  rentab : List Kv := []
  /-- Multi-byte trans table (`tr`). -/
  xmbtab : List Kv := []
  /-- Single-byte trans table (`tr`). -/
  xtab : Option (Char → Option CStr) := none
  /-- Value of last called user macro. -/
  currentString : Option CStr := none
  /-- Whether a table is being parsed. -/
  tbl : Bool := false
  /-- Whether an equation has been parsed. -/
  lastEqn : Bool := false
  /-- Whether an equation is being parsed. -/
  eqn : Bool := false
  /-- Current equation is inline. -/
  eqnInline : Bool := false
  /-- The bit `MPARSE_COMMENT` of `options`. -/
  optComment : Bool := true
  /-- The bit `MPARSE_MDOC` of `options`. -/
  optMdoc : Bool := false
  /-- The bit `MPARSE_QUICK` of `options`. -/
  optQuick : Bool := false
  /-- Current file in mdoc or man format. -/
  format : Format := .NONE
  /-- Control character, or NUL for the standard one. -/
  control : Char := NUL
  /-- Escape character, or NUL for none. -/
  escape : Char := '\\'
  /-- `roffce_lines`: number of input lines to center. -/
  ceLines : Int := 0
  /-- `roffce_node`: active request. -/
  ceNode : Option Nat := none
  /-- `roffit_lines`: number of lines to delay. -/
  itLines : Int := 0
  /-- `roffit_macro`: macro line. -/
  itMacro : CStr := []

/-- The functions of other modules that the roff parser calls, and the conversion of a
    number in floating point arithmetic. -/
structure Env (X : Type) where
  /-- The value computed by `roff_getnum()` for a sign, the digits before and after the
      decimal point, and a scaling unit. -/
  numValue : Bool → CStr → CStr → Char → Int
  /-- `mchars_spec2cp()` -/
  spec2cp : CStr → Int
  /-- `mchars_num2char()` -/
  num2char : CStr → Int
  /-- `man_breakscope()` -/
  manBreakscope : X → RoffMan → Tok → X × RoffMan
  /-- `tbl_alloc()` -/
  tblAlloc : X → Nat → Nat → X
  /-- `tbl_restart()` -/
  tblRestart : X → Nat → Nat → X
  /-- `tbl_read()` -/
  tblRead : X → Nat → CStr → Nat → X
  /-- `tbl_span()`, called until it returns a null pointer. -/
  tblSpans : X → List Nat × X
  /-- `tbl_end()` -/
  tblEnd : X → Bool → Bool → Bool × X
  /-- `eqn_alloc()`, or `eqn_reset()` if an equation has been parsed before, and the
      assignment of the node. -/
  eqnStart : X → Bool → Nat → X
  /-- The opening and closing delimiters, if in-line equations are enabled. -/
  eqnDelim : X → Option (Char × Char)
  /-- `eqn_read()` -/
  eqnRead : X → CStr → X
  /-- `eqn_parse()` -/
  eqnParse : X → X

/-- What a request handler returns: the result code, the state, the buffer, and the
    offset in it. -/
structure Out (X : Type) where
  code : Code
  r : Roff X
  buf : Buf
  offs : Nat

/-! ## §4 Initial values -/

/-- `roff_alloc()`: the state at the beginning of a document. -/
def roffAlloc {X : Type} (x : X) : Roff X := { man := roffManAlloc1, x := x }

/-- The functions of other modules, as far as they matter for documents without tables,
    equations, special characters, and numbers with a fraction or a scaling unit. -/
def plainEnv : Env Unit where
  numValue n integral _ _ := if n then -decimal integral else decimal integral
  spec2cp _ := -1
  num2char _ := -1
  manBreakscope x man _ := (x, man)
  tblAlloc x _ _ := x
  tblRestart x _ _ := x
  tblRead x _ _ _ := x
  tblSpans x := ([], x)
  tblEnd x _ _ := (false, x)
  eqnStart x _ _ := x
  eqnDelim _ := none
  eqnRead x _ := x
  eqnParse x := x

end Mandoc
