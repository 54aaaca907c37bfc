import Mandoc.Roff.Number

/-!
# Tables

The data that the tbl(7) parser builds and the formatters read: `tbl.h` and `tbl_int.h`.

A layout row is the list of its layout cells.  A data row refers to its layout row by the place of
that row in the table, and a data cell refers to its layout cell by the place of that cell in the
layout row: layout rows and layout cells are only ever appended, so a place stands for a pointer.
-/

namespace Mandoc

/-! ## §1 Layout -/

/-- `SIZE_MAX`. -/
def SIZE_MAX : Nat := 18446744073709551615

/-- `enum tbl_cellt`. -/
inductive CellPos where
  | CENTRE | RIGHT | LEFT | NUMBER | SPAN | LONG | DOWN | HORIZ | DHORIZ
deriving DecidableEq, Repr

/-- The flags of a layout cell. -/
abbrev CellFlags := BitVec 8

abbrev TBL_CELL_TALIGN : CellFlags := 0x04
abbrev TBL_CELL_UP : CellFlags := 0x08
abbrev TBL_CELL_BALIGN : CellFlags := 0x10
abbrev TBL_CELL_WIGN : CellFlags := 0x20
abbrev TBL_CELL_EQUAL : CellFlags := 0x40
abbrev TBL_CELL_WMAX : CellFlags := 0x80

/-- `struct tbl_cell`: a cell in a layout row. -/
structure TblCell where
  /-- Minimum column width in basic units. -/
  width : Nat := 0
  /-- To the right of the column in EN. -/
  spacing : Nat := SIZE_MAX
  /-- Width of subsequent vertical line in EN. -/
  vert : Nat := 0
  /-- Column number, starting from 0. -/
  col : Nat := 0
  flags : CellFlags := 0
  font : Esc := .FONTROMAN
  pos : CellPos
deriving DecidableEq, Repr

/-- `struct tbl_row`: a layout row. -/
structure TblRow where
  /-- The layout cells, the leftmost one first. -/
  cells : List TblCell := []
  /-- Width of left vertical line in EN. -/
  vert : Nat := 0
deriving DecidableEq, Repr

/-! ## §2 Data -/

/-- `enum tbl_datt`. -/
inductive DatPos where
  | NONE | DATA | HORIZ | DHORIZ | NHORIZ | NDHORIZ
deriving DecidableEq, Repr

/-- `struct tbl_dat`: a cell within a row of data. -/
structure TblDat where
  /-- The place of the layout cell in the layout row. -/
  layout : Nat
  /-- Data, or nothing if a text block has not been filled. -/
  string : Option CStr := none
  /-- How many horizontal spans follow. -/
  hspans : Nat := 0
  /-- How many vertical spans follow. -/
  vspans : Nat := 0
  /-- Whether this is a text block. -/
  block : Bool := false
  pos : DatPos := .NONE
deriving DecidableEq, Repr

/-- `enum tbl_spant`. -/
inductive SpanPos where
  | DATA | HORIZ | DHORIZ
deriving DecidableEq, Repr

/-- `struct tbl_span`: a row of data in a table. -/
structure TblSpan where
  /-- The place of the layout row. -/
  layout : Nat
  /-- The data cells, the leftmost one first. -/
  dats : List TblDat := []
  pos : SpanPos := .DATA
deriving DecidableEq, Repr

/-! ## §3 The table -/

/-- The bits of the table options. -/
abbrev OptBits := BitVec 9

abbrev TBL_OPT_ALLBOX : OptBits := 0x001
abbrev TBL_OPT_BOX : OptBits := 0x002
abbrev TBL_OPT_CENTRE : OptBits := 0x004
abbrev TBL_OPT_DBOX : OptBits := 0x008
abbrev TBL_OPT_EXPAND : OptBits := 0x010
abbrev TBL_OPT_NOKEEP : OptBits := 0x020
abbrev TBL_OPT_NOSPACE : OptBits := 0x040
abbrev TBL_OPT_NOWARN : OptBits := 0x080
abbrev TBL_OPT_VSPACE : OptBits := 0x100

/-- Is one of the bits set? -/
def OptBits.has (opts flags : OptBits) : Bool := opts &&& flags != 0

/-- `struct tbl_opts`. -/
structure TblOpts where
  opts : OptBits := 0
  /-- Number of columns. -/
  cols : Nat := 0
  /-- Width of left vertical line in EN. -/
  lvert : Nat := 0
  /-- Width of right vertical line in EN. -/
  rvert : Nat := 0
  /-- Option "tab": cell separator. -/
  tab : Char := '\t'
  /-- Option "decimalpoint". -/
  decimal : Char := '.'
deriving DecidableEq, Repr

/-- `enum tbl_part`. -/
inductive TblPart where
  | OPTS | LAYOUT | DATA | CDATA
deriving DecidableEq, Repr

/-- `struct tbl_node`. -/
structure Tbl where
  opts : TblOpts := {}
  /-- The layout rows, the first one first. -/
  rows : List TblRow := []
  /-- The data rows, the last one first. -/
  spans : List TblSpan := []
  /-- Table section being parsed. -/
  part : TblPart := .OPTS
deriving DecidableEq, Repr

/-- `tbl_alloc`. -/
def tblAlloc : Tbl := {}

/-- `tbl_restart`. -/
def tblRestart (tbl : Tbl) : Tbl := { tbl with part := .LAYOUT }

/-- Change one layout row. -/
def Tbl.setRow (tbl : Tbl) (irow : Nat) (rp : TblRow) : Tbl :=
  { tbl with rows := tbl.rows.set irow rp }

/-- `IS_HORIZ`. -/
def CellPos.isHoriz (pos : CellPos) : Bool := pos = .HORIZ || pos = .DHORIZ

end Mandoc
