import Mandoc.Tbl.Node

/-!
# Table options and table layout

`tbl_opts.c` and `tbl_layout.c`.  Diagnostic messages are left out.
-/

namespace Mandoc

/-- Blanks and tabs. -/
def isBlank (c : Char) : Bool := c = ' ' || c = '\t'

/-! ## §1 Options -/

/-- The options without arguments, and their bits. -/
def optKeys : List (String × OptBits) := [
  ("allbox", TBL_OPT_ALLBOX ||| TBL_OPT_BOX),
  ("box", TBL_OPT_BOX),
  ("frame", TBL_OPT_BOX),
  ("center", TBL_OPT_CENTRE),
  ("centre", TBL_OPT_CENTRE),
  ("doublebox", TBL_OPT_DBOX),
  ("doubleframe", TBL_OPT_DBOX),
  ("expand", TBL_OPT_EXPAND),
  ("nokeep", TBL_OPT_NOKEEP),
  ("nospaces", TBL_OPT_NOSPACE),
  ("nowarn", TBL_OPT_NOWARN)]

/-- The options with an argument. -/
inductive OptKey where
  | DPOINT | DELIM | LINESIZE | TAB
deriving DecidableEq, Repr

/-- The names of the options with an argument. -/
def argKeys : List (String × OptKey) := [
  ("decimalpoint", .DPOINT), ("delim", .DELIM), ("linesize", .LINESIZE), ("tab", .TAB)]

/-- `while (p[pos + len] != ')') len++`: this loop does not stop at the end of the line. -/
def argLength (p : CStr) (pos : Nat) : Res Nat :=
  let rest := (p.drop pos).takeWhile (· ≠ ')')
  if pos + rest.length < p.length then .ok rest.length else .error .overrun

/-- `arg`: the argument of an option, and the new position. -/
def optArg (opts : TblOpts) (p : CStr) (pos : Nat) (key : OptKey) : Res (TblOpts × Nat) := do
  let pos := skipWhile isBlank p pos
  let paren : Bool := charAt p pos = '('
  let pos := if paren then pos + 1 else pos
  let len ← (if paren then argLength p pos else pure 0)
  let opts := match key with
    | .TAB => if len = 1 then { opts with tab := charAt p pos } else opts
    | .DPOINT => if len = 1 then { opts with decimal := charAt p pos } else opts
    | .DELIM | .LINESIZE => opts
  let pos := pos + len
  return (opts, if charAt p pos = ')' then pos + 1 else pos)

/-- The loop of `tbl_option`. -/
def optionLoop (p : CStr) : Nat → TblOpts → Nat → Res (TblOpts × Nat)
  | 0, _, _ => .error .fuel
  | n + 1, opts, pos => do
    let pos := skipWhile (fun c => isBlank c || c = ',') p pos
    if charAt p pos = ';' then return (opts, pos + 1)
    -- Parse one option name.
    let len := ((p.drop pos).takeWhile isalpha).length
    if len = 0 then
      if pos < p.length then optionLoop p n opts (pos + 1) else .error .overrun
    else
      let name := (slice p pos (pos + len)).map tolower
      match argKeys.find? (fun key => key.1.toList = name) with
      | some key =>
        let (opts, pos) ← optArg opts p (pos + len) key.2
        optionLoop p n opts pos
      | none =>
        match optKeys.find? (fun key => key.1.toList = name) with
        | some key => optionLoop p n { opts with opts := opts.opts ||| key.2 } (pos + len)
        | none => optionLoop p n opts (pos + len)

/-- `tbl_option`. -/
def tblOption (tbl : Tbl) (p : CStr) (pos : Nat) : Res (Tbl × Nat) := do
  let (opts, pos) ← optionLoop p (p.length + 1) tbl.opts pos
  return ({ tbl with opts := opts }, pos)

/-! ## §2 Modifiers -/

/-- What `mods` changes: the layout cell, the table options, and the position. -/
structure ModState where
  cell : TblCell
  opts : OptBits
  pos : Nat

/-- The value of a string of decimal digits. -/
def digits (s : CStr) : Nat := s.foldl (fun n c => 10 * n + (c.toNat - '0'.toNat)) 0

section

variable {X : Type} (env : Env X) (p : CStr)

/-- The modifier `w`: a width in parentheses or some digits. -/
def modWidth (st : ModState) : Res ModState := do
  if charAt p st.pos = '(' then
    let n ← roffEvalnum env p false (st.pos + 1) 'n' true
    if n.ok && charAt p n.pos = ')' then
      return { st with
        cell := { st.cell with width := (n.val % (SIZE_MAX + 1 : Nat)).toNat }
        pos := n.pos + 1 }
    else return { st with pos := n.pos }
  else
    let pos := skipWhile isdigit p st.pos
    return { st with
      cell := { st.cell with width := digits (slice p st.pos pos) * 24 % (SIZE_MAX + 1) }
      pos := pos }

/-- The modifier `f`: the name of a font. -/
def modFont (st : ModState) : ModState :=
  let pos := skipWhile isBlank p st.pos
  if charAt p pos = '(' then { st with pos := pos }
  else
    let isz := if charAt p pos = NUL then 0 else 1
    let isz := if strchr " \t." (charAt p (pos + isz)) then isz else isz + 1
    let font := mandocFont (slice p pos (pos + isz))
    if font = .FONTPREV ∨ font = .ERROR then { st with pos := pos + isz }
    else { st with cell := { st.cell with font := font }, pos := pos + isz }

/-- The modifier `|`: a vertical line, which triggers vertical space before the table when it is
    in the first layout row. -/
def modVert (firstRow : Bool) (st : ModState) : ModState :=
  if st.cell.vert < 2 then
    { st with
      cell := { st.cell with vert := st.cell.vert + 1 }
      opts := if firstRow && !st.opts.has (TBL_OPT_DBOX ||| TBL_OPT_BOX) then
        st.opts ||| TBL_OPT_VSPACE else st.opts }
  else st

/-- The modifiers `p` and `v`: a number with an optional sign is skipped. -/
def modSkip (st : ModState) : ModState :=
  let pos := if charAt p st.pos = '-' || charAt p st.pos = '+' then st.pos + 1 else st.pos
  { st with pos := skipWhile isdigit p pos }

/-- Set a flag of the layout cell. -/
def ModState.setFlag (st : ModState) (flag : CellFlags) : ModState :=
  { st with cell := { st.cell with flags := st.cell.flags ||| flag } }

/-- The `switch` over the modifiers; the position is behind the modifier. -/
def modifier (firstRow : Bool) (c : Char) (st : ModState) : Res ModState :=
  match c with
  | 'b' => return { st with cell := { st.cell with font := .FONTBOLD } }
  | 'd' => return st.setFlag TBL_CELL_BALIGN
  | 'e' => return st.setFlag TBL_CELL_EQUAL
  | 'f' => return modFont p st
  | 'i' => return { st with cell := { st.cell with font := .FONTITALIC } }
  | 'p' | 'v' => return modSkip p st
  | 't' => return st.setFlag TBL_CELL_TALIGN
  | 'u' => return st.setFlag TBL_CELL_UP
  | 'w' => modWidth env p st
  | 'x' => return st.setFlag TBL_CELL_WMAX
  | 'z' => return st.setFlag TBL_CELL_WIGN
  | '|' => return modVert firstRow st
  | _ => return st

/-- `mods`: the modifiers behind a cell specifier. -/
def mods (firstRow : Bool) : Nat → ModState → Res ModState
  | 0, _ => .error .fuel
  | n + 1, st => do
    let pos := skipWhile isBlank p st.pos
    let c := charAt p pos
    -- Row delimiters and cell specifiers end modifier lists.
    if strchr ".,-=^_ACLNRSaclnrs" c then return { st with pos := pos }
    else if c = '(' then
      -- Throw away parenthesised expression.
      let pos := skipWhile (· ≠ ')') p (pos + 1)
      if charAt p pos = ')' then mods firstRow n { st with pos := pos + 1 }
      else return { st with pos := pos }
    else if isdigit c then
      -- Parse numerical spacing from modifier string.
      let endptr := skipWhile isdigit p pos
      let spacing := digits (slice p pos endptr)
      mods firstRow n { st with
        cell := if spacing > 9 then st.cell else { st.cell with spacing := spacing }
        pos := endptr }
    else
      let st ← modifier env p firstRow (tolower c) { st with pos := pos + 1 }
      mods firstRow n st

/-! ## §3 Cells -/

/-- The key characters of the layout cells. -/
def cellKey : Char → Option CellPos
  | 'c' => some .CENTRE
  | 'r' => some .RIGHT
  | 'l' => some .LEFT
  | 'n' => some .NUMBER
  | 's' => some .SPAN
  | 'a' => some .LONG
  | '^' => some .DOWN
  | '-' => some .HORIZ
  | '_' => some .HORIZ
  | '=' => some .DHORIZ
  | _ => none

/-- The column behind the last cell of a layout row. -/
def TblRow.nextCol (rp : TblRow) : Nat :=
  match rp.cells.getLast? with
  | some pp => pp.col + 1
  | none => 0

/-- `cell_alloc`. -/
def cellAlloc (tbl : Tbl) (irow : Nat) (rp : TblRow) (cell : TblCell) : Tbl :=
  { tbl.setRow irow { rp with cells := rp.cells ++ [{ cell with col := rp.nextCol }] } with
    opts := { tbl.opts with
      cols := if tbl.opts.cols ≤ rp.nextCol then rp.nextCol + 1 else tbl.opts.cols } }

/-- Vertical lines at the beginning of a layout row. -/
def leadingLines (p : CStr) : Nat → OptBits → Nat → Nat → OptBits × Nat × Nat
  | 0, opts, vert, pos => (opts, vert, pos)
  | n + 1, opts, vert, pos =>
    if isBlank (charAt p pos) then leadingLines p n opts vert (pos + 1)
    else if charAt p pos = '|' then
      if vert < 2 then
        leadingLines p n
          (if opts.has (TBL_OPT_DBOX ||| TBL_OPT_BOX) then opts else opts ||| TBL_OPT_VSPACE)
          (vert + 1) (pos + 1)
      else leadingLines p n opts vert (pos + 1)
    else (opts, vert, pos)

/-- Find the next key character: nothing if the layout or the line ends before. -/
def nextKey (p : CStr) : Nat → Nat → Option CellPos × Nat
  | 0, pos => (none, pos)
  | n + 1, pos =>
    let pos := skipWhile isBlank p pos
    if charAt p pos = '.' || charAt p pos = NUL then (none, pos)
    else
      match cellKey (tolower (charAt p pos)) with
      | none => nextKey p n (pos + 1)
      | some c => (some c, pos + 1)

/-- A span behind a horizontal line continues the line. -/
def spanKey (rp : TblRow) (c : CellPos) : CellPos :=
  match c, rp.cells.getLast? with
  | .SPAN, some last => if last.pos.isHoriz then last.pos else .SPAN
  | c, _ => c

/-- `cell`: parse one layout cell of the layout row at the place `irow`. -/
def cell (tbl : Tbl) (irow pos : Nat) : Res (Tbl × Nat) := do
  match tbl.rows[irow]? with
  | none => .error .null
  | some rp =>
    let (opts, vert, pos) := leadingLines p (p.length + 1) tbl.opts.opts rp.vert pos
    let rp := { rp with vert := vert }
    let tbl := { tbl.setRow irow rp with opts := { tbl.opts with opts := opts } }
    match nextKey p (p.length + 1) pos with
    | (none, pos) => return (tbl, pos)
    | (some c, pos) =>
      let c := spanKey rp c
      let st ← mods env p (tbl.rows.length = 1) (p.length + 1)
        ⟨{ pos := c }, tbl.opts.opts, pos⟩
      let tbl := { tbl with opts := { tbl.opts with opts := st.opts } }
      return (cellAlloc tbl irow rp st.cell, st.pos)

/-! ## §4 Rows -/

/-- The widest lines along the left and right margins.  If the last row is empty, it is
    dropped. -/
def margins (opts : TblOpts) : List TblRow → TblOpts × List TblRow
  | [] => (opts, [])
  | rp :: rest =>
    let opts := if opts.lvert < rp.vert then { opts with lvert := rp.vert } else opts
    let opts := match rp.cells.getLast? with
      | some last =>
        if last.col + 1 = opts.cols ∧ opts.rvert < last.vert then
          { opts with rvert := last.vert } else opts
      | none => opts
    match rest with
    | [] => (opts, [rp])
    | next :: _ =>
      if next.cells = [] then (opts, [rp])
      else
        let (opts, rows) := margins opts rest
        (opts, rp :: rows)

/-- The end of the layout, at a full stop. -/
def endLayout (tbl : Tbl) : Tbl :=
  let tbl := { tbl with part := .DATA }
  -- When the layout is completely empty, default to one left-justified column.
  let rows := if tbl.rows = [] then [{}] else tbl.rows
  match rows with
  | [] => tbl
  | first :: _ =>
    let tbl := { tbl with rows := rows }
    if first.cells = [] then
      let tbl := cellAlloc tbl 0 first { pos := .LEFT }
      if tbl.opts.lvert < first.vert then
        { tbl with opts := { tbl.opts with lvert := first.vert } }
      else tbl
    else
      let (opts, rows) := margins tbl.opts rows
      -- A horizontal line on the first table row suppresses vertical space.
      let bits := if first.cells.any fun cp => cp.pos.isHoriz then
        opts.opts &&& ~~~TBL_OPT_VSPACE else opts.opts
      { tbl with rows := rows, opts := { opts with opts := bits } }

/-- If the last row had at least one cell, start a new one; otherwise, continue it. -/
def startRow (tbl : Tbl) : Tbl × Nat :=
  match tbl.rows.getLast? with
  | some last =>
    if last.cells = [] then (tbl, tbl.rows.length - 1)
    else ({ tbl with rows := tbl.rows ++ [{}] }, tbl.rows.length)
  | none => ({ tbl with rows := [{}] }, 0)

/-- The loop of `tbl_layout`; `rp` is the place of the current layout row. -/
def layoutLoop : Nat → Tbl → Option Nat → Nat → Res Tbl
  | 0, _, _, _ => .error .fuel
  | n + 1, tbl, rp, pos => do
    -- Skip whitespace before and after each cell.
    let pos := skipWhile isBlank p pos
    if charAt p pos = ',' then layoutLoop n tbl none (pos + 1)
    else if charAt p pos = NUL then return tbl
    else if charAt p pos = '.' then return endLayout tbl
    else
      let (tbl, irow) := (match rp with
        | some irow => (tbl, irow)
        | none => startRow tbl)
      let (tbl, pos) ← cell env p tbl irow pos
      layoutLoop n tbl (some irow) pos

/-- `tbl_layout`. -/
def tblLayout (tbl : Tbl) (pos : Nat) : Res Tbl :=
  layoutLoop env p (p.length + 1) tbl none pos

end

end Mandoc
