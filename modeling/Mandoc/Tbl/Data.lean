import Mandoc.Tbl.Layout

/-!
# Table data

`tbl_data.c`, and the function `tbl_read` of `tbl.c` that hands the lines of a table to the
parsers of its sections.
-/

namespace Mandoc

section

variable (p : CStr)

/-! ## §1 Data cells -/

/-- The end of the string in a data cell that starts at `i`. -/
def cellEnd (tab : Char) : Nat → Nat → Res Nat
  | 0, _ => .error .fuel
  | n + 1, i =>
    if charAt p i = NUL ∨ charAt p i = tab then return i
    else if charAt p i = '\\' then do
      let esc ← mandocEscape p i
      cellEnd tab n esc.rend
    else cellEnd tab n (i + 1)

/-- How many cells at the beginning of a list are spanners. -/
def spanners (cells : List TblCell) : Nat := (cells.takeWhile fun cp => cp.pos = .SPAN).length

/-- The place behind the layout cell of the last data cell. -/
def nextPlace (dats : List TblDat) : Nat :=
  match dats.getLast? with
  | some dat => dat.layout + 1
  | none => 0

/-- The string that makes a data cell extend the cell above it. -/
def vertSpan : CStr := ['\\', '^']

/-- In a data row, the first cell that is not to the left of a column. -/
def cellFrom (cells : List TblCell) (col : Nat) (dat : TblDat) : Bool :=
  match cells[dat.layout]? with
  | some cp => decide (col ≤ cp.col)
  | none => true

/-- Increment the number of vertical spans in the data cell above a cell of the column, in the
    data rows above, the last one first. -/
def extendAbove (rows : List TblRow) (col : Nat) : List TblSpan → Res (List TblSpan)
  | [] => return []
  | pdp :: prev => do
    match rows[pdp.layout]? with
    | none => .error .null
    | some row =>
      let left := pdp.dats.takeWhile fun dat => !cellFrom row.cells col dat
      match pdp.dats.drop left.length with
      | [] => return pdp :: prev
      | pdat :: right =>
        match row.cells[pdat.layout]? with
        | none => .error .null
        | some cp =>
          if cp.pos = .DOWN then return pdp :: (← extendAbove rows col prev)
          else
            match pdat.string with
            | none => .error .null
            | some string =>
              if string = vertSpan then return pdp :: (← extendAbove rows col prev)
              else
                let pdat := { pdat with vspans := pdat.vspans + 1 }
                return { pdp with dats := left ++ pdat :: right } :: prev

/-- The kind of data in a cell. -/
def datPos (string : CStr) : DatPos :=
  if string = ['_'] then .HORIZ
  else if string = ['='] then .DHORIZ
  else if string = ['\\', '_'] then .NHORIZ
  else if string = ['\\', '='] then .NDHORIZ
  else .DATA

/-- `mandoc_strndup(p + startpos, endpos - startpos)`.  A negative length is larger than any string
    when it is taken as a `size_t`, so that the rest of the line is copied. -/
def copyField (startpos endpos : Nat) : CStr :=
  if endpos < startpos then p.drop startpos else slice p startpos endpos

/-- The last part of `getdata`: the string of the data cell, from `startpos` to `endpos`. -/
def fillDat (tbl : Tbl) (dp : TblSpan) (prev : List TblSpan) (dat : TblDat)
    (startpos endpos pos : Nat) : Res (Tbl × Nat) :=
  if slice p startpos endpos = ['T', '\x7b'] then
    .ok ({ tbl with
      spans := { dp with dats := dp.dats ++ [dat] } :: prev
      part := .CDATA }, pos)
  else
    let string := copyField p startpos endpos
    let dat := { dat with string := some string, pos := datPos string }
    .ok ({ tbl with spans := { dp with dats := dp.dats ++ [dat] } :: prev },
      if charAt p pos = NUL then pos else pos + 1)

/-- Append a data cell with the layout cell `cp` at the place `icell` of the layout row. -/
def addDat (tbl : Tbl) (dp : TblSpan) (prev : List TblSpan) (cells : List TblCell)
    (icell : Nat) (cp : TblCell) (startpos pos : Nat) : Res (Tbl × Nat) := do
  -- Does this cell vertically extend one or more cells above?
  let prev ← (if cp.pos = .DOWN ∨ slice p startpos pos = vertSpan then
    extendAbove tbl.rows cp.col prev else pure prev)
  -- The number of horizontal spans is purely a matter of the layout.
  let dat : TblDat := { layout := icell, hspans := spanners (cells.drop (icell + 1)) }
  -- Strip leading and trailing spaces, if requested.
  if tbl.opts.opts.has TBL_OPT_NOSPACE then
    let start := skipWhile (· = ' ') p startpos
    let trailing := ((slice p start pos).reverse.takeWhile (· = ' ')).length
    fillDat p tbl dp prev dat start (pos - trailing) pos
  else
    fillDat p tbl dp prev dat startpos pos pos

/-- `getdata`: parse one data cell of the last data row. -/
def getdata (tbl : Tbl) (startpos : Nat) : Res (Tbl × Nat) := do
  match tbl.spans with
  | [] => .error .null
  | dp :: prev =>
    let pos ← cellEnd p tbl.opts.tab (p.length + 1) startpos
    match tbl.rows[dp.layout]? with
    | none => .error .null
    | some row =>
      -- Advance to the next layout cell, skipping spanners.
      let place := nextPlace dp.dats
      let icell := place + spanners (row.cells.drop place)
      match row.cells[icell]? with
      | some cp => addDat p tbl dp prev row.cells icell cp startpos pos
      | none =>
        match row.cells.getLast? with
        | none => .error .null
        | some last =>
          -- Allocate a new layout cell, or discard the input beyond the last column.
          if last.col + 1 < tbl.opts.cols then
            let cp : TblCell := { pos := .LEFT, col := last.col + 1 }
            let cells := row.cells ++ [cp]
            addDat p (tbl.setRow dp.layout { row with cells := cells }) dp prev cells
              row.cells.length cp startpos pos
          else return (tbl, p.length)

/-- The loop over the cells of a data line. -/
def dataLoop : Nat → Tbl → Nat → Res Tbl
  | 0, _, _ => .error .fuel
  | n + 1, tbl, pos => do
    if charAt p pos = NUL then return tbl
    let (tbl, pos) ← getdata p tbl pos
    dataLoop n tbl pos

/-! ## §2 Data lines -/

/-- The last data cell of the last data row is changed. -/
def modifyLastDat (f : TblDat → TblDat) (dp : TblSpan) : Option TblSpan :=
  dp.dats.getLast?.map fun dat => { dp with dats := dp.dats.dropLast ++ [f dat] }

/-- Append a line to a text block. -/
def appendBlock (line : CStr) (dat : TblDat) : TblDat :=
  { dat with
    pos := .DATA
    block := true
    string := some (match dat.string with
      | some string => string ++ ' ' :: line
      | none => line) }

/-- `tbl_cdata`: a line of a text block. -/
def tblCdata (tbl : Tbl) (pos : Nat) : Res Tbl := do
  match tbl.spans with
  | [] => .error .null
  | dp :: prev =>
    let word : Res Tbl := (do
      match modifyLastDat (appendBlock (p.drop pos)) dp with
      | none => .error .null
      | some dp => return { tbl with spans := dp :: prev })
    if charAt p pos = 'T' ∧ charAt p (pos + 1) = '\x7d' then
      let pos := pos + 2
      let pos := if tbl.opts.opts.has TBL_OPT_NOSPACE then skipWhile (· = ' ') p pos else pos
      if charAt p pos = tbl.opts.tab then
        dataLoop p (p.length + 1) { tbl with part := .DATA } (pos + 1)
      else if charAt p pos = NUL then return { tbl with part := .DATA }
      -- The closing delimiter is part of a word.
      else (do
        match modifyLastDat (appendBlock (p.drop pos)) dp with
        | none => .error .null
        | some dp => return { tbl with spans := dp :: prev })
    else word

/-- `newspan`: a new data row. -/
def newspan (tbl : Tbl) (irow : Nat) (pos : SpanPos) : Tbl :=
  { tbl with spans := { layout := irow, pos := pos } :: tbl.spans }

/-- The layout row for the next data row. -/
def nextRow (tbl : Tbl) (sp : Option TblSpan) : Nat :=
  match sp with
  | none => 0
  | some sp => if sp.layout + 1 < tbl.rows.length then sp.layout + 1 else sp.layout

/-- Rows that contain nothing but horizontal lines get data rows of their own. -/
def lineRows : Nat → Tbl → Nat → Res (Tbl × Nat)
  | 0, _, _ => .error .fuel
  | n + 1, tbl, irow => do
    if tbl.rows.length ≤ irow + 1 then return (tbl, irow)
    match tbl.rows[irow]? with
    | none => .error .null
    | some rp =>
      match rp.cells.getLast? with
      | none => .error .null
      | some last =>
        if last.col + 1 < tbl.opts.cols then return (tbl, irow)
        else if rp.cells.any fun cp => !cp.pos.isHoriz then return (tbl, irow)
        else lineRows n (newspan tbl irow .DATA) (irow + 1)

/-- `tbl_data`: a data line. -/
def tblData (tbl : Tbl) (pos : Nat) : Res Tbl := do
  let sp := tbl.spans.find? fun sp => sp.pos = .DATA
  let irow := nextRow tbl sp
  if tbl.rows.length ≤ irow then .error .abort
  -- For an empty line, the byte behind its end does not matter.
  if charAt p 1 = NUL ∧ charAt p 0 = '.' then return tbl
  else if charAt p 1 = NUL ∧ (charAt p 0 = '_' ∨ charAt p 0 = '=') then
    -- A horizontal line at the beginning suppresses vertical space before the table.
    let bits := if sp.isNone then tbl.opts.opts &&& ~~~TBL_OPT_VSPACE else tbl.opts.opts
    let tbl := { tbl with opts := { tbl.opts with opts := bits } }
    return newspan tbl irow (if charAt p 0 = '_' then .HORIZ else .DHORIZ)
  else
    let (tbl, irow) ← lineRows (tbl.rows.length + 1) tbl irow
    dataLoop p (p.length + 1) (newspan tbl irow .DATA) pos

/-! ## §3 Lines -/

/-- Is there a semicolon that is not inside parentheses? -/
def activeSemicolon : Bool → CStr → Bool
  | _, [] => false
  | active, c :: rest =>
    if c = '(' then activeSemicolon false rest
    else if c = ')' then activeSemicolon true rest
    else if c = ';' ∧ active then true
    else activeSemicolon active rest

/-- The sections behind the options. -/
def readSection {X : Type} (env : Env X) (tbl : Tbl) (pos : Nat) : Res Tbl :=
  match tbl.part with
  | .LAYOUT => tblLayout env p tbl pos
  | .CDATA => tblCdata p tbl pos
  | .OPTS | .DATA => tblData p tbl pos

/-- `tbl_read`: a line of a table. -/
def tblRead {X : Type} (env : Env X) (tbl : Tbl) (pos : Nat) : Res Tbl := do
  if tbl.part = .OPTS then
    let tbl := { tbl with part := .LAYOUT }
    if activeSemicolon true (p.drop pos) then
      let (tbl, pos) ← tblOption tbl p pos
      if charAt p pos = NUL then return tbl else readSection p env tbl pos
    else readSection p env tbl pos
  else readSection p env tbl pos

end

end Mandoc
