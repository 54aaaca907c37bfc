import Mandoc.Tbl.Columns

/-!
# The columns of the terminal output of a table

The three loops of `term_tbl()` over the columns of a data row: the first one sets up the output
columns, the second one fills their buffers, and the third one prints them.  Each of them walks
over the layout cells and over the data cells with variables of its own.  The widths of columns,
the characters that are printed, and the repetition of the third loop for cells with more than
one line of text are left out: none of them changes which cell belongs to which column.

A layout row can start with a spanner, which there is nothing to span.  The three loops skip
a column if the first layout cell is a spanner, but they do so only once.  In that column, the
second loop nevertheless passes the first data cell on together with the spanner.

- `printedInColumns_iff` says which rows are printed in their columns.
- `misplaced_iff` says what the spanner at the beginning of a row makes visible.
-/

namespace Mandoc

/-! ## §1 Data cells -/

/-- A data cell is consumed at the column number `ic`, for the output column `tcol`. -/
structure ColumnUse where
  ic : Nat
  tcol : Nat
  dat : TblDat
deriving DecidableEq, Repr

/-- The variables that all three loops have got. -/
structure Cursor where
  /-- The current output column. -/
  tcol : Nat := 0
  /-- Number of spans following this cell. -/
  hspans : Nat := 0
  /-- The data cells that have not been consumed. -/
  dp : List TblDat
  used : List ColumnUse := []
deriving DecidableEq, Repr

/-- `sp->layout->first->pos == TBL_CELL_SPAN` -/
def startsWithSpan (cells : List TblCell) : Bool :=
  match cells with
  | [] => false
  | cp :: _ => cp.pos = .SPAN

/-- Start a span and advance to the next data cell, but not in the first column if the layout row
    starts with a spanner. -/
def Cursor.consume (cur : Cursor) (leading : Bool) (ic tcol : Nat) : Cursor :=
  match cur.dp with
  | [] => cur
  | dat :: dp =>
    if ic ≠ 0 ∨ ¬ leading then
      { cur with hspans := dat.hspans, dp := dp, used := cur.used ++ [⟨ic, tcol, dat⟩] }
    else cur

/-! ## §2 Setting up the columns -/

/-- One column in the first loop. -/
def setupStep (leading : Bool) (ic : Nat) (cur : Cursor) : Cursor :=
  let tcol := if cur.hspans = 0 then cur.tcol + 1 else cur.tcol
  if cur.hspans ≠ 0 then { cur with hspans := cur.hspans - 1 }
  else Cursor.consume { cur with tcol := tcol } leading ic tcol

/-- The first loop: `n` columns from the column number `ic` on. -/
def setupLoop (leading : Bool) : Nat → Nat → Cursor → Cursor
  | 0, _, cur => cur
  | n + 1, ic, cur => setupLoop leading n (ic + 1) (setupStep leading ic cur)

/-- Set up the data columns. -/
def setupColumns (cols : Nat) (cells : List TblCell) (dats : List TblDat) : Cursor :=
  setupLoop (startsWithSpan cells) cols 0 { dp := dats }

/-- `tp->lasttcol`: the column for the right vertical frame. -/
def lasttcol (cols : Nat) (cells : List TblCell) (dats : List TblDat) : Nat :=
  (setupColumns cols cells dats).tcol + 1

/-! ## §3 Filling the columns -/

/-- A layout cell and a data cell that are put into an output column. -/
structure CellUse where
  ic : Nat
  tcol : Nat
  /-- The place of the layout cell. -/
  cp : Nat
  dp : Option TblDat
deriving DecidableEq, Repr

/-- The variables of the second loop. -/
structure FillState where
  cur : Cursor
  /-- The place of the layout cell. -/
  cp : Nat := 0
  /-- The place of the next layout cell. -/
  cpn : Nat := 0
  /-- The calls of `tbl_data`. -/
  calls : List CellUse := []
deriving DecidableEq, Repr

/-- One column in the second loop. -/
def fillStep (cells : List TblCell) (ic : Nat) (st : FillState) : Res FillState :=
  let st := if st.cpn < cells.length then { st with cp := st.cpn, cpn := st.cpn + 1 } else st
  let cur := st.cur
  if cur.hspans ≠ 0 then .ok { st with cur := { cur with hspans := cur.hspans - 1 } }
  -- `tbl_data` looks at the position of the layout cell.
  else if cells.length ≤ st.cp then .error .null
  else
    let tcol := cur.tcol + 1
    .ok { st with
      calls := st.calls ++ [⟨ic, tcol, st.cp, cur.dp.head?⟩]
      cur := Cursor.consume { cur with tcol := tcol } (startsWithSpan cells) ic tcol }

/-- The second loop. -/
def fillLoop (cells : List TblCell) : Nat → Nat → FillState → Res FillState
  | 0, _, st => return st
  | n + 1, ic, st => do fillLoop cells n (ic + 1) (← fillStep cells ic st)

/-- Fill the buffers for all data columns. -/
def fillColumns (cols : Nat) (cells : List TblCell) (dats : List TblDat) : Res FillState :=
  fillLoop cells cols 0 { cur := { dp := dats } }

/-- What an output column contains. -/
inductive CellOutput where
  | nothing
  | line
  | doubleLine
  | literal
  | number
deriving DecidableEq, Repr

/-- `tbl_data` of `tbl_term.c` -/
def cellOutput (cp : CellPos) (dp : Option TblDat) : CellOutput :=
  match cp with
  | .HORIZ => .line
  | .DHORIZ => .doubleLine
  | _ =>
    match dp with
    | none => .nothing
    | some dat =>
      match dat.pos with
      | .NONE => .nothing
      | .HORIZ | .NHORIZ => .line
      | .NDHORIZ | .DHORIZ => .doubleLine
      | .DATA =>
        match cp with
        | .LONG | .CENTRE | .LEFT | .RIGHT => .literal
        | .NUMBER => .number
        | _ => .nothing

/-! ## §4 Printing the columns -/

/-- What the third loop reads apart from its variables. -/
structure PrintRow where
  /-- The layout cells of this row. -/
  cells : List TblCell
  bits : OptBits
  /-- `tp->enc == TERMENC_UTF8` -/
  utf8 : Bool
  lasttcol : Nat

/-- The variables of the third loop. -/
structure PrintState where
  cur : Cursor
  /-- The place of the layout cell. -/
  cp : Nat := 0
  /-- The layout cells of the next data row. -/
  cpn : List TblCell
  /-- The layout cells of the previous data row. -/
  cpp : List TblCell
  /-- The output columns that are printed. -/
  printed : List CellUse := []
deriving DecidableEq, Repr

def BHORIZ : Nat := 10

/-- The vertical line behind a cell and the spanners that follow. -/
def vertBehind (cells : List TblCell) (cp : Nat) : Nat :=
  match cells[cp + spanners (cells.drop (cp + 1))]? with
  | some cps => cps.vert
  | none => 0

/-- Is there a cell, and does it contain a horizontal line? -/
def isHorizCell (cp : Option TblCell) : Bool :=
  match cp with
  | some cp => cp.pos.isHoriz
  | none => false

/-- Does a horizontal line begin below a cell of the previous row? -/
def horizBegins (cp cpp : Option TblCell) : Bool :=
  match cp, cpp with
  | some cp, some cpp => cp.pos.isHoriz && !cpp.pos.isHoriz
  | _, _ => false

/-- Vertical lines pointing up and down behind this column. -/
def vertLines (row : PrintRow) (st : PrintState) : Nat × Nat :=
  let vert := if st.cp < row.cells.length then vertBehind row.cells st.cp else 0
  let uvert := match st.cpp with
    | cpp :: rest =>
      if vert < cpp.vert ∧ (horizBegins row.cells[st.cp]? (some cpp) ∨
          horizBegins row.cells[st.cp + 1]? rest.head?) then cpp.vert else vert
    | [] => vert
  let allbox := row.bits.has TBL_OPT_ALLBOX
  let uvert := if allbox ∧ uvert = 0 then 1 else uvert
  let dvert := if allbox ∧ vert = 0 then 1 else vert
  let dvert := match st.cpn with
    | cpn :: _ => if dvert = 0 ∨ (dvert < cpn.vert ∧ row.utf8) then cpn.vert else dvert
    | [] => dvert
  (uvert, dvert)

/-- The frame character for a horizontal line in this cell. -/
def horizLine (cp : Option TblCell) : Nat :=
  match cp with
  | some cp => if cp.pos = .HORIZ then BHORIZ else if cp.pos = .DHORIZ then BHORIZ * 2 else 0
  | none => 0

/-- Advance to the next layout cell, if there is one. -/
def nextCell (cells : List TblCell) (cp : Nat) : Nat := if cp < cells.length then cp + 1 else cp

/-- One column in the third loop. -/
def printStep (row : PrintRow) (ic : Nat) (st : PrintState) : Res PrintState :=
  let (uvert, dvert) := vertLines row st
  let fc := horizLine row.cells[st.cp]?
  let st := { st with cpp := st.cpp.tail, cpn := st.cpn.tail }
  let cur := st.cur
  if cur.hspans ≠ 0 then
    -- Skip later cells in a span.
    if row.cells.length ≤ st.cp then .error .null
    else .ok { st with cur := { cur with hspans := cur.hspans - 1 }, cp := st.cp + 1 }
  else
    let tcol := cur.tcol + 1
    let st := { st with
      printed := st.printed ++ [⟨ic, tcol, st.cp, cur.dp.head?⟩]
      cur := Cursor.consume { cur with tcol := tcol } (startsWithSpan row.cells) ic tcol }
    let isLast : Bool := tcol + 1 = row.lasttcol
    let noLine : Bool := uvert = 0 ∧ dvert = 0 ∧ st.cp < row.cells.length ∧
      ¬ isHorizCell row.cells[st.cp + 1]?
    -- No vertical frame, in particular not behind the last column.
    if fc = 0 ∧ (noLine ∨ isLast) then .ok { st with cp := nextCell row.cells st.cp }
    else if isLast then .ok st
    else .ok { st with cp := nextCell row.cells st.cp }

/-- The third loop. -/
def printLoop (row : PrintRow) : Nat → Nat → PrintState → Res PrintState
  | 0, _, st => return st
  | n + 1, ic, st => do printLoop row n (ic + 1) (← printStep row ic st)

/-- The layout cells of a neighbouring data row. -/
def neighbour (tbl : Tbl) (sp : Option TblSpan) : Res (List TblCell) :=
  match sp with
  | none => return []
  | some sp =>
    match tbl.rows[sp.layout]? with
    | none => .error .null
    | some row => return row.cells

/-- Print the data cells of a data row between its neighbours. -/
def printColumns (tbl : Tbl) (utf8 : Bool) (prev : Option TblSpan) (cells : List TblCell)
    (dats : List TblDat) (next : Option TblSpan) : Res PrintState := do
  let cpn ← neighbour tbl next
  let cpp ← neighbour tbl prev
  printLoop
    { cells := cells
      bits := tbl.opts.opts
      utf8 := utf8
      lasttcol := lasttcol tbl.opts.cols cells dats }
    tbl.opts.cols 0 { cur := { dp := dats }, cpn := cpn, cpp := cpp }

/-! ## §5 The common walk over the data cells -/

/-- What all three loops do with the variables that they have in common. -/
def Cursor.step (cur : Cursor) (leading : Bool) (ic : Nat) : Cursor :=
  if cur.hspans ≠ 0 then { cur with hspans := cur.hspans - 1 }
  else Cursor.consume { cur with tcol := cur.tcol + 1 } leading ic (cur.tcol + 1)

theorem setupStep_eq (leading : Bool) (ic : Nat) (cur : Cursor) :
    setupStep leading ic cur = cur.step leading ic := by
  unfold setupStep Cursor.step
  by_cases h : cur.hspans = 0
  · simp [h]
  · simp [h]

/-- The first column from `ic` on where a data cell can be consumed. -/
def firstColumn (leading : Bool) (ic : Nat) : Nat := if leading ∧ ic = 0 then 1 else ic

theorem le_firstColumn (leading : Bool) (ic : Nat) : ic ≤ firstColumn leading ic := by
  unfold firstColumn
  split <;> omega

theorem firstColumn_eq {leading : Bool} {ic : Nat} (h : ic ≠ 0 ∨ ¬ leading) :
    firstColumn leading ic = ic := by
  unfold firstColumn
  rw [if_neg]
  rintro ⟨hlead, hzero⟩
  exact h.elim (fun h0 => h0 hzero) (fun h0 => h0 hlead)

theorem firstColumn_succ (leading : Bool) (ic : Nat) : firstColumn leading (ic + 1) = ic + 1 := by
  simp [firstColumn]

theorem DatChain.head_lt {cells : List TblCell} {place : Nat} {dat : TblDat} {dats : List TblDat}
    (h : DatChain cells place (dat :: dats)) : dat.layout + dat.hspans < cells.length :=
  h.span_lt List.mem_cons_self

/-- The walk over the data cells arrives at the column number `ic`: the next data cell belongs to
    the column `shift` places behind the one where it is going to be consumed. -/
structure Cursor.Aligned (cur : Cursor) (cells : List TblCell) (leading : Bool) (shift ic : Nat) :
    Prop where
  start : ic = 0 → cur.hspans = 0
  /-- The rest of a span is inside the layout row. -/
  inside : cur.hspans ≠ 0 → ic + cur.hspans ≤ cells.length
  next : cur.dp = [] ∨ ∃ place, DatChain cells place cur.dp ∧
    place + spanners (cells.drop place) = firstColumn leading ic + cur.hspans + shift

namespace Cursor

variable {cells : List TblCell} {leading : Bool} {shift ic : Nat} {cur : Cursor}

theorem step_span (h : cur.hspans ≠ 0) :
    cur.step leading ic = { cur with hspans := cur.hspans - 1 } := by
  rw [step, if_pos h]

theorem step_column (h : cur.hspans = 0) :
    cur.step leading ic =
      Cursor.consume { cur with tcol := cur.tcol + 1 } leading ic (cur.tcol + 1) := by
  rw [step, if_neg (not_not.mpr h)]

theorem consume_tcol (cur : Cursor) (leading : Bool) (ic tcol : Nat) :
    (cur.consume leading ic tcol).tcol = cur.tcol := by
  unfold consume
  split
  · rfl
  · split <;> rfl

/-- An aligned walk stays aligned. -/
theorem Aligned.step (h : cur.Aligned cells leading shift ic) :
    (cur.step leading ic).Aligned cells leading shift (ic + 1) := by
  by_cases hspans : cur.hspans = 0
  · rw [step_column hspans]
    unfold consume
    cases hdp : cur.dp with
    | nil =>
      exact ⟨fun h0 => absurd h0 (Nat.succ_ne_zero ic), fun h0 => absurd hspans h0, .inl rfl⟩
    | cons dat dp =>
      dsimp only
      obtain hnil | ⟨place, hchain, hplace⟩ := h.next
      · simp [hdp] at hnil
      rw [hspans, Nat.add_zero] at hplace
      rw [hdp] at hchain
      split
      · next hic =>
        -- The data cell is consumed, and the next one is behind its span.
        have hfirst := firstColumn_eq hic
        have hlt := hchain.head_lt
        obtain ⟨hlayout, -, hhspans, hrest⟩ := hchain
        refine ⟨fun h0 => absurd h0 (Nat.succ_ne_zero ic), fun _ => ?_, .inr ⟨_, hrest, ?_⟩⟩
        · dsimp only
          omega
        · rw [firstColumn_succ, ← hhspans]
          dsimp only
          omega
      · next hic =>
        -- The first column is skipped.
        have hic : ic = 0 ∧ leading := by
          by_contra hcon
          apply hic
          by_cases hzero : ic = 0
          · exact .inr fun hlead => hcon ⟨hzero, hlead⟩
          · exact .inl hzero
        have hfirst : firstColumn leading ic = 1 := if_pos ⟨hic.2, hic.1⟩
        refine ⟨fun h0 => absurd h0 (Nat.succ_ne_zero ic), fun h0 => absurd hspans h0, ?_⟩
        refine .inr ⟨place, hchain, ?_⟩
        rw [firstColumn_succ]
        dsimp only
        omega
  · rw [step_span hspans]
    have hic : ic ≠ 0 := fun h0 => hspans (h.start h0)
    have hfirst : firstColumn leading ic = ic := firstColumn_eq (.inl hic)
    refine ⟨fun h0 => absurd h0 (Nat.succ_ne_zero ic), fun _ => ?_, ?_⟩
    · have := h.inside hspans
      dsimp only
      omega
    · obtain hnil | ⟨place, hchain, hplace⟩ := h.next
      · exact .inl hnil
      · refine .inr ⟨place, hchain, ?_⟩
        rw [firstColumn_succ]
        dsimp only
        omega

/-- At the beginning of a data row. -/
theorem aligned_start {dats : List TblDat} (h : DatChain cells 0 dats) :
    Aligned { dp := dats } cells (startsWithSpan cells)
      (spanners cells - firstColumn (startsWithSpan cells) 0) 0 := by
  refine ⟨fun _ => rfl, fun h0 => absurd rfl h0, .inr ⟨0, h, ?_⟩⟩
  rw [List.drop_zero, Nat.zero_add]
  dsimp only
  unfold firstColumn startsWithSpan
  cases cells with
  | nil => rfl
  | cons cp cells =>
    rw [spanners_cons]
    by_cases hcp : cp.pos = .SPAN
    · simp [hcp]
      omega
    · simp [hcp]

/-- The numbers of the columns where the data cells are consumed. -/
def columns (cur : Cursor) : List (Nat × TblDat) := cur.used.map fun use => (use.ic, use.dat)

/-- A data cell is consumed `shift` columns to the left of its own column. -/
theorem Aligned.columns_run {n : Nat} (h : cur.Aligned cells leading shift ic)
    (hn : cells.length ≤ ic + n) :
    (setupLoop leading n ic cur).columns =
      cur.columns ++ cur.dp.map fun dat => (dat.layout - shift, dat) := by
  induction n generalizing ic cur with
  | zero =>
    obtain hnil | ⟨place, hchain, hplace⟩ := h.next
    · rw [hnil]
      exact (List.append_nil _).symm
    · -- All layout cells have been passed.
      cases hdp : cur.dp with
      | nil => exact (List.append_nil _).symm
      | cons dat dp =>
        rw [hdp] at hchain
        have hlt := hchain.head_lt
        have hlayout := hchain.1
        have hle := le_firstColumn leading ic
        omega
  | succ n ih =>
    rw [setupLoop, setupStep_eq, ih h.step (by omega)]
    by_cases hspans : cur.hspans = 0
    · rw [step_column hspans]
      unfold consume
      cases hdp : cur.dp with
      | nil => simp [columns]
      | cons dat dp =>
        dsimp only
        split
        · next hic =>
          obtain hnil | ⟨place, hchain, hplace⟩ := h.next
          · simp [hdp] at hnil
          have hfirst := firstColumn_eq hic
          rw [hdp] at hchain
          have hlayout := hchain.1
          have hcolumn : dat.layout - shift = ic := by omega
          simp [columns, hcolumn]
        · simp [columns]
    · rw [step_span hspans]
      rfl

theorem step_tcol (cur : Cursor) (leading : Bool) (ic : Nat) :
    (cur.step leading ic).tcol = if cur.hspans = 0 then cur.tcol + 1 else cur.tcol := by
  by_cases hspans : cur.hspans = 0
  · rw [step_column hspans, consume_tcol, if_pos hspans]
  · rw [step_span hspans, if_neg hspans]

theorem tcol_le_run (n ic : Nat) (cur : Cursor) (leading : Bool) :
    cur.tcol ≤ (setupLoop leading n ic cur).tcol := by
  induction n generalizing ic cur with
  | zero => exact le_rfl
  | succ n ih =>
    rw [setupLoop, setupStep_eq]
    refine le_trans ?_ (ih (ic + 1) (cur.step leading ic))
    rw [step_tcol]
    split <;> omega

theorem run_tcol_le (n ic : Nat) (cur : Cursor) (leading : Bool) :
    (setupLoop leading n ic cur).tcol ≤ cur.tcol + n := by
  induction n generalizing ic cur with
  | zero => exact le_rfl
  | succ n ih =>
    rw [setupLoop, setupStep_eq]
    have hstep := step_tcol cur leading ic
    have hrun := ih (ic + 1) (cur.step leading ic)
    split at hstep <;> omega

/-- A step keeps the data cells that have been consumed. -/
theorem used_subset_consume (cur : Cursor) (leading : Bool) (ic tcol : Nat) :
    cur.used ⊆ (cur.consume leading ic tcol).used := by
  unfold consume
  split
  · exact List.Subset.refl _
  · split
    · exact List.subset_append_left _ _
    · exact List.Subset.refl _

/-- The next data cell is consumed unless the first column is skipped. -/
theorem consume_head {dat : TblDat} {tcol : Nat} (hdat : cur.dp.head? = some dat) :
    ⟨ic, tcol, dat⟩ ∈ (cur.consume leading ic tcol).used ∨ leading = true ∧ ic = 0 := by
  unfold consume
  cases hdp : cur.dp with
  | nil =>
    rw [hdp] at hdat
    cases hdat
  | cons dat' dp =>
    rw [hdp] at hdat
    cases hdat
    dsimp only
    split
    · exact .inl (List.mem_append_right _ (List.mem_singleton_self _))
    · next hskip =>
      obtain ⟨hic, hleading⟩ := not_or.mp hskip
      exact .inr ⟨not_not.mp hleading, not_not.mp hic⟩

/-- No data cells are added. -/
theorem dp_step_subset (cur : Cursor) (leading : Bool) (ic : Nat) :
    (cur.step leading ic).dp ⊆ cur.dp := by
  unfold step consume
  split
  · exact List.Subset.refl _
  · dsimp only
    cases cur.dp with
    | nil => exact List.Subset.refl _
    | cons dat dp =>
      dsimp only
      split
      · exact List.subset_cons_self _ _
      · exact List.Subset.refl _

/-- The data cells that are consumed by a step. -/
theorem mem_consume {use : ColumnUse} {tcol : Nat}
    (h : use ∈ (cur.consume leading ic tcol).used) :
    use ∈ cur.used ∨ use.ic = ic ∧ use.tcol = tcol ∧ cur.dp.head? = some use.dat := by
  unfold consume at h
  cases hdp : cur.dp with
  | nil =>
    rw [hdp] at h
    exact .inl h
  | cons dat dp =>
    rw [hdp] at h
    dsimp only at h
    split at h
    · cases List.mem_append.mp h with
      | inl hmem => exact .inl hmem
      | inr hmem =>
        cases List.mem_singleton.mp hmem
        exact .inr ⟨rfl, rfl, rfl⟩
    · exact .inl h

end Cursor

/-! ## §6 The second and the third loop -/

/-- The calls of an output function match the data cells that are consumed: at each of these columns,
    the layout cell at the place `cellAt` is used together with the data cell.  No other data cell is
    used, except in the first column of a row that starts with a spanner. -/
structure CallsMatch (calls : List CellUse) (cur : Cursor) (leading : Bool) (cellAt : Nat → Nat) :
    Prop where
  uses : ∀ use ∈ cur.used, CellUse.mk use.ic use.tcol (cellAt use.ic) (some use.dat) ∈ calls
  tcol : ∀ call ∈ calls, call.tcol ≤ cur.tcol
  cell : ∀ call ∈ calls, call.cp = cellAt call.ic
  own : ∀ call ∈ calls, ∀ dat, call.dp = some dat →
    ⟨call.ic, call.tcol, dat⟩ ∈ cur.used ∨ leading = true ∧ call.ic = 0

/-- Before the first column, there are no calls. -/
theorem CallsMatch.start (dats : List TblDat) (leading : Bool) (cellAt : Nat → Nat) :
    CallsMatch [] { dp := dats } leading cellAt := by
  refine ⟨fun use huse => ?_, fun call hcall => ?_, fun call hcall => ?_, fun call hcall => ?_⟩
  · cases huse
  · cases hcall
  · cases hcall
  · cases hcall

/-- An output function is called for the current column. -/
theorem CallsMatch.consume {calls : List CellUse} {cur : Cursor} {leading : Bool}
    {cellAt : Nat → Nat} (h : CallsMatch calls cur leading cellAt) (ic cp : Nat)
    (hcp : cp = cellAt ic) :
    CallsMatch (calls ++ [⟨ic, cur.tcol + 1, cp, cur.dp.head?⟩])
      (Cursor.consume { cur with tcol := cur.tcol + 1 } leading ic (cur.tcol + 1)) leading
      cellAt := by
  constructor
  · -- The call that was added is the only new one, and its cell is the one of the column.
    intro use huse
    rw [List.mem_append, List.mem_singleton]
    obtain hold | ⟨hic, htcol, hdat⟩ := Cursor.mem_consume huse
    · exact .inl (h.uses use hold)
    · right
      rw [hic, htcol, hcp]
      exact congrArg _ hdat.symm
  · intro call hcall
    rw [Cursor.consume_tcol]
    cases List.mem_append.mp hcall with
    | inl hmem => exact Nat.le_succ_of_le (h.tcol call hmem)
    | inr hmem =>
      cases List.mem_singleton.mp hmem
      exact le_rfl
  · intro call hcall
    cases List.mem_append.mp hcall with
    | inl hmem => exact h.cell call hmem
    | inr hmem =>
      cases List.mem_singleton.mp hmem
      exact hcp
  · intro call hcall dat hdat
    cases List.mem_append.mp hcall with
    | inl hmem =>
      exact (h.own call hmem dat hdat).imp_left fun hused => Cursor.used_subset_consume _ _ _ _ hused
    | inr hmem =>
      cases List.mem_singleton.mp hmem
      exact Cursor.consume_head hdat

theorem CallsMatch.span {calls : List CellUse} {cur : Cursor} {leading : Bool} {cellAt : Nat → Nat}
    (h : CallsMatch calls cur leading cellAt) (hspans : Nat) :
    CallsMatch calls { cur with hspans := hspans } leading cellAt :=
  ⟨h.uses, h.tcol, h.cell, h.own⟩

/-- The invariant of the second loop at the column number `ic`. -/
structure FillState.Inv (st : FillState) (cells : List TblCell) (ic : Nat) : Prop where
  cpn : st.cpn = min ic cells.length
  cp : ic ≠ 0 → st.cp = min (ic - 1) (cells.length - 1)
  calls : CallsMatch st.calls st.cur (startsWithSpan cells) fun ic => min ic (cells.length - 1)

theorem fillStep_inv {cells : List TblCell} (hcells : cells ≠ []) {ic : Nat} {st : FillState}
    (h : st.Inv cells ic) :
    ∃ st', fillStep cells ic st = .ok st' ∧ st'.cur = st.cur.step (startsWithSpan cells) ic ∧
      st'.Inv cells (ic + 1) := by
  have hpos := List.length_pos_iff.mpr hcells
  have hcpn := h.cpn
  have hcp := h.cp
  unfold fillStep
  -- The layout cell of this column, or the last one.
  obtain ⟨st1, hst1⟩ : ∃ st1, st1 = if st.cpn < cells.length then
      { st with cp := st.cpn, cpn := st.cpn + 1 } else st := ⟨_, rfl⟩
  have hcp1 : st1.cp = min ic (cells.length - 1) ∧ st1.cpn = min (ic + 1) cells.length ∧
      st1.cur = st.cur ∧ st1.calls = st.calls := by
    rw [hst1]
    split
    · refine ⟨?_, ?_, rfl, rfl⟩
      · dsimp only
        omega
      · dsimp only
        omega
    · have := hcp (by omega)
      refine ⟨?_, ?_, rfl, rfl⟩
      · omega
      · omega
  rw [← hst1]
  obtain ⟨hcp1, hcpn1, hcur1, hcalls1⟩ := hcp1
  dsimp only
  rw [hcur1, hcalls1]
  by_cases hspans : st.cur.hspans = 0
  · rw [if_neg (not_not.mpr hspans), if_neg (by omega)]
    refine ⟨_, rfl, (Cursor.step_column hspans).symm, hcpn1, fun _ => hcp1, ?_⟩
    exact h.calls.consume ic st1.cp hcp1
  · rw [if_pos hspans]
    exact ⟨_, rfl, (Cursor.step_span hspans).symm, hcpn1, fun _ => hcp1, hcalls1 ▸ h.calls.span _⟩

/-- The second loop consumes the same data cells as the first one. -/
theorem fillLoop_inv {cells : List TblCell} (hcells : cells ≠ []) (n : Nat) {ic : Nat}
    {st : FillState} (h : st.Inv cells ic) :
    ∃ st', fillLoop cells n ic st = .ok st' ∧
      st'.cur = setupLoop (startsWithSpan cells) n ic st.cur ∧ st'.Inv cells (ic + n) := by
  induction n generalizing ic st with
  | zero => exact ⟨st, rfl, rfl, h⟩
  | succ n ih =>
    obtain ⟨st1, hstep, hcur1, hinv1⟩ := fillStep_inv hcells h
    obtain ⟨st', hloop, hcur', hinv'⟩ := ih hinv1
    refine ⟨st', ?_, ?_, ?_⟩
    · rw [fillLoop, hstep]
      exact hloop
    · rw [hcur', hcur1, setupLoop, setupStep_eq]
    · rw [Nat.add_succ, ← Nat.succ_add]
      exact hinv'

/-- One column in the second loop uses the next data cell. -/
theorem fillStep_calls {cells : List TblCell} {ic : Nat} {st st' : FillState}
    (h : fillStep cells ic st = .ok st') :
    st'.cur = st.cur.step (startsWithSpan cells) ic ∧ ∃ new, st'.calls = st.calls ++ new ∧
      ∀ call ∈ new, call.ic = ic ∧ call.dp = st.cur.dp.head? := by
  unfold fillStep at h
  generalize hst1 : (if st.cpn < cells.length then { st with cp := st.cpn, cpn := st.cpn + 1 }
    else st) = st1 at h
  have hsame : st1.cur = st.cur ∧ st1.calls = st.calls := by
    rw [← hst1]
    split <;> exact ⟨rfl, rfl⟩
  dsimp only at h
  rw [hsame.1, hsame.2] at h
  by_cases hspans : st.cur.hspans = 0
  · rw [if_neg (not_not.mpr hspans)] at h
    split at h
    · cases h
    · cases h
      refine ⟨(Cursor.step_column hspans).symm, _, rfl, fun call hcall => ?_⟩
      rw [List.mem_singleton.mp hcall]
      exact ⟨rfl, rfl⟩
  · rw [if_pos hspans] at h
    cases h
    exact ⟨(Cursor.step_span hspans).symm, [], (List.append_nil _).symm, List.forall_mem_nil _⟩

/-- The second loop adds calls for the columns from a column number on, with data cells that have
    not been consumed. -/
theorem fillLoop_calls {cells : List TblCell} (n : Nat) {ic : Nat} {st st' : FillState}
    (h : fillLoop cells n ic st = .ok st') : ∃ more, st'.calls = st.calls ++ more ∧
      ∀ call ∈ more, ic ≤ call.ic ∧ ∀ dat, call.dp = some dat → dat ∈ st.cur.dp := by
  induction n generalizing ic st with
  | zero =>
    cases h
    exact ⟨[], (List.append_nil _).symm, List.forall_mem_nil _⟩
  | succ n ih =>
    rw [fillLoop] at h
    obtain ⟨st1, hstep, hloop⟩ := Res.bind_eq_ok.mp h
    obtain ⟨hcur, new, hnew, hcall⟩ := fillStep_calls hstep
    obtain ⟨more, hmore, hrest⟩ := ih hloop
    refine ⟨new ++ more, by rw [hmore, hnew, List.append_assoc], fun call hmem => ?_⟩
    cases List.mem_append.mp hmem with
    | inl hmem =>
      obtain ⟨rfl, hdp⟩ := hcall call hmem
      exact ⟨le_rfl, fun dat hdat => List.mem_of_mem_head? (hdp ▸ hdat)⟩
    | inr hmem =>
      obtain ⟨hic, hdp⟩ := hrest call hmem
      refine ⟨Nat.le_of_succ_le hic, fun dat hdat => ?_⟩
      have hdat' := hdp dat hdat
      rw [hcur] at hdat'
      exact Cursor.dp_step_subset _ _ _ hdat'

/-- The invariant of the third loop at the column number `ic`: the layout cell only stays behind after
    the last output column. -/
structure PrintState.Inv (st : PrintState) (row : PrintRow) (ic : Nat) : Prop where
  cp : st.cp = min ic row.cells.length ∨ st.cp ≤ ic ∧ st.cur.tcol + 1 = row.lasttcol
  printed : CallsMatch st.printed st.cur (startsWithSpan row.cells) fun ic => min ic row.cells.length

theorem nextCell_min (cells : List TblCell) (ic : Nat) :
    nextCell cells (min ic cells.length) = min (ic + 1) cells.length := by
  unfold nextCell
  split <;> omega

theorem printStep_inv {row : PrintRow} {shift ic : Nat} {st : PrintState} (h : st.Inv row ic)
    (haligned : st.cur.Aligned row.cells (startsWithSpan row.cells) shift ic)
    (hlast : (st.cur.step (startsWithSpan row.cells) ic).tcol < row.lasttcol) :
    ∃ st', printStep row ic st = .ok st' ∧
      st'.cur = st.cur.step (startsWithSpan row.cells) ic ∧ st'.Inv row (ic + 1) := by
  unfold printStep
  generalize vertLines row st = lines
  obtain ⟨uvert, dvert⟩ := lines
  dsimp only
  rw [Cursor.step_tcol] at hlast
  by_cases hspans : st.cur.hspans = 0
  · rw [if_neg (not_not.mpr hspans)]
    rw [if_pos hspans] at hlast
    -- There are more output columns, so the layout cell is up to date.
    have hcp : st.cp = min ic row.cells.length := by
      obtain hcp | ⟨-, htcol⟩ := h.cp
      · exact hcp
      · omega
    have hnext : nextCell row.cells st.cp = min (ic + 1) row.cells.length := by
      rw [hcp, nextCell_min]
    have hcalls := h.printed.consume ic st.cp hcp
    have htcol := Cursor.consume_tcol { st.cur with tcol := st.cur.tcol + 1 }
      (startsWithSpan row.cells) ic (st.cur.tcol + 1)
    rw [Cursor.step_column hspans]
    split
    · exact ⟨_, rfl, rfl, .inl hnext, hcalls⟩
    · split
      · next hisLast =>
        refine ⟨_, rfl, rfl, .inr ⟨?_, ?_⟩, hcalls⟩
        · dsimp only
          omega
        · rw [htcol]
          exact of_decide_eq_true hisLast
      · exact ⟨_, rfl, rfl, .inl hnext, hcalls⟩
  · have hinside := haligned.inside hspans
    have hcp : st.cp ≤ ic := by
      obtain hcp | ⟨hcp, -⟩ := h.cp <;> omega
    rw [if_pos hspans, if_neg (by omega), Cursor.step_span hspans]
    refine ⟨_, rfl, rfl, ?_, h.printed.span _⟩
    obtain hcp | ⟨hcp, htcol⟩ := h.cp
    · left
      dsimp only
      omega
    · right
      exact ⟨Nat.succ_le_succ hcp, htcol⟩

/-- The third loop consumes the same data cells as the first one, and never follows a null pointer. -/
theorem printLoop_inv {row : PrintRow} {shift : Nat} (n : Nat) {ic : Nat} {st : PrintState}
    (h : st.Inv row ic)
    (haligned : st.cur.Aligned row.cells (startsWithSpan row.cells) shift ic)
    (hlast : (setupLoop (startsWithSpan row.cells) n ic st.cur).tcol < row.lasttcol) :
    ∃ st', printLoop row n ic st = .ok st' ∧
      st'.cur = setupLoop (startsWithSpan row.cells) n ic st.cur ∧ st'.Inv row (ic + n) := by
  induction n generalizing ic st with
  | zero => exact ⟨st, rfl, rfl, h⟩
  | succ n ih =>
    rw [setupLoop, setupStep_eq] at hlast
    have hle := Cursor.tcol_le_run n (ic + 1) (st.cur.step (startsWithSpan row.cells) ic)
      (startsWithSpan row.cells)
    obtain ⟨st1, hstep, hcur1, hinv1⟩ := printStep_inv h haligned (by omega)
    have haligned1 := haligned.step
    rw [← hcur1] at hlast haligned1
    obtain ⟨st', hloop, hcur', hinv'⟩ := ih hinv1 haligned1 hlast
    refine ⟨st', ?_, ?_, ?_⟩
    · rw [printLoop, hstep]
      exact hloop
    · rw [hcur', hcur1, setupLoop, setupStep_eq]
    · rw [Nat.add_succ, ← Nat.succ_add]
      exact hinv'

/-! ## §7 Every cell in its own column -/

/-- The three loops agree: none of them follows a null pointer, they consume the same data cells for
    the same columns, every data cell of the row is consumed in the column of its own layout cell
    and together with this layout cell, no data cell is passed on together with another layout
    cell, and there are enough output columns. -/
def PrintedInColumns (tbl : Tbl) (utf8 : Bool) (prev : Option TblSpan) (sp : TblSpan)
    (next : Option TblSpan) : Prop :=
  ∃ row fill print, tbl.rows[sp.layout]? = some row ∧
    fillColumns tbl.opts.cols row.cells sp.dats = .ok fill ∧
    printColumns tbl utf8 prev row.cells sp.dats next = .ok print ∧
    fill.cur.used = (setupColumns tbl.opts.cols row.cells sp.dats).used ∧
    print.cur.used = (setupColumns tbl.opts.cols row.cells sp.dats).used ∧
    fill.cur.used.map (fun use => use.dat) = sp.dats ∧
    (∀ use ∈ fill.cur.used, ∃ cp, row.cells[use.dat.layout]? = some cp ∧ use.ic = cp.col ∧
      ⟨use.ic, use.tcol, use.dat.layout, some use.dat⟩ ∈ fill.calls ∧
      ⟨use.ic, use.tcol, use.dat.layout, some use.dat⟩ ∈ print.printed) ∧
    (∀ call ∈ fill.calls, ∀ dat, call.dp = some dat → call.cp = dat.layout) ∧
    (∀ call ∈ fill.calls ++ print.printed,
      call.tcol < lasttcol tbl.opts.cols row.cells sp.dats) ∧
    lasttcol tbl.opts.cols row.cells sp.dats + 1 ≤ tbl.opts.cols + 2

/-- The data cells are consumed in the columns of their layout cells, but those of a row that starts
    with several spanners are shifted to the left. -/
theorem setupColumns_columns {cols : Nat} {cells : List TblCell} {dats : List TblDat}
    (h : DatChain cells 0 dats) (hcols : cells.length ≤ cols) :
    (setupColumns cols cells dats).columns =
      dats.map fun dat =>
        (dat.layout - (spanners cells - firstColumn (startsWithSpan cells) 0), dat) := by
  rw [setupColumns, (Cursor.aligned_start h).columns_run (by omega)]
  rfl

/-- The first call in a row with data uses the first layout cell. -/
theorem fillColumns_first {cols : Nat} {cells : List TblCell} {dats : List TblDat}
    (hcells : cells ≠ []) (hcols : cells.length ≤ cols) {fill : FillState}
    (hfill : fillColumns cols cells dats = .ok fill) :
    ∃ more, fill.calls = ⟨0, 1, 0, dats.head?⟩ :: more ∧ ∀ call ∈ more, 1 ≤ call.ic := by
  have hpos := List.length_pos_iff.mpr hcells
  obtain ⟨n, rfl⟩ := Nat.exists_eq_succ_of_ne_zero (Nat.ne_of_gt (hpos.trans_le hcols))
  rw [fillColumns, fillLoop, fillStep, if_pos hpos] at hfill
  dsimp only at hfill
  rw [if_neg (not_not.mpr rfl), if_neg (Nat.not_le_of_lt hpos), Res.ok_bind] at hfill
  obtain ⟨more, hmore, hic⟩ := fillLoop_calls n hfill
  exact ⟨more, hmore, fun call hcall => (hic call hcall).1⟩

/-- A row that starts with at most one spanner. -/
theorem shift_eq_zero {cells : List TblCell} (h : spanners cells ≤ 1) :
    spanners cells - firstColumn (startsWithSpan cells) 0 = 0 := by
  cases cells with
  | nil => rfl
  | cons cp cells =>
    rw [spanners_cons] at h ⊢
    unfold firstColumn startsWithSpan
    by_cases hcp : cp.pos = .SPAN
    · simp only [hcp, if_true] at h ⊢
      simpa using h
    · simp [hcp]

theorem columns_dats (cur : Cursor) :
    cur.used.map (fun use => use.dat) = cur.columns.map Prod.snd := by
  rw [Cursor.columns, List.map_map]
  rfl

theorem fillColumns_inv (cols : Nat) {cells : List TblCell} (hcells : cells ≠ [])
    (dats : List TblDat) :
    ∃ fill, fillColumns cols cells dats = .ok fill ∧ fill.cur = setupColumns cols cells dats ∧
      fill.Inv cells (0 + cols) := by
  apply fillLoop_inv hcells
  exact ⟨(Nat.zero_min _).symm, fun h0 => absurd rfl h0, .start _ _ _⟩

/-- The layout cells of a neighbouring data row can be found. -/
theorem neighbour_ok {tbl : Tbl} (h : tbl.Inv) {sp : Option TblSpan}
    (hsp : ∀ dp, sp = some dp → dp ∈ tbl.spans) : ∃ cells, neighbour tbl sp = .ok cells := by
  cases sp with
  | none => exact ⟨[], rfl⟩
  | some sp =>
    obtain ⟨row, hrow, -⟩ := h.spans sp (hsp sp rfl)
    refine ⟨row.cells, ?_⟩
    rw [neighbour, hrow]
    rfl

/-- The third loop as a whole. -/
theorem printColumns_inv {tbl : Tbl} (h : tbl.Inv) (utf8 : Bool) {prev next : Option TblSpan}
    (hprev : ∀ dp, prev = some dp → dp ∈ tbl.spans) (hnext : ∀ dp, next = some dp → dp ∈ tbl.spans)
    {cells : List TblCell} {dats : List TblDat} (hdats : DatChain cells 0 dats) :
    ∃ print, printColumns tbl utf8 prev cells dats next = .ok print ∧
      print.cur = setupColumns tbl.opts.cols cells dats ∧
      CallsMatch print.printed print.cur (startsWithSpan cells) fun ic => min ic cells.length := by
  obtain ⟨cpn, hcpn⟩ := neighbour_ok h hnext
  obtain ⟨cpp, hcpp⟩ := neighbour_ok h hprev
  rw [printColumns, hcpn, hcpp]
  -- The state and the row are named, since they occur in all conditions.
  obtain ⟨row, hrow⟩ : ∃ row : PrintRow, row =
      { cells := cells, bits := tbl.opts.opts, utf8 := utf8,
        lasttcol := lasttcol tbl.opts.cols cells dats } := ⟨_, rfl⟩
  obtain ⟨st, hst⟩ : ∃ st : PrintState, st =
      { cur := { dp := dats }, cpn := cpn, cpp := cpp } := ⟨_, rfl⟩
  have hstart : st.Inv row 0 := by
    rw [hst]
    exact ⟨.inl (Nat.zero_min _).symm, .start _ _ _⟩
  have haligned := Cursor.aligned_start hdats
  have hcur : st.cur = { dp := dats } := by rw [hst]
  have hcells : row.cells = cells := by rw [hrow]
  rw [← hcur, ← hcells] at haligned
  have hlast : (setupLoop (startsWithSpan row.cells) tbl.opts.cols 0 st.cur).tcol < row.lasttcol := by
    rw [hcur, hrow]
    exact Nat.lt_succ_self _
  obtain ⟨print, hprint, hpcur, hpinv⟩ := printLoop_inv tbl.opts.cols hstart haligned hlast
  rw [hrow, hst] at hprint
  rw [hcur, hcells] at hpcur
  have hmatch := hpinv.printed
  rw [hcells] at hmatch
  exact ⟨print, hprint, hpcur, hmatch⟩

/-- A data cell that is consumed is one of the row.  It is consumed in the column of its layout cell
    unless the row starts with several spanners. -/
theorem setupColumns_used {cols : Nat} {cells : List TblCell} {dats : List TblDat}
    (h : DatChain cells 0 dats) (hcols : cells.length ≤ cols) {use : ColumnUse}
    (huse : use ∈ (setupColumns cols cells dats).used) :
    use.dat ∈ dats ∧ (use.ic = use.dat.layout ∨ 1 < spanners cells) := by
  have hmem : (use.ic, use.dat) ∈ (setupColumns cols cells dats).columns := List.mem_map_of_mem huse
  rw [setupColumns_columns h hcols] at hmem
  obtain ⟨dat, hdat, hpair⟩ := List.mem_map.mp hmem
  obtain ⟨hic, rfl⟩ := Prod.mk.inj hpair
  refine ⟨hdat, or_iff_not_imp_right.mpr fun hfew => ?_⟩
  rw [shift_eq_zero (Nat.le_of_not_lt hfew), Nat.sub_zero] at hic
  exact hic.symm

theorem startsWithSpan_iff {cells : List TblCell} : startsWithSpan cells = true ↔ 0 < spanners cells := by
  cases cells with
  | nil => exact iff_of_false (by decide) (Nat.not_lt_zero _)
  | cons cp cells =>
    rw [spanners_cons, startsWithSpan, decide_eq_true_eq]
    split <;> simp_all

theorem first_spanner {cells : List TblCell} (h : 0 < spanners cells) :
    ∃ cp, cells[0]? = some cp ∧ cp.pos = .SPAN := by
  cases cells with
  | nil => exact absurd h (Nat.not_lt_zero _)
  | cons cp cells =>
    refine ⟨cp, rfl, ?_⟩
    rw [spanners_cons] at h
    by_contra hcp
    rw [if_neg hcp] at h
    exact absurd h (Nat.not_lt_zero _)

/-- If a row does not start with a spanner, everything is printed in its own column. -/
theorem printedInColumns_of_spanners {tbl : Tbl} (h : tbl.Inv) (utf8 : Bool) {prev next : Option TblSpan}
    {sp : TblSpan} (hsp : sp ∈ tbl.spans) (hprev : ∀ pdp, prev = some pdp → pdp ∈ tbl.spans)
    (hnext : ∀ ndp, next = some ndp → ndp ∈ tbl.spans) {row : TblRow}
    (hrow : tbl.rows[sp.layout]? = some row) (hspans : spanners row.cells = 0 ∨ sp.dats = []) :
    PrintedInColumns tbl utf8 prev sp next := by
  obtain ⟨row', hrow', hcells, hdats⟩ := h.spans sp hsp
  rw [hrow] at hrow'
  cases hrow'
  have hnumbered := h.numbered row (List.mem_of_getElem? hrow)
  have hcolumns := setupColumns_columns hdats hnumbered.1
  obtain ⟨fill, hfill, hfcur, hfinv⟩ := fillColumns_inv tbl.opts.cols hcells sp.dats
  obtain ⟨print, hprint, hpcur, hpmatch⟩ := printColumns_inv h utf8 hprev hnext hdats
  have hlasttcol : (setupColumns tbl.opts.cols row.cells sp.dats).tcol <
      lasttcol tbl.opts.cols row.cells sp.dats := Nat.lt_succ_self _
  have hplace : ∀ use ∈ fill.cur.used, use.ic = use.dat.layout ∧
      use.dat.layout < row.cells.length := fun use huse => by
    rw [hfcur] at huse
    obtain ⟨hmem, hic⟩ := setupColumns_used hdats hnumbered.1 huse
    refine ⟨hic.resolve_right fun hmany => ?_, (Nat.le_add_right _ _).trans_lt (hdats.span_lt hmem)⟩
    cases hspans with
    | inl hzero => omega
    | inr hnil =>
      rw [hnil] at hmem
      cases hmem
  refine ⟨row, fill, print, hrow, hfill, hprint, by rw [hfcur], by rw [hpcur], ?_, ?_, ?_, ?_, ?_⟩
  · rw [columns_dats, hfcur, hcolumns, List.map_map]
    exact List.map_id'' (fun _ => rfl) sp.dats
  · intro use huse
    obtain ⟨hic, hlt⟩ := hplace use huse
    have hcell := List.getElem?_eq_getElem hlt
    refine ⟨_, hcell, ?_, ?_, ?_⟩
    · rw [hnumbered.2 _ _ hcell]
      exact hic
    · have hcall := hfinv.calls.uses use huse
      have hmin : min use.ic (row.cells.length - 1) = use.dat.layout := by omega
      rwa [hmin] at hcall
    · have hcall := hpmatch.uses use (by rw [hpcur, ← hfcur]; exact huse)
      have hmin : min use.ic row.cells.length = use.dat.layout := by omega
      rwa [hmin] at hcall
  · intro call hcall dat hdat
    obtain hused | ⟨hleading, -⟩ := hfinv.calls.own call hcall dat hdat
    · obtain ⟨hic, hlt⟩ := hplace _ hused
      have hcp := hfinv.calls.cell call hcall
      dsimp only at hic hlt hcp
      omega
    · cases hspans with
      | inl hzero => exact absurd hleading (startsWithSpan_iff.not.mpr (by omega))
      | inr hnil =>
        -- There is no data cell that can be used.
        obtain ⟨more, hmore, hdp⟩ := fillLoop_calls _ hfill
        rw [hmore] at hcall
        have hmem := (hdp call hcall).2 dat hdat
        rw [hnil] at hmem
        cases hmem
  · intro call hcall
    have hle : call.tcol ≤ (setupColumns tbl.opts.cols row.cells sp.dats).tcol := by
      cases List.mem_append.mp hcall with
      | inl hmem =>
        rw [← hfcur]
        exact hfinv.calls.tcol call hmem
      | inr hmem =>
        rw [← hpcur]
        exact hpmatch.tcol call hmem
    omega
  · have hle := Cursor.run_tcol_le tbl.opts.cols 0 { dp := sp.dats } (startsWithSpan row.cells)
    rw [lasttcol, setupColumns]
    dsimp only at hle
    omega

/-- If a row starts with a spanner, its first data cell is passed on together with this spanner. -/
theorem spanners_of_printedInColumns {tbl : Tbl} (h : tbl.Inv) {utf8 : Bool}
    {prev next : Option TblSpan} {sp : TblSpan} (hsp : sp ∈ tbl.spans) {row : TblRow}
    (hrow : tbl.rows[sp.layout]? = some row) (hprinted : PrintedInColumns tbl utf8 prev sp next) :
    spanners row.cells = 0 ∨ sp.dats = [] := by
  obtain ⟨row', hrow', hcells, hdats⟩ := h.spans sp hsp
  rw [hrow] at hrow'
  cases hrow'
  have hnumbered := h.numbered row (List.mem_of_getElem? hrow)
  obtain ⟨row', fill, print, hrow', hfill, -, -, -, -, -, hown, -⟩ := hprinted
  rw [hrow] at hrow'
  cases hrow'
  obtain ⟨more, hmore, -⟩ := fillColumns_first hcells hnumbered.1 hfill
  cases hsdats : sp.dats with
  | nil => exact .inr rfl
  | cons dat dats =>
    left
    -- The first data cell belongs to the column behind the leading spanners.
    rw [hsdats] at hdats hmore
    have hlayout : dat.layout = spanners row.cells := by
      have := hdats.1
      rwa [List.drop_zero, Nat.zero_add] at this
    exact hlayout.symm.trans (hown ⟨0, 1, 0, some dat⟩ (hmore ▸ List.mem_cons_self) dat rfl).symm

/-- A call that prints a data cell together with a layout cell that is not its own. -/
def Misplaced (cells : List TblCell) (call : CellUse) : Prop :=
  ∃ cp dat, cells[call.cp]? = some cp ∧ call.dp = some dat ∧ call.cp ≠ dat.layout ∧
    cellOutput cp.pos (some dat) ≠ .nothing

theorem cellOutput_span (dat : TblDat) :
    cellOutput .SPAN (some dat) = .nothing ↔ dat.pos = .NONE ∨ dat.pos = .DATA := by
  unfold cellOutput
  dsimp only
  cases dat.pos <;> decide

/-- **A row that starts with one spanner**: all data cells are printed in their own columns, but if
    the first one is a line, that line appears below the spanner, too. -/
theorem misplaced_iff {tbl : Tbl} (h : tbl.Inv) {sp : TblSpan} (hsp : sp ∈ tbl.spans)
    {row : TblRow} (hrow : tbl.rows[sp.layout]? = some row) (hspans : spanners row.cells = 1) :
    ∃ fill, fillColumns tbl.opts.cols row.cells sp.dats = .ok fill ∧
      ((∃ call ∈ fill.calls, Misplaced row.cells call) ↔
        ∃ dat, sp.dats.head? = some dat ∧ ¬ (dat.pos = .NONE ∨ dat.pos = .DATA)) := by
  obtain ⟨row', hrow', hcells, hdats⟩ := h.spans sp hsp
  rw [hrow] at hrow'
  cases hrow'
  have hnumbered := h.numbered row (List.mem_of_getElem? hrow)
  obtain ⟨fill, hfill, hfcur, hfinv⟩ := fillColumns_inv tbl.opts.cols hcells sp.dats
  obtain ⟨more, hmore, hlater⟩ := fillColumns_first hcells hnumbered.1 hfill
  obtain ⟨cp, hcp, hspan⟩ := first_spanner (hspans ▸ Nat.one_pos)
  refine ⟨fill, hfill, ?_⟩
  constructor
  · rintro ⟨call, hcall, cp', dat, hcp', hdat, hother, houtput⟩
    rw [hmore] at hcall
    cases hcall with
    | head =>
      rw [hcp] at hcp'
      cases hcp'
      rw [hspan, Ne, cellOutput_span] at houtput
      exact ⟨dat, hdat, houtput⟩
    | tail _ hcall =>
      -- In later columns, a data cell that is used is consumed.
      have hcall' : call ∈ fill.calls := hmore ▸ List.mem_cons_of_mem _ hcall
      have hic := hlater call hcall
      have hplace := hfinv.calls.cell call hcall'
      obtain hused | ⟨-, hzero⟩ := hfinv.calls.own call hcall' dat hdat
      · rw [hfcur] at hused
        obtain ⟨hmem, hcolumn⟩ := setupColumns_used hdats hnumbered.1 hused
        have hlt := hdats.span_lt hmem
        dsimp only at hmem hcolumn hlt hplace
        omega
      · omega
  · rintro ⟨dat, hdat, hline⟩
    refine ⟨⟨0, 1, 0, sp.dats.head?⟩, hmore ▸ List.mem_cons_self, cp, dat, hcp, hdat, ?_, ?_⟩
    · have hchain := hdats
      obtain ⟨dats, hcons⟩ := List.head?_eq_some_iff.mp hdat
      rw [hcons] at hchain
      have hlayout := hchain.1
      rw [List.drop_zero] at hlayout
      dsimp only
      omega
    · rw [hspan, Ne, cellOutput_span]
      exact hline

/-- **Every cell in its own column**: for every table, every data row, and every kind of output, this
    is the case if and only if the row contains no data or does not start with a spanner. -/
theorem printedInColumns_iff {tbl : Tbl} (h : tbl.Reachable) {later earlier : List TblSpan}
    {sp : TblSpan} (hspans : tbl.spans = later ++ sp :: earlier) (_hpos : sp.pos = .DATA)
    (utf8 : Bool) :
    PrintedInColumns tbl utf8 earlier.head? sp later.getLast? ↔
      sp.dats = [] ∨ ∀ row, tbl.rows[sp.layout]? = some row → spanners row.cells = 0 := by
  have hinv := h.inv
  have hsp : sp ∈ tbl.spans := by
    rw [hspans]
    exact List.mem_append_right _ List.mem_cons_self
  obtain ⟨row, hrow, -⟩ := hinv.spans sp hsp
  constructor
  · intro hprinted
    obtain hle | hnil := spanners_of_printedInColumns hinv hsp hrow hprinted
    · right
      intro row' hrow'
      rw [hrow] at hrow'
      cases hrow'
      exact hle
    · exact .inl hnil
  · intro hcond
    apply printedInColumns_of_spanners hinv utf8 hsp _ _ hrow
    · obtain hnil | hle := hcond
      · exact .inr hnil
      · exact .inl (hle row hrow)
    · intro pdp hpdp
      rw [hspans]
      exact List.mem_append_right _ (List.mem_cons_of_mem _ (List.mem_of_mem_head? hpdp))
    · intro ndp hndp
      rw [hspans]
      exact List.mem_append_left _ (List.mem_of_getLast? hndp)

/-! ## §8 Two tables -/

/-- A table with a layout row that contains spanners. -/
def innerSpanLines : List String := ["tab(:);", "l s r s", "l l l l.", "one:two", "a:b:c:d"]

/-- The table that these lines build. -/
def innerSpanTbl : Tbl := (readLines innerSpanLines tblAlloc).toOption.getD tblAlloc

theorem readLines_innerSpanLines : readLines innerSpanLines tblAlloc = .ok innerSpanTbl := by
  decide +kernel

/-- A data cell with some text. -/
def textDat (layout hspans : Nat) (string : String) : TblDat :=
  { layout := layout, hspans := hspans, string := some string.toList, pos := .DATA }

/-- The data rows of the table. -/
def innerSpanRows : TblSpan × TblSpan :=
  ({ layout := 0, dats := [textDat 0 1 "one", textDat 2 1 "two"] },
    { layout := 1, dats := [textDat 0 0 "a", textDat 1 0 "b", textDat 2 0 "c", textDat 3 0 "d"] })

theorem printedInColumns_iff_innerSpan :
    innerSpanRows.1.dats ≠ [] ∧
      PrintedInColumns innerSpanTbl true none innerSpanRows.1 (some innerSpanRows.2) := by
  have hspans : innerSpanTbl.spans = [innerSpanRows.2] ++ innerSpanRows.1 :: [] := by
    decide +kernel
  refine ⟨by decide +kernel, ?_⟩
  apply (printedInColumns_iff (.lines .alloc readLines_innerSpanLines) hspans rfl true).mpr
  right
  intro row hrow
  have hrows : innerSpanTbl.rows[0]?.all (fun row => decide (spanners row.cells = 0)) = true := by
    decide +kernel
  have hrow0 : innerSpanTbl.rows[0]? = some row := hrow
  rw [hrow0] at hrows
  exact of_decide_eq_true hrows

/-- A table with a layout row that starts with two spanners. -/
def twoSpansLines : List String := ["s s l.", "one"]

/-- The table that these lines build. -/
def twoSpansTbl : Tbl := (readLines twoSpansLines tblAlloc).toOption.getD tblAlloc

theorem readLines_twoSpansLines : readLines twoSpansLines tblAlloc = .ok twoSpansTbl := by
  decide +kernel

/-- A line below a spanner. -/
example : (readLines ["s l.", "_\tx"] tblAlloc).toOption.bind (fun tbl => tbl.spans.head?.map fun sp =>
    sp.dats.map fun dat => (dat.layout, cellOutput .SPAN (some dat))) = some [(1, .line)] := by
  decide +kernel

/-- The only data row of the table: its data cell belongs to the third layout cell, but is consumed
    together with the second one, which is a spanner, so that it is not printed at all. -/
def twoSpansRow : TblSpan := { layout := 0, dats := [textDat 2 0 "one"] }

theorem printedInColumns_fails :
    twoSpansTbl.Reachable ∧ twoSpansTbl.spans = [] ++ twoSpansRow :: [] ∧
      twoSpansRow.pos = .DATA ∧
      (setupColumns 3 (twoSpansTbl.rows.flatMap fun row => row.cells) twoSpansRow.dats).used =
        [⟨1, 2, textDat 2 0 "one"⟩] ∧
      ¬ PrintedInColumns twoSpansTbl true none twoSpansRow none := by
  have hreach : twoSpansTbl.Reachable := .lines .alloc readLines_twoSpansLines
  have hspans : twoSpansTbl.spans = [] ++ twoSpansRow :: [] := by decide +kernel
  refine ⟨hreach, hspans, rfl, by decide +kernel, ?_⟩
  intro hprinted
  have hsp : twoSpansRow ∈ twoSpansTbl.spans := by
    rw [hspans]
    exact List.mem_cons_self
  obtain ⟨row, hrow, -⟩ := hreach.inv.spans twoSpansRow hsp
  have hrows : twoSpansTbl.rows[0]?.all (fun row => decide (spanners row.cells = 2)) = true := by
    decide +kernel
  have hrow0 : twoSpansTbl.rows[0]? = some row := hrow
  rw [hrow0] at hrows
  have htwo : spanners row.cells = 2 := of_decide_eq_true hrows
  obtain hle | hnil := spanners_of_printedInColumns hreach.inv hsp hrow hprinted
  · omega
  · cases hnil

end Mandoc
