import Mandoc.Tbl.Invariant

/-!
# The columns of a table

The functions `tblcalc()`, `term_tbl()` and `print_tbl()` keep the widths of the columns in arrays
with `opts.cols` elements.  This file collects the indices which they use, and derives from the
invariant of the table that all of them are in range.
-/

namespace Mandoc

/-! ## §1 Used indices -/

/-- What `tblcalc` keeps track of, apart from widths. -/
structure Calc where
  /-- The number of the last column plus one: `maxcol + 1`. -/
  ncol : Nat := 0
  /-- The groups of columns joined by spans: `startcol` and `endcol`. -/
  groups : List (Nat × Nat) := []
  /-- The indices into the array `tbl->cols`. -/
  used : List Nat := []
deriving DecidableEq, Repr

/-- One data cell in the first loop of `tblcalc`. -/
def calcDat (cells : List TblCell) (st : Calc) (dat : TblDat) : Res Calc :=
  match cells[dat.layout]? with
  | none => .error .null
  | some cp =>
    let icol := cp.col
    let group := (icol, icol + dat.hspans)
    .ok {
      ncol := max st.ncol (icol + dat.hspans + 1)
      -- Cells whose width is ignored and cells without spans do not belong to any group.
      groups := if cp.flags &&& TBL_CELL_WIGN ≠ 0 ∨ dat.hspans = 0 ∨ group ∈ st.groups then
        st.groups else st.groups ++ [group]
      used := st.used ++ List.range' st.ncol (icol + dat.hspans + 1 - st.ncol) ++ [icol] }

/-- The loop of `tblcalc` over the data cells of a data row. -/
def calcDats (cells : List TblCell) : List TblDat → Calc → Res Calc
  | [], st => return st
  | dat :: dats, st => do calcDats cells dats (← calcDat cells st dat)

/-- The loop of `tblcalc` over the data rows. -/
def calcSpans (rows : List TblRow) : List TblSpan → Calc → Res Calc
  | [], st => return st
  | sp :: sps, st =>
    if sp.pos ≠ .DATA then calcSpans rows sps st
    else
      match rows[sp.layout]? with
      | none => .error .null
      | some row => do calcSpans rows sps (← calcDats row.cells sp.dats st)

/-- The columns of a group. -/
def groupColumns (group : Nat × Nat) : List Nat :=
  List.range' group.1 (group.2 + 1 - group.1)

/-- `tblcalc`, for the data rows from `sp_first` on.  The other loops run over all columns, or over
    the columns of a group. -/
def tblcalc (tbl : Tbl) (sps : List TblSpan) : Res Calc := do
  let st ← calcSpans tbl.rows sps {}
  let ncol := max st.ncol tbl.opts.cols
  return { st with
    ncol := ncol
    used := st.used ++ List.range ncol ++ st.groups.flatMap groupColumns }

/-- The columns that `tbl_literal` adds up: this one and those that it spans. -/
def literalColumns : Nat → Nat → List Nat
  | _, 0 => []
  | ic, hspans + 1 => ic :: (ic + 1) :: literalColumns (ic + 1) hspans

/-- The columns `dp->layout->col` of the data cells, with the columns they span. -/
def datColumns (cells : List TblCell) : List TblDat → Res (List Nat)
  | [] => return []
  | dat :: dats =>
    match cells[dat.layout]? with
    | none => .error .null
    | some cp => do return cp.col :: literalColumns cp.col dat.hspans ++ (← datColumns cells dats)

/-- The next column in the loop of `tbl_hrule`; `col` is the previous one. -/
def hruleColumn (cells : List TblCell) (col : Nat) : Nat :=
  match cells with
  | [] => col + 1
  | cp :: _ => cp.col

/-- The loop of `tbl_hrule` over the columns. -/
def hruleLoop (cols : Nat) : Nat → List TblCell → Nat → Res (List Nat)
  | 0, _, _ => .error .fuel
  | n + 1, cells, col => do
    let col := hruleColumn cells col
    if col + 1 = cols then return [col]
    else return col :: (← hruleLoop cols n cells.tail col)

/-- The indices which `term_tbl` uses for a data row: the sum of all widths, the three loops over the
    columns, the data cells, and the horizontal lines above or below. -/
def termTblColumns (tbl : Tbl) (sp : TblSpan) : Res (List Nat) :=
  match tbl.rows[sp.layout]? with
  | none => .error .null
  | some row => do
    let total := List.range (tbl.opts.cols - 1) ++
      if tbl.opts.cols = 0 then [] else [tbl.opts.cols - 1]
    let dats ← datColumns row.cells sp.dats
    let hrule ← hruleLoop tbl.opts.cols tbl.opts.cols row.cells 0
    return total ++ List.range tbl.opts.cols ++ dats ++ hrule

/-- The columns which `print_tbl` uses for the data cells of a data row; it also looks at the layout
    cell of the last column that is spanned. -/
def printTblColumns (cells : List TblCell) : List TblDat → Res (List Nat)
  | [] => return []
  | dat :: dats =>
    match cells[dat.layout]?, cells[dat.layout + dat.hspans]? with
    | some cp, some _ => do return cp.col :: (← printTblColumns cells dats)
    | _, _ => .error .null

/-! ## §2 Cells in range -/

/-- Every data cell has a layout cell, whose column and the columns that are spanned are in range. -/
def DatsInside (cols : Nat) (cells : List TblCell) (dats : List TblDat) : Prop :=
  ∀ dat ∈ dats, ∃ cp, cells[dat.layout]? = some cp ∧ cp.col = dat.layout ∧
    dat.layout + dat.hspans < cells.length ∧ cp.col + dat.hspans < cols

/-- The invariant puts all data cells inside the table. -/
theorem Tbl.Inv.datsInside {tbl : Tbl} (h : tbl.Inv) {sp : TblSpan} {row : TblRow}
    (hrow : tbl.rows[sp.layout]? = some row) (hdats : DatChain row.cells 0 sp.dats) :
    DatsInside tbl.opts.cols row.cells sp.dats := by
  intro dat hdat
  have hnumbered := h.numbered row (List.mem_of_getElem? hrow)
  have hspan := hdats.span_lt hdat
  have hlt : dat.layout < row.cells.length := by omega
  have hcell := List.getElem?_eq_getElem hlt
  have hcol := hnumbered.2 _ _ hcell
  have hle := hnumbered.1
  exact ⟨row.cells[dat.layout], hcell, hcol, hspan, by omega⟩

theorem DatsInside.tail {cols : Nat} {cells : List TblCell} {dat : TblDat} {dats : List TblDat}
    (h : DatsInside cols cells (dat :: dats)) : DatsInside cols cells dats :=
  fun dat' hdat' => h dat' (List.mem_cons_of_mem _ hdat')

/-! ## §3 Indices in range -/

/-- What holds during the first loop of `tblcalc`. -/
structure Calc.InRange (st : Calc) (cols : Nat) : Prop where
  ncol : st.ncol ≤ cols
  groups : ∀ group ∈ st.groups, group.2 < st.ncol
  used : ∀ i ∈ st.used, i < cols

theorem calcDat_inRange {cols : Nat} {cells : List TblCell} {dat : TblDat} {dats : List TblDat}
    (h : DatsInside cols cells (dat :: dats)) {st : Calc} (hcalc : st.InRange cols) :
    ∃ st', calcDat cells st dat = .ok st' ∧ st'.InRange cols := by
  obtain ⟨cp, hcp, -, -, hlt⟩ := h dat List.mem_cons_self
  rw [calcDat, hcp]
  refine ⟨_, rfl, ?_, ?_, ?_⟩
  · exact max_le hcalc.ncol hlt
  · intro group hgroup
    have hold : ∀ group ∈ st.groups, group.2 < max st.ncol (cp.col + dat.hspans + 1) :=
      fun group hgroup => lt_max_of_lt_left (hcalc.groups group hgroup)
    dsimp only at hgroup
    split at hgroup
    · exact hold group hgroup
    · cases List.mem_append.mp hgroup with
      | inl hmem => exact hold group hmem
      | inr hmem =>
        cases List.mem_singleton.mp hmem
        exact lt_max_of_lt_right (Nat.lt_succ_self _)
  · intro i hi
    simp only [List.mem_append, List.mem_range'_1, List.mem_singleton] at hi
    rcases hi with (hi | hi) | hi
    · exact hcalc.used i hi
    · omega
    · omega

theorem calcDats_inRange {cols : Nat} {cells : List TblCell} {dats : List TblDat}
    (h : DatsInside cols cells dats) {st : Calc} (hcalc : st.InRange cols) :
    ∃ st', calcDats cells dats st = .ok st' ∧ st'.InRange cols := by
  induction dats generalizing st with
  | nil => exact ⟨st, rfl, hcalc⟩
  | cons dat dats ih =>
    obtain ⟨st', heq, hcalc'⟩ := calcDat_inRange h hcalc
    obtain ⟨st'', heq', hcalc''⟩ := ih h.tail hcalc'
    refine ⟨st'', ?_, hcalc''⟩
    rw [calcDats, heq]
    exact heq'

theorem calcSpans_inRange {tbl : Tbl} (h : tbl.Inv) {sps : List TblSpan}
    (hsps : ∀ sp ∈ sps, sp ∈ tbl.spans) {st : Calc} (hcalc : st.InRange tbl.opts.cols) :
    ∃ st', calcSpans tbl.rows sps st = .ok st' ∧ st'.InRange tbl.opts.cols := by
  induction sps generalizing st with
  | nil => exact ⟨st, rfl, hcalc⟩
  | cons sp sps ih =>
    have htail : ∀ sp ∈ sps, sp ∈ tbl.spans := fun sp' hsp' => hsps sp' (List.mem_cons_of_mem _ hsp')
    rw [calcSpans]
    split
    · exact ih htail hcalc
    · obtain ⟨row, hrow, -, hdats⟩ := h.spans sp (hsps sp List.mem_cons_self)
      obtain ⟨st', heq, hcalc'⟩ := calcDats_inRange (h.datsInside hrow hdats) hcalc
      obtain ⟨st'', heq', hcalc''⟩ := ih htail hcalc'
      refine ⟨st'', ?_, hcalc''⟩
      rw [hrow]
      simp only [heq]
      exact heq'

/-- All indices which `tblcalc` uses are in range, and the columns of all groups are columns of the
    array `colwidth`, which has `maxcol + 1` elements. -/
theorem tblcalc_inRange {tbl : Tbl} (h : tbl.Inv) {sps : List TblSpan}
    (hsps : ∀ sp ∈ sps, sp ∈ tbl.spans) :
    ∃ st, tblcalc tbl sps = .ok st ∧ (∀ i ∈ st.used, i < tbl.opts.cols) ∧
      ∀ group ∈ st.groups, ∀ i ∈ groupColumns group, i < st.ncol := by
  have hstart : Calc.InRange {} tbl.opts.cols :=
    ⟨Nat.zero_le _, fun group hgroup => (by cases hgroup), fun i hi => (by cases hi)⟩
  obtain ⟨st, heq, hcalc⟩ := calcSpans_inRange h hsps hstart
  have hgroup : ∀ group ∈ st.groups, ∀ i ∈ groupColumns group, i < st.ncol := by
    intro group hgroup i hi
    have hlt := hcalc.groups group hgroup
    rw [groupColumns, List.mem_range'_1] at hi
    omega
  have hncol := hcalc.ncol
  rw [tblcalc, heq]
  refine ⟨_, rfl, ?_, ?_⟩
  · intro i hi
    simp only [List.mem_append, List.mem_range, List.mem_flatMap] at hi
    rcases hi with (hi | hi) | ⟨group, hmem, hi⟩
    · exact hcalc.used i hi
    · omega
    · have := hgroup group hmem i hi
      omega
  · intro group hmem i hi
    exact lt_max_of_lt_left (hgroup group hmem i hi)

theorem literalColumns_le {ic hspans i : Nat} (hi : i ∈ literalColumns ic hspans) :
    i ≤ ic + hspans := by
  induction hspans generalizing ic with
  | zero => cases hi
  | succ hspans ih =>
    simp only [literalColumns, List.mem_cons] at hi
    rcases hi with hi | hi | hi
    · omega
    · omega
    · have := ih hi
      omega

theorem datColumns_inRange {cols : Nat} {cells : List TblCell} {dats : List TblDat}
    (h : DatsInside cols cells dats) :
    ∃ idx, datColumns cells dats = .ok idx ∧ ∀ i ∈ idx, i < cols := by
  induction dats with
  | nil => exact ⟨[], rfl, fun i hi => (by cases hi)⟩
  | cons dat dats ih =>
    obtain ⟨cp, hcp, -, -, hlt⟩ := h dat List.mem_cons_self
    obtain ⟨idx, heq, hidx⟩ := ih h.tail
    rw [datColumns, hcp]
    simp only [heq]
    refine ⟨_, rfl, ?_⟩
    intro i hi
    simp only [List.mem_append, List.mem_cons] at hi
    rcases hi with (hi | hi) | hi
    · omega
    · have := literalColumns_le hi
      omega
    · exact hidx i hi

theorem printTblColumns_inRange {cols : Nat} {cells : List TblCell} {dats : List TblDat}
    (h : DatsInside cols cells dats) :
    ∃ idx, printTblColumns cells dats = .ok idx ∧ ∀ i ∈ idx, i < cols := by
  induction dats with
  | nil => exact ⟨[], rfl, fun i hi => (by cases hi)⟩
  | cons dat dats ih =>
    obtain ⟨cp, hcp, -, hspan, hlt⟩ := h dat List.mem_cons_self
    obtain ⟨idx, heq, hidx⟩ := ih h.tail
    rw [printTblColumns, hcp, List.getElem?_eq_getElem hspan]
    simp only [heq]
    refine ⟨_, rfl, ?_⟩
    intro i hi
    cases hi with
    | head => omega
    | tail _ hi => exact hidx i hi

/-- The loop of `tbl_hrule` ends at the last column: `k` columns have been printed before. -/
theorem hruleLoop_inRange {cols : Nat} {row : TblRow} (h : row.Numbered cols) (n k col : Nat)
    (hcol : row.cells.length ≤ k → col + 1 = k) (hk : k < cols) (hn : cols ≤ k + n) :
    ∃ idx, hruleLoop cols n (row.cells.drop k) col = .ok idx ∧ ∀ i ∈ idx, i < cols := by
  induction n generalizing k col with
  | zero => omega
  | succ n ih =>
    -- Inside the layout row and behind its end, the next column is `k`.
    have hnext : hruleColumn (row.cells.drop k) col = k := by
      unfold hruleColumn
      split
      · next hnil => exact hcol (List.drop_eq_nil_iff.mp hnil)
      · next cp rest hcons =>
        apply h.2 k cp
        have hdrop : (row.cells.drop k)[0]? = row.cells[k + 0]? := List.getElem?_drop
        rw [hcons] at hdrop
        exact hdrop.symm
    rw [hruleLoop]
    simp only [hnext]
    split
    · refine ⟨_, rfl, ?_⟩
      intro i hi
      cases List.mem_singleton.mp hi
      exact hk
    · next hlast =>
      obtain ⟨idx, heq, hidx⟩ := ih (k + 1) k (fun _ => rfl) (by omega) (by omega)
      rw [List.tail_drop, heq]
      refine ⟨_, rfl, ?_⟩
      exact List.forall_mem_cons.mpr ⟨hk, hidx⟩

/-- All indices which `term_tbl` uses for a data row are in range. -/
theorem termTblColumns_inRange {tbl : Tbl} (h : tbl.Inv) {sp : TblSpan} (hsp : sp ∈ tbl.spans) :
    ∃ idx, termTblColumns tbl sp = .ok idx ∧ ∀ i ∈ idx, i < tbl.opts.cols := by
  obtain ⟨row, hrow, hcells, hdats⟩ := h.spans sp hsp
  have hnumbered := h.numbered row (List.mem_of_getElem? hrow)
  have hpos := List.length_pos_iff.mpr hcells
  have hle := hnumbered.1
  obtain ⟨dats, heq, hidx⟩ := datColumns_inRange (h.datsInside hrow hdats)
  obtain ⟨hrule, heq', hidx'⟩ := hruleLoop_inRange hnumbered tbl.opts.cols 0 0
    (fun hnil => absurd hnil (by omega)) (by omega) (by omega)
  rw [termTblColumns, hrow]
  simp only [heq]
  rw [List.drop_zero] at heq'
  refine ⟨_, by rw [heq']; rfl, ?_⟩
  intro i hi
  simp only [List.mem_append, List.mem_range] at hi
  rcases hi with ((hi | hi) | hi) | hi
  · rcases hi with hi | hi
    · omega
    · split at hi
      · cases hi
      · cases List.mem_singleton.mp hi
        omega
  · exact hi
  · exact hidx i hi
  · exact hidx' i hi

/-! ## §4 Indexing -/

/-- What the array accesses of the formatters rely on, for one data row: the layout row has at least
    one cell, its cells are numbered in list order, and the data cells refer to layout cells of
    the row from the left to the right, all of them inside the table. -/
def TblSpan.Indexed (tbl : Tbl) (sp : TblSpan) : Prop :=
  ∃ row, tbl.rows[sp.layout]? = some row ∧ row.cells ≠ [] ∧
    (∀ (i : Nat) (cp : TblCell), row.cells[i]? = some cp → cp.col = i ∧ cp.col < tbl.opts.cols) ∧
    (∀ dat ∈ sp.dats, ∃ cp, row.cells[dat.layout]? = some cp ∧
      cp.col + dat.hspans < tbl.opts.cols) ∧
    sp.dats.Pairwise fun dat dat' => ∀ cp cp', row.cells[dat.layout]? = some cp →
      row.cells[dat'.layout]? = some cp' → cp.col < cp'.col

/-- The invariant numbers the layout cells, and orders the data cells. -/
theorem Tbl.Inv.indexed {tbl : Tbl} (h : tbl.Inv) {sp : TblSpan} (hsp : sp ∈ tbl.spans) :
    sp.Indexed tbl := by
  obtain ⟨row, hrow, hcells, hdats⟩ := h.spans sp hsp
  have hnumbered := h.numbered row (List.mem_of_getElem? hrow)
  refine ⟨row, hrow, hcells, ?_, ?_, ?_⟩
  · intro i cp hcp
    have hcol := hnumbered.2 i cp hcp
    obtain ⟨hlt, -⟩ := List.getElem?_eq_some_iff.mp hcp
    have hle := hnumbered.1
    exact ⟨hcol, by omega⟩
  · intro dat hdat
    obtain ⟨cp, hcp, -, -, hlt⟩ := h.datsInside hrow hdats dat hdat
    exact ⟨cp, hcp, hlt⟩
  · apply hdats.pairwise.imp
    intro dat dat' hlt cp cp' hcp hcp'
    rw [hnumbered.2 _ _ hcp, hnumbered.2 _ _ hcp']
    exact hlt

/-- Every data row of every table is indexed properly, so that all the indices into the arrays of
    columns are in range: in `tblcalc`, starting at any data row; and for each data row in
    `term_tbl` and in `print_tbl`. -/
theorem tbl_indexing {tbl : Tbl} (h : tbl.Reachable) :
    (∀ sp ∈ tbl.spans, sp.Indexed tbl) ∧
      (∀ sps, sps <:+ tbl.spans.reverse → ∃ st, tblcalc tbl sps = .ok st ∧
        (∀ i ∈ st.used, i < tbl.opts.cols) ∧
        ∀ group ∈ st.groups, ∀ i ∈ groupColumns group, i < st.ncol) ∧
      ∀ sp ∈ tbl.spans,
        (∃ idx, termTblColumns tbl sp = .ok idx ∧ ∀ i ∈ idx, i < tbl.opts.cols) ∧
        ∃ row idx, tbl.rows[sp.layout]? = some row ∧
          printTblColumns row.cells sp.dats = .ok idx ∧ ∀ i ∈ idx, i < tbl.opts.cols := by
  have hinv := h.inv
  refine ⟨fun sp hsp => hinv.indexed hsp, ?_, ?_⟩
  · intro sps hsuffix
    apply tblcalc_inRange hinv
    intro sp hsp
    exact List.mem_reverse.mp (hsuffix.subset hsp)
  · intro sp hsp
    refine ⟨termTblColumns_inRange hinv hsp, ?_⟩
    obtain ⟨row, hrow, -, hdats⟩ := hinv.spans sp hsp
    obtain ⟨idx, heq, hidx⟩ := printTblColumns_inRange (hinv.datsInside hrow hdats)
    exact ⟨row, idx, hrow, heq, hidx⟩

/-! ## §5 A table -/

/-- Read the lines of a table. -/
def readLines : List String → Tbl → Res Tbl
  | [], tbl => return tbl
  | line :: lines, tbl => do readLines lines (← tblRead line.toList plainEnv tbl 0)

theorem Tbl.Reachable.lines {lines : List String} {tbl tbl' : Tbl} (h : tbl.Reachable)
    (hlines : readLines lines tbl = .ok tbl') : tbl'.Reachable := by
  induction lines generalizing tbl with
  | nil =>
    cases hlines
    exact h
  | cons line lines ih =>
    obtain ⟨tbl1, hread, hrest⟩ := Res.bind_eq_ok.mp hlines
    exact ih (h.read plainEnv line.toList 0 hread) hrest

/-- A table with a spanned cell, and with a layout row that is extended by a data line. -/
def spanLines : List String := ["tab(:);", "l s r", "l.", "one:two", "three:four:five"]

/-- The table that these lines build. -/
def spanTbl : Tbl := (readLines spanLines tblAlloc).toOption.getD tblAlloc

theorem readLines_spanLines : readLines spanLines tblAlloc = .ok spanTbl := by
  decide +kernel

theorem tbl_indexing_spanTbl :
    spanTbl.opts.cols = 3 ∧ spanTbl.spans.length = 2 ∧ ∀ sp ∈ spanTbl.spans, sp.Indexed spanTbl :=
  ⟨by decide +kernel, by decide +kernel,
    (tbl_indexing (Tbl.Reachable.lines .alloc readLines_spanLines)).1⟩

end Mandoc
