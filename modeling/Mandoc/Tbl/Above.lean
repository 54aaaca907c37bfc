import Mandoc.Tbl.Columns
import Mandoc.Tbl.Fields

/-!
# Vertical spans

A data cell with the layout `^` or with the text `\^` extends the cell above it.  The function
`getdata` of `tbl_data.c` looks for that cell in the data rows above, where it inspects the first
cell that is not to the left of the column.

- `extendCovering` is what the search is for: it finds the cell that covers the column in the
  nearest data row where that cell does not itself extend another one.
- `SearchAgrees` says when the search finds that cell.
-/

namespace Mandoc

/-! ## §1 The purpose of the search -/

/-- The key of the layout cell that a data cell refers to. -/
def layoutPos (rows : List TblRow) (sp : TblSpan) (dat : TblDat) : Option CellPos :=
  (rows[sp.layout]?).bind fun row => (row.cells[dat.layout]?).map (·.pos)

/-- Does the data cell cover the column? -/
def TblDat.covers (dat : TblDat) (col : Nat) : Bool :=
  decide (dat.layout ≤ col) && decide (col ≤ dat.layout + dat.hspans)

/-- Does the data cell extend the cell above it? -/
def extendsAbove (rows : List TblRow) (sp : TblSpan) (dat : TblDat) : Bool :=
  decide (layoutPos rows sp dat = some .DOWN) || decide (dat.string = some vertSpan)

/-- One more vertical span. -/
def TblDat.extended (dat : TblDat) : TblDat := { dat with vspans := dat.vspans + 1 }

/-- Extend the cell that covers the column. -/
def TblSpan.extendCol (sp : TblSpan) (col : Nat) : TblSpan :=
  { sp with dats := sp.dats.map fun dat => if dat.covers col then dat.extended else dat }

/-- In the nearest data row where the cell that covers the column does not extend another one,
    extend that cell. -/
def extendCovering (rows : List TblRow) (col : Nat) : List TblSpan → List TblSpan
  | [] => []
  | pdp :: prev =>
    if pdp.dats.any fun dat => dat.covers col && !extendsAbove rows pdp dat then
      pdp.extendCol col :: prev
    else pdp :: extendCovering rows col prev

/-- In this data row, there is no cell to be extended. -/
def NoneInRow (rows : List TblRow) (col : Nat) (sp : TblSpan) : Prop :=
  ∀ dat ∈ sp.dats, dat.covers col = true → extendsAbove rows sp dat = true

/-- **When the search is right.**  A data row without any cell at or behind the column ends the
    search, so no row from there on may contain a cell to be extended.  If the first cell at or
    behind the column extends another one, the search goes on, so this row must not contain a cell
    to be extended, either.  Otherwise, that cell is extended, so it must be in the column and must
    have a text. -/
def SearchAgrees (rows : List TblRow) (col : Nat) : List TblSpan → Prop
  | [] => True
  | pdp :: prev =>
    match pdp.dats.find? fun dat => decide (col ≤ dat.layout) with
    | none => NoneInRow rows col pdp ∧ ∀ sp ∈ prev, NoneInRow rows col sp
    | some pdat =>
      if extendsAbove rows pdp pdat then NoneInRow rows col pdp ∧ SearchAgrees rows col prev
      else pdat.layout = col ∧ pdat.string ≠ none

/-! ## §2 Cells of a row -/

theorem TblDat.covers_iff (dat : TblDat) (col : Nat) :
    dat.covers col = true ↔ dat.layout ≤ col ∧ col ≤ dat.layout + dat.hspans := by
  rw [TblDat.covers, Bool.and_eq_true, decide_eq_true_eq, decide_eq_true_eq]

namespace DatChain

variable {cells : List TblCell} {place : Nat} {dats : List TblDat} {dat dat' : TblDat}

/-- A data cell ends before the next one begins. -/
theorem span_before (h : DatChain cells place dats) :
    dats.Pairwise fun dat dat' => dat.layout + dat.hspans < dat'.layout := by
  induction dats generalizing place with
  | nil => exact .nil
  | cons dat dats ih =>
    obtain ⟨-, hlt, hspans, hrest⟩ := h
    refine .cons (fun dat' hdat' => ?_) (ih hrest)
    -- The first data cell behind this one is behind the spanners.
    have hfirst : ∀ {l : List TblDat}, DatChain cells (dat.layout + 1) l → ∀ d ∈ l,
        dat.layout + 1 + spanners (cells.drop (dat.layout + 1)) ≤ d.layout := by
      intro l hl d hd
      cases l with
      | nil => cases hd
      | cons d0 l =>
        obtain ⟨h0, -, -, hl⟩ := hl
        cases hd with
        | head => exact h0.ge
        | tail _ hd =>
          have := hl.place_le hd
          omega
    have := hfirst hrest dat' hdat'
    omega

end DatChain

/-! ## §3 The search -/

section

variable {rows : List TblRow} {cols col : Nat} {pdp : TblSpan} {prev : List TblSpan}

/-- The layout cell of a data cell has the place as its column number. -/
theorem TblSpan.Fits.layoutCell (hrows : ∀ row ∈ rows, row.Numbered cols) {sp : TblSpan}
    (h : sp.Fits rows) : ∃ row, rows[sp.layout]? = some row ∧ ∀ dat ∈ sp.dats,
      ∃ cp, row.cells[dat.layout]? = some cp ∧ cp.col = dat.layout ∧
        layoutPos rows sp dat = some cp.pos := by
  obtain ⟨row, hrow, -, hdats⟩ := h
  refine ⟨row, hrow, fun dat hdat => ?_⟩
  have hlt := hdats.span_lt hdat
  have hcp := List.getElem?_eq_getElem (Nat.lt_of_le_of_lt (Nat.le_add_right _ _) hlt)
  refine ⟨_, hcp, (hrows row (List.mem_of_getElem? hrow)).2 _ _ hcp, ?_⟩
  rw [layoutPos, hrow, Option.bind_some, hcp, Option.map_some]

/-- The search ends at a data row that has no cell at or behind the column. -/
theorem extendAbove_none (hrows : ∀ row ∈ rows, row.Numbered cols) (hpdp : pdp.Fits rows)
    (h : ∀ dat ∈ pdp.dats, dat.layout < col) :
    extendAbove rows col (pdp :: prev) = .ok (pdp :: prev) := by
  obtain ⟨row, hrow, hcell⟩ := hpdp.layoutCell hrows
  have hall : pdp.dats.takeWhile (fun dat => !cellFrom row.cells col dat) = pdp.dats := by
    rw [List.takeWhile_eq_self_iff]
    intro dat hdat
    obtain ⟨cp, hcp, hcol, -⟩ := hcell dat hdat
    simp only [cellFrom, hcp, hcol, Bool.not_eq_true', decide_eq_false_iff_not, Nat.not_le]
    exact h dat hdat
  rw [extendAbove, hrow]
  simp only [hall, List.drop_length]
  rfl

/-- In other data rows, the search inspects the first cell at or behind the column. -/
theorem extendAbove_some (hrows : ∀ row ∈ rows, row.Numbered cols) (hpdp : pdp.Fits rows)
    {left right : List TblDat} {pdat : TblDat} (hdats : pdp.dats = left ++ pdat :: right)
    (hleft : ∀ dat ∈ left, dat.layout < col) (hpdat : col ≤ pdat.layout) :
    extendAbove rows col (pdp :: prev) =
      if extendsAbove rows pdp pdat then
        extendAbove rows col prev >>= fun prev => .ok (pdp :: prev)
      else if pdat.string = none then .error .null
      else .ok ({ pdp with dats := left ++ pdat.extended :: right } :: prev) := by
  obtain ⟨row, hrow, hcell⟩ := hpdp.layoutCell hrows
  have hmem : ∀ dat ∈ left, dat ∈ pdp.dats := fun dat hdat => by
    rw [hdats]
    exact List.mem_append_left _ hdat
  obtain ⟨cp, hcp, hcol, hpos⟩ := hcell pdat (by rw [hdats]; simp)
  -- The cells to the left of the column are passed over.
  have htake : pdp.dats.takeWhile (fun dat => !cellFrom row.cells col dat) = left := by
    rw [hdats, List.takeWhile_append_of_pos, List.takeWhile_cons_of_neg, List.append_nil]
    · simpa [cellFrom, hcp, hcol] using hpdat
    · intro dat hdat
      obtain ⟨cp', hcp', hcol', -⟩ := hcell dat (hmem dat hdat)
      simpa [cellFrom, hcp', hcol'] using hleft dat hdat
  have hdrop : pdp.dats.drop left.length = pdat :: right := by rw [hdats, List.drop_left]
  rw [extendAbove, hrow]
  simp only [htake, hdrop, hcp]
  rw [extendsAbove, hpos]
  -- A cell extends upwards by its layout or by its text.
  by_cases hdown : cp.pos = .DOWN
  · rw [if_pos hdown, hdown]
    rfl
  · rw [if_neg hdown]
    cases hstring : pdat.string with
    | none => simp [hdown]
    | some string =>
      by_cases hspan : string = vertSpan
      · simp only [hspan, if_true, decide_true, Bool.or_true]
        rfl
      · simp [hdown, hspan, TblDat.extended, hstring]

/-- Changing only one of the cells. -/
theorem extendCol_eq (hpdp : pdp.Fits rows) {left right : List TblDat} {pdat : TblDat}
    (hdats : pdp.dats = left ++ pdat :: right) (hc : pdat.covers col = true) :
    pdp.extendCol col = { pdp with dats := left ++ pdat.extended :: right } := by
  obtain ⟨row, -, -, hchain⟩ := hpdp
  have hpair := hchain.span_before
  rw [hdats, List.pairwise_append, List.pairwise_cons] at hpair
  obtain ⟨-, ⟨hright, -⟩, hleft⟩ := hpair
  rw [TblDat.covers_iff] at hc
  have hsame : ∀ l : List TblDat, (∀ dat ∈ l, dat.covers col ≠ true) →
      (l.map fun dat => if dat.covers col then dat.extended else dat) = l := by
    intro l hl
    calc l.map (fun dat => if dat.covers col then dat.extended else dat)
        = l.map id := List.map_congr_left fun dat hdat => if_neg (hl dat hdat)
      _ = l := List.map_id l
  have hleft' : ∀ dat ∈ left, dat.covers col ≠ true := by
    intro dat hdat hcov
    have := hleft dat hdat pdat List.mem_cons_self
    rw [TblDat.covers_iff] at hcov
    omega
  have hright' : ∀ dat ∈ right, dat.covers col ≠ true := by
    intro dat hdat hcov
    have := hright dat hdat
    rw [TblDat.covers_iff] at hcov
    omega
  have hpdat : pdat.covers col = true := (pdat.covers_iff col).mpr hc
  rw [TblSpan.extendCol, hdats, List.map_append, List.map_cons, hsame left hleft',
    hsame right hright', if_pos hpdat]

/-- In a data row without a cell to be extended, there is nothing to do. -/
theorem extendCovering_noneInRow (h : NoneInRow rows col pdp) :
    extendCovering rows col (pdp :: prev) = pdp :: extendCovering rows col prev := by
  rw [extendCovering, if_neg]
  rw [List.any_eq_true]
  rintro ⟨dat, hdat, hc⟩
  rw [Bool.and_eq_true, Bool.not_eq_true'] at hc
  rw [h dat hdat hc.1] at hc
  exact absurd hc.2 (by decide)

/-- In a data row with a cell to be extended, it is extended. -/
theorem extendCovering_some {pdat : TblDat} (hdat : pdat ∈ pdp.dats)
    (hc : pdat.covers col = true) (hext : extendsAbove rows pdp pdat ≠ true) :
    extendCovering rows col (pdp :: prev) = pdp.extendCol col :: prev := by
  rw [extendCovering, if_pos]
  rw [List.any_eq_true]
  refine ⟨pdat, hdat, ?_⟩
  rw [hc, Bool.eq_false_of_not_eq_true hext]
  rfl

/-- Extending a cell changes the data row. -/
theorem extendCol_ne {pdat : TblDat} (hdat : pdat ∈ pdp.dats) (hc : pdat.covers col = true) :
    pdp.extendCol col ≠ pdp := by
  intro heq
  have hdats : (pdp.extendCol col).dats = pdp.dats := by rw [heq]
  have hsum : ∀ l : List TblDat, (l.map fun dat =>
      if dat.covers col then dat.extended else dat) = l → ∀ dat ∈ l, dat.covers col ≠ true := by
    intro l
    induction l with
    | nil => simp
    | cons d l ih =>
      intro hmap dat hdat hcov
      rw [List.map_cons] at hmap
      obtain ⟨hd, hl⟩ := List.cons.inj hmap
      cases hdat with
      | head =>
        rw [if_pos hcov] at hd
        have := congrArg TblDat.vspans hd
        exact absurd this (by simp [TblDat.extended])
      | tail _ hdat => exact ih hl dat hdat hcov
  exact hsum _ hdats pdat hdat hc

/-- Nothing is changed exactly if there is no cell to be extended. -/
theorem extendCovering_eq_self_iff (prev : List TblSpan) :
    extendCovering rows col prev = prev ↔ ∀ sp ∈ prev, NoneInRow rows col sp := by
  induction prev with
  | nil => exact iff_of_true rfl fun sp hsp => absurd hsp List.not_mem_nil
  | cons pdp prev ih =>
    rw [List.forall_mem_cons]
    by_cases hnone : NoneInRow rows col pdp
    · rw [extendCovering_noneInRow hnone, List.cons_inj_right, ih]
      exact ⟨fun h => ⟨hnone, h⟩, fun h => h.2⟩
    · refine iff_of_false (fun heq => ?_) fun h => hnone h.1
      unfold NoneInRow at hnone
      push Not at hnone
      obtain ⟨pdat, hdat, hc, hext⟩ := hnone
      rw [extendCovering_some hdat hc hext] at heq
      exact extendCol_ne hdat hc (List.cons.inj heq).1

theorem cons_bind_eq_ok {x : Res (List TblSpan)} {sps : List TblSpan} :
    (x >>= fun prev => .ok (pdp :: prev)) = .ok (pdp :: sps) ↔ x = .ok sps := by
  cases x with
  | error e => simp
  | ok prev => simp

/-- A cell that does not cover the column is not the one to be extended. -/
theorem extendCovering_ne {left right : List TblDat} {pdat : TblDat} {sps : List TblSpan}
    (hdats : pdp.dats = left ++ pdat :: right) (hc : pdat.covers col ≠ true) :
    extendCovering rows col (pdp :: prev) ≠
      { pdp with dats := left ++ pdat.extended :: right } :: sps := by
  have hmap : ∃ g : TblDat → TblDat, g pdat = pdat ∧
      ((extendCovering rows col (pdp :: prev)).head?.map TblSpan.dats) = some (pdp.dats.map g) := by
    rw [extendCovering]
    split
    · exact ⟨fun dat => if dat.covers col then dat.extended else dat, if_neg hc, rfl⟩
    · exact ⟨id, rfl, by simp⟩
  obtain ⟨g, hg, hhead⟩ := hmap
  intro heq
  rw [heq, hdats, List.map_append, List.map_cons, hg] at hhead
  replace hhead := Option.some.inj hhead
  obtain ⟨-, htail⟩ := List.append_inj hhead (by rw [List.length_map])
  have := congrArg TblDat.vspans (List.cons.inj htail).1
  exact absurd this (by simp [TblDat.extended])

/-- **The search.**  By induction on the data rows above: the search does what it is for if and
    only if it is right in every row that it inspects. -/
theorem extendAbove_eq_iff (hrows : ∀ row ∈ rows, row.Numbered cols) (prev : List TblSpan)
    (hprev : ∀ sp ∈ prev, sp.Fits rows) :
    extendAbove rows col prev = .ok (extendCovering rows col prev) ↔
      SearchAgrees rows col prev := by
  -- The induction is on the rows above, beginning with the nearest one.
  induction prev with
  | nil => exact iff_of_true rfl trivial
  | cons pdp prev ih =>
    obtain ⟨hpdp, hprev'⟩ := List.forall_mem_cons.mp hprev
    rw [SearchAgrees]
    cases hfind : pdp.dats.find? fun dat => decide (col ≤ dat.layout) with
    | none =>
      -- All cells of this row are to the left, so the search fails here.
      have hlt : ∀ dat ∈ pdp.dats, dat.layout < col := by
        intro dat hdat
        have := List.find?_eq_none.mp hfind dat hdat
        simpa using this
      rw [extendAbove_none hrows hpdp hlt]
      have hself := @extendCovering_eq_self_iff rows col (pdp :: prev)
      rw [List.forall_mem_cons] at hself
      rw [← hself]
      exact ⟨fun h => (Except.ok.inj h).symm, fun h => congrArg Except.ok h.symm⟩
    | some pdat =>
      obtain ⟨hp, left, right, hdats, hleft⟩ := List.find?_eq_some_iff_append.mp hfind
      -- The search looks at the first cell that does not begin to the left of the column.
      have hpdat : col ≤ pdat.layout := of_decide_eq_true hp
      have hleft' : ∀ dat ∈ left, dat.layout < col := by
        intro dat hdat
        simpa using hleft dat hdat
      rw [extendAbove_some hrows hpdp hdats hleft' hpdat]
      dsimp only
      split
      · -- The cell extends another one, and the search goes on.
        by_cases hnone : NoneInRow rows col pdp
        · rw [extendCovering_noneInRow hnone, cons_bind_eq_ok, ih hprev']
          exact ⟨fun h => ⟨hnone, h⟩, fun h => h.2⟩
        · refine iff_of_false (fun heq => ?_) fun h => hnone h.1
          unfold NoneInRow at hnone
          push Not at hnone
          obtain ⟨dat, hdat, hc, hext⟩ := hnone
          rw [extendCovering_some hdat hc hext] at heq
          obtain ⟨sps, -, hsps⟩ := Res.bind_eq_ok.mp heq
          exact extendCol_ne hdat hc (List.cons.inj (Except.ok.inj hsps)).1.symm
      · next hext =>
        have hmem : pdat ∈ pdp.dats := by
          rw [hdats]
          exact List.mem_append_right _ List.mem_cons_self
        -- The search ends at this cell, which must have a text and begin in the column.
        by_cases hstring : pdat.string = none
        · rw [if_pos hstring]
          exact iff_of_false (by simp) fun h => h.2 hstring
        · rw [if_neg hstring]
          constructor
          · intro heq
            refine ⟨?_, hstring⟩
            by_contra hne
            have hc : pdat.covers col ≠ true := by
              rw [Ne, TblDat.covers_iff]
              omega
            exact extendCovering_ne hdats hc (Except.ok.inj heq).symm
          · rintro ⟨hcol, -⟩
            have hc : pdat.covers col = true := by
              rw [TblDat.covers_iff]
              omega
            rw [extendCovering_some hmem hc hext, extendCol_eq hpdp hdats hc]

/-- Only the keys of the layout cells matter. -/
theorem extendAbove_congr {rows' : List TblRow} {cols' : Nat}
    (hrows : ∀ row ∈ rows, row.Numbered cols) (hrows' : ∀ row ∈ rows', row.Numbered cols')
    {prev : List TblSpan} (hprev : ∀ sp ∈ prev, sp.Fits rows) (hprev' : ∀ sp ∈ prev, sp.Fits rows')
    (hpos : ∀ sp ∈ prev, ∀ dat ∈ sp.dats, layoutPos rows' sp dat = layoutPos rows sp dat) :
    extendAbove rows' col prev = extendAbove rows col prev := by
  induction prev with
  | nil => rfl
  | cons pdp prev ih =>
    rw [List.forall_mem_cons] at hprev hprev' hpos
    cases hfind : pdp.dats.find? fun dat => decide (col ≤ dat.layout) with
    | none =>
      have hlt : ∀ dat ∈ pdp.dats, dat.layout < col := by
        intro dat hdat
        simpa using List.find?_eq_none.mp hfind dat hdat
      rw [extendAbove_none hrows hprev.1 hlt, extendAbove_none hrows' hprev'.1 hlt]
    | some pdat =>
      obtain ⟨hp, left, right, hdats, hleft⟩ := List.find?_eq_some_iff_append.mp hfind
      have hpdat : col ≤ pdat.layout := of_decide_eq_true hp
      have hleft' : ∀ dat ∈ left, dat.layout < col := by
        intro dat hdat
        simpa using hleft dat hdat
      have hext : extendsAbove rows' pdp pdat = extendsAbove rows pdp pdat := by
        have hmem : pdat ∈ pdp.dats := by
          rw [hdats]
          exact List.mem_append_right _ List.mem_cons_self
        rw [extendsAbove, extendsAbove, hpos.1 pdat hmem]
      rw [extendAbove_some hrows hprev.1 hdats hleft' hpdat,
        extendAbove_some hrows' hprev'.1 hdats hleft' hpdat, hext, ih hprev.2 hprev'.2 hpos.2]

end

/-- Adding a layout cell does not change the keys of the others. -/
theorem Ready.layoutPos {tbl tbl' : Tbl} {dp sp : TblSpan} {row row' : TblRow} {icell : Nat}
    {cp : TblCell} (h : Ready tbl dp row icell tbl' row' cp)
    (hrow : tbl.rows[dp.layout]? = some row) (hsp : sp.Fits tbl.rows) {dat : TblDat}
    (hdat : dat ∈ sp.dats) : layoutPos tbl'.rows sp dat = layoutPos tbl.rows sp dat := by
  rcases h.grown with ⟨rfl, -⟩ | ⟨-, rfl, rfl⟩
  · rfl
  · obtain ⟨row', hrow', -, hdats⟩ := hsp
    unfold Mandoc.layoutPos
    by_cases heq : dp.layout = sp.layout
    · rw [heq] at hrow ⊢
      cases hrow.symm.trans hrow'
      have hlt := hdats.span_lt hdat
      rw [Tbl.setRow, List.getElem?_set_self (List.getElem?_eq_some_iff.mp hrow).1, hrow,
        Option.bind_some, Option.bind_some]
      dsimp only
      rw [List.getElem?_append_left (by omega)]
    · rw [Tbl.setRow, List.getElem?_set_ne heq]

/-! ## §4 Data cells that extend the cell above -/

section

variable {p : CStr} {tbl : Tbl} {dp : TblSpan} {prev : List TblSpan} {row : TblRow}
  {i j col : Nat} {pos : CellPos} {rest : List (Nat × CellPos)}

/-- What `getdata` does for a field in a column. -/
theorem getdata_field (hs : NUL ∉ p) (hinv : tbl.Inv) (hpart : tbl.part ≠ .LAYOUT)
    (hspans : tbl.spans = dp :: prev) (hrow : tbl.rows[dp.layout]? = some row)
    (hfield : FieldEnds p tbl.opts.tab i j)
    (hslots : slots row.cells tbl.opts.cols (nextPlace dp.dats) = (col, pos) :: rest) :
    ∃ tbl' row' cp, Ready tbl dp row col tbl' row' cp ∧
      slots row'.cells tbl.opts.cols (col + 1) = rest ∧ getdata p tbl i =
        (if pos = .DOWN ∨ slice p i j = vertSpan then extendAbove tbl.rows col prev
          else .ok prev) >>= fun prev =>
        .ok (storedTbl tbl' dp prev (newDat tbl.opts p row'.cells col (i, j))
          (fieldText tbl.opts p (i, j)),
          if fieldText tbl.opts p (i, j) = blockStart ∨ charAt p j = NUL then j else j + 1) := by
  obtain ⟨tbl', row', cp, hready, hpos, hrest, hget⟩ :=
    getdata_cell hs hinv hpart hspans hrow hfield hslots
  obtain ⟨hspans', hopts, -⟩ := hready.same
  have hmem : ∀ sp ∈ prev, sp ∈ tbl.spans := fun sp hsp => by
    rw [hspans]
    exact List.mem_cons_of_mem _ hsp
  have habove : extendAbove tbl'.rows col prev = extendAbove tbl.rows col prev :=
    extendAbove_congr hinv.numbered hready.inv.numbered
      (fun sp hsp => hinv.spans sp (hmem sp hsp))
      (fun sp hsp => hready.inv.spans sp (hspans' ▸ hmem sp hsp))
      fun sp hsp dat hdat => hready.layoutPos hrow (hinv.spans sp (hmem sp hsp)) hdat
  refine ⟨tbl', row', cp, hready, hrest, ?_⟩
  rw [hget, addDat_eq, hpos, hready.col, habove, hopts]
  refine bind_congr fun prev' => ?_
  rw [← hopts]
  exact fillDat_field _ _

/-- A field extends the right cell: `getdata` returns, the cell is added to the data row, and in
    the rows above, exactly the cell that covers the column is extended. -/
def ExtendsCell (p : CStr) (tbl : Tbl) (dp : TblSpan) (prev : List TblSpan) (i col : Nat) : Prop :=
  ∃ tbl' pos dat, getdata p tbl i = .ok (tbl', pos) ∧ dat.layout = col ∧ dat.vspans = 0 ∧
    tbl'.spans = { dp with dats := dp.dats ++ [dat] } :: extendCovering tbl.rows col prev

/-- **Vertical spans.**  For any data cell that extends the cell above it, the right cell is
    extended if and only if the search is right. -/
theorem getdata_extendsCell_iff (hs : NUL ∉ p) (hreach : FieldReachable p tbl i)
    (hspans : tbl.spans = dp :: prev) (hrow : tbl.rows[dp.layout]? = some row)
    (hfield : FieldEnds p tbl.opts.tab i j)
    (hslots : slots row.cells tbl.opts.cols (nextPlace dp.dats) = (col, pos) :: rest)
    (hext : pos = .DOWN ∨ slice p i j = vertSpan) :
    ExtendsCell p tbl dp prev i col ↔ SearchAgrees tbl.rows col prev := by
  obtain ⟨hinv, hpart⟩ := hreach.inv
  obtain ⟨tbl', row', cp, hready, -, hget⟩ :=
    getdata_field hs hinv hpart hspans hrow hfield hslots
  rw [if_pos hext] at hget
  have hprev : ∀ sp ∈ prev, sp.Fits tbl.rows := fun sp hsp =>
    hinv.spans sp (by rw [hspans]; exact List.mem_cons_of_mem _ hsp)
  have hsearch := @extendAbove_eq_iff tbl.rows tbl.opts.cols col hinv.numbered prev hprev
  rw [ExtendsCell, hget, ← hsearch]
  have hdat : (newDat tbl.opts p row'.cells col (i, j)).layout = col ∧
      (newDat tbl.opts p row'.cells col (i, j)).vspans = 0 := by
    unfold newDat
    split <;> exact ⟨rfl, rfl⟩
  constructor
  · rintro ⟨tbl'', pos', dat, h, -, -, hspans'⟩
    obtain ⟨prev', hprev', h⟩ := Res.bind_eq_ok.mp h
    cases h
    rw [hprev', (List.cons.inj hspans').2]
  · intro h
    exact ⟨_, _, _, by rw [h]; rfl, hdat.1, hdat.2, rfl⟩

end

/-! ## §5 Two tables -/

/-- The first field of a data line, behind some other lines. -/
theorem FieldReachable.lines {lines : List String} {tbl tbl' : Tbl} {irow : Nat} (p : CStr)
    (hlines : readLines lines tblAlloc = .ok tbl) (hpart : tbl.part = .DATA)
    (hirow : nextRow tbl (tbl.spans.find? fun sp => sp.pos = .DATA) < tbl.rows.length)
    (hrows : lineRows (tbl.rows.length + 1) tbl
      (nextRow tbl (tbl.spans.find? fun sp => sp.pos = .DATA)) = .ok (tbl', irow)) :
    FieldReachable p (newspan tbl' irow .DATA) 0 :=
  .data 0 (.lines .alloc hlines) hpart hirow hrows

/-- A table with one data row of two cells. -/
def pairTbl : Tbl := (readLines ["l l.", "a\tb"] tblAlloc).toOption.getD tblAlloc

/-- The layout row of this table. -/
def pairRow : TblRow := { cells := [leftCell 0, leftCell 1] }

/-- The cell below the first one of the data row. -/
theorem getdata_extendsCell_pair :
    ExtendsCell "\\^\tc".toList (newspan pairTbl 0 .DATA) { layout := 0 } pairTbl.spans 0 0 :=
  (@getdata_extendsCell_iff "\\^\tc".toList (newspan pairTbl 0 .DATA) { layout := 0 } pairTbl.spans
    pairRow 0 2 0 .LEFT [(1, .LEFT)] (by decide)
    (.lines _ (show readLines ["l l.", "a\tb"] tblAlloc = .ok pairTbl by decide +kernel)
      (by decide +kernel) (by decide +kernel)
      (show lineRows (pairTbl.rows.length + 1) pairTbl _ = .ok (pairTbl, 0) by decide +kernel))
    rfl (by decide +kernel)
    (.of_cellEnd (by decide)
      (show cellEnd "\\^\tc".toList '\t' 5 0 = .ok 2 by decide +kernel) (by decide))
    (by decide +kernel) (.inr (by decide +kernel))).mpr ⟨rfl, Option.some_ne_none _⟩

/-- A table with an empty text block. -/
def emptyBlockTbl : Tbl :=
  (readLines ["l.", "T\x7b", "T\x7d"] tblAlloc).toOption.getD tblAlloc

/-- Below an empty text block, the search dereferences a null pointer. -/
theorem getdata_extendsCell_null : ¬ ∀ (p : CStr) (tbl : Tbl) (dp : TblSpan) (prev : List TblSpan)
    (row : TblRow) (i j col : Nat) (pos : CellPos) (rest : List (Nat × CellPos)), NUL ∉ p →
      FieldReachable p tbl i → tbl.spans = dp :: prev → tbl.rows[dp.layout]? = some row →
      FieldEnds p tbl.opts.tab i j →
      slots row.cells tbl.opts.cols (nextPlace dp.dats) = (col, pos) :: rest →
      pos = .DOWN ∨ slice p i j = vertSpan → ExtendsCell p tbl dp prev i col := by
  intro h
  have hext := h vertSpan (newspan emptyBlockTbl 0 .DATA) { layout := 0 } emptyBlockTbl.spans
    { cells := [leftCell 0] } 0 2 0 .LEFT [] (by decide)
    (.lines _ (show readLines ["l.", "T\x7b", "T\x7d"] tblAlloc = .ok emptyBlockTbl by decide +kernel)
      (by decide +kernel) (by decide +kernel)
      (show lineRows (emptyBlockTbl.rows.length + 1) emptyBlockTbl _ = .ok (emptyBlockTbl, 0) by
        decide +kernel))
    rfl (by decide +kernel)
    (.of_cellEnd (by decide) (show cellEnd vertSpan '\t' 3 0 = .ok 2 by decide +kernel) (by decide))
    (by decide +kernel) (.inr (by decide +kernel))
  obtain ⟨tbl', pos, dat, hget, -⟩ := hext
  have hnull : getdata vertSpan (newspan emptyBlockTbl 0 .DATA) 0 = .error .null := by
    decide +kernel
  rw [hnull] at hget
  cases hget

end Mandoc
