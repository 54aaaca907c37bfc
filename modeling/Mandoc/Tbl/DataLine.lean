import Mandoc.Tbl.Above
import Mandoc.Tbl.Sections

/-!
# Data lines

The function `tbl_data` of `tbl_data.c` adds a data row to the table for each data line, and calls
`getdata` for one field after the other.

- `LineFrame` says what reading fields leaves alone.
- `Splits` splits a line into its fields.
- `tblData_fieldsStored_iff` says when each field ends up in a data cell of its own.
-/

namespace Mandoc

/-! ## §1 What does not change -/

/-- No layout row is added, and at most one is changed. -/
structure RowsKept (irow : Nat) (rows rows' : List TblRow) : Prop where
  length : rows'.length = rows.length
  other : ∀ k, k ≠ irow → rows'[k]? = rows[k]?

/-- What a data row is: its layout row, and whether it contains data. -/
def TblSpan.place (sp : TblSpan) : Nat × SpanPos := (sp.layout, sp.pos)

/-- Reading fields adds data cells to the last data row, and changes no other layout row. -/
structure LineFrame (tbl : Tbl) (dp : TblSpan) (prev : List TblSpan) (tbl' : Tbl) : Prop where
  opts : tbl'.opts = tbl.opts
  part : tbl'.part = tbl.part ∨ tbl'.part = .CDATA
  rows : RowsKept dp.layout tbl.rows tbl'.rows
  spans : ∃ new prev', tbl'.spans = { dp with dats := dp.dats ++ new } :: prev' ∧
    prev'.map TblSpan.place = prev.map TblSpan.place

theorem RowsKept.refl (irow : Nat) (rows : List TblRow) : RowsKept irow rows rows :=
  ⟨rfl, fun _ _ => rfl⟩

theorem RowsKept.trans {irow : Nat} {rows rows' rows'' : List TblRow}
    (h : RowsKept irow rows rows') (h' : RowsKept irow rows' rows'') : RowsKept irow rows rows'' :=
  ⟨h'.length.trans h.length, fun k hk => (h'.other k hk).trans (h.other k hk)⟩

theorem RowsKept.set (irow : Nat) (rows : List TblRow) (row : TblRow) :
    RowsKept irow rows (rows.set irow row) :=
  ⟨List.length_set, fun _ hk => List.getElem?_set_ne hk.symm⟩

theorem LineFrame.refl {tbl : Tbl} {dp : TblSpan} {prev : List TblSpan}
    (hspans : tbl.spans = dp :: prev) : LineFrame tbl dp prev tbl :=
  ⟨rfl, .inl rfl, .refl _ _, [], prev, by rw [hspans, List.append_nil], rfl⟩

/-- The search changes no data row but for the numbers of vertical spans. -/
theorem extendAbove_place (rows : List TblRow) (col : Nat) (prev : List TblSpan) :
    Ensures (extendAbove rows col prev) fun prev' =>
      prev'.map TblSpan.place = prev.map TblSpan.place := by
  induction prev with
  | nil => exact Ensures.pure_iff.mpr rfl
  | cons pdp prev ih =>
    have hcons : Ensures (do return pdp :: (← extendAbove rows col prev) : Res (List TblSpan))
        fun prev' => prev'.map TblSpan.place = (pdp :: prev).map TblSpan.place := by
      apply Ensures.bind ih
      intro prev' hprev'
      rw [Ensures.pure_iff, List.map_cons, List.map_cons, hprev']
    rw [extendAbove]
    cases rows[pdp.layout]? with
    | none => exact Ensures.error_iff.mpr trivial
    | some row =>
      dsimp only
      split
      · exact Ensures.pure_iff.mpr rfl
      · next pdat right hright =>
        cases row.cells[pdat.layout]? with
        | none => exact Ensures.error_iff.mpr trivial
        | some cp =>
          apply Ensures.ite (fun _ => hcons)
          intro _
          cases pdat.string with
          | none => exact Ensures.error_iff.mpr trivial
          | some string =>
            apply Ensures.ite (fun _ => hcons)
            exact fun _ => Ensures.pure_iff.mpr rfl

/-- A data cell is added in a layout row that may have grown. -/
theorem addDat_frame (p : CStr) {tbl tbl' : Tbl} {dp : TblSpan} {prev : List TblSpan}
    (cells : List TblCell) (icell : Nat) (cp : TblCell) (startpos pos : Nat)
    (hopts : tbl'.opts = tbl.opts) (hpart : tbl'.part = tbl.part)
    (hrows : RowsKept dp.layout tbl.rows tbl'.rows) :
    Ensures (addDat p tbl' dp prev cells icell cp startpos pos) fun r =>
      LineFrame tbl dp prev r.1 := by
  rw [addDat_eq]
  apply Ensures.bind (P := fun prev' => prev'.map TblSpan.place = prev.map TblSpan.place)
  · exact Ensures.ite (fun _ => extendAbove_place _ _ _) (fun _ => Ensures.ok_iff.mpr rfl)
  intro prev' hprev'
  unfold fillDat
  apply Ensures.ite
  · exact fun _ => Ensures.ok_iff.mpr ⟨hopts, .inr rfl, hrows, _, prev', rfl, hprev'⟩
  · intro _
    exact Ensures.ok_iff.mpr ⟨hopts, .inl hpart, hrows, _, prev', rfl, hprev'⟩

/-- One field. -/
theorem getdata_frame (p : CStr) {tbl : Tbl} {dp : TblSpan} {prev : List TblSpan} (i : Nat)
    (hspans : tbl.spans = dp :: prev) :
    Ensures (getdata p tbl i) fun r => LineFrame tbl dp prev r.1 := by
  unfold getdata
  rw [hspans]
  dsimp only
  apply Ensures.call
  intro pos
  cases hrow : tbl.rows[dp.layout]? with
  | none => exact Ensures.error_iff.mpr trivial
  | some row =>
    dsimp only
    split
    · exact addDat_frame p _ _ _ _ _ rfl rfl (.refl _ _)
    · cases hlast : row.cells.getLast? with
      | none => exact Ensures.error_iff.mpr trivial
      | some last =>
        apply Ensures.ite
        · exact fun _ => addDat_frame p _ _ _ _ _ rfl rfl (.set _ _ _)
        · exact fun _ => Ensures.pure_iff.mpr (.refl hspans)

theorem LineFrame.trans {tbl tbl' tbl'' : Tbl} {dp : TblSpan} {prev : List TblSpan}
    (h : LineFrame tbl dp prev tbl') {dp' : TblSpan} {prev' : List TblSpan}
    (hspans : tbl'.spans = dp' :: prev') (h' : LineFrame tbl' dp' prev' tbl'') :
    LineFrame tbl dp prev tbl'' := by
  obtain ⟨new, prev1, hspans1, hprev1⟩ := h.spans
  obtain ⟨new', prev2, hspans2, hprev2⟩ := h'.spans
  cases hspans.symm.trans hspans1
  have hpart : tbl''.part = tbl.part ∨ tbl''.part = .CDATA := by
    rcases h'.part with hpart | hpart
    · rw [hpart]
      exact h.part
    · exact .inr hpart
  refine ⟨h'.opts.trans h.opts, hpart, h.rows.trans h'.rows, new ++ new', prev2, ?_,
    hprev2.trans hprev1⟩
  rw [hspans2, List.append_assoc]

/-- All the fields. -/
theorem dataLoop_frame (p : CStr) (n : Nat) {tbl : Tbl} {dp : TblSpan} {prev : List TblSpan}
    (i : Nat) (hspans : tbl.spans = dp :: prev) :
    Ensures (dataLoop p n tbl i) fun tbl' => LineFrame tbl dp prev tbl' := by
  induction n generalizing tbl dp prev i with
  | zero => exact Ensures.error_iff.mpr trivial
  | succ n ih =>
    rw [dataLoop]
    apply Ensures.ite (fun _ => Ensures.pure_iff.mpr (.refl hspans))
    intro _
    apply Ensures.bind (getdata_frame p i hspans)
    intro r hframe
    obtain ⟨new, prev', hspans', -⟩ := hframe.spans
    exact (ih _ hspans').mono fun _ h => hframe.trans hspans' h

/-! ## §2 Text blocks that have not been filled -/

/-- What the search for the cell above inspects of a data cell. -/
structure CellOutline where
  col : Nat
  extending : Bool
  unfilled : Bool

/-- The outline of a data row. -/
def TblSpan.outline (rows : List TblRow) (sp : TblSpan) : List CellOutline :=
  sp.dats.map fun dat => ⟨dat.layout, extendsAbove rows sp dat, dat.string.isNone⟩

/-- Does the search for the cell above arrive at a text block that has not been filled? -/
def meetsUnfilled (col : Nat) : List (List CellOutline) → Bool
  | [] => false
  | cells :: prev =>
    match cells.find? fun cell => decide (col ≤ cell.col) with
    | none => false
    | some cell => if cell.extending then meetsUnfilled col prev else cell.unfilled

section

variable {rows : List TblRow} {cols col : Nat}

/-- Extending a cell does not change the outline. -/
theorem outline_extended {sp : TblSpan} {left right : List TblDat} {pdat : TblDat}
    (hdats : sp.dats = left ++ pdat :: right) :
    ({ sp with dats := left ++ pdat.extended :: right } : TblSpan).outline rows =
      sp.outline rows := by
  unfold TblSpan.outline
  rw [hdats, List.map_append, List.map_append]
  rfl

/-- The search fails at a text block that has not been filled.  Otherwise, it does not change the
    outlines. -/
theorem extendAbove_outline (hrows : ∀ row ∈ rows, row.Numbered cols) (prev : List TblSpan)
    (hprev : ∀ sp ∈ prev, sp.Fits rows) :
    (meetsUnfilled col (prev.map (TblSpan.outline rows)) = true →
      extendAbove rows col prev = .error .null) ∧
    (meetsUnfilled col (prev.map (TblSpan.outline rows)) = false →
      ∃ prev', extendAbove rows col prev = .ok prev' ∧
        prev'.map (TblSpan.outline rows) = prev.map (TblSpan.outline rows)) := by
  induction prev with
  | nil => exact ⟨fun h => absurd h (by simp [meetsUnfilled]), fun _ => ⟨[], rfl, rfl⟩⟩
  | cons pdp prev ih =>
    obtain ⟨hpdp, hprev'⟩ := List.forall_mem_cons.mp hprev
    obtain ⟨ihfail, ihok⟩ := ih hprev'
    have hmap : (pdp.outline rows).find? (fun cell => decide (col ≤ cell.col)) =
        (pdp.dats.find? fun dat => decide (col ≤ dat.layout)).map fun dat =>
          ⟨dat.layout, extendsAbove rows pdp dat, dat.string.isNone⟩ := List.find?_map ..
    rw [List.map_cons, meetsUnfilled, hmap]
    -- The row has no cell in this column or to the right of it.
    cases hfind : pdp.dats.find? fun dat => decide (col ≤ dat.layout) with
    | none =>
      have hlt : ∀ dat ∈ pdp.dats, dat.layout < col := by
        intro dat hdat
        simpa using List.find?_eq_none.mp hfind dat hdat
      exact ⟨fun h => absurd h (by simp), fun _ => ⟨_, extendAbove_none hrows hpdp hlt, rfl⟩⟩
    | some pdat =>
      -- The first such cell decides: it extends upwards, too, or its text ends the block.
      obtain ⟨hp, left, right, hdats, hleft⟩ := List.find?_eq_some_iff_append.mp hfind
      have hpdat : col ≤ pdat.layout := of_decide_eq_true hp
      have hleft' : ∀ dat ∈ left, dat.layout < col := by
        intro dat hdat
        simpa using hleft dat hdat
      rw [extendAbove_some hrows hpdp hdats hleft' hpdat]
      dsimp only [Option.map_some]
      by_cases hext : extendsAbove rows pdp pdat = true
      · simp only [if_pos hext]
        refine ⟨fun h => ?_, fun h => ?_⟩
        · rw [ihfail h]
          rfl
        · obtain ⟨prev', heq, hout⟩ := ihok h
          refine ⟨_, by rw [heq]; rfl, ?_⟩
          rw [List.map_cons, hout]
      · simp only [if_neg hext]
        cases hstring : pdat.string with
        | none => exact ⟨fun _ => rfl, fun h => absurd h (by simp)⟩
        | some string =>
          refine ⟨fun h => absurd h (by simp), fun _ => ⟨_, rfl, ?_⟩⟩
          rw [List.map_cons, outline_extended hdats]

end

/-- Adding a layout cell does not change the outlines. -/
theorem Ready.outline {tbl tbl' : Tbl} {dp sp : TblSpan} {row row' : TblRow} {icell : Nat}
    {cp : TblCell} (h : Ready tbl dp row icell tbl' row' cp)
    (hrow : tbl.rows[dp.layout]? = some row) (hsp : sp.Fits tbl.rows) :
    sp.outline tbl'.rows = sp.outline tbl.rows := by
  unfold TblSpan.outline
  refine List.map_congr_left fun dat hdat => ?_
  rw [extendsAbove, extendsAbove, h.layoutPos hrow hsp hdat]

/-! ## §3 Splitting a line -/

/-- The fields of a line from an index on.  Every field is the beginning and the end of its text,
    and a separator at the end of the line does not start another field. -/
inductive Splits (p : CStr) (tab : Char) : Nat → List (Nat × Nat) → Prop
  | nil {i : Nat} (h : charAt p i = NUL) : Splits p tab i []
  | cons {i j : Nat} {fields : List (Nat × Nat)} (h : charAt p i ≠ NUL)
      (hfield : FieldEnds p tab i j)
      (hrest : Splits p tab (if charAt p j = NUL then j else j + 1) fields) :
      Splits p tab i ((i, j) :: fields)

/-- A field opens a text block if it is at the end of the line. -/
def OpensBlock (opts : TblOpts) (p : CStr) (field : Nat × Nat) : Prop :=
  fieldText opts p field = blockStart ∧ charAt p field.2 = NUL

instance (opts : TblOpts) (p : CStr) (field : Nat × Nat) : Decidable (OpensBlock opts p field) :=
  inferInstanceAs (Decidable (_ ∧ _))

/-- The text of the data cell for a field.  If the field opens a text block, there is no text for
    it yet. -/
def fieldString (opts : TblOpts) (p : CStr) (field : Nat × Nat) : Option CStr :=
  if OpensBlock opts p field then none else some (fieldText opts p field)

/-- The conditions on a field that is stored in a column: the rest of the line must not be taken
    for its text, the cell that it extends must not be a text block that has not been filled, and if
    it looks like the beginning of a text block, it must be one. -/
structure StorableField (opts : TblOpts) (p : CStr) (above : List (List CellOutline))
    (column : Nat × CellPos) (field : Nat × Nat) : Prop where
  text : ¬ TakesRest opts p field.1
  above : column.2 = .DOWN ∨ slice p field.1 field.2 = vertSpan →
    meetsUnfilled column.1 above = false
  block : fieldText opts p field = blockStart → charAt p field.2 = NUL

/-- **When each field gets its own cell.**  There are conditions on the fields as long as there are
    columns for them.  A field behind the last column must not open a text block. -/
structure Storable (opts : TblOpts) (p : CStr) (above : List (List CellOutline))
    (columns : List (Nat × CellPos)) (fields : List (Nat × Nat)) : Prop where
  stored : ∀ q ∈ columns.zip fields, StorableField opts p above q.1 q.2
  rest : ∀ field ∈ fields.drop columns.length, ¬ OpensBlock opts p field

/-- The layout cell and the text of a data cell. -/
def TblDat.content (dat : TblDat) : Nat × Option CStr := (dat.layout, dat.string)

/-- The data cells for some fields: each field has its own cell, in the next column, as long as
    there are columns. -/
def fieldContents (opts : TblOpts) (p : CStr) (columns : List (Nat × CellPos))
    (fields : List (Nat × Nat)) : List (Nat × Option CStr) :=
  (columns.zip fields).map fun q => (q.1.1, fieldString opts p q.2)

/-- The fields are in data cells of their own, and a text block is open if and only if one of them
    opens it. -/
def StoredFrom (opts : TblOpts) (p : CStr) (columns : List (Nat × CellPos)) (dp : TblSpan)
    (fields : List (Nat × Nat)) (tbl' : Tbl) : Prop :=
  (∃ new prev', tbl'.spans = { dp with dats := dp.dats ++ new } :: prev' ∧
    new.map TblDat.content = fieldContents opts p columns fields) ∧
  (tbl'.part = .CDATA ↔ ∃ field ∈ fields, OpensBlock opts p field)

section

variable {opts : TblOpts} {p : CStr} {above : List (List CellOutline)} {column : Nat × CellPos}
  {columns : List (Nat × CellPos)} {field : Nat × Nat} {fields : List (Nat × Nat)}

theorem Storable.nil : Storable opts p above columns [] := by
  refine ⟨?_, ?_⟩
  · rw [List.zip_nil_right]
    exact List.forall_mem_nil _
  · rw [List.drop_nil]
    exact List.forall_mem_nil _

theorem storable_full : Storable opts p above [] fields ↔
    ¬ ∃ field ∈ fields, OpensBlock opts p field := by
  push Not
  constructor
  · exact fun h => h.rest
  · exact fun h => ⟨List.forall_mem_nil _, h⟩

/-- The next field is stored in the next column. -/
theorem storable_cons : Storable opts p above (column :: columns) (field :: fields) ↔
    StorableField opts p above column field ∧ Storable opts p above columns fields := by
  constructor
  · intro h
    obtain ⟨hfield, hstored⟩ := List.forall_mem_cons.mp h.stored
    exact ⟨hfield, hstored, h.rest⟩
  · rintro ⟨hfield, h⟩
    exact ⟨List.forall_mem_cons.mpr ⟨hfield, h.stored⟩, h.rest⟩

end

/-! ## §4 The loop over the fields -/

section

variable {p : CStr} {tbl : Tbl} {dp : TblSpan} {prev : List TblSpan} {row : TblRow}
  {i j col : Nat} {pos : CellPos} {rest : List (Nat × CellPos)}

/-- The table behind a field for which a data cell has been added. -/
structure AddedCell (p : CStr) (tbl : Tbl) (dp : TblSpan) (prev : List TblSpan) (col : Nat)
    (rest : List (Nat × CellPos)) (field : Nat × Nat) (tbl' : Tbl) (dat : TblDat)
    (prev' : List TblSpan) (row' : TblRow) : Prop where
  inv : tbl'.Inv
  opts : tbl'.opts = tbl.opts
  part : tbl'.part = if fieldText tbl.opts p field = blockStart then .CDATA else tbl.part
  spans : tbl'.spans = { dp with dats := dp.dats ++ [dat] } :: prev'
  layout : dat.layout = col
  string : dat.string =
    if fieldText tbl.opts p field = blockStart then none else some (copiedText tbl.opts p field)
  row : tbl'.rows[dp.layout]? = some row'
  slots : slots row'.cells tbl.opts.cols (nextPlace (dp.dats ++ [dat])) = rest
  outline : prev'.map (TblSpan.outline tbl'.rows) = prev.map (TblSpan.outline tbl.rows)

/-- Unless the search for the cell above fails, a data cell is added for a field. -/
theorem getdata_added (hs : NUL ∉ p) (hinv : tbl.Inv) (hpart : tbl.part ≠ .LAYOUT)
    (hspans : tbl.spans = dp :: prev) (hrow : tbl.rows[dp.layout]? = some row)
    (hfield : FieldEnds p tbl.opts.tab i j)
    (hslots : slots row.cells tbl.opts.cols (nextPlace dp.dats) = (col, pos) :: rest)
    (hmeets : pos = .DOWN ∨ slice p i j = vertSpan →
      meetsUnfilled col (prev.map (TblSpan.outline tbl.rows)) = false) :
    ∃ tbl' dat prev' row', AddedCell p tbl dp prev col rest (i, j) tbl' dat prev' row' ∧
      getdata p tbl i = .ok (tbl',
        if fieldText tbl.opts p (i, j) = blockStart ∨ charAt p j = NUL then j else j + 1) := by
  obtain ⟨tbl', row', cp, hready, hrest, hget⟩ :=
    getdata_field hs hinv hpart hspans hrow hfield hslots
  obtain ⟨-, hopts, hpart'⟩ := hready.same
  have hprev : ∀ sp ∈ prev, sp.Fits tbl.rows := fun sp hsp =>
    hinv.spans sp (by rw [hspans]; exact List.mem_cons_of_mem _ hsp)
  -- The rows above, after the search if there is one.
  have habove : ∃ prev', (if pos = .DOWN ∨ slice p i j = vertSpan then
        extendAbove tbl.rows col prev else .ok prev) = .ok prev' ∧
      (∀ sp ∈ prev', sp.Fits tbl.rows) ∧
      prev'.map (TblSpan.outline tbl.rows) = prev.map (TblSpan.outline tbl.rows) := by
    by_cases hext : pos = .DOWN ∨ slice p i j = vertSpan
    · obtain ⟨prev', heq, hout⟩ := (extendAbove_outline hinv.numbered prev hprev).2 (hmeets hext)
      refine ⟨prev', by rw [if_pos hext, heq], ?_, hout⟩
      exact (extendAbove_fits tbl.rows col prev hprev).of_eq_ok heq
    · exact ⟨prev, if_neg hext, hprev, rfl⟩
  obtain ⟨prev', heq, hfits, hout⟩ := habove
  rw [heq, Res.ok_bind] at hget
  refine ⟨storedTbl tbl' dp prev' (newDat tbl.opts p row'.cells col (i, j))
    (fieldText tbl.opts p (i, j)), newDat tbl.opts p row'.cells col (i, j), prev', row',
    ⟨?_, hopts, ?_, rfl, ?_, ?_, hready.row, ?_, ?_⟩, hget⟩
  · exact ((getdata_inv p i hinv hpart).of_eq_ok hget).1
  · rw [← hpart']
    rfl
  · unfold newDat
    split <;> rfl
  · unfold newDat
    split <;> rfl
  · have hlayout : (newDat tbl.opts p row'.cells col (i, j)).layout = col := by
      unfold newDat
      split <;> rfl
    rw [nextPlace, List.getLast?_concat]
    dsimp only
    rw [hlayout]
    exact hrest
  · rw [← hout]
    exact List.map_congr_left fun sp hsp => hready.outline hrow (hfits sp hsp)

/-- If the search for the cell above arrives at a text block that has not been filled, the function
    fails. -/
theorem getdata_fails (hs : NUL ∉ p) (hinv : tbl.Inv) (hpart : tbl.part ≠ .LAYOUT)
    (hspans : tbl.spans = dp :: prev) (hrow : tbl.rows[dp.layout]? = some row)
    (hfield : FieldEnds p tbl.opts.tab i j)
    (hslots : slots row.cells tbl.opts.cols (nextPlace dp.dats) = (col, pos) :: rest)
    (hbad : ¬ (pos = .DOWN ∨ slice p i j = vertSpan →
      meetsUnfilled col (prev.map (TblSpan.outline tbl.rows)) = false)) :
    getdata p tbl i = .error .null := by
  obtain ⟨tbl', row', cp, hready, -, hget⟩ :=
    getdata_field hs hinv hpart hspans hrow hfield hslots
  have hprev : ∀ sp ∈ prev, sp.Fits tbl.rows := fun sp hsp =>
    hinv.spans sp (by rw [hspans]; exact List.mem_cons_of_mem _ hsp)
  obtain ⟨hext, hmeets⟩ := Classical.not_imp.mp hbad
  rw [Bool.not_eq_false] at hmeets
  rw [hget, if_pos hext, (extendAbove_outline hinv.numbered prev hprev).1 hmeets]
  rfl

theorem dataLoop_succ (h : charAt p i ≠ NUL) (n : Nat) : dataLoop p (n + 1) tbl i =
    getdata p tbl i >>= fun r => dataLoop p n r.1 r.2 := by
  rw [dataLoop, if_neg h]

theorem dataLoop_end (h : charAt p i = NUL) {n : Nat} (hn : 0 < n) :
    dataLoop p n tbl i = .ok tbl := by
  obtain ⟨n, rfl⟩ := Nat.exists_eq_succ_of_ne_zero (Nat.ne_of_gt hn)
  rw [dataLoop, if_pos h]
  rfl

/-- Behind a field that does not open a text block, the remaining fields fill the remaining
    columns. -/
theorem storedFrom_cons {opts : TblOpts} {dat : TblDat} {columns : List (Nat × CellPos)}
    {field : Nat × Nat} {fields : List (Nat × Nat)} {tbl' : Tbl}
    (hopens : ¬ OpensBlock opts p field) (hdat : dat.content = (col, some (fieldText opts p field)))
    (hframe : ∃ new prev', tbl'.spans = { dp with dats := dp.dats ++ [dat] ++ new } :: prev') :
    StoredFrom opts p ((col, pos) :: columns) dp (field :: fields) tbl' ↔
      StoredFrom opts p columns { dp with dats := dp.dats ++ [dat] } fields tbl' := by
  have hblock : (∃ f ∈ field :: fields, OpensBlock opts p f) ↔
      ∃ f ∈ fields, OpensBlock opts p f := by
    rw [List.exists_mem_cons_iff]
    exact or_iff_right hopens
  have hcontents : fieldContents opts p ((col, pos) :: columns) (field :: fields) =
      dat.content :: fieldContents opts p columns fields := by
    rw [fieldContents, List.zip_cons_cons, List.map_cons, hdat]
    dsimp only
    rw [fieldString, if_neg hopens]
    rfl
  unfold StoredFrom
  rw [hblock, hcontents]
  refine and_congr_left fun _ => ?_
  obtain ⟨new', prev', hspans⟩ := hframe
  constructor
  · rintro ⟨new, prev'', hspans', hnew⟩
    -- The data cell is the first one of those that have been added.
    have hdats := congrArg TblSpan.dats (List.cons.inj (hspans.symm.trans hspans')).1
    simp only [List.append_assoc, List.append_cancel_left_eq] at hdats
    subst hdats
    rw [List.singleton_append, List.map_cons] at hnew
    refine ⟨new', prev', ?_, (List.cons.inj hnew).2⟩
    rw [hspans, List.append_assoc]
  · rintro ⟨new, prev'', hspans', hnew⟩
    refine ⟨dat :: new, prev'', ?_, ?_⟩
    · rw [hspans', List.append_assoc]
      rfl
    · rw [List.map_cons, hnew]

/-- A cell with another text than that of the field. -/
theorem not_storedFrom_string {opts : TblOpts} {dat : TblDat} {columns : List (Nat × CellPos)}
    {field : Nat × Nat} {fields : List (Nat × Nat)} {tbl' : Tbl}
    (hdat : dat.string ≠ fieldString opts p field)
    (hframe : ∃ new prev', tbl'.spans = { dp with dats := dp.dats ++ [dat] ++ new } :: prev') :
    ¬ StoredFrom opts p ((col, pos) :: columns) dp (field :: fields) tbl' := by
  rintro ⟨⟨new, prev', hspans, hnew⟩, -⟩
  obtain ⟨new', prev'', hspans'⟩ := hframe
  have hdats := congrArg TblSpan.dats (List.cons.inj (hspans'.symm.trans hspans)).1
  simp only [List.append_assoc, List.append_cancel_left_eq] at hdats
  subst hdats
  rw [fieldContents, List.zip_cons_cons, List.map_cons, List.singleton_append, List.map_cons] at hnew
  exact hdat (congrArg Prod.snd (List.cons.inj hnew).1)

/-- The only cell for a field that opens a text block. -/
theorem AddedCell.storedFrom {tbl' : Tbl} {dat : TblDat} {prev' : List TblSpan} {row' : TblRow}
    {field : Nat × Nat} (h : AddedCell p tbl dp prev col rest field tbl' dat prev' row')
    (hopens : OpensBlock tbl.opts p field) (columns : List (Nat × CellPos)) :
    StoredFrom tbl.opts p ((col, pos) :: columns) dp [field] tbl' := by
  refine ⟨⟨[dat], prev', h.spans, ?_⟩, iff_of_true ?_ ⟨field, List.mem_singleton_self _, hopens⟩⟩
  · rw [fieldContents, List.zip_cons_cons, List.zip_nil_right, List.map_singleton,
      List.map_singleton, fieldString, if_pos hopens, TblDat.content, h.layout, h.string,
      if_pos hopens.1]
  · rw [h.part, if_pos hopens.1]

/-- **Reading fields.**  By induction on the fields: each of them gets its own cell if and only if
    they are storable. -/
theorem dataLoop_storedFrom_iff (hs : NUL ∉ p) {tab : Char} {fields : List (Nat × Nat)} {i : Nat}
    (h : Splits p tab i fields) : ∀ (n : Nat) {tbl : Tbl} {dp : TblSpan} {prev : List TblSpan}
      {row : TblRow}, p.length - i < n → tbl.opts.tab = tab → tbl.Inv → tbl.part = .DATA →
      tbl.spans = dp :: prev → tbl.rows[dp.layout]? = some row →
      ((∃ tbl', dataLoop p n tbl i = .ok tbl' ∧ StoredFrom tbl.opts p
          (slots row.cells tbl.opts.cols (nextPlace dp.dats)) dp fields tbl') ↔
        Storable tbl.opts p (prev.map (TblSpan.outline tbl.rows))
          (slots row.cells tbl.opts.cols (nextPlace dp.dats)) fields) := by
  induction h with
  | nil h =>
    intro n tbl dp prev row hn htab hinv hpart hspans hrow
    refine iff_of_true ⟨tbl, dataLoop_end h (Nat.zero_lt_of_lt hn), ?_, ?_⟩ .nil
    · refine ⟨[], prev, by rw [hspans, List.append_nil], ?_⟩
      rw [fieldContents, List.zip_nil_right]
      rfl
    · rw [hpart]
      refine iff_of_false (by decide) ?_
      rintro ⟨f, hf, -⟩
      cases hf
  | @cons i j fields hnul hfield hsplits ih =>
    intro n tbl dp prev row hn htab hinv hpart hspans hrow
    subst htab
    have hpart' : tbl.part ≠ .LAYOUT := by rw [hpart]; decide
    have hlt := lt_length_of_charAt_ne_nul hnul
    obtain ⟨hij, hj, -⟩ := hfield.bounds hs
    obtain ⟨n, rfl⟩ := Nat.exists_eq_succ_of_ne_zero (Nat.ne_of_gt (Nat.zero_lt_of_lt hn))
    rw [dataLoop_succ hnul]
    match hslots : slots row.cells tbl.opts.cols (nextPlace dp.dats) with
    | [] =>
      -- The rest of the line is discarded.
      rw [getdata_full hs hinv hpart' hspans hrow hfield hslots, Res.ok_bind,
        dataLoop_end (charAt_of_ge (Nat.le_refl _)) (by omega), storable_full]
      constructor
      · rintro ⟨tbl', heq, -, hblock⟩ hopen
        cases heq
        have hcdata := hblock.mpr hopen
        rw [hpart] at hcdata
        cases hcdata
      · intro hopen
        refine ⟨tbl, rfl, ⟨[], prev, by rw [hspans, List.append_nil], rfl⟩, iff_of_false ?_ hopen⟩
        rw [hpart]
        decide
    | (col, pos) :: rest =>
      rw [storable_cons]
      by_cases hmeets : pos = .DOWN ∨ slice p i j = vertSpan →
          meetsUnfilled col (prev.map (TblSpan.outline tbl.rows)) = false
      · obtain ⟨tbl', dat, prev', row', hadded, hget⟩ :=
          getdata_added hs hinv hpart' hspans hrow hfield hslots hmeets
        rw [hget, Res.ok_bind]
        have hframe : ∀ (k m : Nat) {tbl'' : Tbl}, dataLoop p m tbl' k = .ok tbl'' →
            ∃ new prev', tbl''.spans = { dp with dats := dp.dats ++ [dat] ++ new } :: prev' := by
          intro k m tbl'' heq
          obtain ⟨new, prev'', hspans'', -⟩ :=
            ((dataLoop_frame p m k hadded.spans).of_eq_ok heq).spans
          exact ⟨new, prev'', hspans''⟩
        by_cases htext : fieldText tbl.opts p (i, j) = blockStart
        · rw [if_pos (.inl htext)]
          by_cases hend : charAt p j = NUL
          · -- The text block is the last field.
            have hnil : fields = [] := by
              rw [if_pos hend] at hsplits
              cases hsplits with
              | nil _ => rfl
              | cons hne _ _ => exact absurd hend hne
            subst hnil
            rw [dataLoop_end hend (by omega)]
            refine iff_of_true ⟨tbl', rfl, hadded.storedFrom ⟨htext, hend⟩ rest⟩ ⟨?_, .nil⟩
            refine ⟨fun htakes => ?_, hmeets, fun _ => hend⟩
            rw [fieldText_blank hs hfield htakes.1] at htext
            cases htext
          · -- The field should be data, but opens a text block.
            refine iff_of_false ?_ fun hst => hend (hst.1.block htext)
            rintro ⟨tbl'', heq, hst⟩
            refine not_storedFrom_string ?_ (hframe j n heq) hst
            rw [hadded.string, if_pos htext, fieldString, if_neg fun h => hend h.2]
            exact Option.some_ne_none _ ∘ Eq.symm
        · have hopens : ¬ OpensBlock tbl.opts p (i, j) := fun h => htext h.1
          by_cases htakes : TakesRest tbl.opts p i
          · -- The rest of the line is taken for the text of the field.
            refine iff_of_false ?_ fun hst => hst.1.text htakes
            rintro ⟨tbl'', heq, hst⟩
            refine not_storedFrom_string ?_ (hframe _ n heq) hst
            rw [hadded.string, if_neg htext, fieldString, if_neg hopens, Ne, Option.some.injEq]
            exact fun hcopy => (copiedText_eq_iff hs hfield).mp hcopy htakes
          have hpos : (if fieldText tbl.opts p (i, j) = blockStart ∨ charAt p j = NUL then j else j + 1) =
              if charAt p j = NUL then j else j + 1 := by
            simp only [htext, false_or]
          have hdat : dat.content = (col, some (fieldText tbl.opts p (i, j))) := by
            rw [TblDat.content, hadded.layout, hadded.string, if_neg htext,
              (copiedText_eq_iff hs hfield).mpr htakes]
          have hnext : p.length - (if charAt p j = NUL then j else j + 1) < n := by
            split
            · next hend =>
              have := eq_length_of_charAt_nul hs hj hend
              omega
            · omega
          have ih := ih n hnext (congrArg TblOpts.tab hadded.opts) hadded.inv
            (by rw [hadded.part, if_neg htext, hpart]) hadded.spans hadded.row
          rw [hadded.opts, hadded.outline, hadded.slots] at ih
          rw [hpos]
          constructor
          · rintro ⟨tbl'', heq, hst⟩
            refine ⟨⟨htakes, hmeets, fun h => absurd h htext⟩, ih.mp ⟨tbl'', heq, ?_⟩⟩
            exact (storedFrom_cons hopens hdat (hframe _ n heq)).mp hst
          · rintro ⟨-, hst⟩
            obtain ⟨tbl'', heq, hst'⟩ := ih.mpr hst
            exact ⟨tbl'', heq, (storedFrom_cons hopens hdat (hframe _ n heq)).mpr hst'⟩
      · rw [getdata_fails hs hinv hpart' hspans hrow hfield hslots hmeets]
        refine iff_of_false ?_ fun hst => hmeets hst.1.above
        rintro ⟨tbl', heq, -⟩
        cases heq

end

/-! ## §5 Rows of lines -/

/-- Does a layout row contain nothing but horizontal lines, in all the columns? -/
def TblRow.lineOnly (cols : Nat) (row : TblRow) : Bool :=
  decide (cols ≤ row.cells.length) && row.cells.all fun cp => cp.pos.isHoriz

/-- How many layout rows from a row on contain nothing but horizontal lines.  The last layout row
    does not count. -/
def lineRun (tbl : Tbl) (irow : Nat) : Nat :=
  ((tbl.rows.drop irow).dropLast.takeWhile (TblRow.lineOnly tbl.opts.cols)).length

/-- The data rows for such layout rows, the last one first. -/
def lineSpans (irow k : Nat) : List TblSpan :=
  (List.range' irow k).reverse.map fun r => { layout := r }

section

variable {tbl : Tbl} {irow : Nat} {row : TblRow}

theorem lineSpans_succ (irow k : Nat) :
    lineSpans irow (k + 1) = lineSpans (irow + 1) k ++ [{ layout := irow }] := by
  rw [lineSpans, List.range'_succ, List.reverse_cons, List.map_append]
  rfl

theorem lineRun_last (h : tbl.rows.length ≤ irow + 1) : lineRun tbl irow = 0 := by
  have hlen : (tbl.rows.drop irow).dropLast.length = 0 := by
    rw [List.length_dropLast, List.length_drop]
    omega
  rw [lineRun, List.length_eq_zero_iff.mp hlen]
  rfl

/-- Any other layout row. -/
theorem lineRun_eq (hrow : tbl.rows[irow]? = some row) (hnext : irow + 1 < tbl.rows.length) :
    lineRun tbl irow =
      if row.lineOnly tbl.opts.cols = true then lineRun tbl (irow + 1) + 1 else 0 := by
  obtain ⟨hirow, rfl⟩ := List.getElem?_eq_some_iff.mp hrow
  have hne : tbl.rows.drop (irow + 1) ≠ [] := by
    rw [Ne, List.drop_eq_nil_iff]
    omega
  rw [lineRun, List.drop_eq_getElem_cons hirow, List.dropLast_cons_of_ne_nil hne,
    List.takeWhile_cons]
  split
  · rfl
  · rfl

theorem lineRun_lt (h : irow < tbl.rows.length) : irow + lineRun tbl irow < tbl.rows.length := by
  have hle := (List.takeWhile_prefix (TblRow.lineOnly tbl.opts.cols)
    (l := (tbl.rows.drop irow).dropLast)).length_le
  rw [List.length_dropLast, List.length_drop] at hle
  unfold lineRun
  omega

/-- `lineRows` makes a data row for each of the layout rows that contain nothing but lines.  By
    induction on the number of steps. -/
theorem lineRows_eq (n : Nat) (hinv : tbl.Inv) (hpart : tbl.part ≠ .LAYOUT)
    (hirow : irow < tbl.rows.length) (hn : tbl.rows.length - irow ≤ n) :
    lineRows n tbl irow = .ok ({ tbl with spans := lineSpans irow (lineRun tbl irow) ++ tbl.spans },
      irow + lineRun tbl irow) := by
  -- By induction on the rows that are left.
  induction n generalizing tbl irow with
  | zero => omega
  | succ n ih =>
    rw [lineRows]
    by_cases hlast : tbl.rows.length ≤ irow + 1
    · rw [if_pos hlast, lineRun_last hlast]
      rfl
    · have hnext := Nat.lt_of_not_le hlast
      have hrow := List.getElem?_eq_getElem hirow
      have hmem := List.mem_of_getElem? hrow
      have hcell := List.getLast?_eq_some_getLast (hinv.closed hpart _ hmem)
      have hcol := (hinv.numbered _ hmem).last_col hcell
      rw [if_neg hlast, hrow]
      dsimp only
      rw [hcell]
      dsimp only
      rw [hcol, lineRun_eq hrow hnext]
      -- A row that is too short, or one with a cell that is not a line, stops the run.
      by_cases hshort : tbl.rows[irow].cells.length < tbl.opts.cols
      · have hline : tbl.rows[irow].lineOnly tbl.opts.cols = false := by
          rw [TblRow.lineOnly, decide_eq_false (Nat.not_le_of_lt hshort), Bool.false_and]
        rw [if_pos hshort, hline]
        rfl
      · have hline : tbl.rows[irow].lineOnly tbl.opts.cols =
            !(tbl.rows[irow].cells.any fun cp => !cp.pos.isHoriz) := by
          rw [TblRow.lineOnly, decide_eq_true (Nat.le_of_not_lt hshort), Bool.true_and,
            List.not_any_eq_all_not]
          simp only [Bool.not_not]
        rw [if_neg hshort, hline]
        cases tbl.rows[irow].cells.any fun cp => !cp.pos.isHoriz with
        | true => rfl
        | false =>
          -- A row of lines only is printed at once, and the next row is tried.
          have hrun : lineRun (newspan tbl irow .DATA) (irow + 1) = lineRun tbl (irow + 1) := rfl
          rw [if_neg Bool.false_ne_true, Bool.not_false, if_pos rfl,
            ih (newspan_inv hinv hpart hirow .DATA) hpart hnext (by
              show tbl.rows.length - (irow + 1) ≤ n
              omega), hrun, lineSpans_succ, List.append_assoc, Nat.add_assoc, Nat.add_comm 1]
          rfl

end

/-! ## §6 What a line keeps -/

/-- The layout row of the last data row. -/
def Tbl.lastLayout (tbl : Tbl) : Nat := (tbl.spans.head?.map TblSpan.layout).getD 0

/-- A line with data adds some data rows, and changes no layout row but that of the last one. -/
structure DataFrame (tbl : Tbl) (new : List (Nat × SpanPos)) (tbl' : Tbl) : Prop where
  part : tbl'.part = .DATA ∨ tbl'.part = .CDATA
  rows : RowsKept tbl'.lastLayout tbl.rows tbl'.rows
  spans : tbl'.spans.map TblSpan.place = new ++ tbl.spans.map TblSpan.place

/-- The layout row for the next data row. -/
def Tbl.cursor (tbl : Tbl) : Nat :=
  nextRow tbl (tbl.spans.find? fun sp => sp.pos = .DATA)

/-- The data rows that a data line adds, the last one first: none, one that is a horizontal line,
    or one for each of some consecutive layout rows. -/
inductive AddsRows (tbl : Tbl) : List (Nat × SpanPos) → Prop
  | none : AddsRows tbl []
  | line {pos : SpanPos} (h : pos ≠ .DATA) (hlt : tbl.cursor < tbl.rows.length) :
      AddsRows tbl [(tbl.cursor, pos)]
  | data (k : Nat) (hlt : tbl.cursor + k < tbl.rows.length) :
      AddsRows tbl ((List.range' tbl.cursor (k + 1)).reverse.map fun r => (r, .DATA))

section

variable {p : CStr} {tbl : Tbl}

/-- The lines that `tblData` treats in a special way. -/
def SpecialLine (p : CStr) : Prop :=
  charAt p 1 = NUL ∧ (charAt p 0 = '.' ∨ charAt p 0 = '_' ∨ charAt p 0 = '=')

/-- Any other line is split into fields behind the rows of lines. -/
theorem tblData_eq (hinv : tbl.Inv) (hpart : tbl.part ≠ .LAYOUT)
    (hcursor : tbl.cursor < tbl.rows.length) (hp : ¬ SpecialLine p) (pos : Nat) :
    tblData p tbl pos = dataLoop p (p.length + 1)
      (newspan { tbl with spans := lineSpans tbl.cursor (lineRun tbl tbl.cursor) ++ tbl.spans }
        (tbl.cursor + lineRun tbl tbl.cursor) .DATA) pos := by
  have hdot : ¬ (charAt p 1 = NUL ∧ charAt p 0 = '.') := fun h => hp ⟨h.1, .inl h.2⟩
  have hline : ¬ (charAt p 1 = NUL ∧ (charAt p 0 = '_' ∨ charAt p 0 = '=')) :=
    fun h => hp ⟨h.1, .inr h.2⟩
  have hrows := lineRows_eq (tbl.rows.length + 1) hinv hpart hcursor (by omega)
  rw [Tbl.cursor] at hcursor hrows
  unfold tblData
  dsimp only
  rw [if_neg (Nat.not_le_of_lt hcursor), if_neg hdot, if_neg hline, hrows, Res.ok_bind]
  rfl

/-- The data rows for rows of lines and for a data line. -/
theorem newspan_place (tbl : Tbl) (irow k : Nat) :
    (newspan { tbl with spans := lineSpans irow k ++ tbl.spans } (irow + k) .DATA).spans.map
        TblSpan.place =
      ((List.range' irow (k + 1)).reverse.map fun r => (r, SpanPos.DATA)) ++
        tbl.spans.map TblSpan.place := by
  rw [newspan, List.map_cons, List.map_append, lineSpans, List.map_map, List.range'_1_concat,
    List.reverse_concat, List.map_cons, List.cons_append]
  rfl

/-- A data line. -/
theorem tblData_frame (p : CStr) (pos : Nat) (hinv : tbl.Inv) (hpart : tbl.part = .DATA) :
    Ensures (tblData p tbl pos) fun tbl' => ∃ new, AddsRows tbl new ∧ DataFrame tbl new tbl' ∧
      (new = [] → tbl' = tbl) := by
  by_cases hcursor : tbl.cursor < tbl.rows.length
  · by_cases hp : SpecialLine p
    · unfold tblData
      -- A line of the input that stands for a line of the table.
      dsimp only
      apply Ensures.ite (fun _ => Ensures.error_iff.mpr trivial)
      intro _
      apply Ensures.ite
      · intro _
        exact Ensures.pure_iff.mpr ⟨[], .none, ⟨.inl hpart, .refl _ _, rfl⟩, fun _ => rfl⟩
      · intro hdot
        rw [if_pos ⟨hp.1, hp.2.resolve_left fun h => hdot ⟨hp.1, h⟩⟩]
        have hne : (if charAt p 0 = '_' then SpanPos.HORIZ else .DHORIZ) ≠ .DATA := by
          split <;> decide
        exact Ensures.pure_iff.mpr ⟨_, .line hne hcursor, ⟨.inl hpart, .refl _ _, rfl⟩,
          fun h => absurd h (List.cons_ne_nil _ _)⟩
    · -- A line with fields; rows of lines may come before it.
      rw [tblData_eq hinv (by rw [hpart]; decide) hcursor hp pos]
      have hlt := lineRun_lt hcursor
      refine (dataLoop_frame p _ pos rfl).mono fun tbl' hframe => ?_
      obtain ⟨new, prev, hspans, hprev⟩ := hframe.spans
      refine ⟨_, .data (lineRun tbl tbl.cursor) hlt, ⟨?_, ?_, ?_⟩, fun h => absurd h ?_⟩
      · rw [← hpart]
        exact hframe.part
      · rw [Tbl.lastLayout, hspans]
        exact hframe.rows
      · rw [hspans, List.map_cons, hprev, ← newspan_place tbl tbl.cursor (lineRun tbl tbl.cursor)]
        rfl
      · rw [List.range'_1_concat, List.reverse_concat]
        exact List.cons_ne_nil _ _
  · -- Without a row in the layout, nothing can be read.
    rw [Tbl.cursor] at hcursor
    unfold tblData
    dsimp only
    rw [if_pos (Nat.le_of_not_lt hcursor)]
    exact Ensures.error_iff.mpr trivial

/-- A line of a text block. -/
theorem tblCdata_frame (p : CStr) (pos : Nat) (hpart : tbl.part = .CDATA) :
    Ensures (tblCdata p tbl pos) fun tbl' => DataFrame tbl [] tbl' ∧ tbl.spans ≠ [] := by
  unfold tblCdata
  cases hspans : tbl.spans with
  | nil => exact Ensures.error_iff.mpr trivial
  | cons dp prev =>
    -- A word is appended to the last cell and does not change the other lines.
    have hword : ∀ {q : Nat} {dp' : TblSpan}, modifyLastDat (appendBlock (p.drop q)) dp = some dp' →
        DataFrame tbl [] { tbl with spans := dp' :: prev } := by
      intro q dp' hdp'
      obtain ⟨dat, -, rfl⟩ := Option.map_eq_some_iff.mp hdp'
      refine ⟨.inr hpart, .refl _ _, ?_⟩
      rw [hspans]
      rfl
    -- Behind the end of the text block, the line goes on with data.
    have hdata : ∀ q, Ensures (dataLoop p (p.length + 1)
        { tbl with spans := dp :: prev, part := .DATA } q) fun tbl' => DataFrame tbl [] tbl' := by
      intro q
      refine (dataLoop_frame p _ q rfl).mono fun tbl' hframe => ?_
      obtain ⟨new, prev', hspans', hprev⟩ := hframe.spans
      refine ⟨hframe.part, ?_, ?_⟩
      · rw [Tbl.lastLayout, hspans']
        exact hframe.rows
      · rw [hspans', hspans, List.map_cons, hprev]
        rfl
    have hne : dp :: prev ≠ [] := List.cons_ne_nil _ _
    apply Ensures.ite
    · intro _
      dsimp only
      apply Ensures.ite (fun _ => (hdata _).mono fun _ h => ⟨h, hne⟩)
      intro _
      apply Ensures.ite
      · intro _
        refine Ensures.pure_iff.mpr ⟨⟨.inl rfl, .refl _ _, ?_⟩, hne⟩
        rw [hspans]
        rfl
      · intro _
        split
        · exact Ensures.error_iff.mpr trivial
        · next hdp' => exact Ensures.pure_iff.mpr ⟨hword hdp', hne⟩
    · intro _
      split
      · exact Ensures.error_iff.mpr trivial
      · next hdp' => exact Ensures.pure_iff.mpr ⟨hword hdp', hne⟩

theorem tblRead_layout {X : Type} (env : Env X) (hpart : tbl.part = .LAYOUT) (p : CStr) (pos : Nat) :
    tblRead p env tbl pos = tblLayout env p tbl pos := by
  rw [tblRead, hpart, if_neg (by decide), readSection]
  simp only [hpart]

theorem tblRead_data {X : Type} (env : Env X) (hpart : tbl.part = .DATA) (p : CStr) (pos : Nat) :
    tblRead p env tbl pos = tblData p tbl pos := by
  rw [tblRead, hpart, if_neg (by decide), readSection]
  simp only [hpart]

theorem tblRead_cdata {X : Type} (env : Env X) (hpart : tbl.part = .CDATA) (p : CStr) (pos : Nat) :
    tblRead p env tbl pos = tblCdata p tbl pos := by
  rw [tblRead, hpart, if_neg (by decide), readSection]
  simp only [hpart]

theorem tblLayout_state {X : Type} (env : Env X) (hpart : tbl.part = .LAYOUT) (p : CStr) (pos : Nat) :
    Ensures (tblLayout env p tbl pos) LayoutState :=
  (tblLayout_keepsRows env p pos (List.forall_mem_nil _) ⟨List.nil_prefix, rfl⟩ hpart).mono
    fun _ h => h.2

/-- Where data can be read, there is a layout.  By induction on the lines that have been read. -/
theorem Tbl.Reachable.rows_ne_nil (h : tbl.Reachable) :
    tbl.part = .OPTS ∨ tbl.part = .LAYOUT ∨ tbl.rows ≠ [] := by
  induction h with
  | alloc => exact .inl rfl
  | restart _ _ => exact .inr (.inl rfl)
  | @read X env p pos tbl tbl' hreach hread ih =>
    -- A layout either goes on in the next line or has delivered a row.
    have hlayout : ∀ {tbl tbl' : Tbl} {pos : Nat}, tbl.part = .LAYOUT →
        tblLayout env p tbl pos = .ok tbl' →
        tbl'.part = .OPTS ∨ tbl'.part = .LAYOUT ∨ tbl'.rows ≠ [] := by
      intro tbl tbl' pos hpart heq
      rcases (tblLayout_state env hpart p pos).of_eq_ok heq with hpart' | ⟨-, hrows⟩
      · exact .inr (.inl hpart')
      · exact .inr (.inr hrows)
    cases hpart : tbl.part with
    | OPTS =>
      rw [tblRead, if_pos hpart] at hread
      split at hread
      · obtain ⟨⟨tbl1, pos1⟩, hoption, hread⟩ := Res.bind_eq_ok.mp hread
        obtain ⟨-, hpart1⟩ := (tblOption_inv p pos hreach.inv.enterLayout).of_eq_ok hoption
        dsimp only at hread hpart1
        -- The line may end behind the options.
        split at hread
        · cases hread
          exact .inr (.inl hpart1)
        · rw [readSection] at hread
          simp only [hpart1] at hread
          exact hlayout hpart1 hread
      · exact hlayout rfl hread
    | LAYOUT =>
      rw [tblRead_layout env hpart] at hread
      exact hlayout hpart hread
    | DATA =>
      rw [tblRead_data env hpart] at hread
      -- A line of data keeps the rows of the layout.
      obtain ⟨new, -, hframe, -⟩ := (tblData_frame p pos hreach.inv hpart).of_eq_ok hread
      refine .inr (.inr fun hnil => ?_)
      have hlen := hframe.rows.length
      rw [hnil] at hlen
      rcases ih with ih | ih | ih
      · exact absurd (hpart.symm.trans ih) (by decide)
      · exact absurd (hpart.symm.trans ih) (by decide)
      · exact ih (List.length_eq_zero_iff.mp hlen.symm)
    | CDATA =>
      rw [tblRead_cdata env hpart] at hread
      obtain ⟨hframe, -⟩ := (tblCdata_frame p pos hpart).of_eq_ok hread
      refine .inr (.inr fun hnil => ?_)
      have hlen := hframe.rows.length
      rw [hnil] at hlen
      rcases ih with ih | ih | ih
      · exact absurd (hpart.symm.trans ih) (by decide)
      · exact absurd (hpart.symm.trans ih) (by decide)
      · exact ih (List.length_eq_zero_iff.mp hlen.symm)

/-- The layout row for the next data row exists. -/
theorem Tbl.Inv.cursor_lt (h : tbl.Inv) (hrows : tbl.rows ≠ []) : tbl.cursor < tbl.rows.length := by
  rw [Tbl.cursor]
  cases hfind : tbl.spans.find? fun sp => sp.pos = .DATA with
  | none => exact List.length_pos_iff.mpr hrows
  | some sp =>
    obtain ⟨row, hrow, -⟩ := h.spans sp (List.mem_of_find?_eq_some hfind)
    rw [nextRow]
    split
    · assumption
    · exact (List.getElem?_eq_some_iff.mp hrow).1

/-! ## §7 The fields of a data line -/

/-- What a data line does according to the manual page: it is split into fields, and appends a data
    row in which each field has got a data cell of its own, in the next column that is not a
    spanner, as long as there are columns.  The text is that of the field, stripped if requested.  A
    text block is opened if and only if the field at the end of the line opens it. -/
def FieldsStored (p : CStr) (tbl : Tbl) (pos : Nat) : Prop :=
  ∃ fields tbl' dp prev row, Splits p tbl.opts.tab pos fields ∧ tblData p tbl pos = .ok tbl' ∧
    tbl'.spans = dp :: prev ∧ dp.pos = .DATA ∧ tbl.rows[dp.layout]? = some row ∧
    dp.dats.map TblDat.content =
      fieldContents tbl.opts p (slots row.cells tbl.opts.cols 0) fields ∧
    (tbl'.part = .CDATA ↔ ∃ field ∈ fields, OpensBlock tbl.opts p field)

/-- The line can be split into fields, and these can be stored in the columns of the layout row for
    data, below the data rows that are already there. -/
def LineStorable (p : CStr) (tbl : Tbl) (pos : Nat) : Prop :=
  ∃ fields row, Splits p tbl.opts.tab pos fields ∧
    tbl.rows[tbl.cursor + lineRun tbl tbl.cursor]? = some row ∧
    Storable tbl.opts p
      ((lineSpans tbl.cursor (lineRun tbl tbl.cursor) ++ tbl.spans).map (TblSpan.outline tbl.rows))
      (slots row.cells tbl.opts.cols 0) fields

/-- **Field splitting.**  The fields of a data line are stored if and only if they are storable. -/
theorem tblData_fieldsStored_iff (hs : NUL ∉ p) (hreach : tbl.Reachable) (hpart : tbl.part = .DATA)
    (hp : ¬ SpecialLine p) (pos : Nat) : FieldsStored p tbl pos ↔ LineStorable p tbl pos := by
  have hinv := hreach.inv
  have hnot : tbl.part ≠ .LAYOUT := by rw [hpart]; decide
  have hrows : tbl.rows ≠ [] := by
    rcases hreach.rows_ne_nil with h | h | h
    · exact absurd (hpart.symm.trans h) (by decide)
    · exact absurd h hnot
    · exact h
  have hcursor := hinv.cursor_lt hrows
  have hlt := lineRun_lt hcursor
  have hrow := List.getElem?_eq_getElem hlt
  have heq := tblData_eq hinv hnot hcursor hp pos
  -- The new data row does not have any data cells yet.
  have hlines := (lineRows_inv _ hinv hnot hcursor).of_eq_ok
    (lineRows_eq (tbl.rows.length + 1) hinv hnot hcursor (by omega))
  have hspan := newspan_inv hlines.1 hlines.2.1 hlines.2.2 .DATA
  have hiff : ∀ {fields : List (Nat × Nat)}, Splits p tbl.opts.tab pos fields →
      ((∃ tbl', tblData p tbl pos = .ok tbl' ∧ StoredFrom tbl.opts p
          (slots tbl.rows[tbl.cursor + lineRun tbl tbl.cursor].cells tbl.opts.cols 0)
          { layout := tbl.cursor + lineRun tbl tbl.cursor } fields tbl') ↔
        Storable tbl.opts p ((lineSpans tbl.cursor (lineRun tbl tbl.cursor) ++ tbl.spans).map
          (TblSpan.outline tbl.rows))
          (slots tbl.rows[tbl.cursor + lineRun tbl tbl.cursor].cells tbl.opts.cols 0) fields) := by
    intro fields hsplits
    rw [heq]
    exact dataLoop_storedFrom_iff hs hsplits _ (by omega) rfl hspan hpart rfl hrow
  constructor
  · rintro ⟨fields, tbl', dp, prev, row, hsplits, hok, hspans, -, hrow', hcontents, hblock⟩
    refine ⟨fields, _, hsplits, hrow, (hiff hsplits).mp ⟨tbl', hok, ?_, hblock⟩⟩
    rw [heq] at hok
    obtain ⟨new, prev', hspans', -⟩ := ((dataLoop_frame p _ pos rfl).of_eq_ok hok).spans
    obtain ⟨rfl, rfl⟩ := List.cons.inj (hspans.symm.trans hspans')
    cases hrow.symm.trans hrow'
    exact ⟨new, _, hspans', hcontents⟩
  · rintro ⟨fields, row, hsplits, hrow', hstorable⟩
    cases hrow.symm.trans hrow'
    obtain ⟨tbl', hok, ⟨new, prev', hspans', hcontents⟩, hblock⟩ := (hiff hsplits).mpr hstorable
    exact ⟨fields, tbl', _, prev', _, hsplits, hok, hspans', rfl, hrow, hcontents, hblock⟩

/-- Two fields for two columns. -/
theorem tblData_fieldsStored_pair :
    FieldsStored "x\ty".toList pairTbl 0 ↔ LineStorable "x\ty".toList pairTbl 0 :=
  tblData_fieldsStored_iff (by decide)
    (.lines .alloc (show readLines ["l l.", "a\tb"] tblAlloc = .ok pairTbl by decide +kernel))
    (by decide +kernel) (by unfold SpecialLine; decide) 0

/-- The beginning of a text block in the middle of a line. -/
def blockInside : CStr := "T\x7b\tb".toList

/-- It opens a text block, and the field behind it is stored as an empty one. -/
theorem tblData_fieldsStored_block : ¬ ∀ (p : CStr) (tbl : Tbl), NUL ∉ p → tbl.Reachable →
    tbl.part = .DATA → ¬ SpecialLine p → FieldsStored p tbl 0 := by
  intro h
  obtain ⟨fields, tbl', dp, prev, row, hsplits, hok, hspans, -, -, hcontents, -⟩ :=
    h blockInside pairTbl (by decide)
      (.lines .alloc (show readLines ["l l.", "a\tb"] tblAlloc = .ok pairTbl by decide +kernel))
      (by decide +kernel) (by unfold SpecialLine; decide)
  -- The first data cell does not have a text.
  have hstring : (tblData blockInside pairTbl 0).toOption.bind (fun tbl' =>
      tbl'.spans.head?.bind fun dp => dp.dats.head?.map TblDat.string) = some none := by
    decide +kernel
  rw [hok] at hstring
  change (tbl'.spans.head?.bind fun dp => dp.dats.head?.map TblDat.string) = some none at hstring
  rw [hspans] at hstring
  obtain ⟨dat, hdat, hnone⟩ := Option.map_eq_some_iff.mp hstring
  -- So the first field is a text block.
  cases hsplits with
  | nil hnul => exact absurd hnul (by decide)
  | @cons _ j _ hnul hfield _ =>
    have hj : j = 2 := hfield.unique (by decide) (.of_cellEnd (by decide)
      (show cellEnd blockInside '\t' 5 0 = .ok 2 by decide +kernel) (by decide))
    subst hj
    have hhead := congrArg List.head? hcontents
    rw [List.head?_map, hdat, fieldContents, List.head?_map] at hhead
    cases hcolumns : slots row.cells pairTbl.opts.cols 0 with
    | nil =>
      rw [hcolumns] at hhead
      cases hhead
    | cons column columns =>
      rw [hcolumns] at hhead
      have hcontent := congrArg Prod.snd (Option.some.inj hhead)
      have hopens : ¬ OpensBlock pairTbl.opts blockInside (0, 2) := fun h => absurd h.2 (by decide)
      dsimp only at hcontent
      rw [TblDat.content, hnone, fieldString, if_neg hopens] at hcontent
      cases hcontent

end

end Mandoc
