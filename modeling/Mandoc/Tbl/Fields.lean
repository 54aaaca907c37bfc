import Mandoc.Roff.EscapeArgs
import Mandoc.Tbl.Invariant

/-!
# The fields of a data line

A data line consists of fields that are separated by the character set with the option `tab`.  The
function `getdata` of `tbl_data.c` looks for the end of a field, skipping over escape sequences,
strips the blanks around the text if the option `nospaces` is set, and copies what is left.

- `FieldEnds` says where a field ends, independently of the loop that looks for its end.
- `fieldBounds_iff` says when the copy begins and ends inside the field.
-/

namespace Mandoc

section

variable {p : CStr} {tab : Char}

/-! ## §1 The end of a field -/

/-- The field that begins at the first index ends at the second one, and all the escape sequences
    in it end inside the line. -/
inductive FieldEnds (p : CStr) (tab : Char) : Nat → Nat → Prop
  /-- The field ends at a separator and at the end of the line. -/
  | stop {i : Nat} (h : charAt p i = NUL ∨ charAt p i = tab) (hi : i ≤ p.length) :
      FieldEnds p tab i i
  /-- An ordinary character belongs to the field. -/
  | char {i j : Nat} (hnul : charAt p i ≠ NUL) (htab : charAt p i ≠ tab)
      (hesc : charAt p i ≠ '\\') (h : FieldEnds p tab (i + 1) j) : FieldEnds p tab i j
  /-- An escape sequence belongs to the field, and may contain separators. -/
  | escape {i j : Nat} {esc : EscResult} (htab : charAt p i ≠ tab) (hc : charAt p i = '\\')
      (hesc : mandocEscape p i = .ok esc) (hle : esc.rend ≤ p.length)
      (h : FieldEnds p tab esc.rend j) : FieldEnds p tab i j

/-- An escape sequence is not empty. -/
theorem lt_rend {i : Nat} {esc : EscResult} (hs : NUL ∉ p) (hc : charAt p i = '\\')
    (h : mandocEscape p i = .ok esc) : i < esc.rend := by
  have hne : charAt p i ≠ NUL := by
    rw [hc]
    decide
  obtain ⟨-, hb⟩ := (mandocEscape_bounded hs hne).of_eq_ok h
  exact Nat.lt_of_le_of_lt hb.resc_ge hb.resc_lt

theorem FieldEnds.bounds (hs : NUL ∉ p) {i j : Nat} (h : FieldEnds p tab i j) :
    i ≤ j ∧ j ≤ p.length ∧ (charAt p j = NUL ∨ charAt p j = tab) := by
  induction h with
  | stop h hi => exact ⟨Nat.le_refl _, hi, h⟩
  | char _ _ _ _ ih => exact ⟨Nat.le_of_succ_le ih.1, ih.2⟩
  | escape _ hc hesc _ _ ih => exact ⟨(lt_rend hs hc hesc).le.trans ih.1, ih.2⟩

theorem cellEnd_succ (p : CStr) (tab : Char) (n i : Nat) : cellEnd p tab (n + 1) i =
    if charAt p i = NUL ∨ charAt p i = tab then .ok i
    else if charAt p i = '\\' then mandocEscape p i >>= fun esc => cellEnd p tab n esc.rend
    else cellEnd p tab n (i + 1) := rfl

/-- The loop finds the end of a field.  By induction on the field. -/
theorem FieldEnds.cellEnd (hs : NUL ∉ p) {i j : Nat} (h : FieldEnds p tab i j) :
    ∀ n, p.length - i < n → cellEnd p tab n i = .ok j := by
  induction h with
  | stop h _ =>
    intro n hn
    obtain ⟨n, rfl⟩ := Nat.exists_eq_succ_of_ne_zero (Nat.ne_of_gt (Nat.zero_lt_of_lt hn))
    rw [cellEnd_succ, if_pos h]
  | char hnul htab hesc h ih =>
    intro n hn
    obtain ⟨n, rfl⟩ := Nat.exists_eq_succ_of_ne_zero (Nat.ne_of_gt (Nat.zero_lt_of_lt hn))
    have hlt := lt_length_of_charAt_ne_nul hnul
    rw [cellEnd_succ, if_neg (not_or.mpr ⟨hnul, htab⟩), if_neg hesc]
    exact ih n (by omega)
  | @escape i j esc htab hc hesc hle h ih =>
    intro n hn
    obtain ⟨n, rfl⟩ := Nat.exists_eq_succ_of_ne_zero (Nat.ne_of_gt (Nat.zero_lt_of_lt hn))
    have hnul : charAt p i ≠ NUL := by
      rw [hc]
      decide
    have hlt := lt_length_of_charAt_ne_nul hnul
    have hend := lt_rend hs hc hesc
    rw [cellEnd_succ, if_neg (not_or.mpr ⟨hnul, htab⟩), if_pos hc, hesc, Res.ok_bind]
    exact ih n (by omega)

/-- The loop does not go back. -/
theorem le_cellEnd (hs : NUL ∉ p) {n i j : Nat} (h : cellEnd p tab n i = .ok j) : i ≤ j := by
  induction n generalizing i with
  | zero => cases h
  | succ n ih =>
    rw [cellEnd_succ] at h
    split at h
    · cases h
      exact Nat.le_refl _
    · split at h
      · next hc =>
        obtain ⟨esc, hesc, h⟩ := Res.bind_eq_ok.mp h
        exact (lt_rend hs hc hesc).le.trans (ih h)
      · exact Nat.le_of_succ_le (ih h)

/-- What the loop finds is the end of a field unless it is outside the line. -/
theorem FieldEnds.of_cellEnd (hs : NUL ∉ p) {n i j : Nat} (h : Mandoc.cellEnd p tab n i = .ok j)
    (hj : j ≤ p.length) : FieldEnds p tab i j := by
  induction n generalizing i with
  | zero => cases h
  | succ n ih =>
    rw [cellEnd_succ] at h
    split at h
    · next hstop =>
      cases h
      exact .stop hstop hj
    · next hstop =>
      obtain ⟨hnul, htab⟩ := not_or.mp hstop
      split at h
      · next hc =>
        obtain ⟨esc, hesc, h⟩ := Res.bind_eq_ok.mp h
        exact .escape htab hc hesc ((le_cellEnd hs h).trans hj) (ih h)
      · next hc => exact .char hnul htab hc (ih h)

/-- A field has only one end. -/
theorem FieldEnds.unique (hs : NUL ∉ p) {i j k : Nat} (hj : FieldEnds p tab i j)
    (hk : FieldEnds p tab i k) : j = k := by
  have hj' := hj.cellEnd hs (p.length - i + 1) (Nat.lt_succ_self _)
  have hk' := hk.cellEnd hs (p.length - i + 1) (Nat.lt_succ_self _)
  rw [hj'] at hk'
  cases hk'
  rfl

/-! ## §2 Stripping blanks -/

/-- The part of `getdata` that strips leading and trailing spaces, if requested: the values of
    `startpos` and `endpos` behind it. -/
def trimField (opts : TblOpts) (p : CStr) (startpos pos : Nat) : Nat × Nat :=
  if opts.opts.has TBL_OPT_NOSPACE then
    let start := skipWhile (· = ' ') p startpos
    (start, pos - ((slice p start pos).reverse.takeWhile (· = ' ')).length)
  else (startpos, pos)

/-- `getdata` copies what is left after stripping. -/
theorem addDat_eq (p : CStr) (tbl : Tbl) (dp : TblSpan) (prev : List TblSpan)
    (cells : List TblCell) (icell : Nat) (cp : TblCell) (startpos pos : Nat) :
    addDat p tbl dp prev cells icell cp startpos pos =
      (if cp.pos = .DOWN ∨ slice p startpos pos = vertSpan then
        extendAbove tbl.rows cp.col prev else .ok prev) >>= fun prev =>
      fillDat p tbl dp prev { layout := icell, hspans := spanners (cells.drop (icell + 1)) }
        (trimField tbl.opts p startpos pos).1 (trimField tbl.opts p startpos pos).2 pos := by
  unfold addDat trimField
  refine bind_congr fun prev => ?_
  dsimp only
  split <;> rfl

/-- Only blanks are skipped. -/
theorem skipWhile_blank_of_ne {i : Nat} (h : charAt p i ≠ ' ') :
    skipWhile (· = ' ') p i = i := by
  have hnil : (p.drop i).takeWhile (fun c => decide (c = ' ')) = [] := by
    cases hd : p.drop i with
    | nil => rfl
    | cons c t =>
      have hc : charAt p i = c := by
        rw [← Nat.add_zero i, ← charAt_drop, hd]
        rfl
      rw [List.takeWhile_cons_of_neg]
      simpa [hc] using h
  rw [skipWhile, hnil, List.length_nil, Nat.add_zero]

/-- A blank is skipped. -/
theorem skipWhile_blank {i : Nat} (h : charAt p i = ' ') :
    skipWhile (· = ' ') p i = skipWhile (· = ' ') p (i + 1) := by
  have hlt : i < p.length := lt_length_of_charAt_ne_nul (by rw [h]; decide)
  rw [charAt_eq_getElem hlt] at h
  unfold skipWhile
  rw [List.drop_eq_getElem_cons hlt, List.takeWhile_cons_of_pos (by simpa using h),
    List.length_cons]
  omega

/-- Skipping blanks at the beginning of a field stays inside the field unless a blank at its
    beginning is the separator.  By induction on the field. -/
theorem FieldEnds.skipWhile_le (hs : NUL ∉ p) {i j : Nat} (h : FieldEnds p tab i j)
    (hblank : ¬ (tab = ' ' ∧ charAt p i = ' ')) : skipWhile (· = ' ') p i ≤ j := by
  have hle := (h.bounds hs).1
  by_cases hc : charAt p i = ' '
  · have htab : tab ≠ ' ' := fun ht => hblank ⟨ht, hc⟩
    clear hblank hc hle
    induction h with
    | stop hstop _ =>
      refine (skipWhile_blank_of_ne fun hb => ?_).le
      rw [hb] at hstop
      rcases hstop with hn | ht
      · exact absurd hn (by decide)
      · exact htab ht.symm
    | @char i j _ _ _ h ih =>
      by_cases hc : charAt p i = ' '
      · rw [skipWhile_blank hc]
        exact ih
      · rw [skipWhile_blank_of_ne hc]
        exact Nat.le_of_succ_le (h.bounds hs).1
    | @escape i j esc _ hc hesc _ h ih =>
      rw [skipWhile_blank_of_ne (by rw [hc]; decide)]
      exact (lt_rend hs hc hesc).le.trans (h.bounds hs).1
  · rw [skipWhile_blank_of_ne hc]
    exact hle

/-- What `getdata` keeps of the positions: the text that is copied begins and ends inside the
    field, and the field ends inside the line. -/
def FieldBounds (opts : TblOpts) (p : CStr) (startpos : Nat) : Prop :=
  ∃ pos, cellEnd p opts.tab (p.length + 1) startpos = .ok pos ∧ pos ≤ p.length ∧
    startpos ≤ (trimField opts p startpos pos).1 ∧
    (trimField opts p startpos pos).1 ≤ (trimField opts p startpos pos).2 ∧
    (trimField opts p startpos pos).2 ≤ pos

/-- The fields that end before the blank at their beginning is stripped: the separator is a blank,
    and blanks are to be stripped. -/
def BlankSeparator (opts : TblOpts) (p : CStr) (startpos : Nat) : Prop :=
  opts.opts.has TBL_OPT_NOSPACE = true ∧ opts.tab = ' ' ∧ charAt p startpos = ' '

instance (opts : TblOpts) (p : CStr) (startpos : Nat) : Decidable (BlankSeparator opts p startpos) :=
  inferInstanceAs (Decidable (_ ∧ _ ∧ _))

/-- Stripping stays inside a field. -/
theorem trimField_bounds (hs : NUL ∉ p) {opts : TblOpts} {i j : Nat}
    (h : FieldEnds p opts.tab i j) :
    (i ≤ (trimField opts p i j).1 ∧ (trimField opts p i j).1 ≤ (trimField opts p i j).2 ∧
      (trimField opts p i j).2 ≤ j) ↔ ¬ BlankSeparator opts p i := by
  unfold trimField BlankSeparator
  split
  · next hns =>
    constructor
    · rintro ⟨-, hle, hend⟩ ⟨-, htab, hc⟩
      -- The field is empty, and the blank behind it is skipped.
      have hj : j = i := h.unique hs (.stop (.inr (hc.trans htab.symm))
        (lt_length_of_charAt_ne_nul (by rw [hc]; decide)).le)
      have hskip := le_skipWhile (fun c => decide (c = ' ')) p (i + 1)
      rw [← skipWhile_blank hc] at hskip
      dsimp only at hle hend
      omega
    · intro hblank
      have hle := h.skipWhile_le hs fun hb => hblank ⟨hns, hb⟩
      have htrail := (List.takeWhile_prefix (l := (slice p (skipWhile (fun c => decide (c = ' ')) p i)
        j).reverse) fun c => decide (c = ' ')).length_le
      rw [List.length_reverse, slice, List.length_take] at htrail
      refine ⟨le_skipWhile _ p i, ?_, Nat.sub_le _ _⟩
      dsimp only
      rw [slice]
      omega
  · next hns =>
    exact iff_of_true ⟨Nat.le_refl _, (h.bounds hs).1, Nat.le_refl _⟩ fun hb => hns hb.1

/-- **Positions of a field.**  For any field of any line, the positions stay in order and inside
    the field if and only if all its escape sequences end inside the line, and the field does not
    begin with a blank that is both the separator and to be stripped. -/
theorem fieldBounds_iff (hs : NUL ∉ p) (opts : TblOpts) (startpos : Nat) :
    FieldBounds opts p startpos ↔
      (∃ j, FieldEnds p opts.tab startpos j) ∧ ¬ BlankSeparator opts p startpos := by
  constructor
  · rintro ⟨pos, hend, hle, hbounds⟩
    have h := FieldEnds.of_cellEnd hs hend hle
    exact ⟨⟨pos, h⟩, (trimField_bounds hs h).mp hbounds⟩
  · rintro ⟨⟨j, h⟩, hblank⟩
    refine ⟨j, h.cellEnd hs _ (by omega), (h.bounds hs).2.1, (trimField_bounds hs h).mpr hblank⟩

/-- Blanks around the text of a field. -/
theorem fieldBounds_words : FieldBounds { opts := TBL_OPT_NOSPACE } "one\t two ".toList 4 := by
  have hend : FieldEnds "one\t two ".toList '\t' 4 9 := .of_cellEnd (by decide)
    (show cellEnd "one\t two ".toList '\t' 10 4 = .ok 9 by decide +kernel) (by decide)
  exact (fieldBounds_iff (by decide) _ _).mpr ⟨⟨9, hend⟩, by decide⟩

/-- With a blank as the separator, an empty field has a negative length. -/
theorem fieldBounds_blank : ¬ ∀ (p : CStr) (opts : TblOpts) (startpos : Nat), NUL ∉ p →
    startpos ≤ p.length → FieldBounds opts p startpos := by
  intro h
  obtain ⟨pos, hend, -, -, hle, -⟩ := h " x".toList { opts := TBL_OPT_NOSPACE, tab := ' ' } 0
    (by decide) (by decide)
  have hend' : cellEnd " x".toList ' ' (" x".toList.length + 1) 0 = .ok 0 := rfl
  cases hend'.symm.trans hend
  exact absurd hle (by decide)

end

/-! ## §3 The columns of a data row -/

/-- The layout cells that are not spanners, with their places. -/
def cellSlots : List TblCell → Nat → List (Nat × CellPos)
  | [], _ => []
  | cp :: cells, place =>
    if cp.pos = .SPAN then cellSlots cells (place + 1)
    else (place, cp.pos) :: cellSlots cells (place + 1)

/-- The columns that the data cells of a row can use from a place on: the layout cells that are not
    spanners, and then new layout cells as long as the table has more columns. -/
def slots (cells : List TblCell) (cols place : Nat) : List (Nat × CellPos) :=
  cellSlots (cells.drop place) place ++
    (List.range' cells.length (cols - cells.length)).map fun col => (col, .LEFT)

theorem cellSlots_some {cells : List TblCell} {cp : TblCell} (place : Nat)
    (h : cells[spanners cells]? = some cp) : cellSlots cells place =
      (place + spanners cells, cp.pos) ::
        cellSlots (cells.drop (spanners cells + 1)) (place + spanners cells + 1) := by
  induction cells generalizing place with
  | nil => simp at h
  | cons c cells ih =>
    rw [spanners_cons] at h ⊢
    rw [cellSlots]
    by_cases hc : c.pos = .SPAN
    · rw [if_pos hc] at h ⊢
      rw [if_pos hc, ih (place + 1) h, List.drop_succ_cons]
      have hplace : place + 1 + spanners cells = place + (spanners cells + 1) := by omega
      rw [hplace]
    · rw [if_neg hc] at h ⊢
      cases h
      rw [if_neg hc, List.drop_succ_cons, List.drop_zero]
      rfl

theorem cellSlots_none {cells : List TblCell} (place : Nat) (h : cells[spanners cells]? = none) :
    cellSlots cells place = [] := by
  induction cells generalizing place with
  | nil => rfl
  | cons c cells ih =>
    rw [spanners_cons] at h
    rw [cellSlots]
    by_cases hc : c.pos = .SPAN
    · rw [if_pos hc] at h ⊢
      exact ih (place + 1) h
    · rw [if_neg hc] at h
      simp at h

/-- A layout cell is left. -/
theorem slots_some {cells : List TblCell} {cp : TblCell} {cols place : Nat}
    (h : cells[place + spanners (cells.drop place)]? = some cp) : slots cells cols place =
      (place + spanners (cells.drop place), cp.pos) ::
        slots cells cols (place + spanners (cells.drop place) + 1) := by
  rw [← List.getElem?_drop] at h
  rw [slots, cellSlots_some place h, List.drop_drop, ← Nat.add_assoc, List.cons_append]
  rfl

theorem slots_none {cells : List TblCell} {cols place : Nat}
    (h : cells[place + spanners (cells.drop place)]? = none) : slots cells cols place =
      (List.range' cells.length (cols - cells.length)).map fun col => (col, .LEFT) := by
  rw [← List.getElem?_drop] at h
  rw [slots, cellSlots_none place h, List.nil_append]

/-- The layout cell that is added to a row that is too short. -/
def leftCell (col : Nat) : TblCell := { pos := .LEFT, col := col }

/-- The columns behind an added layout cell. -/
theorem slots_leftCell (cells : List TblCell) (cols : Nat) :
    slots (cells ++ [leftCell cells.length]) cols (cells.length + 1) =
      (List.range' (cells.length + 1) (cols - (cells.length + 1))).map fun col => (col, .LEFT) := by
  have hlen : (cells ++ [leftCell cells.length]).length = cells.length + 1 := by
    rw [List.length_append, List.length_singleton]
  rw [slots, hlen, ← hlen, List.drop_length]
  rfl

/-- The table is ready for a data cell in a column: a layout cell has been added if necessary. -/
structure Ready (tbl : Tbl) (dp : TblSpan) (row : TblRow) (icell : Nat) (tbl' : Tbl) (row' : TblRow)
    (cp : TblCell) : Prop where
  inv : tbl'.Inv
  grown : (tbl' = tbl ∧ row' = row) ∨ (row.cells.length < tbl.opts.cols ∧
    row' = { row with cells := row.cells ++ [leftCell row.cells.length] } ∧
    tbl' = tbl.setRow dp.layout row')
  row : tbl'.rows[dp.layout]? = some row'
  cell : row'.cells[icell]? = some cp
  col : cp.col = icell
  place : icell = nextPlace dp.dats + spanners (row'.cells.drop (nextPlace dp.dats))

theorem Ready.same {tbl tbl' : Tbl} {dp : TblSpan} {row row' : TblRow} {icell : Nat} {cp : TblCell}
    (h : Ready tbl dp row icell tbl' row' cp) :
    tbl'.spans = tbl.spans ∧ tbl'.opts = tbl.opts ∧ tbl'.part = tbl.part := by
  rcases h.grown with ⟨rfl, -⟩ | ⟨-, -, rfl⟩
  · exact ⟨rfl, rfl, rfl⟩
  · exact ⟨rfl, rfl, rfl⟩

section

variable {p : CStr} {tbl : Tbl} {dp : TblSpan} {prev : List TblSpan} {row : TblRow} {i j : Nat}

/-- The beginning of `getdata`. -/
theorem getdata_start (hs : NUL ∉ p) (hspans : tbl.spans = dp :: prev)
    (hrow : tbl.rows[dp.layout]? = some row) (hfield : FieldEnds p tbl.opts.tab i j) :
    getdata p tbl i =
      match row.cells[nextPlace dp.dats + spanners (row.cells.drop (nextPlace dp.dats))]? with
      | some cp => addDat p tbl dp prev row.cells
          (nextPlace dp.dats + spanners (row.cells.drop (nextPlace dp.dats))) cp i j
      | none =>
        match row.cells.getLast? with
        | none => .error .null
        | some last =>
          if last.col + 1 < tbl.opts.cols then
            addDat p (tbl.setRow dp.layout { row with cells := row.cells ++ [leftCell (last.col + 1)] })
              dp prev (row.cells ++ [leftCell (last.col + 1)]) row.cells.length
              (leftCell (last.col + 1)) i j
          else .ok (tbl, p.length) := by
  unfold getdata
  rw [hspans]
  simp only [hfield.cellEnd hs _ (Nat.lt_succ_of_le (Nat.sub_le _ _)), Res.ok_bind, hrow]
  rfl

theorem TblRow.Numbered.last_col {cols : Nat} {last : TblCell} (h : row.Numbered cols)
    (hlast : row.cells.getLast? = some last) : last.col + 1 = row.cells.length := by
  have := h.nextCol_eq
  rwa [TblRow.nextCol, hlast] at this

/-- Without any column left, the rest of the line is discarded. -/
theorem getdata_full (hs : NUL ∉ p) (hinv : tbl.Inv) (hpart : tbl.part ≠ .LAYOUT)
    (hspans : tbl.spans = dp :: prev) (hrow : tbl.rows[dp.layout]? = some row)
    (hfield : FieldEnds p tbl.opts.tab i j)
    (hslots : slots row.cells tbl.opts.cols (nextPlace dp.dats) = []) :
    getdata p tbl i = .ok (tbl, p.length) := by
  have hmem := List.mem_of_getElem? hrow
  rw [getdata_start hs hspans hrow hfield]
  cases hcp : row.cells[nextPlace dp.dats + spanners (row.cells.drop (nextPlace dp.dats))]? with
  | some cp =>
    rw [slots_some hcp] at hslots
    exact absurd hslots (List.cons_ne_nil _ _)
  | none =>
    rw [slots_none hcp, List.map_eq_nil_iff, List.range'_eq_nil_iff] at hslots
    obtain ⟨last, hlast⟩ : ∃ last, row.cells.getLast? = some last :=
      ⟨_, List.getLast?_eq_some_getLast (hinv.closed hpart row hmem)⟩
    have hcol := (hinv.numbered row hmem).last_col hlast
    simp only [hlast]
    rw [if_neg (by omega)]

/-- With a column left, a data cell is added there. -/
theorem getdata_cell (hs : NUL ∉ p) (hinv : tbl.Inv) (hpart : tbl.part ≠ .LAYOUT)
    (hspans : tbl.spans = dp :: prev) (hrow : tbl.rows[dp.layout]? = some row)
    (hfield : FieldEnds p tbl.opts.tab i j) {icell : Nat} {pos : CellPos}
    {rest : List (Nat × CellPos)}
    (hslots : slots row.cells tbl.opts.cols (nextPlace dp.dats) = (icell, pos) :: rest) :
    ∃ tbl' row' cp, Ready tbl dp row icell tbl' row' cp ∧ cp.pos = pos ∧
      slots row'.cells tbl.opts.cols (icell + 1) = rest ∧
      getdata p tbl i = addDat p tbl' dp prev row'.cells icell cp i j := by
  have hmem := List.mem_of_getElem? hrow
  have hnumbered := hinv.numbered row hmem
  rw [getdata_start hs hspans hrow hfield]
  cases hcp : row.cells[nextPlace dp.dats + spanners (row.cells.drop (nextPlace dp.dats))]? with
  | some cp =>
    rw [slots_some hcp] at hslots
    obtain ⟨hhead, hrest⟩ := List.cons.inj hslots
    obtain ⟨hicell, hpos⟩ := Prod.mk.inj hhead
    rw [hicell] at hcp hrest
    refine ⟨tbl, row, cp, ⟨hinv, .inl ⟨rfl, rfl⟩, hrow, hcp, hnumbered.2 _ _ hcp, hicell.symm⟩,
      hpos, hrest, ?_⟩
    rw [hicell]
  | none =>
    rw [slots_none hcp] at hslots
    -- The layout row is too short.
    have hlt : row.cells.length < tbl.opts.cols := by
      by_contra hge
      rw [Nat.sub_eq_zero_of_le (Nat.le_of_not_lt hge)] at hslots
      exact absurd hslots (by simp)
    obtain ⟨last, hlast⟩ : ∃ last, row.cells.getLast? = some last :=
      ⟨_, List.getLast?_eq_some_getLast (hinv.closed hpart row hmem)⟩
    have hcol := hnumbered.last_col hlast
    have hcols : tbl.opts.cols - row.cells.length = tbl.opts.cols - (row.cells.length + 1) + 1 := by
      omega
    rw [hcols, List.range'_succ, List.map_cons] at hslots
    obtain ⟨hhead, hrest⟩ := List.cons.inj hslots
    obtain ⟨rfl, rfl⟩ := Prod.mk.inj hhead
    have hleft : (leftCell row.cells.length).pos ≠ .SPAN := by simp [leftCell]
    obtain ⟨row', hrow', -, hdats⟩ := hinv.spans dp (by rw [hspans]; exact List.mem_cons_self)
    cases hrow.symm.trans hrow'
    have hnext := hdats.next_le (Nat.zero_le _)
    rw [DatChain.next_zero] at hnext
    refine ⟨_, { row with cells := row.cells ++ [leftCell row.cells.length] },
      leftCell row.cells.length, ⟨hinv.appendCell hpart hrow rfl hlt hleft, .inr ⟨hlt, rfl, rfl⟩,
        List.getElem?_set_self (List.getElem?_eq_some_iff.mp hrow).1, List.getElem?_concat_length,
        rfl, ?_⟩, rfl, ?_, ?_⟩
    · dsimp only
      rw [spanners_drop_concat hnext hleft]
      rw [List.getElem?_eq_none_iff] at hcp
      have hspan := spanners_le (row.cells.drop (nextPlace dp.dats))
      rw [List.length_drop] at hspan
      omega
    · rw [← hrest]
      exact slots_leftCell row.cells tbl.opts.cols
    · simp only [hlast, hcol, if_pos hlt]

/-- The beginning of a text block. -/
def blockStart : CStr := ['T', '\x7b']

/-- The text of a field. -/
def fieldText (opts : TblOpts) (p : CStr) (field : Nat × Nat) : CStr :=
  slice p (trimField opts p field.1 field.2).1 (trimField opts p field.1 field.2).2

/-- What is copied for a field. -/
def copiedText (opts : TblOpts) (p : CStr) (field : Nat × Nat) : CStr :=
  copyField p (trimField opts p field.1 field.2).1 (trimField opts p field.1 field.2).2

/-- The data cell for a field. -/
def newDat (opts : TblOpts) (p : CStr) (cells : List TblCell) (icell : Nat) (field : Nat × Nat) :
    TblDat :=
  let dat : TblDat := { layout := icell, hspans := spanners (cells.drop (icell + 1)) }
  if fieldText opts p field = blockStart then dat
  else
    { dat with string := some (copiedText opts p field), pos := datPos (copiedText opts p field) }

/-- Empty fields before a blank separator for which a part of the remaining line is copied: there is
    more than blanks in it. -/
def TakesRest (opts : TblOpts) (p : CStr) (startpos : Nat) : Prop :=
  BlankSeparator opts p startpos ∧ skipWhile (· = ' ') p startpos < p.length

instance (opts : TblOpts) (p : CStr) (startpos : Nat) : Decidable (TakesRest opts p startpos) :=
  inferInstanceAs (Decidable (_ ∧ _))

/-- The table behind a field: there is one more data cell, or a text block has been opened, too. -/
def storedTbl (tbl : Tbl) (dp : TblSpan) (prev : List TblSpan) (dat : TblDat) (text : CStr) : Tbl :=
  { tbl with
    spans := { dp with dats := dp.dats ++ [dat] } :: prev
    part := if text = blockStart then .CDATA else tbl.part }

/-- The positions of an empty field before a blank separator are in the wrong order. -/
theorem trimField_blank (hs : NUL ∉ p) {opts : TblOpts} (hfield : FieldEnds p opts.tab i j)
    (hblank : BlankSeparator opts p i) : (trimField opts p i j).2 < (trimField opts p i j).1 := by
  by_contra hle
  refine (trimField_bounds hs hfield).mp ⟨?_, Nat.le_of_not_lt hle, ?_⟩ hblank
  · unfold trimField
    split
    · exact le_skipWhile _ p i
    · exact Nat.le_refl _
  · unfold trimField
    split
    · exact Nat.sub_le _ _
    · exact Nat.le_refl _

theorem fieldText_blank (hs : NUL ∉ p) {opts : TblOpts} (hfield : FieldEnds p opts.tab i j)
    (hblank : BlankSeparator opts p i) : fieldText opts p (i, j) = [] := by
  have hlt := trimField_blank hs hfield hblank
  rw [fieldText, slice, Nat.sub_eq_zero_of_le hlt.le, List.take_zero]

/-- **What is copied is the text of the field**, unless the field is empty and the rest of the line
    is taken for it. -/
theorem copiedText_eq_iff (hs : NUL ∉ p) {opts : TblOpts} (hfield : FieldEnds p opts.tab i j) :
    copiedText opts p (i, j) = fieldText opts p (i, j) ↔ ¬ TakesRest opts p i := by
  by_cases hblank : BlankSeparator opts p i
  · have hstart : (trimField opts p i j).1 = skipWhile (· = ' ') p i := by
      rw [trimField, if_pos hblank.1]
    rw [fieldText_blank hs hfield hblank, copiedText, copyField,
      if_pos (trimField_blank hs hfield hblank), hstart, List.drop_eq_nil_iff, TakesRest,
      and_iff_right hblank, Nat.not_lt]
  · obtain ⟨-, hle, -⟩ := (trimField_bounds hs hfield).mpr hblank
    have hcopy : copiedText opts p (i, j) = fieldText opts p (i, j) :=
      if_neg (Nat.not_lt_of_le hle)
    exact iff_of_true hcopy fun h => hblank h.1

/-- A data cell is added for a field. -/
theorem fillDat_field (cells : List TblCell) (icell : Nat) :
    fillDat p tbl dp prev { layout := icell, hspans := spanners (cells.drop (icell + 1)) }
        (trimField tbl.opts p i j).1 (trimField tbl.opts p i j).2 j =
      .ok (storedTbl tbl dp prev (newDat tbl.opts p cells icell (i, j)) (fieldText tbl.opts p (i, j)),
        if fieldText tbl.opts p (i, j) = blockStart ∨ charAt p j = NUL then j else j + 1) := by
  unfold fillDat storedTbl newDat
  by_cases htext : fieldText tbl.opts p (i, j) = blockStart
  · simp only [htext, true_or, if_true]
    exact if_pos htext
  · simp only [htext, false_or]
    exact if_neg htext

end

/-! ## §4 The states of the loop over the fields -/

/-- The tables and the positions that can occur while the fields of a line are read. -/
inductive FieldReachable (p : CStr) : Tbl → Nat → Prop where
  /-- The first field of a data line. -/
  | data {tbl tbl' : Tbl} {irow : Nat} (pos : Nat) : tbl.Reachable → tbl.part = .DATA →
      nextRow tbl (tbl.spans.find? fun sp => sp.pos = .DATA) < tbl.rows.length →
      lineRows (tbl.rows.length + 1) tbl (nextRow tbl (tbl.spans.find? fun sp => sp.pos = .DATA)) =
        .ok (tbl', irow) → FieldReachable p (newspan tbl' irow .DATA) pos
  /-- The first field behind a text block. -/
  | cdata {tbl : Tbl} (pos : Nat) : tbl.Reachable → tbl.part = .CDATA →
      FieldReachable p { tbl with part := .DATA } pos
  /-- The next field. -/
  | field {tbl tbl' : Tbl} {i i' : Nat} : FieldReachable p tbl i →
      getdata p tbl i = .ok (tbl', i') → FieldReachable p tbl' i'

/-- The invariant holds between the fields, too. -/
theorem FieldReachable.inv {p : CStr} {tbl : Tbl} {i : Nat} (h : FieldReachable p tbl i) :
    tbl.Inv ∧ tbl.part ≠ .LAYOUT := by
  induction h with
  | data pos hreach hpart hirow hrows =>
    obtain ⟨h', hpart', hirow'⟩ := (lineRows_inv _ hreach.inv (by rw [hpart]; decide)
      hirow).of_eq_ok hrows
    exact ⟨newspan_inv h' hpart' hirow' .DATA, hpart'⟩
  | cdata pos hreach hpart =>
    refine ⟨hreach.inv.setPart (by rw [hpart]; decide) .DATA, ?_⟩
    simp
  | field _ hget ih => exact (getdata_inv p _ ih.1 ih.2).of_eq_ok hget

end Mandoc
