import Mandoc.Lib.Ensures
import Mandoc.Tbl.Data

/-!
# The invariant of tables

The layout cells of a row carry their place as column number.  The data cells of a row take the
layout cells of its layout row one after the other: each data cell takes the first cell that is
not a spanner, and covers all the spanners behind.  Both hold of every table that can be built by
any sequence of lines, because the layout parser only ever appends cells to a layout row that no
data row uses yet, and because the data parser appends no spanners.
-/

namespace Mandoc

/-! ## §1 Spanners -/

theorem spanners_cons (cp : TblCell) (cells : List TblCell) :
    spanners (cp :: cells) = if cp.pos = .SPAN then spanners cells + 1 else 0 := by
  unfold spanners
  rw [List.takeWhile_cons]
  split <;> simp_all

@[simp] theorem spanners_nil : spanners [] = 0 := rfl

theorem spanners_le (cells : List TblCell) : spanners cells ≤ cells.length :=
  (List.takeWhile_prefix _).length_le

theorem spanners_concat (cells : List TblCell) {cp : TblCell} (hcp : cp.pos ≠ .SPAN) :
    spanners (cells ++ [cp]) = spanners cells := by
  induction cells with
  | nil => simp [spanners_cons, hcp]
  | cons c cells ih => rw [List.cons_append, spanners_cons, spanners_cons, ih]

theorem spanners_drop_concat {cells : List TblCell} {place : Nat} (hplace : place ≤ cells.length)
    {cp : TblCell} (hcp : cp.pos ≠ .SPAN) :
    spanners ((cells ++ [cp]).drop place) = spanners (cells.drop place) := by
  rw [List.drop_append_of_le_length hplace, spanners_concat _ hcp]

/-! ## §2 The data cells of a row -/

/-- The data cells take the layout cells from the place `place` on: each of them takes the first
    cell that is not a spanner, and covers all the spanners behind. -/
def DatChain (cells : List TblCell) : Nat → List TblDat → Prop
  | _, [] => True
  | place, dat :: dats =>
    dat.layout = place + spanners (cells.drop place) ∧ dat.layout < cells.length ∧
      dat.hspans = spanners (cells.drop (dat.layout + 1)) ∧ DatChain cells (dat.layout + 1) dats

/-- The part of a data cell that refers to the layout. -/
def TblDat.shape (dat : TblDat) : Nat × Nat := (dat.layout, dat.hspans)

namespace DatChain

variable {cells : List TblCell} {place : Nat} {dats dats' : List TblDat} {dat : TblDat}

/-- Only the references to the layout matter. -/
theorem of_shape (h : DatChain cells place dats)
    (hshape : dats'.map TblDat.shape = dats.map TblDat.shape) : DatChain cells place dats' := by
  induction dats generalizing place dats' with
  | nil =>
    cases List.map_eq_nil_iff.mp hshape
    trivial
  | cons dat dats ih =>
    cases dats' with
    | nil => simp at hshape
    | cons dat' dats' =>
      simp only [List.map_cons, List.cons.injEq, TblDat.shape, Prod.mk.injEq] at hshape
      obtain ⟨⟨hlayout, hhspans⟩, hrest⟩ := hshape
      obtain ⟨h1, h2, h3, h4⟩ := h
      rw [← hlayout] at h1 h2 h3 h4
      exact ⟨h1, h2, hhspans.trans h3, ih h4 hrest⟩

/-- A layout cell that is not a spanner is appended. -/
theorem appendCell (h : DatChain cells place dats) (hplace : place ≤ cells.length) {cp : TblCell}
    (hcp : cp.pos ≠ .SPAN) : DatChain (cells ++ [cp]) place dats := by
  induction dats generalizing place with
  | nil => trivial
  | cons dat dats ih =>
    obtain ⟨h1, h2, h3, h4⟩ := h
    refine ⟨?_, ?_, ?_, ih h4 h2⟩
    · rw [spanners_drop_concat hplace hcp]
      exact h1
    · rw [List.length_append]
      omega
    · rw [spanners_drop_concat h2 hcp]
      exact h3

/-- The place where the next data cell is going to look for its layout cell. -/
def next (place : Nat) (dats : List TblDat) : Nat :=
  match dats.getLast? with
  | some dat => dat.layout + 1
  | none => place

theorem next_cons (place : Nat) (dat : TblDat) (dats : List TblDat) :
    next place (dat :: dats) = next (dat.layout + 1) dats := by
  cases dats with
  | nil => rfl
  | cons dat' dats =>
    unfold next
    rw [List.getLast?_cons_cons]
    cases hlast : (dat' :: dats).getLast? with
    | none => simp [List.getLast?_eq_none_iff] at hlast
    | some last => rfl

theorem next_zero (dats : List TblDat) : next 0 dats = nextPlace dats := rfl

theorem next_le (h : DatChain cells place dats) (hplace : place ≤ cells.length) :
    next place dats ≤ cells.length := by
  induction dats generalizing place with
  | nil => exact hplace
  | cons dat dats ih =>
    rw [next_cons]
    exact ih h.2.2.2 h.2.1

/-- A data cell is appended. -/
theorem concat (h : DatChain cells place dats)
    (hlayout : dat.layout = next place dats + spanners (cells.drop (next place dats)))
    (hlt : dat.layout < cells.length)
    (hhspans : dat.hspans = spanners (cells.drop (dat.layout + 1))) :
    DatChain cells place (dats ++ [dat]) := by
  induction dats generalizing place with
  | nil => exact ⟨hlayout, hlt, hhspans, trivial⟩
  | cons dat' dats ih =>
    rw [next_cons] at hlayout
    exact ⟨h.1, h.2.1, h.2.2.1, ih h.2.2.2 hlayout⟩

/-- A data cell and the spanners behind it are inside the layout row. -/
theorem span_lt (h : DatChain cells place dats) (hdat : dat ∈ dats) :
    dat.layout + dat.hspans < cells.length := by
  induction dats generalizing place with
  | nil => cases hdat
  | cons dat' dats ih =>
    obtain ⟨h1, h2, h3, h4⟩ := h
    cases hdat with
    | head =>
      have hle := spanners_le (cells.drop (dat.layout + 1))
      rw [List.length_drop, ← h3] at hle
      omega
    | tail _ hdat => exact ih h4 hdat

/-- All the data cells are at or behind the place. -/
theorem place_le (h : DatChain cells place dats) (hdat : dat ∈ dats) : place ≤ dat.layout := by
  induction dats generalizing place with
  | nil => cases hdat
  | cons dat' dats ih =>
    obtain ⟨h1, -, -, h4⟩ := h
    cases hdat with
    | head => omega
    | tail _ hdat =>
      have := ih h4 hdat
      omega

/-- The data cells refer to different layout cells, from the left to the right. -/
theorem pairwise (h : DatChain cells place dats) :
    dats.Pairwise fun dat dat' => dat.layout < dat'.layout := by
  induction dats generalizing place with
  | nil => exact .nil
  | cons dat dats ih =>
    refine .cons ?_ (ih h.2.2.2)
    intro dat' hdat'
    exact h.2.2.2.place_le hdat'

end DatChain

/-! ## §3 The invariant -/

/-- The cells of a layout row are numbered, and there are columns for all of them. -/
def TblRow.Numbered (row : TblRow) (cols : Nat) : Prop :=
  row.cells.length ≤ cols ∧ ∀ (i : Nat) (cp : TblCell), row.cells[i]? = some cp → cp.col = i

/-- A data row uses a layout row that has got cells. -/
def TblSpan.Fits (rows : List TblRow) (sp : TblSpan) : Prop :=
  ∃ row, rows[sp.layout]? = some row ∧ row.cells ≠ [] ∧ DatChain row.cells 0 sp.dats

/-- The invariant of a table. -/
structure Tbl.Inv (tbl : Tbl) : Prop where
  numbered : ∀ row ∈ tbl.rows, row.Numbered tbl.opts.cols
  /-- Only the last layout row can be empty. -/
  filled : ∀ irow row, tbl.rows[irow]? = some row → irow + 1 < tbl.rows.length → row.cells ≠ []
  /-- The end of the layout drops an empty layout row. -/
  closed : tbl.part ≠ .LAYOUT → ∀ row ∈ tbl.rows, row.cells ≠ []
  spans : ∀ sp ∈ tbl.spans, sp.Fits tbl.rows

theorem TblRow.Numbered.mono {row : TblRow} {cols cols' : Nat} (h : row.Numbered cols)
    (hle : cols ≤ cols') : row.Numbered cols' :=
  ⟨h.1.trans hle, h.2⟩

theorem TblRow.numbered_nil (vert cols : Nat) : TblRow.Numbered { vert := vert } cols :=
  ⟨Nat.zero_le _, fun i cp h => by simp at h⟩

/-- The next column number is the number of cells. -/
theorem TblRow.Numbered.nextCol_eq {row : TblRow} {cols : Nat} (h : row.Numbered cols) :
    row.nextCol = row.cells.length := by
  unfold TblRow.nextCol
  cases hlast : row.cells.getLast? with
  | none =>
    rw [List.getLast?_eq_none_iff] at hlast
    rw [hlast]
    rfl
  | some pp =>
    have hne : row.cells ≠ [] := by
      intro hnil
      simp [hnil] at hlast
    have hpos := List.length_pos_iff.mpr hne
    rw [List.getLast?_eq_getElem?] at hlast
    have hcol : pp.col = row.cells.length - 1 := h.2 _ _ hlast
    show pp.col + 1 = row.cells.length
    omega

/-- A numbered cell is appended. -/
theorem TblRow.Numbered.concat {row : TblRow} {cols : Nat} (h : row.Numbered cols) {cp : TblCell}
    (hcol : cp.col = row.cells.length) (hlt : row.cells.length < cols) (vert : Nat) :
    TblRow.Numbered { cells := row.cells ++ [cp], vert := vert } cols := by
  constructor
  · simp only [List.length_append, List.length_singleton]
    omega
  · intro i cp' hcp'
    rw [List.getElem?_append] at hcp'
    split at hcp'
    · exact h.2 i cp' hcp'
    · next hi =>
      rw [List.getElem?_singleton] at hcp'
      split at hcp'
      · cases hcp'
        omega
      · cases hcp'

namespace Tbl.Inv

variable {tbl : Tbl}

theorem alloc : tblAlloc.Inv where
  numbered := fun row h => by simp [tblAlloc] at h
  filled := fun irow row h => by simp [tblAlloc] at h
  closed := fun _ row h => by simp [tblAlloc] at h
  spans := fun sp h => by simp [tblAlloc] at h

theorem restart (h : tbl.Inv) : (tblRestart tbl).Inv where
  numbered := h.numbered
  filled := h.filled
  closed := fun hne => absurd rfl hne
  spans := h.spans

/-- Only the number of columns matters among the options. -/
theorem setOpts (h : tbl.Inv) {opts : TblOpts} (hcols : opts.cols = tbl.opts.cols) :
    Inv { tbl with opts := opts } where
  numbered := fun row hrow => by
    show row.Numbered opts.cols
    rw [hcols]
    exact h.numbered row hrow
  filled := h.filled
  closed := h.closed
  spans := h.spans

theorem enterLayout (h : tbl.Inv) : Inv { tbl with part := .LAYOUT } := h.restart

theorem setPart (h : tbl.Inv) (hpart : tbl.part ≠ .LAYOUT) (part : TblPart) :
    Inv { tbl with part := part } where
  numbered := h.numbered
  filled := h.filled
  closed := fun _ => h.closed hpart
  spans := h.spans

theorem setSpans (h : tbl.Inv) {spans : List TblSpan} (hspans : ∀ sp ∈ spans, sp.Fits tbl.rows) :
    Inv { tbl with spans := spans } where
  numbered := h.numbered
  filled := h.filled
  closed := h.closed
  spans := hspans

end Tbl.Inv

/-! ## §4 The layout section -/

/-- The layout row at the place `irow` is the last one, and no data row uses it. -/
def Tbl.Open (tbl : Tbl) (irow : Nat) : Prop :=
  irow + 1 = tbl.rows.length ∧ ∀ sp ∈ tbl.spans, sp.layout < irow

namespace Tbl.Inv

variable {tbl : Tbl}

/-- While the layout is being parsed, the last layout row can be changed in any way. -/
theorem setLast (h : tbl.Inv) {irow : Nat} (ho : tbl.Open irow) (hpart : tbl.part = .LAYOUT)
    {opts : TblOpts} {row : TblRow} (hcols : tbl.opts.cols ≤ opts.cols)
    (hrow : row.Numbered opts.cols) :
    Inv { tbl with rows := tbl.rows.set irow row, opts := opts } where
  numbered := by
    intro row' hrow'
    cases List.mem_or_eq_of_mem_set hrow' with
    | inl hmem => exact (h.numbered row' hmem).mono hcols
    | inr heq =>
      rw [heq]
      exact hrow
  filled := by
    intro irow' row' hrow' hlt
    rw [List.length_set] at hlt
    have hne : irow ≠ irow' := by
      have := ho.1
      omega
    rw [List.getElem?_set_ne hne] at hrow'
    exact h.filled irow' row' hrow' hlt
  closed := fun hne => absurd hpart hne
  spans := by
    intro sp hsp
    obtain ⟨row', hrow', hcells, hdats⟩ := h.spans sp hsp
    refine ⟨row', ?_, hcells, hdats⟩
    show (tbl.rows.set irow row)[sp.layout]? = some row'
    rw [List.getElem?_set_ne (ho.2 sp hsp).ne']
    exact hrow'

/-- No data row uses an empty layout row. -/
theorem layout_lt_of_empty (h : tbl.Inv) {last : TblRow} (hlast : tbl.rows.getLast? = some last)
    (hcells : last.cells = []) {sp : TblSpan} (hsp : sp ∈ tbl.spans) :
    sp.layout < tbl.rows.length - 1 := by
  obtain ⟨row, hrow, hne, -⟩ := h.spans sp hsp
  rw [List.getLast?_eq_getElem?] at hlast
  obtain ⟨hlt, -⟩ := List.getElem?_eq_some_iff.mp hrow
  have hdiff : sp.layout ≠ tbl.rows.length - 1 := by
    intro heq
    rw [heq, hlast] at hrow
    cases hrow
    exact hne hcells
  omega

/-- A new layout row is started, or an empty one is continued. -/
theorem startRow (h : tbl.Inv) (hpart : tbl.part = .LAYOUT) :
    (startRow tbl).1.Inv ∧ (startRow tbl).1.part = .LAYOUT ∧
      (startRow tbl).1.Open (startRow tbl).2 := by
  unfold Mandoc.startRow
  cases hlast : tbl.rows.getLast? with
  | none =>
    rw [List.getLast?_eq_none_iff] at hlast
    -- There are no layout rows, hence no data rows either.
    have hspans : ∀ sp ∈ tbl.spans, False := by
      intro sp hsp
      obtain ⟨row, hrow, -⟩ := h.spans sp hsp
      simp [hlast] at hrow
    refine ⟨⟨?_, ?_, ?_, ?_⟩, hpart, rfl, ?_⟩
    · intro row hrow
      cases List.mem_singleton.mp hrow
      exact TblRow.numbered_nil 0 _
    · intro irow row hrow hlt
      simp at hlt
    · exact fun hne => absurd hpart hne
    · exact fun sp hsp => (hspans sp hsp).elim
    · exact fun sp hsp => (hspans sp hsp).elim
  | some last =>
    have hpos : 0 < tbl.rows.length := by
      apply List.length_pos_iff.mpr
      intro hnil
      simp [hnil] at hlast
    by_cases hcells : last.cells = []
    · simp only [hcells, if_true]
      refine ⟨h, hpart, ?_, ?_⟩
      · omega
      · exact fun sp hsp => h.layout_lt_of_empty hlast hcells hsp
    · simp only [hcells, if_false]
      refine ⟨⟨?_, ?_, ?_, ?_⟩, hpart, ?_, ?_⟩
      · intro row hrow
        cases List.mem_append.mp hrow with
        | inl hmem => exact h.numbered row hmem
        | inr hmem =>
          cases List.mem_singleton.mp hmem
          exact TblRow.numbered_nil 0 _
      · intro irow row hrow hlt
        have hlt : irow < tbl.rows.length := by
          simp only [List.length_append, List.length_singleton] at hlt
          omega
        rw [List.getElem?_append_left hlt] at hrow
        by_cases heq : irow + 1 = tbl.rows.length
        · rw [List.getLast?_eq_getElem?, ← heq, Nat.add_sub_cancel, hrow] at hlast
          cases hlast
          exact hcells
        · exact h.filled irow row hrow (by omega)
      · exact fun hne => absurd hpart hne
      · intro sp hsp
        obtain ⟨row, hrow, hne, hdats⟩ := h.spans sp hsp
        obtain ⟨hlt, -⟩ := List.getElem?_eq_some_iff.mp hrow
        refine ⟨row, ?_, hne, hdats⟩
        rw [List.getElem?_append_left hlt]
        exact hrow
      · simp
      · intro sp hsp
        obtain ⟨row, hrow, -⟩ := h.spans sp hsp
        exact (List.getElem?_eq_some_iff.mp hrow).1

/-- `cellAlloc` appends a cell with the next column number. -/
theorem cellAlloc (h : tbl.Inv) {irow : Nat} (ho : tbl.Open irow) (hpart : tbl.part = .LAYOUT)
    {rp : TblRow} (hrp : rp.Numbered tbl.opts.cols) (cell : TblCell) :
    (cellAlloc tbl irow rp cell).Inv := by
  apply h.setLast ho hpart
  · show tbl.opts.cols ≤ if tbl.opts.cols ≤ rp.nextCol then rp.nextCol + 1 else tbl.opts.cols
    split
    · omega
    · exact le_rfl
  · show TblRow.Numbered _ (if tbl.opts.cols ≤ rp.nextCol then rp.nextCol + 1 else tbl.opts.cols)
    have hcol := hrp.nextCol_eq
    split
    · exact (hrp.mono (by omega)).concat hcol (by omega) rp.vert
    · exact hrp.concat hcol (by omega) rp.vert

end Tbl.Inv

theorem Tbl.Open.set {tbl : Tbl} {irow : Nat} (ho : tbl.Open irow) (row : TblRow)
    (opts : TblOpts) : Open { tbl with rows := tbl.rows.set irow row, opts := opts } irow :=
  ⟨by simpa using ho.1, ho.2⟩

/-- `cell` keeps the invariant. -/
theorem cell_inv {X : Type} (env : Env X) (p : CStr) {tbl : Tbl} {irow : Nat} (pos : Nat)
    (h : tbl.Inv) (hpart : tbl.part = .LAYOUT) (ho : tbl.Open irow) :
    Ensures (cell env p tbl irow pos) fun r =>
      r.1.Inv ∧ r.1.part = .LAYOUT ∧ r.1.Open irow := by
  unfold cell
  cases hrow : tbl.rows[irow]? with
  | none => exact Ensures.error_iff.mpr trivial
  | some rp =>
    have hrp : rp.Numbered tbl.opts.cols := h.numbered rp (List.mem_of_getElem? hrow)
    -- The leading lines change the row and the options.
    dsimp only [Tbl.setRow]
    generalize leadingLines p (p.length + 1) tbl.opts.opts rp.vert pos = lines
    obtain ⟨opts, vert, pos⟩ := lines
    have hlines : Tbl.Inv { tbl with
        rows := tbl.rows.set irow { rp with vert := vert }
        opts := { tbl.opts with opts := opts } } :=
      h.setLast ho hpart le_rfl hrp
    have holines := ho.set { rp with vert := vert } { tbl.opts with opts := opts }
    dsimp only
    generalize nextKey p (p.length + 1) pos = key
    obtain ⟨c, pos⟩ := key
    cases c with
    | none => exact Ensures.pure_iff.mpr ⟨hlines, hpart, holines⟩
    | some c =>
      apply Ensures.call
      intro st
      rw [Ensures.pure_iff]
      have hopts : Tbl.Inv { tbl with
          rows := tbl.rows.set irow { rp with vert := vert }
          opts := { tbl.opts with opts := st.opts } } := hlines.setOpts rfl
      have hrp' : TblRow.Numbered { rp with vert := vert } tbl.opts.cols := hrp
      refine ⟨hopts.cellAlloc holines hpart hrp' st.cell, hpart, ?_⟩
      exact Tbl.Open.set holines _ _

/-- A prefix of the list where the predicate holds is kept. -/
theorem getElem?_takeWhile_of_forall {α : Type} {q : α → Bool} {l : List α} {i : Nat} {a : α}
    (ha : l[i]? = some a) (hq : ∀ j ≤ i, ∀ b, l[j]? = some b → q b = true) :
    (l.takeWhile q)[i]? = some a := by
  induction l generalizing i with
  | nil => simp at ha
  | cons b l ih =>
    rw [List.takeWhile_cons, hq 0 (Nat.zero_le _) b rfl, if_pos rfl]
    cases i with
    | zero => exact ha
    | succ i =>
      apply ih ha
      intro j hj c hc
      exact hq (j + 1) (by omega) c hc

/-- Does the layout row have a cell? -/
def TblRow.hasCell (row : TblRow) : Bool := !row.cells.isEmpty

theorem TblRow.hasCell_iff (row : TblRow) : row.hasCell = true ↔ row.cells ≠ [] := by
  simp [TblRow.hasCell]

/-- `margins` keeps the layout rows up to the first empty one. -/
theorem margins_rows (opts : TblOpts) (rp : TblRow) (rest : List TblRow) (hrp : rp.cells ≠ []) :
    (margins opts (rp :: rest)).2 = (rp :: rest).takeWhile TblRow.hasCell := by
  induction rest generalizing opts rp with
  | nil =>
    rw [List.takeWhile_cons, (rp.hasCell_iff).mpr hrp]
    rfl
  | cons next rest ih =>
    rw [margins, List.takeWhile_cons, (rp.hasCell_iff).mpr hrp, if_pos rfl]
    by_cases hnext : next.cells = []
    · simp [hnext, TblRow.hasCell]
    · simp only [hnext, if_false, ih _ _ hnext]

/-- `margins` does not change the number of columns. -/
theorem margins_cols (opts : TblOpts) (rows : List TblRow) :
    (margins opts rows).1.cols = opts.cols := by
  have hrvert : ∀ (opts : TblOpts) (last : TblCell),
      (if last.col + 1 = opts.cols ∧ opts.rvert < last.vert then
        { opts with rvert := last.vert } else opts).cols = opts.cols := by
    intro opts last
    split <;> rfl
  have hlvert : ∀ (opts : TblOpts) (vert : Nat),
      (if opts.lvert < vert then { opts with lvert := vert } else opts).cols = opts.cols := by
    intro opts vert
    split <;> rfl
  induction rows generalizing opts with
  | nil => rfl
  | cons rp rest ih =>
    cases rest with
    | nil =>
      rw [margins]
      cases rp.cells.getLast? with
      | none => exact hlvert opts rp.vert
      | some last => exact (hrvert _ last).trans (hlvert opts rp.vert)
    | cons next rest =>
      rw [margins]
      cases rp.cells.getLast? with
      | none =>
        split
        · exact hlvert opts rp.vert
        · exact (ih _).trans (hlvert opts rp.vert)
      | some last =>
        have hcols := (hrvert _ last).trans (hlvert opts rp.vert)
        split
        · exact hcols
        · exact (ih _).trans hcols

namespace Tbl.Inv

variable {tbl : Tbl}

/-- When the first layout row is empty, there are no other rows of any kind. -/
theorem of_first_empty (h : tbl.Inv) {first : TblRow} {rest : List TblRow}
    (hrows : tbl.rows = first :: rest) (hcells : first.cells = []) :
    rest = [] ∧ tbl.spans = [] := by
  have hrest : rest = [] := by
    cases rest with
    | nil => rfl
    | cons next rest =>
      exact absurd hcells (h.filled 0 first (by rw [hrows]; rfl) (by rw [hrows]; simp))
  refine ⟨hrest, ?_⟩
  cases hspans : tbl.spans with
  | nil => rfl
  | cons sp spans =>
    have hfirst : tbl.rows.getLast? = some first := by
      rw [hrows, hrest]
      rfl
    have hsp : sp ∈ tbl.spans := by
      rw [hspans]
      exact List.mem_cons_self
    have hlt := h.layout_lt_of_empty hfirst hcells hsp
    rw [hrows, hrest] at hlt
    exact absurd hlt (Nat.not_lt_zero _)

/-- A table that consists of one layout row with one cell. -/
theorem default_layout (hspans : tbl.spans = []) (vert lvert : Nat) :
    Inv { tbl with
      part := .DATA
      rows := [{ cells := [{ pos := .LEFT, col := 0 }], vert := vert }]
      opts := { tbl.opts with
        lvert := lvert
        cols := if tbl.opts.cols ≤ 0 then 0 + 1 else tbl.opts.cols } } where
  numbered := by
    intro row hrow
    cases List.mem_singleton.mp hrow
    apply (TblRow.numbered_nil vert _).concat
    · rfl
    · show 0 < if tbl.opts.cols ≤ 0 then 0 + 1 else tbl.opts.cols
      split <;> omega
  filled := by
    intro irow row hrow hlt
    simp at hlt
  closed := by
    intro _ row hrow
    cases List.mem_singleton.mp hrow
    simp
  spans := by
    intro sp hsp
    have hsp : sp ∈ tbl.spans := hsp
    rw [hspans] at hsp
    cases hsp

/-- The layout rows up to the first empty one contain all the layout rows that are used. -/
theorem dropEmpty (h : tbl.Inv) {opts : TblOpts} (hcols : opts.cols = tbl.opts.cols)
    (part : TblPart) :
    Inv { tbl with
      part := part
      rows := tbl.rows.takeWhile TblRow.hasCell
      opts := opts } where
  numbered := by
    intro row hrow
    show row.Numbered opts.cols
    rw [hcols]
    exact h.numbered row (List.takeWhile_sublist _ |>.subset hrow)
  filled := by
    intro irow row hrow hlt
    exact row.hasCell_iff.mp (List.mem_takeWhile_imp (List.mem_of_getElem? hrow))
  closed := fun _ row hrow => row.hasCell_iff.mp (List.mem_takeWhile_imp hrow)
  spans := by
    intro sp hsp
    obtain ⟨row, hrow, hcells, hdats⟩ := h.spans sp hsp
    refine ⟨row, getElem?_takeWhile_of_forall hrow ?_, hcells, hdats⟩
    intro j hj row' hrow'
    rw [row'.hasCell_iff]
    obtain ⟨hlt, -⟩ := List.getElem?_eq_some_iff.mp hrow
    by_cases heq : j = sp.layout
    · rw [heq, hrow] at hrow'
      cases hrow'
      exact hcells
    · exact h.filled j row' hrow' (by omega)

/-- At the end of the layout, all layout rows have got cells. -/
theorem endLayout (h : tbl.Inv) : (endLayout tbl).Inv := by
  unfold Mandoc.endLayout
  cases hrows : tbl.rows with
  | nil =>
    have hspans : tbl.spans = [] := by
      cases hspans : tbl.spans with
      | nil => rfl
      | cons sp spans =>
        obtain ⟨row, hrow, -⟩ := h.spans sp (by rw [hspans]; exact List.mem_cons_self)
        simp [hrows] at hrow
    simp only [if_true]
    split
    · exact default_layout hspans 0 _
    · exact default_layout hspans 0 _
  | cons first rest =>
    simp only [reduceCtorEq, if_false]
    by_cases hcells : first.cells = []
    · obtain ⟨hrest, hspans⟩ := h.of_first_empty hrows hcells
      obtain ⟨cells, vert⟩ := first
      cases hcells
      rw [hrest]
      simp only [if_true]
      split
      · exact default_layout hspans vert _
      · exact default_layout hspans vert _
    · have hdrop := h.dropEmpty (margins_cols tbl.opts (first :: rest)) .DATA
      rw [hrows, ← margins_rows tbl.opts first rest hcells] at hdrop
      simp only [hcells, if_false]
      exact hdrop.setOpts rfl

end Tbl.Inv

/-- The loop of `tblLayout` keeps the invariant. -/
theorem layoutLoop_inv {X : Type} (env : Env X) (p : CStr) (n : Nat) {tbl : Tbl}
    {rp : Option Nat} (pos : Nat) (h : tbl.Inv) (hpart : tbl.part = .LAYOUT)
    (ho : ∀ irow, rp = some irow → tbl.Open irow) :
    Ensures (layoutLoop env p n tbl rp pos) Tbl.Inv := by
  induction n generalizing tbl rp pos with
  | zero => exact Ensures.error_iff.mpr trivial
  | succ n ih =>
    unfold layoutLoop
    dsimp only
    apply Ensures.ite
    · intro _
      exact ih _ h hpart fun irow hirow => nomatch hirow
    intro _
    apply Ensures.ite
    · exact fun _ => Ensures.pure_iff.mpr h
    intro _
    apply Ensures.ite
    · exact fun _ => Ensures.pure_iff.mpr h.endLayout
    intro _
    -- A cell is appended to a row, and the loop goes on with this row.
    have hstart : ∀ {tbl : Tbl} {irow pos : Nat}, tbl.Inv → tbl.part = .LAYOUT → tbl.Open irow →
        Ensures (cell env p tbl irow pos >>= fun res => layoutLoop env p n res.1 (some irow) res.2)
          Tbl.Inv := by
      intro tbl irow pos h hpart ho
      apply Ensures.bind (cell_inv env p pos h hpart ho)
      rintro ⟨tbl', pos'⟩ ⟨h', hpart', ho'⟩
      refine ih pos' h' hpart' ?_
      rintro irow' ⟨⟩
      exact ho'
    cases rp with
    | none =>
      obtain ⟨h', hpart', ho'⟩ := h.startRow hpart
      exact hstart h' hpart' ho'
    | some irow => exact hstart h hpart (ho irow rfl)

theorem tblLayout_inv {X : Type} (env : Env X) (p : CStr) {tbl : Tbl} (pos : Nat) (h : tbl.Inv)
    (hpart : tbl.part = .LAYOUT) : Ensures (tblLayout env p tbl pos) Tbl.Inv :=
  layoutLoop_inv env p _ pos h hpart fun _ hirow => nomatch hirow

/-! ## §5 The data section -/

namespace TblSpan.Fits

variable {rows : List TblRow} {sp : TblSpan}

theorem of_shape (h : sp.Fits rows) {dats : List TblDat}
    (hshape : dats.map TblDat.shape = sp.dats.map TblDat.shape) :
    Fits rows { sp with dats := dats } := by
  obtain ⟨row, hrow, hcells, hdats⟩ := h
  exact ⟨row, hrow, hcells, hdats.of_shape hshape⟩

/-- A layout cell that is not a spanner is appended to one of the layout rows. -/
theorem appendCell (h : sp.Fits rows) {irow : Nat} {row : TblRow} (hrow : rows[irow]? = some row)
    {cp : TblCell} (hcp : cp.pos ≠ .SPAN) :
    sp.Fits (rows.set irow { row with cells := row.cells ++ [cp] }) := by
  obtain ⟨row', hrow', hcells, hdats⟩ := h
  by_cases heq : irow = sp.layout
  · subst heq
    rw [hrow] at hrow'
    cases hrow'
    obtain ⟨hlt, -⟩ := List.getElem?_eq_some_iff.mp hrow
    refine ⟨{ row with cells := row.cells ++ [cp] }, ?_, ?_, ?_⟩
    · rw [List.getElem?_set_self hlt]
    · simp
    · exact hdats.appendCell (Nat.zero_le _) hcp
  · refine ⟨row', ?_, hcells, hdats⟩
    rw [List.getElem?_set_ne heq]
    exact hrow'

end TblSpan.Fits

/-- A numbered layout cell is appended to one of the layout rows. -/
theorem Tbl.Inv.appendCell {tbl : Tbl} (h : tbl.Inv) (hpart : tbl.part ≠ .LAYOUT) {irow : Nat}
    {row : TblRow} (hrow : tbl.rows[irow]? = some row) {cp : TblCell}
    (hcol : cp.col = row.cells.length) (hlt : row.cells.length < tbl.opts.cols)
    (hcp : cp.pos ≠ .SPAN) :
    (tbl.setRow irow { row with cells := row.cells ++ [cp] }).Inv := by
  have hclosed : ∀ row' ∈ (tbl.setRow irow { row with cells := row.cells ++ [cp] }).rows,
      row'.cells ≠ [] := by
    intro row' hrow'
    cases List.mem_or_eq_of_mem_set hrow' with
    | inl hmem => exact h.closed hpart row' hmem
    | inr heq =>
      rw [heq]
      simp
  refine ⟨?_, ?_, fun _ => hclosed, fun sp hsp => (h.spans sp hsp).appendCell hrow hcp⟩
  · intro row' hrow'
    cases List.mem_or_eq_of_mem_set hrow' with
    | inl hmem => exact h.numbered row' hmem
    | inr heq =>
      rw [heq]
      exact (h.numbered row (List.mem_of_getElem? hrow)).concat hcol hlt row.vert
  · exact fun irow' row' hrow' _ => hclosed row' (List.mem_of_getElem? hrow')

/-- `extendAbove` changes nothing but numbers of vertical spans. -/
theorem extendAbove_fits (rows : List TblRow) (col : Nat) (prev : List TblSpan)
    (h : ∀ sp ∈ prev, sp.Fits rows) :
    Ensures (extendAbove rows col prev) fun prev' => ∀ sp ∈ prev', sp.Fits rows := by
  induction prev with
  | nil => exact Ensures.pure_iff.mpr h
  | cons pdp prev ih =>
    have hprev : ∀ sp ∈ prev, sp.Fits rows := fun sp hsp => h sp (List.mem_cons_of_mem _ hsp)
    have hpdp : pdp.Fits rows := h pdp List.mem_cons_self
    have hcons : Ensures (do return pdp :: (← extendAbove rows col prev) : Res (List TblSpan))
        fun prev' => ∀ sp ∈ prev', sp.Fits rows := by
      apply Ensures.bind (ih hprev)
      intro prev' hprev'
      rw [Ensures.pure_iff]
      exact List.forall_mem_cons.mpr ⟨hpdp, hprev'⟩
    rw [extendAbove]
    cases rows[pdp.layout]? with
    | none => exact Ensures.error_iff.mpr trivial
    | some row =>
      dsimp only
      generalize hleft : pdp.dats.takeWhile (fun dat => !cellFrom row.cells col dat) = left
      split
      · exact Ensures.pure_iff.mpr h
      · next pdat right hright =>
        cases row.cells[pdat.layout]? with
        | none => exact Ensures.error_iff.mpr trivial
        | some cp =>
          apply Ensures.ite (fun _ => hcons)
          intro _
          cases pdat.string with
          | none => exact Ensures.error_iff.mpr trivial
          | some string =>
            apply Ensures.ite (fun _ => hcons)
            intro _
            rw [Ensures.pure_iff]
            refine List.forall_mem_cons.mpr ⟨hpdp.of_shape ?_, hprev⟩
            -- The data cell that is extended keeps its layout cell.
            have hdats : pdp.dats = left ++ pdat :: right := by
              have hpre : left <+: pdp.dats := hleft ▸ List.takeWhile_prefix _
              rw [← hright]
              exact (List.prefix_append_drop hpre)
            rw [hdats, List.map_append, List.map_append]
            rfl

/-- `fillDat` appends the data cell to the data row. -/
theorem fillDat_inv (p : CStr) {tbl : Tbl} {dp : TblSpan} {prev : List TblSpan} {dat : TblDat}
    (startpos endpos pos : Nat) (h : tbl.Inv) (hpart : tbl.part ≠ .LAYOUT)
    (hprev : ∀ sp ∈ prev, sp.Fits tbl.rows)
    (hdp : ∀ dat', dat'.shape = dat.shape →
      TblSpan.Fits tbl.rows { dp with dats := dp.dats ++ [dat'] }) :
    Ensures (fillDat p tbl dp prev dat startpos endpos pos) fun r =>
      r.1.Inv ∧ r.1.part ≠ .LAYOUT := by
  have hspans : ∀ dat', dat'.shape = dat.shape →
      Tbl.Inv { tbl with spans := { dp with dats := dp.dats ++ [dat'] } :: prev } := by
    intro dat' hshape
    exact h.setSpans (List.forall_mem_cons.mpr ⟨hdp dat' hshape, hprev⟩)
  unfold fillDat
  apply Ensures.ite
  · intro _
    rw [Ensures.ok_iff]
    refine ⟨(hspans dat rfl).setPart hpart .CDATA, ?_⟩
    simp
  · intro _
    rw [Ensures.ok_iff]
    exact ⟨hspans _ rfl, hpart⟩

/-- `addDat` keeps the invariant. -/
theorem addDat_inv (p : CStr) {tbl : Tbl} {dp : TblSpan} {prev : List TblSpan} {row : TblRow}
    {icell : Nat} {cp : TblCell} (startpos pos : Nat) (h : tbl.Inv) (hpart : tbl.part ≠ .LAYOUT)
    (hprev : ∀ sp ∈ prev, sp.Fits tbl.rows) (hrow : tbl.rows[dp.layout]? = some row)
    (hdats : DatChain row.cells 0 dp.dats)
    (hicell : icell = nextPlace dp.dats + spanners (row.cells.drop (nextPlace dp.dats)))
    (hcp : row.cells[icell]? = some cp) :
    Ensures (addDat p tbl dp prev row.cells icell cp startpos pos) fun r =>
      r.1.Inv ∧ r.1.part ≠ .LAYOUT := by
  have hfits : ∀ dat' : TblDat, dat'.shape = (icell, spanners (row.cells.drop (icell + 1))) →
      TblSpan.Fits tbl.rows { dp with dats := dp.dats ++ [dat'] } := by
    intro dat' hshape
    obtain ⟨hlayout, hhspans⟩ := Prod.mk.inj hshape
    obtain ⟨hlt, -⟩ := List.getElem?_eq_some_iff.mp hcp
    refine ⟨row, hrow, List.ne_nil_of_length_pos (by omega), hdats.concat ?_ ?_ ?_⟩
    · rw [hlayout, DatChain.next_zero]
      exact hicell
    · rw [hlayout]
      exact hlt
    · rw [hhspans, hlayout]
  unfold addDat
  apply Ensures.bind (P := fun prev' => ∀ sp ∈ prev', sp.Fits tbl.rows)
  · exact Ensures.ite (fun _ => extendAbove_fits _ _ _ hprev)
      (fun _ => Ensures.pure_iff.mpr hprev)
  intro prev' hprev'
  apply Ensures.ite
  · exact fun _ => fillDat_inv p _ _ _ h hpart hprev' hfits
  · exact fun _ => fillDat_inv p _ _ _ h hpart hprev' hfits

/-- `getdata` keeps the invariant. -/
theorem getdata_inv (p : CStr) {tbl : Tbl} (startpos : Nat) (h : tbl.Inv)
    (hpart : tbl.part ≠ .LAYOUT) :
    Ensures (getdata p tbl startpos) fun r => r.1.Inv ∧ r.1.part ≠ .LAYOUT := by
  unfold getdata
  cases hspans : tbl.spans with
  | nil => exact Ensures.error_iff.mpr trivial
  | cons dp prev =>
    have hprev : ∀ sp ∈ prev, sp.Fits tbl.rows := fun sp hsp =>
      h.spans sp (by rw [hspans]; exact List.mem_cons_of_mem _ hsp)
    obtain ⟨row, hrow, hcells, hdats⟩ := h.spans dp (by rw [hspans]; exact List.mem_cons_self)
    dsimp only
    apply Ensures.call
    intro pos
    rw [hrow]
    dsimp only
    generalize hicell :
      nextPlace dp.dats + spanners (row.cells.drop (nextPlace dp.dats)) = icell
    cases hcp : row.cells[icell]? with
    | some cp => exact addDat_inv p startpos pos h hpart hprev hrow hdats hicell.symm hcp
    | none =>
      cases hlast : row.cells.getLast? with
      | none => exact Ensures.error_iff.mpr trivial
      | some last =>
        apply Ensures.ite
        · intro hcol
          have hnumbered := h.numbered row (List.mem_of_getElem? hrow)
          have hlast : last.col + 1 = row.cells.length := by
            have := hnumbered.nextCol_eq
            rwa [TblRow.nextCol, hlast] at this
          -- The search for a layout cell stopped at the end of the layout row.
          have hend : row.cells.length = icell := by
            have hle := hdats.next_le (Nat.zero_le _)
            have hspan := spanners_le (row.cells.drop (nextPlace dp.dats))
            rw [DatChain.next_zero] at hle
            rw [List.length_drop] at hspan
            rw [List.getElem?_eq_none_iff] at hcp
            omega
          have hleft : TblCell.pos { pos := .LEFT, col := last.col + 1 } ≠ .SPAN := by simp
          have hset := h.appendCell hpart hrow hlast (by omega) hleft
          have hrow' := List.getElem?_set_self (List.getElem?_eq_some_iff.mp hrow).1
            (a := { row with cells := row.cells ++ [{ pos := .LEFT, col := last.col + 1 }] })
          refine addDat_inv p startpos pos hset hpart ?_ hrow'
            (hdats.appendCell (Nat.zero_le _) hleft) ?_ ?_
          · exact fun sp hsp => (hprev sp hsp).appendCell hrow hleft
          · have hnext := spanners_drop_concat (hdats.next_le (Nat.zero_le _)) hleft
            rw [DatChain.next_zero] at hnext
            dsimp only
            rw [hnext, hend]
            exact hicell.symm
          · exact List.getElem?_concat_length
        · exact fun _ => Ensures.pure_iff.mpr ⟨h, hpart⟩

/-- The loop over the cells of a data line keeps the invariant. -/
theorem dataLoop_inv (p : CStr) (n : Nat) {tbl : Tbl} (pos : Nat) (h : tbl.Inv)
    (hpart : tbl.part ≠ .LAYOUT) :
    Ensures (dataLoop p n tbl pos) Tbl.Inv := by
  induction n generalizing tbl pos with
  | zero => exact Ensures.error_iff.mpr trivial
  | succ n ih =>
    rw [dataLoop]
    apply Ensures.ite (fun _ => Ensures.pure_iff.mpr h)
    intro _
    apply Ensures.bind (getdata_inv p pos h hpart)
    rintro ⟨tbl', pos'⟩ ⟨h', hpart'⟩
    exact ih pos' h' hpart'

/-- Filling a text block does not change what the data cells refer to. -/
theorem modifyLastDat_fits {rows : List TblRow} {line : CStr} {dp dp' : TblSpan}
    (h : dp.Fits rows) (hdp' : modifyLastDat (appendBlock line) dp = some dp') :
    dp'.Fits rows := by
  obtain ⟨dat, hdat, rfl⟩ := Option.map_eq_some_iff.mp hdp'
  apply h.of_shape
  obtain ⟨dats, hdats⟩ := List.getLast?_eq_some_iff.mp hdat
  rw [hdats]
  simp [TblDat.shape, appendBlock]

/-- `tblCdata` keeps the invariant. -/
theorem tblCdata_inv (p : CStr) {tbl : Tbl} (pos : Nat) (h : tbl.Inv)
    (hpart : tbl.part ≠ .LAYOUT) : Ensures (tblCdata p tbl pos) Tbl.Inv := by
  unfold tblCdata
  cases hspans : tbl.spans with
  | nil => exact Ensures.error_iff.mpr trivial
  | cons dp prev =>
    have hprev : ∀ sp ∈ prev, sp.Fits tbl.rows := fun sp hsp =>
      h.spans sp (by rw [hspans]; exact List.mem_cons_of_mem _ hsp)
    have hdp := h.spans dp (by rw [hspans]; exact List.mem_cons_self)
    have hword : ∀ {pos dp'}, modifyLastDat (appendBlock (p.drop pos)) dp = some dp' →
        Ensures (pure { tbl with spans := dp' :: prev } : Res Tbl) Tbl.Inv := fun hdp' =>
      Ensures.pure_iff.mpr
        (h.setSpans (List.forall_mem_cons.mpr ⟨modifyLastDat_fits hdp hdp', hprev⟩))
    -- The line goes back to the data part, or it is one more word of the block.
    have hdata : Tbl.Inv { tbl with spans := dp :: prev, part := .DATA } := by
      rw [← hspans]
      exact h.setPart hpart .DATA
    apply Ensures.ite
    · intro _
      dsimp only
      apply Ensures.ite (fun _ => dataLoop_inv p _ _ hdata (by simp))
      intro _
      apply Ensures.ite (fun _ => Ensures.pure_iff.mpr hdata)
      intro _
      split
      · exact Ensures.error_iff.mpr trivial
      · next hdp' => exact hword hdp'
    · intro _
      split
      · exact Ensures.error_iff.mpr trivial
      · next hdp' => exact hword hdp'

theorem newspan_inv {tbl : Tbl} (h : tbl.Inv) (hpart : tbl.part ≠ .LAYOUT) {irow : Nat}
    (hirow : irow < tbl.rows.length) (pos : SpanPos) : (newspan tbl irow pos).Inv := by
  refine h.setSpans (List.forall_mem_cons.mpr ⟨?_, h.spans⟩)
  have hrow := List.getElem?_eq_getElem hirow
  exact ⟨_, hrow, h.closed hpart _ (List.mem_of_getElem? hrow), trivial⟩

/-- `lineRows` keeps the invariant, and arrives at one of the layout rows. -/
theorem lineRows_inv (n : Nat) {tbl : Tbl} {irow : Nat} (h : tbl.Inv)
    (hpart : tbl.part ≠ .LAYOUT) (hirow : irow < tbl.rows.length) :
    Ensures (lineRows n tbl irow) fun r =>
      r.1.Inv ∧ r.1.part ≠ .LAYOUT ∧ r.2 < r.1.rows.length := by
  induction n generalizing tbl irow with
  | zero => exact Ensures.error_iff.mpr trivial
  | succ n ih =>
    have hstop : Ensures (pure (tbl, irow) : Res (Tbl × Nat)) fun r =>
        r.1.Inv ∧ r.1.part ≠ .LAYOUT ∧ r.2 < r.1.rows.length :=
      Ensures.pure_iff.mpr ⟨h, hpart, hirow⟩
    rw [lineRows]
    apply Ensures.ite (fun _ => hstop)
    intro hnext
    cases tbl.rows[irow]? with
    | none => exact Ensures.error_iff.mpr trivial
    | some rp =>
      dsimp only
      cases rp.cells.getLast? with
      | none => exact Ensures.error_iff.mpr trivial
      | some last =>
        apply Ensures.ite (fun _ => hstop)
        intro _
        apply Ensures.ite (fun _ => hstop)
        intro _
        exact ih (newspan_inv h hpart hirow .DATA) hpart (by simpa [newspan] using hnext)

/-- `tblData` keeps the invariant. -/
theorem tblData_inv (p : CStr) {tbl : Tbl} (pos : Nat) (h : tbl.Inv)
    (hpart : tbl.part ≠ .LAYOUT) : Ensures (tblData p tbl pos) Tbl.Inv := by
  unfold tblData
  dsimp only
  generalize tbl.spans.find? (fun sp => sp.pos = .DATA) = sp
  apply Ensures.ite (fun _ => Ensures.error_iff.mpr trivial)
  intro hirow
  rw [Nat.not_le] at hirow
  apply Ensures.ite (fun _ => Ensures.pure_iff.mpr h)
  intro _
  apply Ensures.ite
  · intro _
    rw [Ensures.pure_iff]
    generalize (if sp.isNone = true then tbl.opts.opts &&& ~~~TBL_OPT_VSPACE
      else tbl.opts.opts) = bits
    have hopts : Tbl.Inv { tbl with opts := { tbl.opts with opts := bits } } := h.setOpts rfl
    exact newspan_inv hopts hpart hirow _
  · intro _
    apply Ensures.bind (lineRows_inv _ h hpart hirow)
    rintro ⟨tbl', irow'⟩ ⟨h', hpart', hirow'⟩
    exact dataLoop_inv p _ pos (newspan_inv h' hpart' hirow' .DATA) hpart'

/-! ## §6 All the lines -/

/-- The options do not change the rest of the table. -/
theorem optArg_cols (opts : TblOpts) (p : CStr) (pos : Nat) (key : OptKey) :
    Ensures (optArg opts p pos key) fun r => r.1.cols = opts.cols := by
  unfold optArg
  apply Ensures.call
  intro len
  rw [Ensures.pure_iff]
  cases key with
  | DPOINT =>
    dsimp only
    split <;> rfl
  | TAB =>
    dsimp only
    split <;> rfl
  | DELIM => rfl
  | LINESIZE => rfl

theorem optionLoop_cols (p : CStr) (n : Nat) (opts : TblOpts) (pos : Nat) :
    Ensures (optionLoop p n opts pos) fun r => r.1.cols = opts.cols := by
  induction n generalizing opts pos with
  | zero => exact Ensures.error_iff.mpr trivial
  | succ n ih =>
    rw [optionLoop]
    dsimp only
    apply Ensures.ite
    · intro _
      rw [Ensures.pure_iff]
    intro _
    apply Ensures.ite
    · intro _
      exact Ensures.ite (fun _ => ih opts _) (fun _ => Ensures.error_iff.mpr trivial)
    intro _
    split
    · next key _ =>
      apply Ensures.bind (optArg_cols opts p _ key.2)
      rintro ⟨opts', pos'⟩ hcols
      exact (ih opts' pos').mono fun r hr => hr.trans hcols
    · split
      · next key _ => exact ih { opts with opts := opts.opts ||| key.2 } _
      · exact ih opts _

theorem tblOption_inv (p : CStr) {tbl : Tbl} (pos : Nat) (h : tbl.Inv) :
    Ensures (tblOption tbl p pos) fun r => r.1.Inv ∧ r.1.part = tbl.part := by
  unfold tblOption
  apply Ensures.bind (optionLoop_cols p _ tbl.opts pos)
  rintro ⟨opts, pos'⟩ hcols
  exact Ensures.pure_iff.mpr ⟨h.setOpts hcols, rfl⟩

/-- The sections behind the options keep the invariant. -/
theorem readSection_inv {X : Type} (p : CStr) (env : Env X) {tbl : Tbl} (pos : Nat) (h : tbl.Inv) :
    Ensures (readSection p env tbl pos) Tbl.Inv := by
  unfold readSection
  cases hpart : tbl.part with
  | LAYOUT => exact tblLayout_inv env p pos h hpart
  | CDATA => exact tblCdata_inv p pos h (by simp [hpart])
  | OPTS => exact tblData_inv p pos h (by simp [hpart])
  | DATA => exact tblData_inv p pos h (by simp [hpart])

/-- `tblRead` keeps the invariant. -/
theorem tblRead_inv {X : Type} (p : CStr) (env : Env X) {tbl : Tbl} (pos : Nat) (h : tbl.Inv) :
    Ensures (tblRead p env tbl pos) Tbl.Inv := by
  unfold tblRead
  apply Ensures.ite
  · intro _
    apply Ensures.ite
    · intro _
      apply Ensures.bind (tblOption_inv p pos h.enterLayout)
      rintro ⟨tbl', pos'⟩ ⟨h', -⟩
      exact Ensures.ite (fun _ => Ensures.pure_iff.mpr h') (fun _ => readSection_inv p env pos' h')
    · exact fun _ => readSection_inv p env pos h.enterLayout
  · exact fun _ => readSection_inv p env pos h

/-- The tables that can be built: any sequence of lines, read by `tblRead`, with any number of
    `.T&` requests between them. -/
inductive Tbl.Reachable : Tbl → Prop where
  | alloc : Reachable tblAlloc
  | read {X : Type} (env : Env X) (p : CStr) (pos : Nat) {tbl tbl' : Tbl} :
      Reachable tbl → tblRead p env tbl pos = .ok tbl' → Reachable tbl'
  | restart {tbl : Tbl} : Reachable tbl → Reachable (tblRestart tbl)

theorem Tbl.Reachable.inv {tbl : Tbl} (h : tbl.Reachable) : tbl.Inv := by
  induction h with
  | alloc => exact .alloc
  | read env p pos _ hread ih => exact (tblRead_inv p env pos ih).of_eq_ok hread
  | restart _ ih => exact ih.restart

end Mandoc
