import Mathlib.Logic.Relation
import Mandoc.Tbl.DataLine

/-!
# New layout sections

The request `.T&` starts another layout section behind some data.  The layout rows of both sections
are in one list, and `tbl_data` gives a data row the layout row behind that of the last data row.

- `NewLayout` is a complete new layout section, `FollowsLayout` what the manual page says about the
  data behind it.
- `restart_followsLayout_iff` says when that is what happens.
-/

namespace Mandoc

open Relation (ReflTransGen)

/-! ## §1 Runs of lines -/

/-- A line of a table is read. -/
def ReadsLine (tbl tbl' : Tbl) : Prop :=
  ∃ (X : Type) (env : Env X) (p : CStr) (pos : Nat), tblRead p env tbl pos = .ok tbl'

/-- A line of a layout section is read. -/
def ReadsLayoutLine (tbl tbl' : Tbl) : Prop := tbl.part = .LAYOUT ∧ ReadsLine tbl tbl'

/-- The layout rows that have got cells. -/
def Tbl.layoutRows (tbl : Tbl) : List TblRow := tbl.rows.takeWhile TblRow.hasCell

/-- Behind the request `.T&`, a complete layout section with at least one layout row. -/
structure NewLayout (tbl tbl1 : Tbl) : Prop where
  lines : ReflTransGen ReadsLayoutLine (tblRestart tbl) tbl1
  complete : tbl1.part = .DATA
  row : tbl.layoutRows.length < tbl1.rows.length

/-- The layout rows of the data rows that consist of data, the first one first. -/
def dataRows (places : List (Nat × SpanPos)) : List Nat :=
  ((places.filter fun place => place.2 = .DATA).map Prod.fst).reverse

/-- **What the manual page says** about the data behind a new layout section: the data rows take the
    layout rows of this section one after the other, and then the last one again and again.  The
    earlier data rows keep their layout. -/
def FollowsLayout (tbl tbl1 tbl2 : Tbl) : Prop :=
  ∃ new, tbl2.spans.map TblSpan.place = new ++ tbl.spans.map TblSpan.place ∧
    (∀ j irow, (dataRows new)[j]? = some irow →
      irow = min (tbl.layoutRows.length + j) (tbl1.rows.length - 1)) ∧
    ∀ k < tbl.layoutRows.length, tbl2.rows[k]? = tbl.rows[k]?

/-- The number of layout rows up to that of the last data row. -/
def Tbl.usedRows (tbl : Tbl) : Nat :=
  match tbl.spans.find? fun sp => sp.pos = .DATA with
  | none => 0
  | some sp => sp.layout + 1

/-! ## §2 The next layout row -/

section

variable {tbl : Tbl}

theorem dataRows_append (new places : List (Nat × SpanPos)) :
    dataRows (new ++ places) = dataRows places ++ dataRows new := by
  rw [dataRows, List.filter_append, List.map_append, List.reverse_append]
  rfl

/-- The data rows for consecutive layout rows. -/
theorem dataRows_range (irow k : Nat) :
    dataRows ((List.range' irow k).reverse.map fun r => (r, .DATA)) = List.range' irow k := by
  rw [dataRows, List.filter_eq_self.mpr, List.map_map]
  · exact (congrArg List.reverse (List.map_id _)).trans (List.reverse_reverse _)
  · intro place hplace
    obtain ⟨r, -, rfl⟩ := List.mem_map.mp hplace
    rfl

/-- The number of layout rows that have been used. -/
theorem Tbl.usedRows_eq (tbl : Tbl) : tbl.usedRows =
    ((dataRows (tbl.spans.map TblSpan.place)).getLast?.map (· + 1)).getD 0 := by
  rw [Tbl.usedRows, dataRows, List.getLast?_reverse, List.head?_map, List.head?_filter,
    List.find?_map]
  have hfun : (fun place : Nat × SpanPos => decide (place.2 = .DATA)) ∘ TblSpan.place =
      fun sp => decide (sp.pos = .DATA) := rfl
  rw [hfun]
  cases tbl.spans.find? fun sp => decide (sp.pos = .DATA) with
  | none => rfl
  | some sp => rfl

/-- Earlier data rows only matter as long as there are no new ones. -/
theorem Tbl.usedRows_append {tbl2 : Tbl} {new : List (Nat × SpanPos)}
    (h : tbl2.spans.map TblSpan.place = new ++ tbl.spans.map TblSpan.place) :
    tbl2.usedRows = ((dataRows new).getLast?.map (· + 1)).getD tbl.usedRows := by
  rw [Tbl.usedRows_eq, Tbl.usedRows_eq, h, dataRows_append, List.getLast?_append]
  cases (dataRows new).getLast? with
  | none => rfl
  | some irow => rfl

/-- Among the layout rows, the next one follows those that have been used. -/
theorem Tbl.Inv.cursor_eq (h : tbl.Inv) : tbl.cursor = min tbl.usedRows (tbl.rows.length - 1) := by
  rw [Tbl.cursor, Tbl.usedRows]
  cases hfind : tbl.spans.find? fun sp => sp.pos = .DATA with
  | none => exact (Nat.zero_min _).symm
  | some sp =>
    obtain ⟨row, hrow, -⟩ := h.spans sp (List.mem_of_find?_eq_some hfind)
    have hlt := (List.getElem?_eq_some_iff.mp hrow).1
    rw [nextRow]
    dsimp only
    split
    · omega
    · omega

/-- Data rows only use layout rows that have got cells. -/
theorem Tbl.Inv.usedRows_le (h : tbl.Inv) : tbl.usedRows ≤ tbl.layoutRows.length := by
  rw [Tbl.usedRows]
  cases hfind : tbl.spans.find? fun sp => sp.pos = .DATA with
  | none => exact Nat.zero_le _
  | some sp =>
    obtain ⟨row, hrow, hcells, -⟩ := h.spans sp (List.mem_of_find?_eq_some hfind)
    have hlt := (List.getElem?_eq_some_iff.mp hrow).1
    -- The layout rows before that row have got cells, too.
    have hkept : tbl.layoutRows[sp.layout]? = some row := by
      refine getElem?_takeWhile_of_forall hrow fun j hj row' hrow' => ?_
      rw [TblRow.hasCell_iff]
      rcases Nat.lt_or_eq_of_le hj with hj | rfl
      · exact h.filled j row' hrow' (by omega)
      · cases hrow.symm.trans hrow'
        exact hcells
    exact (List.getElem?_eq_some_iff.mp hkept).1

end

/-! ## §3 The new layout section -/

section

variable {tbl tbl1 : Tbl}

/-- What the lines of the new layout section keep. -/
theorem NewLayout.kept (hinv : tbl.Inv) (h : NewLayout tbl tbl1) :
    tbl1.Inv ∧ KeepsRows tbl.layoutRows tbl.spans tbl1 := by
  have hold : ∀ row ∈ tbl.layoutRows, row.cells ≠ [] := by
    intro row hrow
    exact row.hasCell_iff.mp (List.mem_takeWhile_imp hrow)
  have hrun : ∀ {tbl1 : Tbl}, ReflTransGen ReadsLayoutLine (tblRestart tbl) tbl1 →
      tbl1.Inv ∧ KeepsRows tbl.layoutRows tbl.spans tbl1 := by
    intro tbl1 hlines
    induction hlines with
    | refl => exact ⟨hinv.restart, List.takeWhile_prefix _, rfl⟩
    | tail _ hline ih =>
      obtain ⟨hpart, X, env, p, pos, hread⟩ := hline
      refine ⟨(tblRead_inv p env pos ih.1).of_eq_ok hread, ?_⟩
      rw [tblRead_layout env hpart] at hread
      exact ((tblLayout_keepsRows env p pos hold ih.2 hpart).of_eq_ok hread).1
  exact hrun h.lines

theorem KeepsRows.getElem?_eq {spans : List TblSpan} (h : KeepsRows tbl.layoutRows spans tbl1)
    {k : Nat} (hk : k < tbl.layoutRows.length) : tbl1.rows[k]? = tbl.rows[k]? := by
  obtain ⟨rest1, hrest1⟩ := h.rows
  obtain ⟨rest, hrest⟩ : tbl.layoutRows <+: tbl.rows := List.takeWhile_prefix _
  rw [← hrest1, ← hrest, List.getElem?_append_left hk, List.getElem?_append_left hk]

end

/-! ## §4 The data behind the new layout section -/

/-- The data rows that have been added take the layout rows from the row `irow` on, one after the
    other, and then the last one. -/
def TakesRows (irow len : Nat) (new : List (Nat × SpanPos)) : Prop :=
  ∀ j r, (dataRows new)[j]? = some r → r = min (irow + j) (len - 1)

/-- The invariant of the data behind a new layout section. -/
structure Following (tbl tbl1 tbl2 : Tbl) (new : List (Nat × SpanPos)) : Prop where
  inv : tbl2.Inv
  part : tbl2.part = .DATA ∨ tbl2.part = .CDATA
  length : tbl2.rows.length = tbl1.rows.length
  spans : tbl2.spans.map TblSpan.place = new ++ tbl.spans.map TblSpan.place
  takes : TakesRows tbl.layoutRows.length tbl1.rows.length new
  behind : ∀ place ∈ new, tbl.layoutRows.length ≤ place.1
  rows : ∀ k < tbl.layoutRows.length, tbl2.rows[k]? = tbl.rows[k]?
  /-- A text block is open in one of the data rows that have been added. -/
  block : tbl2.part = .CDATA → new ≠ []

section

variable {tbl tbl1 tbl2 tbl3 : Tbl} {new : List (Nat × SpanPos)}

/-- The data rows that have been added determine the next layout row. -/
theorem Following.cursor_eq (h : Following tbl tbl1 tbl2 new)
    (hused : tbl.usedRows = tbl.layoutRows.length) : tbl2.cursor =
      min (tbl.layoutRows.length + (dataRows new).length) (tbl1.rows.length - 1) := by
  rw [h.inv.cursor_eq, Tbl.usedRows_append h.spans, h.length]
  cases hlast : (dataRows new).getLast? with
  | none =>
    rw [List.getLast?_eq_none_iff.mp hlast, hused]
    rfl
  | some irow =>
    obtain ⟨init, hinit⟩ := List.getLast?_eq_some_iff.mp hlast
    have hirow := h.takes init.length irow (by rw [hinit, List.getElem?_concat_length])
    rw [hinit, List.length_append, List.length_singleton]
    dsimp only [Option.map_some, Option.getD_some]
    omega

/-- Data rows for consecutive layout rows are added. -/
theorem TakesRows.append {irow len cursor k : Nat} (h : TakesRows irow len new)
    (hcursor : cursor = min (irow + (dataRows new).length) (len - 1)) (hlt : cursor + k < len) :
    TakesRows irow len
      ((List.range' cursor (k + 1)).reverse.map (fun r => (r, SpanPos.DATA)) ++ new) := by
  intro j r hr
  rw [dataRows_append, dataRows_range] at hr
  rcases Nat.lt_or_ge j (dataRows new).length with hj | hj
  · rw [List.getElem?_append_left hj] at hr
    exact h j r hr
  · rw [List.getElem?_append_right hj] at hr
    obtain ⟨hk, hr⟩ := List.getElem?_eq_some_iff.mp hr
    rw [List.getElem_range'] at hr
    rw [List.length_range'] at hk
    omega

/-- Only rows that consist of data count. -/
theorem TakesRows.line {irow len cursor : Nat} {pos : SpanPos} (h : TakesRows irow len new)
    (hpos : pos ≠ .DATA) : TakesRows irow len ((cursor, pos) :: new) := by
  intro j r hr
  have hdata : dataRows ((cursor, pos) :: new) = dataRows new := by
    rw [dataRows, List.filter_cons_of_neg (by simpa using hpos)]
    rfl
  rw [hdata] at hr
  exact h j r hr

/-- A line adds data rows behind the earlier layout rows. -/
theorem Following.frame (h : Following tbl tbl1 tbl2 new) {more : List (Nat × SpanPos)}
    (hframe : DataFrame tbl2 more tbl3) (hinv : tbl3.Inv) (hne : more ++ new ≠ [])
    (htakes : TakesRows tbl.layoutRows.length tbl1.rows.length (more ++ new))
    (hbehind : ∀ place ∈ more, tbl.layoutRows.length ≤ place.1) :
    Following tbl tbl1 tbl3 (more ++ new) := by
  have hspans : tbl3.spans.map TblSpan.place = more ++ new ++ tbl.spans.map TblSpan.place := by
    rw [hframe.spans, h.spans, List.append_assoc]
  have hall : ∀ place ∈ more ++ new, tbl.layoutRows.length ≤ place.1 :=
    List.forall_mem_append.mpr ⟨hbehind, h.behind⟩
  refine ⟨hinv, hframe.part, hframe.rows.length.trans h.length, hspans, htakes, hall, ?_,
    fun _ => hne⟩
  intro k hk
  -- The layout row that may change is behind the earlier ones.
  have hlast : tbl.layoutRows.length ≤ tbl3.lastLayout := by
    obtain ⟨place, places, hplaces⟩ := List.exists_cons_of_ne_nil hne
    rw [hplaces, List.cons_append] at hspans
    obtain ⟨sp, sps, hsps, hsp, -⟩ := List.map_eq_cons_iff.mp hspans
    rw [Tbl.lastLayout, hsps]
    have hplace := hall place (by rw [hplaces]; exact List.mem_cons_self)
    rw [← hsp] at hplace
    exact hplace
  rw [hframe.rows.other k (by omega)]
  exact h.rows k hk

/-- One line. -/
theorem Following.line (h : Following tbl tbl1 tbl2 new) (hnew : NewLayout tbl tbl1)
    (hused : tbl.usedRows = tbl.layoutRows.length) (hline : ReadsLine tbl2 tbl3) :
    ∃ new', Following tbl tbl1 tbl3 new' := by
  obtain ⟨X, env, p, pos, hread⟩ := hline
  have hinv := (tblRead_inv p env pos h.inv).of_eq_ok hread
  rcases h.part with hpart | hpart
  · rw [tblRead_data env hpart] at hread
    obtain ⟨more, hadds, hframe, hnone⟩ := (tblData_frame p pos h.inv hpart).of_eq_ok hread
    -- The next data row uses the row of the layout that follows those used before.
    have hcursor := h.cursor_eq hused
    have hrow := hnew.row
    cases hadds with
    | none =>
      rw [hnone rfl]
      exact ⟨new, h⟩
    | line hpos hlt =>
      refine ⟨_, h.frame hframe hinv (List.cons_ne_nil _ _) (h.takes.line hpos) ?_⟩
      intro place hplace
      rw [List.mem_singleton.mp hplace]
      dsimp only
      omega
    | data k hlt =>
      rw [h.length] at hlt
      refine ⟨_, h.frame hframe hinv ?_ (h.takes.append hcursor hlt) ?_⟩
      · rw [List.range'_1_concat, List.reverse_concat]
        exact List.cons_ne_nil _ _
      · intro place hplace
        obtain ⟨r, hr, rfl⟩ := List.mem_map.mp hplace
        rw [List.mem_reverse, List.mem_range'_1] at hr
        dsimp only
        omega
  · -- Inside a text block, no row is added.
    rw [tblRead_cdata env hpart] at hread
    obtain ⟨hframe, -⟩ := (tblCdata_frame p pos hpart).of_eq_ok hread
    exact ⟨_, h.frame hframe hinv (h.block hpart) h.takes (List.forall_mem_nil _)⟩

/-- All the lines behind the new layout section. -/
theorem NewLayout.following (hinv : tbl.Inv) (hnew : NewLayout tbl tbl1)
    (hused : tbl.usedRows = tbl.layoutRows.length) (hrun : ReflTransGen ReadsLine tbl1 tbl2) :
    ∃ new, Following tbl tbl1 tbl2 new := by
  induction hrun with
  | refl =>
    obtain ⟨hinv1, hkept⟩ := hnew.kept hinv
    refine ⟨[], hinv1, .inl hnew.complete, rfl, by rw [hkept.spans]; rfl, ?_,
      List.forall_mem_nil _, fun k hk => hkept.getElem?_eq hk, fun h => ?_⟩
    · intro j r hr
      cases hr
    · rw [hnew.complete] at h
      cases h
  | tail _ hline ih =>
    obtain ⟨new, hfollowing⟩ := ih
    exact hfollowing.line hnew hused hline

/-- An empty data line adds a data row for the next layout row. -/
theorem readsLine_empty (hinv : tbl.Inv) (hpart : tbl.part = .DATA) (hrows : tbl.rows ≠ []) :
    ∃ tbl' new, ReadsLine tbl tbl' ∧
      tbl'.spans.map TblSpan.place = new ++ tbl.spans.map TblSpan.place ∧
      (dataRows new)[0]? = some tbl.cursor := by
  have hp : ¬ SpecialLine [] := by
    unfold SpecialLine
    decide
  have heq := tblData_eq hinv (by rw [hpart]; decide) (hinv.cursor_lt hrows) hp 0
  rw [dataLoop_end rfl (Nat.succ_pos _)] at heq
  refine ⟨_, _, ⟨Unit, plainEnv, [], 0, (tblRead_data plainEnv hpart [] 0).trans heq⟩,
    newspan_place tbl _ _, ?_⟩
  rw [dataRows_range, List.range'_succ]
  rfl

/-- **Data behind a new layout section.**  The data rows take the layout rows of the new section if
    and only if those before it have been used up to the last one. -/
theorem restart_followsLayout_iff (hreach : tbl.Reachable) (hnew : NewLayout tbl tbl1) :
    (∀ tbl2, ReflTransGen ReadsLine tbl1 tbl2 → FollowsLayout tbl tbl1 tbl2) ↔
      tbl.usedRows = tbl.layoutRows.length := by
  have hinv := hreach.inv
  constructor
  · intro h
    obtain ⟨hinv1, hkept⟩ := hnew.kept hinv
    have hrow := hnew.row
    -- The next data row shows which layout rows have been used.
    obtain ⟨tbl2, new, hline, hspans, hfirst⟩ :=
      readsLine_empty hinv1 hnew.complete (List.length_pos_iff.mp (Nat.zero_lt_of_lt hrow))
    obtain ⟨new', hspans', htakes, -⟩ := h tbl2 (.single hline)
    rw [hkept.spans] at hspans
    obtain rfl := List.append_cancel_right (hspans.symm.trans hspans')
    have hcursor := htakes 0 _ hfirst
    have hused : tbl1.usedRows = tbl.usedRows := by
      rw [Tbl.usedRows, Tbl.usedRows, hkept.spans]
    have hle := hinv.usedRows_le
    rw [hinv1.cursor_eq, hused] at hcursor
    omega
  · intro hused tbl2 hrun
    obtain ⟨new, h⟩ := hnew.following hinv hused hrun
    exact ⟨new, h.spans, h.takes, h.rows⟩

/-- The lines of a table with two layout rows and one data row. -/
def shortLines : List String := ["l, l l.", "a"]

/-- The table that these lines build. -/
def shortTbl : Tbl := (readLines shortLines tblAlloc).toOption.getD tblAlloc

/-- A new layout section for a table. -/
def withLayout (tbl : Tbl) : Tbl := (readLines ["r."] (tblRestart tbl)).toOption.getD tblAlloc

/-- The only layout row has been used before the new layout section. -/
theorem restart_followsLayout_pair :
    (∀ tbl2, ReflTransGen ReadsLine (withLayout pairTbl) tbl2 →
      FollowsLayout pairTbl (withLayout pairTbl) tbl2) ↔
      pairTbl.usedRows = pairTbl.layoutRows.length :=
  restart_followsLayout_iff
    (.lines .alloc (show readLines ["l l.", "a\tb"] tblAlloc = .ok pairTbl by decide +kernel))
    ⟨.single ⟨rfl, Unit, plainEnv, "r.".toList, 0,
      show tblRead "r.".toList plainEnv (tblRestart pairTbl) 0 = .ok (withLayout pairTbl) by
        decide +kernel⟩, by decide +kernel, by decide +kernel⟩

/-- With one data row for two layout rows, the next data row still takes the second one of these. -/
theorem restart_followsLayout_short : ¬ ∀ (tbl tbl1 : Tbl), tbl.Reachable → NewLayout tbl tbl1 →
    ∀ tbl2, ReflTransGen ReadsLine tbl1 tbl2 → FollowsLayout tbl tbl1 tbl2 := by
  intro h
  have hlines : readLines shortLines tblAlloc = .ok shortTbl := by decide +kernel
  have hread : tblRead "r.".toList plainEnv (tblRestart shortTbl) 0 = .ok (withLayout shortTbl) := by
    decide +kernel
  have hnew : NewLayout shortTbl (withLayout shortTbl) :=
    ⟨.single ⟨rfl, Unit, plainEnv, _, 0, hread⟩, by decide +kernel, by decide +kernel⟩
  have hdata : tblRead "b".toList plainEnv (withLayout shortTbl) 0 = .ok
      ((readLines ["b"] (withLayout shortTbl)).toOption.getD tblAlloc) := by
    decide +kernel
  obtain ⟨new, hspans, htakes, -⟩ := h _ _ (.lines .alloc hlines) hnew _
    (.single ⟨Unit, plainEnv, _, 0, hdata⟩)
  have hplaces : ((readLines ["b"] (withLayout shortTbl)).toOption.getD tblAlloc).spans.map
      TblSpan.place = [(1, SpanPos.DATA)] ++ shortTbl.spans.map TblSpan.place := by
    decide +kernel
  obtain rfl := List.append_cancel_right (hplaces.symm.trans hspans)
  exact absurd (htakes 0 1 rfl) (by decide +kernel)

end

end Mandoc
