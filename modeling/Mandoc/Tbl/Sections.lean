import Mandoc.Tbl.Invariant

/-!
# What a layout section keeps

A table can have several layout sections: the request `.T&` starts another one behind some data.
The layout parser appends its layout rows to those that are already there.  It completes the last
one of these if it is still empty, but does not touch any layout row that has got a cell, nor any
data row.
-/

namespace Mandoc

/-- The layout rows at the beginning and the data rows are kept. -/
structure KeepsRows (old : List TblRow) (spans : List TblSpan) (tbl : Tbl) : Prop where
  rows : old <+: tbl.rows
  spans : tbl.spans = spans

/-- Either the layout goes on, or it has been completed. -/
def LayoutState (tbl : Tbl) : Prop :=
  tbl.part = .LAYOUT ∨ (tbl.part = .DATA ∧ tbl.rows ≠ [])

section

variable {old : List TblRow} {spans : List TblSpan} {tbl : Tbl}

/-- A layout row behind those at the beginning is changed. -/
theorem KeepsRows.set (h : KeepsRows old spans tbl) {irow : Nat} (hirow : old.length ≤ irow)
    (row : TblRow) (opts : TblOpts) :
    KeepsRows old spans { tbl with rows := tbl.rows.set irow row, opts := opts } := by
  refine ⟨?_, h.spans⟩
  obtain ⟨rest, hrest⟩ := h.rows
  refine ⟨rest.set (irow - old.length) row, ?_⟩
  rw [← hrest, List.set_append_right _ _ hirow]

/-- The layout row to be filled is behind those at the beginning if these have got cells. -/
theorem KeepsRows.startRow (h : KeepsRows old spans tbl) (hold : ∀ row ∈ old, row.cells ≠ []) :
    KeepsRows old spans (startRow tbl).1 ∧ old.length ≤ (startRow tbl).2 ∧
      (startRow tbl).1.part = tbl.part := by
  unfold Mandoc.startRow
  obtain ⟨rest, hrest⟩ := h.rows
  cases hlast : tbl.rows.getLast? with
  | none =>
    rw [List.getLast?_eq_none_iff] at hlast
    rw [hlast] at hrest
    obtain ⟨rfl, -⟩ := List.append_eq_nil_iff.mp hrest
    exact ⟨⟨List.nil_prefix, h.spans⟩, Nat.le_refl _, rfl⟩
  | some last =>
    have hlen := congrArg List.length hrest
    rw [List.length_append] at hlen
    by_cases hcells : last.cells = []
    · simp only [hcells, if_true]
      refine ⟨h, ?_, trivial⟩
      -- The last layout row is empty, so it is not one of those at the beginning.
      have hne : rest ≠ [] := by
        rintro rfl
        rw [List.append_nil] at hrest
        rw [← hrest] at hlast
        exact hold last (List.mem_of_getLast? hlast) hcells
      have := List.length_pos_iff.mpr hne
      omega
    · simp only [hcells, if_false]
      refine ⟨⟨h.rows.trans (List.prefix_append _ _), h.spans⟩, ?_, trivial⟩
      omega

/-- One layout cell. -/
theorem cell_keepsRows {X : Type} (env : Env X) (p : CStr) {irow : Nat} (pos : Nat)
    (h : KeepsRows old spans tbl) (hirow : old.length ≤ irow) :
    Ensures (cell env p tbl irow pos) fun r =>
      KeepsRows old spans r.1 ∧ r.1.part = tbl.part := by
  unfold cell
  cases tbl.rows[irow]? with
  | none => exact Ensures.error_iff.mpr trivial
  | some rp =>
    dsimp only [Tbl.setRow]
    generalize leadingLines p (p.length + 1) tbl.opts.opts rp.vert pos = lines
    obtain ⟨opts, vert, pos⟩ := lines
    have hlines := h.set hirow { rp with vert := vert } { tbl.opts with opts := opts }
    dsimp only
    generalize nextKey p (p.length + 1) pos = key
    obtain ⟨c, pos⟩ := key
    cases c with
    | none => exact Ensures.pure_iff.mpr ⟨hlines, rfl⟩
    | some c =>
      apply Ensures.call
      intro st
      exact Ensures.pure_iff.mpr ⟨hlines.set hirow _ _, rfl⟩

/-- The end of the layout only drops layout rows without cells. -/
theorem KeepsRows.endLayout (h : KeepsRows old spans tbl) (hold : ∀ row ∈ old, row.cells ≠ []) :
    KeepsRows old spans (endLayout tbl) ∧ LayoutState (endLayout tbl) := by
  unfold Mandoc.endLayout
  obtain ⟨rest, hrest⟩ := h.rows
  cases hrows : tbl.rows with
  | nil =>
    rw [hrows] at hrest
    obtain ⟨rfl, -⟩ := List.append_eq_nil_iff.mp hrest
    simp only [if_true]
    split
    · exact ⟨⟨List.nil_prefix, h.spans⟩, .inr ⟨rfl, by simp [cellAlloc, Tbl.setRow]⟩⟩
    · exact ⟨⟨List.nil_prefix, h.spans⟩, .inr ⟨rfl, by simp [cellAlloc, Tbl.setRow]⟩⟩
  | cons first others =>
    simp only [reduceCtorEq, if_false]
    by_cases hcells : first.cells = []
    · -- The first layout row is empty, so it is not one of those that are kept.
      have hnil : old = [] := by
        cases old with
        | nil => rfl
        | cons row old =>
          rw [hrows, List.cons_append] at hrest
          obtain ⟨rfl, -⟩ := List.cons.inj hrest
          exact absurd hcells (hold row List.mem_cons_self)
      subst hnil
      simp only [hcells, if_true]
      split
      · exact ⟨⟨List.nil_prefix, h.spans⟩, .inr ⟨rfl, by simp [cellAlloc, Tbl.setRow]⟩⟩
      · exact ⟨⟨List.nil_prefix, h.spans⟩, .inr ⟨rfl, by simp [cellAlloc, Tbl.setRow]⟩⟩
    · simp only [hcells, if_false, margins_rows tbl.opts first others hcells]
      have hkept : old <+: (first :: others).takeWhile TblRow.hasCell := by
        rw [← hrows, ← hrest, List.takeWhile_append_of_pos]
        · exact List.prefix_append _ _
        · exact fun row hrow => row.hasCell_iff.mpr (hold row hrow)
      refine ⟨⟨hkept, h.spans⟩, .inr ⟨rfl, ?_⟩⟩
      rw [List.takeWhile_cons_of_pos (first.hasCell_iff.mpr hcells)]
      exact List.cons_ne_nil _ _

/-- The loop of `tblLayout`. -/
theorem layoutLoop_keepsRows {X : Type} (env : Env X) (p : CStr)
    (hold : ∀ row ∈ old, row.cells ≠ []) (n : Nat) {tbl : Tbl} {rp : Option Nat} (pos : Nat)
    (h : KeepsRows old spans tbl) (hpart : tbl.part = .LAYOUT)
    (hrp : ∀ irow, rp = some irow → old.length ≤ irow) :
    Ensures (layoutLoop env p n tbl rp pos) fun tbl' =>
      KeepsRows old spans tbl' ∧ LayoutState tbl' := by
  induction n generalizing tbl rp pos with
  | zero => exact Ensures.error_iff.mpr trivial
  | succ n ih =>
    unfold layoutLoop
    dsimp only
    apply Ensures.ite
    · intro _
      exact ih _ h hpart fun irow hirow => by cases hirow
    intro _
    apply Ensures.ite
    · exact fun _ => Ensures.pure_iff.mpr ⟨h, .inl hpart⟩
    intro _
    apply Ensures.ite
    · exact fun _ => Ensures.pure_iff.mpr (h.endLayout hold)
    intro _
    -- A cell is appended to a row that is not one of the old ones.
    have hstart : ∀ {tbl : Tbl} {irow pos : Nat}, KeepsRows old spans tbl → tbl.part = .LAYOUT →
        old.length ≤ irow →
        Ensures (cell env p tbl irow pos >>= fun res => layoutLoop env p n res.1 (some irow) res.2)
          fun tbl' => KeepsRows old spans tbl' ∧ LayoutState tbl' := by
      intro tbl irow pos h hpart hirow
      apply Ensures.bind (cell_keepsRows env p pos h hirow)
      rintro ⟨tbl', pos'⟩ ⟨h', hpart'⟩
      refine ih pos' h' (hpart'.trans hpart) ?_
      rintro irow' ⟨⟩
      exact hirow
    cases rp with
    | none =>
      obtain ⟨h', hirow', hpart'⟩ := h.startRow hold
      exact hstart h' (hpart'.trans hpart) hirow'
    | some irow => exact hstart h hpart (hrp irow rfl)

/-- **A line of a layout section** keeps the data rows and the layout rows that have got cells. -/
theorem tblLayout_keepsRows {X : Type} (env : Env X) (p : CStr) (pos : Nat)
    (hold : ∀ row ∈ old, row.cells ≠ []) (h : KeepsRows old spans tbl)
    (hpart : tbl.part = .LAYOUT) :
    Ensures (tblLayout env p tbl pos) fun tbl' => KeepsRows old spans tbl' ∧ LayoutState tbl' :=
  layoutLoop_keepsRows env p hold _ pos h hpart fun _ hirow => nomatch hirow

end

end Mandoc
