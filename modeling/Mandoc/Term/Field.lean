import Mandoc.Term.Word

/-!
# Printing the Output Buffer

The function `term_field()` prints the cells of the column buffer. While doing so, it keeps track
of the visual position: a backspace moves it back by the width of the preceding cell, and a tab
moves it to the next tab position, which is looked up with `term_tab_next()`.

Positions in tab lists are of the type `size_t`. The visual position is an integer here, which is
negative only if the buffer contains more backspaces than characters.
-/

namespace Mandoc

/-! ## §1 Tab positions -/

/-- `tabs` -/
structure Tabs where
  /-- All tab positions for lookup. -/
  a : List Nat
  /-- Periodic tab positions to add. -/
  p : List Nat
deriving DecidableEq, Repr

/-- Add the periodic tab positions behind the last position. -/
def Tabs.extend (tabs : Tabs) : Tabs :=
  { tabs with a := tabs.a ++ tabs.p.map fun t => (t + tabs.a.getLastD 0) % 2 ^ 64 }

/-- An iteration in `term_tab_next()`: the tab positions, and the index. -/
def tabStep (prev : Nat) (st : Tabs × Nat) : Res (Loop.Next (Tabs × Nat) (Nat × Tabs)) :=
  let (tabs, i) := st
  if i = tabs.a.length ∧ tabs.p = [] then .ok (.done (prev, tabs))
  else
    let tabs := if i = tabs.a.length then tabs.extend else tabs
    let t := tabs.a.getD i 0
    if prev < t then .ok (.done (t, tabs)) else .ok (.again (tabs, i + 1))

/-- `term_tab_next()`: the next tab position. The number of iterations is bounded by the number of
    different values for the last position. -/
def termTabNext (tabs : Tabs) (prev : Nat) : Res (Nat × Tabs) :=
  Loop.run (tabStep prev) .fuel (tabs.a.length + (2 ^ 64 + 1) * tabs.p.length + 1) (tabs, 0)

/-- Tab positions after `.ta` without an argument. -/
def Tabs.none : Tabs := ⟨[], []⟩

theorem termTabNext_none (prev : Nat) : termTabNext .none prev = .ok (prev, .none) := by
  simp [termTabNext, Loop.run, tabStep, Tabs.none]

/-! ## §2 Printing cells -/

/-- The variables of the loop in `term_field()`. -/
structure FieldState where
  p : Termp
  tabs : Tabs
  /-- White space that was not printed yet. -/
  vbl : Nat
  /-- Visual position of the current character. -/
  vis : Int
  /-- Temporary offset for literal tabs. -/
  taboff : Int

namespace FieldState

/-- Do not print whitespace right away, only count it. -/
def addBlank (st : FieldState) (dv : Nat) : FieldState :=
  { st with vbl := st.vbl + dv, vis := st.vis + dv }

/-- Print a character, and the white space before it. -/
def print (st : FieldState) (c : Char) : FieldState :=
  { st with p := (if 0 < st.vbl then st.p.advance st.vbl else st.p).letter c, vbl := 0 }

/-- Visual position including tab offset. -/
def tabPosition (st : FieldState) : Nat :=
  if st.taboff < 0 ∧ st.vis < -st.taboff then 0 else (st.vis + st.taboff).toNat

@[simp] theorem print_tcol (st : FieldState) (c : Char) : (st.print c).p.tcol = st.p.tcol := by
  unfold print
  split <;> rfl

@[simp] theorem print_getwidth (st : FieldState) (c : Char) :
    (st.print c).p.getwidth = st.p.getwidth := by
  unfold print
  split <;> rfl

@[simp] theorem print_vis (st : FieldState) (c : Char) : (st.print c).vis = st.vis := rfl

@[simp] theorem print_tabs (st : FieldState) (c : Char) : (st.print c).tabs = st.tabs := rfl

end FieldState

/-- An iteration in `term_field()`, for the cell at the index `ic`. -/
def fieldStep (st : FieldState) (ic : Nat) : Res FieldState :=
  let c := st.p.tcol.buf ic
  if c = '\n' ∨ c = ASCII_BREAK ∨ c = ASCII_NBRZW then .ok st
  else if c = ASCII_TABREF then .ok { st with taboff := -st.vis - st.p.getwidth ' ' }
  else if c = '\t' then do
    let (next, tabs) ← termTabNext st.tabs st.tabPosition
    return { st.addBlank (next - st.tabPosition) with tabs := tabs }
  else if c = ' ' ∨ c = ASCII_NBRSP then .ok (st.addBlank (st.p.getwidth ' '))
  else
    let st := st.print c
    if c = BS then
      if ic = 0 then .error .overrun
      else .ok { st with vis := st.vis - st.p.getwidth (st.p.tcol.buf (ic - 1)) }
    else .ok { st with vis := st.vis + st.p.getwidth c }

/-- The iterations for `n` cells, beginning at the index `ic`. -/
def fieldCells (st : FieldState) (ic n : Nat) : Res FieldState := (List.range' ic n).foldlM fieldStep st

/-- `term_field()`: the tab positions are global variables. -/
def termField (p : Termp) (tabs : Tabs) (vbl nbr : Nat) : Res (Termp × Tabs) := do
  let st ← fieldCells ⟨p, tabs, vbl, 0, p.tcol.taboff⟩ p.tcol.col (nbr - p.tcol.col)
  return ({ st.p with tcol := { st.p.tcol with col := nbr } }, st.tabs)

end Mandoc
