import Mandoc.CString
import Mandoc.Lib.LastChild

/-!
# Equation Boxes

The boxes of a typeset equation, and the functions of `eqn.c` that build the tree of
boxes. A box is identified by the number of boxes allocated before it; the pointers
`parent`, `first`, `last`, `next`, and `prev` are kept in one map, the other members of
`struct eqn_box` in another one. Box 0 is the root, which `roff.c` allocates together
with the syntax tree node of the equation.
-/

namespace Mandoc

open OrderedForest

/-! ## §1 Boxes -/

/-- `enum eqn_boxt` -/
inductive EqnBoxt where
  /-- Text, e.g. number, variable, operator, ... -/
  | TEXT
  /-- Nested eqn(7) subexpression. -/
  | SUBEXPR
  /-- List, for example in braces. -/
  | LIST
  /-- Vertical pile. -/
  | PILE
  /-- List of columns. -/
  | MATRIX
deriving DecidableEq, Repr

/-- `enum eqn_fontt` -/
inductive EqnFontt where
  | NONE | ROMAN | BOLD | FAT | ITALIC
deriving DecidableEq, Repr

/-- `enum eqn_post` -/
inductive EqnPost where
  | NONE | SUP | SUBSUP | SUB | TO | FROM | FROMTO | OVER | SQRT
deriving DecidableEq, Repr

/-- The data of a box, apart from the pointers forming the tree: `struct eqn_box`. The
    default values are those that `eqn_box_new()` sets. -/
structure EqnBox where
  /-- Text (or NULL). -/
  text : Option CStr := none
  /-- Left-hand fence. -/
  left : Option CStr := none
  /-- Right-hand fence. -/
  right : Option CStr := none
  /-- Symbol above. -/
  top : Option CStr := none
  /-- Symbol below. -/
  bottom : Option CStr := none
  /-- Maximal number of arguments, where the value `UINT_MAX` means that there is none. -/
  expectargs : Option Nat := none
  /-- Actual number of arguments. -/
  args : Nat := 0
  /-- Font size. -/
  size : Int := 0
  type : EqnBoxt := .TEXT
  font : EqnFontt := .NONE
  /-- Position of the next box. -/
  pos : EqnPost := .NONE
deriving DecidableEq, Repr

/-- `parent->args == parent->expectargs` -/
def EqnBox.full (b : EqnBox) : Bool := b.expectargs = some b.args

/-- `expectargs == 1 && args == 1` -/
def EqnBox.single (b : EqnBox) : Bool := b.expectargs = some 1 && b.args = 1

/-- `expectargs > 1` -/
def EqnBox.several (b : EqnBox) : Bool := b.expectargs.all (1 < ·)

/-- The boxes of one equation. -/
structure EqnTree where
  /-- `first` is called `child` here. -/
  links : Nat → Links Nat := fun _ => {}
  box : Nat → EqnBox := fun _ => {}
  /-- How many boxes have been allocated. -/
  count : Nat := 0

/-- `n->eqn = eqn_box_new()` -/
def eqnBoxNew : EqnTree := { count := 1 }

/-- The ways in which parsing an equation can fail to return. -/
inductive EqnFault where
  /-- A null pointer was dereferenced. -/
  | null
  /-- The assertion in `eqn_box_makebinary()` failed. -/
  | makebinary
  /-- `mandoc_escape()` did not return to the parser, or not with a position inside the
      string, when it was called on the escape sequence at an index of a word. -/
  | escape (word : CStr) (i : Nat) (fault : Fault)
  /-- `end` was used although it pointed into a buffer that had been freed. -/
  | dangling
  /-- The step budget of the model ran out. -/
  | fuel
deriving DecidableEq, Repr

/-- Result of a function of the equation parser. -/
abbrev EqnRes := Except EqnFault

/-- Assign to the data of a box. -/
def EqnTree.modify (t : EqnTree) (b : Nat) (f : EqnBox → EqnBox) : EqnTree :=
  { t with box := Function.update t.box b (f (t.box b)) }

/-! ## §2 Building the tree -/

/-- `eqn_box_alloc()`: allocate a box as the last child of the parent node. The new box is
    the one numbered by the old value of `count`. -/
def eqnBoxAlloc (gsize : Int) (t : EqnTree) (parent : Nat) : EqnRes EqnTree :=
  let bp := t.count
  -- parent->last->next
  if (t.links parent).child ≠ none ∧ (t.links parent).last = none then .error .null
  else
    let t := t.modify parent fun p => { p with args := p.args + 1 }
    .ok {
      links := linkLast (Function.update t.links bp {}) parent bp
      box := Function.update t.box bp { font := (t.box parent).font, size := gsize }
      count := bp + 1 }

/-- `eqn_box_makebinary()`: reparent the last child under a new subexpression as the first
    element. The new box is the one numbered by the old value of `count`. -/
def eqnBoxMakebinary (gsize : Int) (t : EqnTree) (parent : Nat) : EqnRes EqnTree :=
  match (t.links parent).last with
  | none => .error .makebinary
  | some b => do
    let newb := t.count
    let t := t.modify parent fun p => { p with args := p.args - 1 }
    let t ← eqnBoxAlloc gsize { t with links := cutLast t.links parent b } parent
    let t := { t with links := adoptLast t.links newb b }
    return t.modify newb ({ · with type := .SUBEXPR, expectargs := some 2, args := 1 })

/-- The part of `eqn_parse()` that puts a list in place of the last child `cur` of
    `parent`, and moves `cur` into the list. The list is the box numbered by the old value
    of `count`. -/
def eqnBoxEnlist (gsize : Int) (t : EqnTree) (parent cur : Nat) : EqnRes EqnTree := do
  let split := t.count
  -- Remove the text from the tree.
  let t := { t with links := cutWord t.links parent cur }
  let t := t.modify parent fun p => { p with args := p.args - 1 }
  -- Set up a list instead. Its counter is not adjusted to its first member.
  let t ← eqnBoxAlloc gsize t parent
  let t := t.modify split ({ · with type := .LIST })
  -- Insert the word into the list.
  return { t with links := adoptWord t.links split cur }

/-! ## §3 Climbing the tree -/

/-- `parent->parent`, which must not be NULL. -/
def eqnParent (t : EqnTree) (b : Nat) : EqnRes Nat :=
  match (t.links b).parent with
  | none => .error .null
  | some p => .ok p

/-- Climb from `cur` to the next box with a property, at most for the given number of
    steps. Without such a box, `cur` becomes NULL. -/
def eqnAscend (t : EqnTree) (stop : EqnBox → Bool) : Nat → Nat → EqnRes (Option Nat)
  | 0, _ => .error .fuel
  | steps + 1, cur =>
    if stop (t.box cur) then .ok (some cur)
    else
      match (t.links cur).parent with
      | none => .ok none
      | some p => eqnAscend t stop steps p

/-- `for (cur = parent; cur != NULL; cur = cur->parent) if (...) break;` -/
def eqnFind (t : EqnTree) (stop : EqnBox → Bool) (parent : Nat) : EqnRes (Option Nat) :=
  eqnAscend t stop t.count parent

/-- `while (...) parent = parent->parent;`, where `parent` must not become NULL. -/
def eqnClimb (t : EqnTree) (closed : EqnBox → Bool) (parent : Nat) : EqnRes Nat := do
  match ← eqnAscend t (fun b => !closed b) t.count parent with
  | none => .error .null
  | some p => return p

end Mandoc
