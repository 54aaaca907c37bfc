import Mandoc.CString
import Mandoc.Lib.Wrapping

/-!
# Indentation of Lists

Model of the margin control in `termp_it_pre()` of `mdoc_term.c`. The offset of a list and the
width of its items are signed. Each of them is limited with respect to the current offset, which
is unsigned, and then both are added to it, one after the other.

The computation is written down once, with the conversions between `int` and `size_t` as a
parameter, such that the result on a machine can be compared with the exact one.

- `termpItPre_right_iff` says for one call when all values are exact.
- `printMdocNode_right_iff` says it for whole trees of nested lists.
- `outdentedBl_wraps` is about a list where both arguments are negative.
-/

namespace Mandoc

open Wrapping

/-! ## §1 Terminals and lists -/

/-- The largest offset or width that is used. -/
def SHRT_MAX_width : Int := 32767

/-- What a terminal makes of widths, in basic units. -/
structure MdocTerm where
  /-- `term_len(p, 1)`, the width of a blank. -/
  en : Nat
  en_pos : 0 < en
  en_le : 10 * en ≤ 32767
  /-- What `a2roffsu(v, &su, SCALE_MAX)` and `term_hspan(p, &su)` make of a scaled width. Other
      strings do not have a value. -/
  scaled : CStr → Option Int
  scaled_int : ∀ v, ∀ x ∈ scaled v, -2 ^ 31 ≤ x ∧ x < 2 ^ 31
  /-- `term_hspan(p, &su)` for `term_strlen(p, v)` basic units. -/
  strspan : CStr → Nat
  strspan_int : ∀ v, strspan v < 2 ^ 31
  /-- The default indentation, in blanks. -/
  defindent : Nat

variable {p : MdocTerm}

/-- `term_len()` -/
def MdocTerm.len (p : MdocTerm) (sz : Nat) : Nat := p.en * sz

/-- Interpret the string as a scaled width or, if the syntax is invalid, measure how much width it
    takes up when printed. -/
def a2width (p : MdocTerm) (v : CStr) : Int := (p.scaled v).getD (p.strspan v)

/-- `enum mdoc_list` -/
inductive MdocList where
  | bullet
  | column
  | dash
  | diag
  | enum
  | hang
  | hyphen
  | inset
  | item
  | ohang
  | tag
deriving DecidableEq, Repr

/-- `struct mdoc_bl`, with the columns being narrower than `SHRT_MAX`. -/
structure BlNorm (p : MdocTerm) where
  type : MdocList
  /-- `-offset` -/
  offs : Option CStr
  /-- `-width` -/
  width : Option CStr
  /-- `-column` -/
  cols : List CStr
  cols_lt : ∀ v ∈ cols, p.strspan v < 32767
  ncols_lt : cols.length < 2 ^ 31

/-- The part of an item that a node is. -/
inductive ItPart where
  | head
  /-- A body: how many other bodies come before it, and whether `n->next` is `NULL`. -/
  | body (index : Nat) (last : Bool)

/-- The margins of the current column. -/
structure Tcol where
  offset : Nat
  rmargin : Nat
  /-- `p->maxrmargin` -/
  maxrmargin : Nat

/-! ## §2 Margin control -/

/-- The list types that put their items at an indentation of their own. -/
def MdocList.indents : MdocList → Bool
  | .bullet | .dash | .enum | .hyphen | .hang | .tag => true
  | _ => false

/-- The width for specific list types, in multiples of a blank. -/
def MdocList.defaultLen : MdocList → Nat
  | .bullet | .dash | .hyphen | .enum => 2
  | .hang | .tag => 8
  | .column => 10
  | _ => 0

/-- Check an offset or a width against the current offset. -/
def limitSpan (c : Conv) (offset : Nat) (x : Int) : Int :=
  -- In the comparison, the negation of `INT_MIN` is taken to be exact.
  if x < 0 ∧ c.size (-x) > offset then c.int (c.size (-offset))
  else if x > SHRT_MAX_width then 0
  else x

/-- The offset of the list. -/
def BlNorm.offset (c : Conv) (bl : BlNorm p) (offset : Nat) : Int :=
  match bl.offs with
  | none => 0
  | some v => limitSpan c offset (a2width p v)

/-- The width of an item in a list that is not a `-column`. The width is buffered by 2. -/
def BlNorm.itemWidth (c : Conv) (bl : BlNorm p) (offset : Nat) : Int :=
  match bl.width with
  | none => p.len bl.type.defaultLen
  | some v => limitSpan c offset (c.int (c.size (a2width p v + p.len 2)))

/-- The spacing between columns. -/
def BlNorm.dcol (bl : BlNorm p) : Nat :=
  if bl.cols.length < 5 then p.len 4 else if bl.cols.length = 5 then p.len 3 else p.len 1

/-- For each earlier column, add its width. -/
def columnOffset (c : Conv) (p : MdocTerm) (dcol : Nat) : List CStr → Int → Int
  | [], offset => offset
  | v :: cols, offset =>
    columnOffset c p dcol cols (c.int (c.size (offset + (p.strspan v + dcol))))

/-- The width of a column, which is the default width if there are too many columns. -/
def BlNorm.columnWidth (c : Conv) (bl : BlNorm p) (index : Nat) : Int :=
  match bl.cols[index]? with
  | none => p.len MdocList.column.defaultLen
  | some v => c.int (c.size (p.strspan v + bl.dcol))

/-- Offset and width of a part of an item. -/
def BlNorm.geometry (c : Conv) (bl : BlNorm p) (part : ItPart) (offset : Nat) : Int × Int :=
  match bl.type, part with
  | .column, .head => (bl.offset c offset, p.len MdocList.column.defaultLen)
  | .column, .body index _ =>
    (columnOffset c p bl.dcol (bl.cols.take index) (bl.offset c offset), bl.columnWidth c index)
  | _, _ => (bl.offset c offset, bl.itemWidth c offset)

/-- The values that `termp_it_pre()` assigns. -/
structure ItMargins where
  /-- `p->tcol->offset += offset` -/
  start : Int
  /-- `p->tcol->rmargin = p->tcol->offset + width` -/
  rmargin : Option Int
  /-- `p->tcol->offset += width` -/
  indent : Option Int
  /-- `p->tcol->rmargin = p->maxrmargin` -/
  filled : Bool
deriving DecidableEq

/-- The last column is filled to the right margin. -/
def ItPart.fills (part : ItPart) (rmargin maxrmargin : Int) : Bool :=
  match part with
  | .head => false
  | .body _ last => last && rmargin < maxrmargin

/-- `termp_it_pre()`, for heads and bodies: margin control. -/
def termpItPre (c : Conv) (bl : BlNorm p) (part : ItPart) (tcol : Tcol) : Res ItMargins :=
  let offset := (bl.geometry c part tcol.offset).1
  let width := (bl.geometry c part tcol.offset).2
  let start := c.size (tcol.offset + offset)
  let shifted := c.size (start + width)
  if bl.type.indents then
    match part with
    | .head => .ok ⟨start, some shifted, none, false⟩
    | .body _ _ => .ok ⟨start, none, some shifted, false⟩
  else if bl.type = .column then
    if width = 0 then .error .abort
    else .ok ⟨start, some shifted, none, part.fills shifted tcol.maxrmargin⟩
  else .ok ⟨start, none, none, false⟩

/-- All the values. -/
def ItMargins.values (m : ItMargins) : List Int :=
  m.start :: (m.rmargin.toList ++ m.indent.toList)

/-- The assignments. -/
def Tcol.assign (tcol : Tcol) (m : ItMargins) : Tcol where
  offset := (m.indent.getD m.start).toNat
  rmargin := if m.filled then tcol.maxrmargin else ((m.rmargin.map Int.toNat).getD tcol.rmargin)
  maxrmargin := tcol.maxrmargin

/-! ## §3 Formatting trees -/

mutual

/-- Nodes of a mdoc(7) syntax tree. -/
inductive MdocNode (p : MdocTerm) where
  /-- Text or a request, and the margins behind it. -/
  | inline (tcol : Tcol)
  /-- Another macro with its children, and the margins that its handler sets. -/
  | other (tcol : Tcol) (child : List (MdocNode p))
  /-- `Bl` with the children of its body. -/
  | Bl (bl : BlNorm p) (items : List (ItNode p))

/-- `It` with the children of the head, and with the bodies. -/
inductive ItNode (p : MdocTerm) where
  | It (head : List (MdocNode p)) (bodies : List (ItBody p))

/-- The children of a body of an `It`. -/
inductive ItBody (p : MdocTerm) where
  | body (child : List (MdocNode p))

end

/-- What happens while a tree is formatted. -/
inductive ListEvent (p : MdocTerm) where
  /-- `termp_it_pre()` is called. -/
  | pre (bl : BlNorm p) (part : ItPart) (tcol : Tcol)
  /-- An item is complete: the offset before and after it. -/
  | item (before after : Nat)

/-- The state of the formatter, with a record of the events. -/
structure ListState (p : MdocTerm) where
  tcol : Tcol
  events : List (ListEvent p)

/-- The end of `print_mdoc_node()`: the offset and the right margin are reset. -/
def ListState.reset (st : ListState p) (saved : Tcol) : ListState p :=
  { st with tcol := { st.tcol with offset := saved.offset, rmargin := saved.rmargin } }

/-- Record an event. -/
def ListState.record (st : ListState p) (e : ListEvent p) : ListState p :=
  { st with events := st.events ++ [e] }

/-- The handler for a part of an item. -/
def ListState.preIt (st : ListState p) (bl : BlNorm p) (part : ItPart) : Res (ListState p) :=
  (termpItPre .machine bl part st.tcol).map fun m =>
    { st.record (.pre bl part st.tcol) with tcol := st.tcol.assign m }

/-- Whether `termp_it_pre()` returns 0 for a head, such that its children are not printed. -/
def MdocList.skipsHead : MdocList → Bool
  | .bullet | .item | .dash | .hyphen | .enum | .column => true
  | _ => false

mutual

/-- `print_mdoc_node()` -/
def printMdocNode : MdocNode p → ListState p → Res (ListState p)
  | .inline tcol, st => .ok { st with tcol := tcol }
  | .other tcol child, st =>
    (printMdocNodelist child { st with tcol := tcol }).map (·.reset st.tcol)
  | .Bl bl items, st => (printItNodelist bl items st).map (·.reset st.tcol)

/-- `print_mdoc_nodelist()` -/
def printMdocNodelist : List (MdocNode p) → ListState p → Res (ListState p)
  | [], st => .ok st
  | n :: l, st => printMdocNode n st >>= printMdocNodelist l

/-- `print_mdoc_nodelist()` for the children of the body of a list. -/
def printItNodelist (bl : BlNorm p) : List (ItNode p) → ListState p → Res (ListState p)
  | [], st => .ok st
  | n :: l, st => printItNode bl n st >>= printItNodelist bl l

/-- `print_mdoc_node()` for an item, with its head. -/
def printItNode (bl : BlNorm p) : ItNode p → ListState p → Res (ListState p)
  | .It head bodies, st => do
    let hst ← st.preIt bl .head >>= fun hst =>
      if bl.type.skipsHead then .ok hst else printMdocNodelist head hst
    let bst ← printItBodies bl 0 bodies (hst.reset st.tcol)
    let est := bst.reset st.tcol
    .ok (est.record (.item st.tcol.offset est.tcol.offset))

/-- `print_mdoc_nodelist()` for the bodies of an item. -/
def printItBodies (bl : BlNorm p) (index : Nat) : List (ItBody p) → ListState p →
    Res (ListState p)
  | [], st => .ok st
  | n :: l, st =>
    printItBody bl index l.isEmpty n st >>= printItBodies bl (index + 1) l

/-- `print_mdoc_node()` for a body of an item. -/
def printItBody (bl : BlNorm p) (index : Nat) (last : Bool) : ItBody p → ListState p →
    Res (ListState p)
  | .body child, st => do
    let bst ← st.preIt bl (.body index last)
    let bst ← printMdocNodelist child bst
    .ok (bst.reset st.tcol)

end

/-! ## §4 Right values -/

/-- The values assigned are the exact ones, and not negative. The offset behind an item is the
    one before it. -/
def ListEvent.Right : ListEvent p → Prop
  | .pre bl part tcol => ∃ m, termpItPre .machine bl part tcol = .ok m ∧
      termpItPre .exact bl part tcol = .ok m ∧ ∀ x ∈ m.values, 0 ≤ x
  | .item before after => after = before

/-- An offset or a width, if it is neither too large nor too far to the left. -/
def limited (offset : Nat) (x : Int) : Int :=
  if x > SHRT_MAX_width then 0 else max x (-offset)

/-- The argument of `-offset`. -/
def BlNorm.offsArg (bl : BlNorm p) : Int :=
  match bl.offs with
  | none => 0
  | some v => a2width p v

/-- The argument of `-width`, buffered by 2. -/
def BlNorm.widthArg (bl : BlNorm p) : Int :=
  match bl.width with
  | none => p.len bl.type.defaultLen
  | some v => a2width p v + p.len 2

/-- The columns before a part of an item. -/
def BlNorm.colsBefore (bl : BlNorm p) (part : ItPart) : List CStr :=
  match bl.type, part with
  | .column, .body index _ => bl.cols.take index
  | _, _ => []

/-- How far a part of an item begins to the right of the list. -/
def BlNorm.shift (bl : BlNorm p) (part : ItPart) (offset : Nat) : Int :=
  limited offset bl.offsArg + ((bl.colsBefore part).map fun v => p.strspan v + bl.dcol).sum

/-- The width of a column. -/
def BlNorm.cellWidth (bl : BlNorm p) (part : ItPart) : Nat :=
  match part with
  | .head => p.len MdocList.column.defaultLen
  | .body index _ =>
    match bl.cols[index]? with
    | none => p.len MdocList.column.defaultLen
    | some v => p.strspan v + bl.dcol

/-- The arguments of a list go together with the margins. -/
structure BlNorm.Fits (bl : BlNorm p) (part : ItPart) (tcol : Tcol) : Prop where
  start : tcol.offset + bl.shift part tcol.offset < 2 ^ 64
  /-- The width is an `int`. There are not two negative arguments that lead beyond the left edge
      when taken together. -/
  item : bl.type.indents → tcol.offset = 0 ∨ bl.widthArg < 2 ^ 31 ∧
    ¬ (bl.offsArg < 0 ∧ bl.widthArg < 0 ∧ tcol.offset + bl.offsArg + bl.widthArg < 0)
  itemEnd : bl.type.indents →
    tcol.offset + bl.shift part tcol.offset + limited tcol.offset bl.widthArg < 2 ^ 64
  /-- All the columns together are not wider than an `int`. -/
  column : bl.type = .column → bl.shift part tcol.offset < 2 ^ 31
  columnEnd : bl.type = .column →
    tcol.offset + bl.shift part tcol.offset + bl.cellWidth part < 2 ^ 64

/-- The condition for an event. -/
def ListEvent.Fits : ListEvent p → Prop
  | .pre bl part tcol => bl.Fits part tcol
  | .item _ _ => True

/-! ## §5 Limits -/

section

variable {off : Nat} {x : Int}

theorem neg_le_limited (off : Nat) (x : Int) : -off ≤ limited off x := by
  unfold limited SHRT_MAX_width
  omega

theorem limited_le (off : Nat) (x : Int) : limited off x ≤ 32767 := by
  unfold limited SHRT_MAX_width
  omega

theorem limited_int (hlo : -2 ^ 31 ≤ x) : -2 ^ 31 ≤ limited off x := by
  unfold limited SHRT_MAX_width
  omega

theorem limitSpan_exact (off : Nat) (x : Int) : limitSpan .exact off x = limited off x := by
  unfold limitSpan limited SHRT_MAX_width
  simp only [exact_int, exact_size]
  omega

theorem limitSpan_machine (hlo : -2 ^ 31 ≤ x) (hhi : x < 2 ^ 31) :
    limitSpan .machine off x = limited off x := by
  unfold limitSpan limited SHRT_MAX_width
  simp only [machine_int, machine_size, toInt_toSize]
  unfold toInt toSize
  omega

end

/-- The result of `a2width()` is an `int`. -/
theorem a2width_int (p : MdocTerm) (v : CStr) : -2 ^ 31 ≤ a2width p v ∧ a2width p v < 2 ^ 31 := by
  unfold a2width
  cases hv : p.scaled v with
  | none =>
    have hspan := p.strspan_int v
    simp only [Option.getD_none]
    omega
  | some x => exact p.scaled_int v x hv

variable {bl : BlNorm p} {part : ItPart} {tcol : Tcol}

theorem offsArg_int (bl : BlNorm p) : -2 ^ 31 ≤ bl.offsArg := by
  unfold BlNorm.offsArg
  cases bl.offs with
  | none => exact Int.neg_nonpos_of_nonneg (by norm_num)
  | some v => exact (a2width_int p v).1

theorem offset_exact (bl : BlNorm p) (off : Nat) :
    bl.offset .exact off = limited off bl.offsArg := by
  unfold BlNorm.offset BlNorm.offsArg
  cases bl.offs with
  | none => simp [limited, SHRT_MAX_width]
  | some v => exact limitSpan_exact off _

theorem offset_machine (bl : BlNorm p) (off : Nat) :
    bl.offset .machine off = limited off bl.offsArg := by
  unfold BlNorm.offset BlNorm.offsArg
  cases bl.offs with
  | none => simp [limited, SHRT_MAX_width]
  | some v => exact limitSpan_machine (a2width_int p v).1 (a2width_int p v).2

theorem defaultLen_le (type : MdocList) : p.len type.defaultLen ≤ 32767 := by
  have hen := p.en_le
  unfold MdocTerm.len
  cases type <;> simp only [MdocList.defaultLen] <;> omega

theorem itemWidth_exact (bl : BlNorm p) (off : Nat) :
    bl.itemWidth .exact off = limited off bl.widthArg := by
  unfold BlNorm.itemWidth BlNorm.widthArg
  cases bl.width with
  | none =>
    have hlen := defaultLen_le (p := p) bl.type
    simp only [limited, SHRT_MAX_width]
    omega
  | some v => exact limitSpan_exact off _

/-- The buffered width is limited if it is an `int`. -/
theorem itemWidth_machine (off : Nat) (hwidth : bl.widthArg < 2 ^ 31) :
    bl.itemWidth .machine off = limited off bl.widthArg := by
  unfold BlNorm.itemWidth
  unfold BlNorm.widthArg at hwidth ⊢
  cases hv : bl.width with
  | none =>
    have hlen := defaultLen_le (p := p) bl.type
    simp only [limited, SHRT_MAX_width]
    omega
  | some v =>
    rw [hv] at hwidth
    have hlo : -2 ^ 31 ≤ a2width p v + p.len 2 :=
      (a2width_int p v).1.trans (Int.le_add_of_nonneg_right (Int.natCast_nonneg _))
    simp only [machine_int, machine_size, toInt_toSize, toInt_of_fits hlo hwidth]
    exact limitSpan_machine hlo hwidth

/-- Otherwise it turns up at the left edge. -/
theorem itemWidth_wrapped (off : Nat) (hwidth : 2 ^ 31 ≤ bl.widthArg) :
    bl.itemWidth .machine off ≤ 0 ∧ -2 ^ 31 ≤ bl.itemWidth .machine off ∧
      (bl.itemWidth .machine off = 0 ↔ off = 0) := by
  unfold BlNorm.itemWidth
  unfold BlNorm.widthArg at hwidth
  cases hv : bl.width with
  | none =>
    rw [hv] at hwidth
    have hlen := defaultLen_le (p := p) bl.type
    simp only at hwidth
    omega
  | some v =>
    rw [hv] at hwidth
    have hwidth : 2 ^ 31 ≤ a2width p v + p.len 2 := hwidth
    have hen := p.en_le
    have hint := a2width_int p v
    have hlen : p.len 2 = p.en * 2 := rfl
    have hwrap : toInt (a2width p v + p.len 2) = a2width p v + p.len 2 - 2 ^ 32 := by
      unfold toInt
      omega
    simp only [machine_int, machine_size, toInt_toSize, hwrap]
    have hlo : -2 ^ 31 ≤ a2width p v + p.len 2 - 2 ^ 32 := by omega
    rw [limitSpan_machine hlo (by omega)]
    unfold limited SHRT_MAX_width
    omega

/-! ## §6 Columns -/

/-- Without conversions, the widths of the columns are added up. -/
theorem columnOffset_exact (dcol : Nat) (cols : List CStr) (offset : Int) :
    columnOffset .exact p dcol cols offset =
      offset + (cols.map fun v => p.strspan v + dcol).sum := by
  induction cols generalizing offset with
  | nil => simp [columnOffset]
  | cons v cols ih =>
    simp only [columnOffset, exact_int, exact_size, ih, List.map_cons, List.sum_cons]
    push_cast
    ring

/-- On the machine, they are added up, and the sum is converted to an `int`. -/
theorem columnOffset_machine (dcol : Nat) (cols : List CStr) (offset : Int) :
    columnOffset .machine p dcol cols (toInt offset) =
      toInt (offset + (cols.map fun v => p.strspan v + dcol).sum) := by
  induction cols generalizing offset with
  | nil => simp [columnOffset]
  | cons v cols ih =>
    simp only [columnOffset, machine_int, machine_size, toInt_toSize, toInt_toInt_add, ih,
      List.map_cons, List.sum_cons]
    push_cast
    rw [add_assoc]

theorem dcol_pos (bl : BlNorm p) : 0 < bl.dcol := by
  have hen := p.en_pos
  unfold BlNorm.dcol MdocTerm.len
  split_ifs <;> omega

theorem dcol_le (bl : BlNorm p) : bl.dcol ≤ 32768 := by
  have hen := p.en_le
  unfold BlNorm.dcol MdocTerm.len
  split_ifs <;> omega

theorem mem_colsBefore {v : CStr} (hv : v ∈ bl.colsBefore part) : v ∈ bl.cols := by
  unfold BlNorm.colsBefore at hv
  split at hv
  · exact List.mem_of_mem_take hv
  · cases hv

theorem length_colsBefore : (bl.colsBefore part).length ≤ bl.cols.length := by
  unfold BlNorm.colsBefore
  split
  · exact List.length_take_le' _ _
  · exact Nat.zero_le _

/-- All columns together may be wider than an `int`, but not much wider. -/
theorem sum_colsBefore_lt :
    ((bl.colsBefore part).map fun v => p.strspan v + bl.dcol).sum < 2 ^ 48 := by
  have hsum := List.sum_le_card_nsmul ((bl.colsBefore part).map fun v => p.strspan v + bl.dcol)
    65535 (by
      intro x hx
      obtain ⟨v, hv, rfl⟩ := List.mem_map.mp hx
      exact Nat.add_le_add (Nat.lt_succ_iff.mp (Nat.lt_succ_of_lt (bl.cols_lt v (mem_colsBefore hv))))
        (dcol_le bl))
  have hlen := (length_colsBefore : (bl.colsBefore part).length ≤ _).trans_lt bl.ncols_lt
  rw [List.length_map, smul_eq_mul] at hsum
  omega

theorem cellWidth_pos (bl : BlNorm p) (part : ItPart) : 0 < bl.cellWidth part := by
  have hlen : 0 < p.len MdocList.column.defaultLen := Nat.mul_pos p.en_pos (by decide)
  unfold BlNorm.cellWidth
  split
  · exact hlen
  · split
    · exact hlen
    · exact Nat.add_pos_right _ (dcol_pos bl)

/-! ## §7 Offset and width -/

/-- In a list without columns. -/
theorem geometry_plain (c : Conv) (part : ItPart) (off : Nat) (htype : bl.type ≠ .column) :
    bl.geometry c part off = (bl.offset c off, bl.itemWidth c off) := by
  unfold BlNorm.geometry
  split
  · contradiction
  · contradiction
  · rfl

theorem geometry_column_fst (c : Conv) (part : ItPart) (off : Nat) (htype : bl.type = .column) :
    (bl.geometry c part off).1 =
      columnOffset c p bl.dcol (bl.colsBefore part) (bl.offset c off) := by
  unfold BlNorm.geometry BlNorm.colsBefore
  rw [htype]
  cases part <;> rfl

/-- The width of a column is the same on the machine. -/
theorem geometry_column_snd (part : ItPart) (off : Nat) (htype : bl.type = .column) :
    (bl.geometry .machine part off).2 = bl.cellWidth part ∧
      (bl.geometry .exact part off).2 = bl.cellWidth part := by
  unfold BlNorm.geometry BlNorm.cellWidth
  rw [htype]
  cases part with
  | head => exact ⟨rfl, rfl⟩
  | body index last =>
    unfold BlNorm.columnWidth
    cases hv : bl.cols[index]? with
    | none => simp only [hv, and_self]
    | some v =>
      have hspan := bl.cols_lt v (List.mem_of_getElem? hv)
      have hdcol := dcol_le bl
      have hfits : toInt (p.strspan v + bl.dcol) = p.strspan v + bl.dcol :=
        toInt_of_fits (by omega) (by omega)
      simp only [hv, machine_int, machine_size, toInt_toSize, exact_int, exact_size, hfits,
        Nat.cast_add, and_self]

/-! ## §8 One call -/

/-- In a list without columns, there are no columns before an item. -/
theorem shift_plain (part : ItPart) (off : Nat) (htype : bl.type ≠ .column) :
    bl.shift part off = limited off bl.offsArg := by
  have hcols : bl.colsBefore part = [] := by
    unfold BlNorm.colsBefore
    split
    · contradiction
    · rfl
  rw [BlNorm.shift, hcols]
  exact Int.add_zero _

theorem neg_le_shift (bl : BlNorm p) (part : ItPart) (off : Nat) : -off ≤ bl.shift part off :=
  (neg_le_limited off _).trans (Int.le_add_of_nonneg_right (Int.natCast_nonneg _))

theorem shift_int (bl : BlNorm p) (part : ItPart) (off : Nat) : -2 ^ 31 ≤ bl.shift part off :=
  (limited_int (offsArg_int bl)).trans (Int.le_add_of_nonneg_right (Int.natCast_nonneg _))

theorem shift_lt (bl : BlNorm p) (part : ItPart) (off : Nat) : bl.shift part off < 2 ^ 63 := by
  have hsum : ((bl.colsBefore part).map fun v => p.strspan v + bl.dcol).sum < 2 ^ 48 :=
    sum_colsBefore_lt
  have hlim := limited_le off bl.offsArg
  unfold BlNorm.shift
  omega

/-- Where a column begins, in both kinds of arithmetic. -/
theorem geometry_column (part : ItPart) (off : Nat) (htype : bl.type = .column) :
    (bl.geometry .machine part off).1 = toInt (bl.shift part off) ∧
      (bl.geometry .exact part off).1 = bl.shift part off := by
  rw [geometry_column_fst _ _ _ htype, geometry_column_fst _ _ _ htype, offset_machine,
    offset_exact, columnOffset_exact]
  refine ⟨?_, rfl⟩
  have hlim : toInt (limited off bl.offsArg) = limited off bl.offsArg :=
    toInt_of_fits (limited_int (offsArg_int bl)) ((limited_le off _).trans_lt (by norm_num))
  rw [← hlim, columnOffset_machine]
  rfl

/-- On the machine, nothing is negative. -/
theorem values_nonneg {m : ItMargins} (h : termpItPre .machine bl part tcol = .ok m) :
    ∀ x ∈ m.values, 0 ≤ x := by
  have hvalues : ∀ {start : Int} {rmargin indent : Option Int} {filled : Bool}, 0 ≤ start →
      (∀ x ∈ rmargin, 0 ≤ x) → (∀ x ∈ indent, 0 ≤ x) →
      ∀ x ∈ (ItMargins.mk start rmargin indent filled).values, 0 ≤ x := by
    intro start rmargin indent filled hs hr hi x hx
    simp only [ItMargins.values, List.mem_cons, List.mem_append, Option.mem_toList] at hx
    exact hx.elim (fun h => h ▸ hs) fun hx => hx.elim (hr x) (hi x)
  have hnone : ∀ x ∈ (none : Option Int), 0 ≤ x := fun x hx => by cases hx
  have hsome : ∀ y : Int, ∀ x ∈ some (toSize y), 0 ≤ x := fun y x hx => by
    rw [← Option.mem_some.mp hx]
    exact toSize_nonneg y
  unfold termpItPre at h
  simp only [machine_size] at h
  split at h
  · cases part with
    | head =>
      rw [← Except.ok.inj h]
      exact hvalues (toSize_nonneg _) (hsome _) hnone
    | body index last =>
      rw [← Except.ok.inj h]
      exact hvalues (toSize_nonneg _) hnone (hsome _)
  · split at h
    · split at h
      · cases h
      · rw [← Except.ok.inj h]
        exact hvalues (toSize_nonneg _) (hsome _) hnone
    · rw [← Except.ok.inj h]
      exact hvalues (toSize_nonneg _) hnone hnone

/-- A call is right if both kinds of arithmetic give the same. -/
theorem right_pre_iff {m m' : ItMargins} (hm : termpItPre .machine bl part tcol = .ok m)
    (he : termpItPre .exact bl part tcol = .ok m') :
    (ListEvent.pre bl part tcol).Right ↔ m = m' := by
  constructor
  · rintro ⟨n, hn, hn', -⟩
    exact (Except.ok.inj (hm.symm.trans hn)).trans (Except.ok.inj (hn'.symm.trans he))
  · rintro rfl
    exact ⟨m, hm, he, values_nonneg hm⟩

/-- What a call does in a list that indents its items. -/
theorem right_indents_iff (htype : bl.type.indents) :
    (ListEvent.pre bl part tcol).Right ↔
      toSize (tcol.offset + bl.shift part tcol.offset) = tcol.offset + bl.shift part tcol.offset ∧
      toSize (toSize (tcol.offset + bl.shift part tcol.offset) +
          bl.itemWidth .machine tcol.offset) =
        tcol.offset + bl.shift part tcol.offset + limited tcol.offset bl.widthArg := by
  have hcol : bl.type ≠ .column := fun h => by simp [h, MdocList.indents] at htype
  have hgeometry := fun c => geometry_plain c part tcol.offset hcol
  rw [shift_plain part tcol.offset hcol]
  cases part with
  | head =>
    rw [right_pre_iff (by rw [termpItPre, if_pos htype]) (by rw [termpItPre, if_pos htype])]
    simp only [hgeometry, offset_machine, offset_exact, itemWidth_exact, machine_size, exact_size,
      ItMargins.mk.injEq, Option.some.injEq, and_true]
  | body index last =>
    rw [right_pre_iff (by rw [termpItPre, if_pos htype]) (by rw [termpItPre, if_pos htype])]
    simp only [hgeometry, offset_machine, offset_exact, itemWidth_exact, machine_size, exact_size,
      ItMargins.mk.injEq, Option.some.injEq, and_true, true_and]

/-- What a call does in a `-column` list. The assertion holds. -/
theorem right_column_iff (htype : bl.type = .column) :
    (ListEvent.pre bl part tcol).Right ↔
      toSize (tcol.offset + toInt (bl.shift part tcol.offset)) =
        tcol.offset + bl.shift part tcol.offset ∧
      toSize (toSize (tcol.offset + toInt (bl.shift part tcol.offset)) + bl.cellWidth part) =
        tcol.offset + bl.shift part tcol.offset + bl.cellWidth part := by
  have hindents : ¬ bl.type.indents := by simp [htype, MdocList.indents]
  have hfst := geometry_column part tcol.offset htype
  have hsnd := geometry_column_snd part tcol.offset htype
  have hpos : (bl.cellWidth part : Int) ≠ 0 := Int.natCast_ne_zero.mpr (cellWidth_pos bl part).ne'
  rw [right_pre_iff (by rw [termpItPre.eq_def, if_neg hindents, if_pos htype, hsnd.1, if_neg hpos])
    (by rw [termpItPre.eq_def, if_neg hindents, if_pos htype, hsnd.2, if_neg hpos])]
  simp only [hfst, machine_size, exact_size, ItMargins.mk.injEq, Option.some.injEq,
    true_and]
  constructor
  · rintro ⟨hs, ht, -⟩
    exact ⟨hs, ht⟩
  · rintro ⟨hs, ht⟩
    exact ⟨hs, ht, by rw [ht]⟩

/-- What a call does in a list of another type. -/
theorem right_plain_iff (hindents : ¬ bl.type.indents) (htype : bl.type ≠ .column) :
    (ListEvent.pre bl part tcol).Right ↔
      toSize (tcol.offset + bl.shift part tcol.offset) =
        tcol.offset + bl.shift part tcol.offset := by
  have hgeometry := fun c => geometry_plain c part tcol.offset htype
  rw [right_pre_iff (by rw [termpItPre.eq_def, if_neg hindents, if_neg htype])
    (by rw [termpItPre.eq_def, if_neg hindents, if_neg htype]), shift_plain part tcol.offset htype]
  simp only [hgeometry, offset_machine, offset_exact, machine_size, exact_size,
    ItMargins.mk.injEq, and_true]

/-- In a list that indents its items, two negative arguments must not lead too far. -/
theorem indents_fits_iff {off : Nat} {o w wm : Int}
    (hwm : w < 2 ^ 31 → wm = limited off w)
    (hwrap : 2 ^ 31 ≤ w → wm ≤ 0 ∧ -2 ^ 31 ≤ wm ∧ (wm = 0 ↔ off = 0)) :
    (toSize (off + limited off o) = off + limited off o ∧
        toSize (toSize (off + limited off o) + wm) = off + limited off o + limited off w) ↔
      off + limited off o < 2 ^ 64 ∧ off + limited off o + limited off w < 2 ^ 64 ∧
        (off = 0 ∨ w < 2 ^ 31 ∧ ¬ (o < 0 ∧ w < 0 ∧ off + o + w < 0)) := by
  have ho := neg_le_limited off o
  rw [and_congr_right (c := toSize (off + limited off o + wm) = _) fun h => by rw [h],
    toSize_eq_self_iff]
  rcases lt_or_ge w (2 ^ 31) with hlt | hge
  · -- The width is an `int`: the sum must not be negative.
    rw [hwm hlt, toSize_eq_self_iff]
    unfold limited SHRT_MAX_width
    omega
  · -- The width is wrong, which shows unless the current offset is zero.
    obtain ⟨hle, hlo, hzero⟩ := hwrap hge
    have hw : limited off w = 0 := by
      unfold limited SHRT_MAX_width
      omega
    rw [hw]
    unfold toSize
    omega

/-- A column begins at the right place if all the columns fit. -/
theorem column_fits_iff {off width : Nat} {shift : Int} (hlo : -off ≤ shift)
    (hint : -2 ^ 31 ≤ shift) (hhi : shift < 2 ^ 63) :
    (toSize (off + toInt shift) = off + shift ∧
        toSize (toSize (off + toInt shift) + width) = off + shift + width) ↔
      off + shift < 2 ^ 64 ∧ shift < 2 ^ 31 ∧ off + shift + width < 2 ^ 64 := by
  rcases lt_or_ge shift (2 ^ 31) with hlt | hge
  · rw [toInt_of_fits hint hlt]
    unfold toSize
    omega
  · exact iff_of_false (fun h => toSize_add_toInt_ne hge hhi h.1) fun h => not_lt.mpr hge h.2.1

/-- All values of a call are right if and only if the arguments go together with the margins. -/
theorem termpItPre_right_iff (bl : BlNorm p) (part : ItPart) (tcol : Tcol) :
    (ListEvent.pre bl part tcol).Right ↔ bl.Fits part tcol := by
  -- Three kinds of lists: with indented items, with columns, and all others.
  by_cases hindents : bl.type.indents
  · have htype : bl.type ≠ .column := fun h => by simp [h, MdocList.indents] at hindents
    have hshift := shift_plain part tcol.offset htype
    rw [right_indents_iff hindents, hshift, indents_fits_iff (itemWidth_machine tcol.offset)
      (itemWidth_wrapped tcol.offset)]
    constructor
    · rintro ⟨hstart, hend, hitem⟩
      exact ⟨hshift ▸ hstart, fun _ => hitem, fun _ => hshift ▸ hend, fun h => absurd h htype,
        fun h => absurd h htype⟩
    · intro h
      exact ⟨hshift ▸ h.start, hshift ▸ h.itemEnd hindents, h.item hindents⟩
  · by_cases htype : bl.type = .column
    · rw [right_column_iff htype, column_fits_iff (neg_le_shift bl part _) (shift_int bl part _)
        (shift_lt bl part _)]
      constructor
      · rintro ⟨hstart, hcolumn, hend⟩
        exact ⟨hstart, fun h => absurd h hindents, fun h => absurd h hindents, fun _ => hcolumn,
          fun _ => hend⟩
      · intro h
        exact ⟨h.start, h.column htype, h.columnEnd htype⟩
    · have hlo := neg_le_shift bl part tcol.offset
      rw [right_plain_iff hindents htype, toSize_eq_self_iff]
      constructor
      · rintro ⟨-, hstart⟩
        exact ⟨hstart, fun h => absurd h hindents, fun h => absurd h hindents,
          fun h => absurd h htype, fun h => absurd h htype⟩
      · intro h
        exact ⟨by omega, h.start⟩

/-! ## §9 Whole trees -/

/-- The assertion on the width of a column never fails. -/
theorem termpItPre_ok (bl : BlNorm p) (part : ItPart) (tcol : Tcol) :
    ∃ m, termpItPre .machine bl part tcol = .ok m := by
  unfold termpItPre
  split
  · cases part with
    | head => exact ⟨_, rfl⟩
    | body index last => exact ⟨_, rfl⟩
  · split
    · rename_i htype
      have hpos := Int.natCast_ne_zero.mpr (cellWidth_pos bl part).ne'
      rw [(geometry_column_snd part tcol.offset htype).1, if_neg hpos]
      exact ⟨_, rfl⟩
    · exact ⟨_, rfl⟩

/-- A part of the tree was formatted without a failure, and behind all items, the offset was as
    before. -/
def Formatted (st : ListState p) (r : Res (ListState p)) : Prop :=
  ∃ st', r = .ok st' ∧ ∃ l, st'.events = st.events ++ l ∧
    ∀ before after, .item before after ∈ l → after = before

section

variable {st st' : ListState p} {r : Res (ListState p)}

theorem Formatted.refl (st : ListState p) (tcol : Tcol) :
    Formatted st (.ok { st with tcol := tcol }) :=
  ⟨_, rfl, [], (List.append_nil _).symm, fun _ _ h => by cases h⟩

theorem Formatted.bind {k : ListState p → Res (ListState p)} (h : Formatted st r)
    (hk : ∀ st, Formatted st (k st)) : Formatted st (r >>= k) := by
  obtain ⟨st₁, rfl, l, hl, hitem⟩ := h
  obtain ⟨st₂, hst₂, l', hl', hitem'⟩ := hk st₁
  refine ⟨st₂, hst₂, l ++ l', by rw [hl', hl, List.append_assoc], fun before after hmem => ?_⟩
  exact (List.mem_append.mp hmem).elim (hitem before after) (hitem' before after)

theorem Formatted.of_events (h : Formatted st r) (hst : st'.events = st.events) :
    Formatted st' r := by
  obtain ⟨st₁, hr, l, hl, hitem⟩ := h
  exact ⟨st₁, hr, l, by rw [hl, hst], hitem⟩

theorem Formatted.map_reset (h : Formatted st r) (saved : Tcol) :
    Formatted st (r.map (·.reset saved)) := by
  obtain ⟨st₁, rfl, l, hl, hitem⟩ := h
  exact ⟨st₁.reset saved, rfl, l, hl, hitem⟩

theorem Formatted.preIt (st : ListState p) (bl : BlNorm p) (part : ItPart) :
    Formatted st (st.preIt bl part) := by
  obtain ⟨m, hm⟩ := termpItPre_ok bl part st.tcol
  refine ⟨_, by rw [ListState.preIt, hm]; rfl, [.pre bl part st.tcol], rfl, fun before after h => ?_⟩
  cases List.mem_singleton.mp h

end

mutual

theorem printMdocNode_formatted : ∀ (n : MdocNode p) (st : ListState p),
    Formatted st (printMdocNode n st)
  | .inline tcol, st => Formatted.refl st tcol
  | .other tcol child, st =>
    ((printMdocNodelist_formatted child { st with tcol := tcol }).of_events rfl).map_reset st.tcol
  | .Bl bl items, st => (printItNodelist_formatted bl items st).map_reset st.tcol

theorem printMdocNodelist_formatted : ∀ (l : List (MdocNode p)) (st : ListState p),
    Formatted st (printMdocNodelist l st)
  | [], st => Formatted.refl st st.tcol
  | n :: l, st => (printMdocNode_formatted n st).bind (printMdocNodelist_formatted l)

theorem printItNodelist_formatted (bl : BlNorm p) : ∀ (l : List (ItNode p)) (st : ListState p),
    Formatted st (printItNodelist bl l st)
  | [], st => Formatted.refl st st.tcol
  | n :: l, st => (printItNode_formatted bl n st).bind (printItNodelist_formatted bl l)

/-- Formatting an item. -/
theorem printItNode_formatted (bl : BlNorm p) : ∀ (n : ItNode p) (st : ListState p),
    Formatted st (printItNode bl n st)
  | .It head bodies, st => by
    unfold printItNode
    refine Formatted.bind ((Formatted.preIt st bl .head).bind fun hst => ?_) fun hst => ?_
    · split
      · exact Formatted.refl hst hst.tcol
      · exact printMdocNodelist_formatted head hst
    · refine ((printItBodies_formatted bl 0 bodies (hst.reset st.tcol)).of_events rfl).bind
        fun bst => ⟨_, rfl, [.item st.tcol.offset st.tcol.offset], rfl, fun before after h => ?_⟩
      cases List.mem_singleton.mp h
      rfl

theorem printItBodies_formatted (bl : BlNorm p) (index : Nat) : ∀ (l : List (ItBody p))
    (st : ListState p), Formatted st (printItBodies bl index l st)
  | [], st => Formatted.refl st st.tcol
  | n :: l, st =>
    (printItBody_formatted bl index l.isEmpty n st).bind (printItBodies_formatted bl (index + 1) l)

theorem printItBody_formatted (bl : BlNorm p) (index : Nat) (last : Bool) : ∀ (n : ItBody p)
    (st : ListState p), Formatted st (printItBody bl index last n st)
  | .body child, st => by
    unfold printItBody
    refine (Formatted.preIt st bl (.body index last)).bind fun bst => ?_
    exact ((printMdocNodelist_formatted child bst).map_reset st.tcol)

end

/-- Formatting a tree of nested lists never fails. All values assigned on the way are right if and
    only if the arguments of every list go together with the margins at every item. -/
theorem printMdocNode_right_iff (n : MdocNode p) (tcol : Tcol) :
    ∃ st, printMdocNode n ⟨tcol, []⟩ = .ok st ∧
      ((∀ e ∈ st.events, e.Right) ↔ ∀ e ∈ st.events, e.Fits) := by
  obtain ⟨st, hst, l, hl, hitem⟩ := printMdocNode_formatted n ⟨tcol, []⟩
  rw [List.nil_append] at hl
  refine ⟨st, hst, forall₂_congr fun e he => ?_⟩
  cases e with
  | pre bl part tcol => exact termpItPre_right_iff bl part tcol
  | item before after => exact iff_of_true (hitem before after (hl ▸ he)) trivial

/-! ## §10 Two negative arguments -/

/-- A terminal with 24 basic units for each character, and with one scaled width. -/
def tagTerm : MdocTerm where
  en := 24
  en_pos := by decide
  en_le := by decide
  scaled v := if v = ['-', '5', 'n'] then some (-120) else none
  scaled_int v x h := by
    split at h
    · rw [← Option.mem_some.mp h]
      decide
    · cases h
  strspan v := min (24 * v.length) 32767
  strspan_int v := (min_le_right _ _).trans_lt (by decide)
  defindent := 5

/-- `.Bl -tag -offset -5n -width -5n` -/
def outdentedBl : BlNorm tagTerm where
  type := .tag
  offs := some ['-', '5', 'n']
  width := some ['-', '5', 'n']
  cols := []
  cols_lt := by simp
  ncols_lt := by simp

/-- In a section, with the indentation of five blanks, each of the two arguments is within the
    limits, but the body of an item begins far beyond the right margin. -/
theorem outdentedBl_wraps :
    ¬ ∀ (p : MdocTerm) (n : MdocNode p) (tcol : Tcol),
      ∃ st, printMdocNode n ⟨tcol, []⟩ = .ok st ∧ ∀ e ∈ st.events, e.Right := by
  intro hall
  obtain ⟨st, hst, hright⟩ := hall tagTerm (.Bl outdentedBl [.It [] [.body []]]) ⟨120, 1872, 1872⟩
  have hrun : printMdocNode (.Bl outdentedBl [.It [] [.body []]]) ⟨⟨120, 1872, 1872⟩, []⟩ =
      .ok ⟨⟨120, 1872, 1872⟩, [.pre outdentedBl .head ⟨120, 1872, 1872⟩,
        .pre outdentedBl (.body 0 true) ⟨120, 1872, 1872⟩, .item 120 120]⟩ := rfl
  obtain rfl := Except.ok.inj (hrun.symm.trans hst)
  obtain ⟨m, hm, he, -⟩ := hright (.pre outdentedBl (.body 0 true) ⟨120, 1872, 1872⟩)
    (List.mem_cons_of_mem _ List.mem_cons_self)
  have hne : termpItPre .machine outdentedBl (.body 0 true) ⟨120, 1872, 1872⟩ ≠
      termpItPre .exact outdentedBl (.body 0 true) ⟨120, 1872, 1872⟩ := by
    decide +kernel
  exact hne (hm.trans he.symm)

end Mandoc
