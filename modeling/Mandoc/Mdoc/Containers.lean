import Mandoc.Mdoc.MarkdownNode

/-!
# Containers and End Markers

A display or a piece of literal text can be ended by a marker that stands deep inside it, and the text
behind the marker is still below the node that was ended. This file is about trees in which each
node has a role. It defines which nodes are open at each place, how the formatter changes the stack
and the counters, and how much markup of list items is left over.

## Main Results

- `runAll_tracks`: no assertion fails, no counter becomes negative, and the markup that is left over
  is exactly the net amount of markup of the list items
- `netAll_eq_zero_iff`: nothing is left over if and only if each head is followed by its body, and
  each item that begins inside a display or literal text also ends inside one
-/

namespace Mandoc

/-! ## §1 Roles -/

/-- What the handlers of a node do with the stack and the counters. -/
inductive Role where
  | plain
  /-- There is no handler. -/
  | table
  /-- `md_pre_D1()` and `md_post_D1()` -/
  | quote
  /-- `md_pre_Dl()` and `md_post_D1()` -/
  | code
  /-- `md_pre_raw()` and `md_post_raw()` with literal text -/
  | tick
  /-- The head of an item with a list mark. -/
  | itemHead
  /-- The body of an item with a list mark. -/
  | itemBody
deriving DecidableEq, Repr

namespace Role

/-- A display is indented or quoted. -/
def displays : Role → Nat
  | .quote | .code => 1
  | _ => 0

/-- Literal text is enclosed in backticks. -/
def ticks : Role → Nat
  | .tick => 1
  | _ => 0

/-- The handler `pre`. -/
def begin : Role → MdState → MdState
  | .quote, st => mdPreD1 st
  | .code, st => mdPreDl st
  | .tick, st => st.addCode 1
  | .itemHead, st =>
    let st := st.push '\t'
    if st.codeBlocks ≠ 0 ∨ st.quoteBlocks ≠ 0 then st.addList 1 else st
  | _, st => st

/-- The handler `post`. -/
def finish : Role → MdState → Res MdState
  | .quote, st | .code, st => mdPostD1 st
  | .tick, st => .ok (st.addCode (-1))
  | .itemBody, st =>
    st.pop.map fun st =>
      if st.codeBlocks ≠ 0 ∨ st.quoteBlocks ≠ 0 then st.addList (-1) else st
  | _, st => .ok st

end Role

/-! ## §2 Containers -/

/-- A node that is printed, with its identity and the body that it ends if it is an end marker. -/
inductive Container where
  | mk (role : Role) (id : Nat) (target : Option Nat) (child : List Container)

/-- The role of a node. -/
def Container.role : Container → Role
  | .mk role _ _ _ => role

mutual

/-- The identities of a node and of all nodes below it. -/
def Container.ids : Container → List Nat
  | .mk _ id _ child => id :: idsAll child

/-- The identities of all nodes. -/
def idsAll : List Container → List Nat
  | [] => []
  | c :: l => c.ids ++ idsAll l

end

mutual

/-- The bodies that are ended by markers. -/
def Container.ends : Container → List Nat
  | .mk _ _ target child => endsAll child ++ target.toList

/-- The bodies that are ended by markers in a list of nodes. -/
def endsAll : List Container → List Nat
  | [] => []
  | c :: l => c.ends ++ endsAll l

end

mutual

/-- There are handlers for all nodes. -/
def Container.NoTable : Container → Prop
  | .mk role _ _ child => role ≠ .table ∧ noTableAll child

/-- There are handlers for all nodes in a list. -/
def noTableAll : List Container → Prop
  | [] => True
  | c :: l => c.NoTable ∧ noTableAll l

end

mutual

/-- What `md_node()` does with the stack and the counters. -/
def Container.run : Container → MdState → Res MdState
  | .mk role id target child, st =>
    if role = .table then .error .abort
    else do
      let st := st.setEnded id false
      let st ← runAll child (if target = none then role.begin st else st)
      if st.ended id then return st
      else return mdMark target (← role.finish st)

/-- What `md_nodelist()` does. -/
def runAll : List Container → MdState → Res MdState
  | [], st => .ok st
  | c :: l, st => c.run st >>= runAll l

end

/-! ## §3 The open nodes -/

/-- The nodes that are open at a place in the tree, the innermost first. -/
abbrev NodeScope : Type := List (Nat × Role)

namespace NodeScope

/-- The number of displays. -/
def displays (o : NodeScope) : Nat := (o.map fun x => x.2.displays).sum

/-- The number of pieces of literal text. -/
def ticks (o : NodeScope) : Nat := (o.map fun x => x.2.ticks).sum

/-- The nodes that have not been ended. -/
def without (o : NodeScope) (ends : List Nat) : NodeScope := o.filter fun x => x.1 ∉ ends

/-- The place is inside a display or literal text. -/
def Inside (o : NodeScope) : Prop := 0 < o.displays + o.ticks

instance (o : NodeScope) : Decidable o.Inside := inferInstanceAs (Decidable (0 < _))

/-- One inside displays and literal text. -/
def inside (o : NodeScope) : Int := if o.Inside then 1 else 0

end NodeScope

/-- The nodes that are open where the children of a node begin. A marker does not open anything. -/
def Container.scope (o : NodeScope) : Container → NodeScope
  | .mk role id none _ => (id, role) :: o
  | .mk _ _ (some _) _ => o

mutual

/-- A marker refers to an open body with the same role, and markers are not used for list items. The
    head of an item is not descended into. Displays do not end inside literal text. -/
def Container.Nested (o : NodeScope) : Container → Prop
  | .mk role id none child =>
    nestedAll ((id, role) :: o) false child ∧ (role = .itemHead → child = []) ∧
      (role = .itemBody → id ∉ endsAll child) ∧
      (id ∉ endsAll child → role.displays ≠ 0 → (o.without (endsAll child)).ticks = 0)
  | .mk role _ (some body) child =>
    nestedAll o false child ∧ (role ≠ .itemHead ∧ role ≠ .itemBody) ∧
      (body, role) ∈ o.without (endsAll child) ∧
      (role.displays ≠ 0 → (o.without (endsAll child)).ticks = 0)

/-- The body of an item directly follows its head. -/
def nestedAll (o : NodeScope) (prev : Bool) : List Container → Prop
  | [] => True
  | c :: l =>
    c.Nested o ∧ (c.role = .itemBody → prev) ∧
      nestedAll (o.without c.ends) (c.role = .itemHead) l

end

mutual

/-- A list item that begins inside a display or literal text also ends inside one. -/
def Container.Keeps (o : NodeScope) : Container → Prop
  | .mk role id target child =>
    keepsAll (Container.scope o (.mk role id target child)) false child ∧
      (role = .itemBody → o.Inside → (o.without (endsAll child)).Inside)

/-- The head of an item is directly followed by its body. -/
def keepsAll (o : NodeScope) (prev : Bool) : List Container → Prop
  | [] => prev = false
  | c :: l =>
    (prev = true → c.role = .itemBody) ∧ c.Keeps o ∧
      keepsAll (o.without c.ends) (c.role = .itemHead) l

end

mutual

/-- The amount `g` is added at the head of each item, and subtracted at the end of its body. -/
def Container.net (g : NodeScope → Int) (o : NodeScope) : Container → Int
  | .mk role id target child =>
    netAll g (Container.scope o (.mk role id target child)) child +
      match role with
      | .itemHead => g o
      | .itemBody => - g (o.without (endsAll child))
      | _ => 0

/-- The net amount that is left over behind a list of nodes. -/
def netAll (g : NodeScope → Int) (o : NodeScope) : List Container → Int
  | [] => 0
  | c :: l => c.net g o + netAll g (o.without c.ends) l

end

/-- The amount that is left over when an item begins behind the previous node. -/
def leftOver (g : NodeScope → Int) (prev : Bool) (o : NodeScope) : Int := if prev then g o else 0

@[simp] theorem leftOver_true (g : NodeScope → Int) (o : NodeScope) : leftOver g true o = g o := rfl

@[simp] theorem leftOver_false (g : NodeScope → Int) (o : NodeScope) : leftOver g false o = 0 := rfl

/-! ## §4 Properties of the open nodes -/

namespace NodeScope

@[simp] theorem displays_cons (id : Nat) (role : Role) (o : NodeScope) :
    displays ((id, role) :: o) = role.displays + o.displays := rfl

@[simp] theorem ticks_cons (id : Nat) (role : Role) (o : NodeScope) :
    ticks ((id, role) :: o) = role.ticks + o.ticks := rfl

theorem displays_itemBody (id : Nat) (o : NodeScope) : displays ((id, .itemBody) :: o) = o.displays :=
  Nat.zero_add _

theorem ticks_itemBody (id : Nat) (o : NodeScope) : ticks ((id, .itemBody) :: o) = o.ticks :=
  Nat.zero_add _

@[simp] theorem without_nil (o : NodeScope) : o.without [] = o := by
  simp [without]

theorem mem_without {o : NodeScope} {ends : List Nat} {x : Nat × Role} :
    x ∈ o.without ends ↔ x ∈ o ∧ x.1 ∉ ends := by
  simp [without]

theorem without_append (o : NodeScope) (ends ends' : List Nat) :
    o.without (ends ++ ends') = (o.without ends).without ends' := by
  rw [without, without, without, List.filter_filter]
  apply List.filter_congr
  intro x _
  simp [Bool.and_comm]

theorem sum_without_le (w : Nat × Role → Nat) (o : NodeScope) (ends : List Nat) :
    ((o.without ends).map w).sum ≤ (o.map w).sum :=
  (List.filter_sublist.map w).sum_le_sum fun _ _ => Nat.zero_le _

/-- Exactly the weight of the body is missing when it ends. -/
theorem sum_without_singleton (w : Nat × Role → Nat) {o : List (Nat × Role)} {body : Nat} {role : Role}
    (hnd : (o.map Prod.fst).Nodup) (hmem : (body, role) ∈ o) :
    (o.map w).sum = w (body, role) + ((without o [body]).map w).sum := by
  induction o with
  | nil => cases hmem
  | cons x o ih =>
    rw [List.map_cons, List.nodup_cons] at hnd
    obtain ⟨hx, hnd⟩ := hnd
    obtain rfl | hmem := List.mem_cons.mp hmem
    · -- The identity of the node does not occur a second time.
      have hrest : without ((body, role) :: o) [body] = o := by
        rw [without, List.filter_cons_of_neg (by simp), List.filter_eq_self]
        intro y hy
        have hne : y.1 ≠ body := fun h => hx (List.mem_map.mpr ⟨y, hy, h⟩)
        simpa using hne
      rw [hrest, List.map_cons, List.sum_cons]
    · have hne : x.1 ≠ body := fun h => hx (List.mem_map.mpr ⟨_, hmem, h.symm⟩)
      have hrest : without (x :: o) [body] = x :: without o [body] := by
        rw [without, List.filter_cons_of_pos (by simpa using hne)]
        rfl
      rw [hrest, List.map_cons, List.map_cons, List.sum_cons, List.sum_cons, ih hnd hmem]
      omega

theorem displays_without_le (o : NodeScope) (ends : List Nat) : (o.without ends).displays ≤ o.displays :=
  sum_without_le _ o ends

theorem ticks_without_le (o : NodeScope) (ends : List Nat) : (o.without ends).ticks ≤ o.ticks :=
  sum_without_le _ o ends

theorem Inside.of_without {o : NodeScope} {ends : List Nat} (h : (o.without ends).Inside) : o.Inside :=
  h.trans_le (Nat.add_le_add (displays_without_le o ends) (ticks_without_le o ends))

theorem inside_nonneg (o : NodeScope) : 0 ≤ o.inside := by
  unfold inside
  split <;> simp

theorem inside_without_le (o : NodeScope) (ends : List Nat) : (o.without ends).inside ≤ o.inside := by
  unfold inside
  split
  · rename_i h
    rw [if_pos h.of_without]
  · split <;> simp

end NodeScope

/-! ## §5 The net amount -/

theorem Container.Nested.child {o : NodeScope} {role : Role} {id : Nat} {target : Option Nat}
    {child : List Container} (h : (Container.mk role id target child).Nested o) :
    nestedAll (Container.scope o (.mk role id target child)) false child := by
  cases target with
  | none => exact h.1
  | some body => exact h.1

theorem Container.Nested.target_eq {o : NodeScope} {role : Role} {id : Nat} {target : Option Nat}
    {child : List Container} (h : (Container.mk role id target child).Nested o)
    (hrole : role = .itemHead ∨ role = .itemBody) : target = none := by
  cases target with
  | none => rfl
  | some body => exact absurd hrole (not_or.mpr h.2.1)

/-- Only items change the net amount. -/
theorem Container.net_of_ne (g : NodeScope → Int) (o : NodeScope) {role : Role} (id : Nat)
    (target : Option Nat) (child : List Container) (hhead : role ≠ .itemHead)
    (hbody : role ≠ .itemBody) :
    (Container.mk role id target child).net g o =
      netAll g (Container.scope o (.mk role id target child)) child := by
  cases role with
  | itemHead => exact absurd rfl hhead
  | itemBody => exact absurd rfl hbody
  | _ => simp only [net, add_zero]

mutual

theorem Container.net_add (g g' : NodeScope → Int) (o : NodeScope) :
    ∀ c : Container, c.net (fun o => g o + g' o) o = c.net g o + c.net g' o
  | .mk role id target child => by
    have ih := netAll_add g g' (Container.scope o (.mk role id target child)) child
    cases role <;> simp only [Container.net, ih] <;> ring

theorem netAll_add (g g' : NodeScope → Int) (o : NodeScope) :
    ∀ l : List Container, netAll (fun o => g o + g' o) o l = netAll g o l + netAll g' o l
  | [] => rfl
  | c :: l => by
    rw [netAll, netAll, netAll, Container.net_add g g' o c, netAll_add g g' _ l]
    ring

end

/-- An amount that does not increase when nodes end. -/
structure Amount (g : NodeScope → Int) : Prop where
  nonneg : ∀ o, 0 ≤ g o
  mono : ∀ (o : NodeScope) ends, g (o.without ends) ≤ g o

theorem Amount.one : Amount fun _ => 1 := ⟨fun _ => zero_le_one, fun _ _ => le_rfl⟩

theorem Amount.inside : Amount NodeScope.inside := ⟨NodeScope.inside_nonneg, NodeScope.inside_without_le⟩

namespace Amount

variable {g : NodeScope → Int} (hg : Amount g)
include hg

theorem add {g' : NodeScope → Int} (hg' : Amount g') : Amount fun o => g o + g' o where
  nonneg o := add_nonneg (hg.nonneg o) (hg'.nonneg o)
  mono o ends := add_le_add (hg.mono o ends) (hg'.mono o ends)

theorem leftOver_nonneg (prev : Bool) (o : NodeScope) : 0 ≤ leftOver g prev o := by
  cases prev with
  | false => exact le_rfl
  | true => exact hg.nonneg o

end Amount

mutual

/-- Each node consumes at most what the previous node left over for it. -/
theorem Container.net_nonneg {g : NodeScope → Int} (hg : Amount g) (o : NodeScope) (prev : Bool) :
    ∀ c : Container, c.Nested o → (c.role = .itemBody → prev) →
      leftOver g (c.role = .itemHead) (o.without c.ends) ≤ leftOver g prev o + c.net g o
  | .mk role id target child, hn, hprev => by
    have ih := netAll_nonneg hg (Container.scope o (.mk role id target child)) false child hn.child
    have hp := hg.leftOver_nonneg prev o
    rw [leftOver_false, zero_add] at ih
    by_cases hhead : role = .itemHead
    · -- The amount is left for the body.
      obtain rfl := hn.target_eq (.inl hhead)
      obtain rfl := hn.2.1 hhead
      subst hhead
      simpa [Container.net, netAll, Container.ends, endsAll, Container.role] using hp
    by_cases hbody : role = .itemBody
    · -- At least the amount at the end of the body was left by the head.
      obtain rfl := hn.target_eq (.inr hbody)
      subst hbody
      have hend := hg.mono o (endsAll child)
      rw [show prev = true from hprev rfl, Container.net]
      simp only [Container.role, reduceCtorEq, decide_false, leftOver_true, leftOver_false]
      linarith
    · rw [Container.net_of_ne g o id target child hhead hbody]
      have hzero : leftOver g ((Container.mk role id target child).role = .itemHead)
          (o.without (Container.mk role id target child).ends) = 0 := by
        simp [Container.role, hhead]
      linarith

/-- Nothing is missing behind a list of nodes. -/
theorem netAll_nonneg {g : NodeScope → Int} (hg : Amount g) (o : NodeScope) (prev : Bool) :
    ∀ l : List Container, nestedAll o prev l → 0 ≤ leftOver g prev o + netAll g o l
  | [], _ => by
    rw [netAll, Int.add_zero]
    exact hg.leftOver_nonneg prev o
  | c :: l, ⟨hc, hprev, hl⟩ => by
    have h₁ := Container.net_nonneg hg o prev c hc hprev
    have h₂ := netAll_nonneg hg (o.without c.ends) (c.role = .itemHead) l hl
    rw [netAll]
    linarith

end

/-! ## §6 When nothing is left over -/

/-- A tab in the stack, and one list block if the item begins inside a display. -/
def markup (o : NodeScope) : Int := 1 + o.inside

theorem Amount.markup : Amount markup := Amount.one.add Amount.inside

theorem markup_pos (o : NodeScope) : 0 < markup o :=
  Int.lt_of_lt_of_le Int.one_pos (Int.le_add_of_nonneg_right o.inside_nonneg)

/-- The markup at the end of an item is the same as at its beginning unless all displays end. -/
theorem markup_without_eq_iff (o : NodeScope) (ends : List Nat) :
    markup (o.without ends) = markup o ↔ (o.Inside → (o.without ends).Inside) := by
  rw [Mandoc.markup, Mandoc.markup, add_right_inj, NodeScope.inside, NodeScope.inside]
  by_cases hin : o.Inside
  · by_cases hend : (o.without ends).Inside <;> simp [hin, hend]
  · have hend : ¬ (o.without ends).Inside := fun h => hin h.of_without
    simp [hin, hend]

theorem leftOver_markup_eq_zero_iff (prev : Bool) (o : NodeScope) :
    leftOver markup prev o = 0 ↔ prev = false := by
  cases prev with
  | false => exact iff_of_true rfl rfl
  | true => exact iff_of_false (markup_pos o).ne' Bool.noConfusion

mutual

/-- A node leaves nothing over if and only if the items in it are complete. -/
theorem Container.net_eq_zero_iff (o : NodeScope) (prev : Bool) :
    ∀ c : Container, c.Nested o → (c.role = .itemBody → prev) →
      (leftOver markup (c.role = .itemHead) (o.without c.ends) = leftOver markup prev o + c.net markup o ↔
        (prev = true → c.role = .itemBody) ∧ c.Keeps o)
  | .mk role id target child, hn, hprev => by
    have hzero := netAll_eq_zero_iff (Container.scope o (.mk role id target child)) false child hn.child
    have hchild := netAll_nonneg Amount.markup _ false child hn.child
    rw [leftOver_false, zero_add] at hzero hchild
    by_cases hhead : role = .itemHead
    · obtain rfl := hn.target_eq (.inl hhead)
      obtain rfl := hn.2.1 hhead
      subst hhead
      have hp := leftOver_markup_eq_zero_iff prev o
      simp only [Container.net, netAll, Container.ends, endsAll, Container.role, Container.Keeps,
        keepsAll, NodeScope.without_nil, Option.toList_none, List.append_nil, decide_true, zero_add,
        leftOver_true, reduceCtorEq, imp_false, false_imp_iff, and_true, Bool.not_eq_true]
      rw [← hp]
      constructor <;> intro h <;> linarith
    by_cases hbody : role = .itemBody
    · -- Both the markup below the body and the difference between its ends are not negative.
      obtain rfl := hn.target_eq (.inr hbody)
      subst hbody
      have hend := Amount.markup.mono o (endsAll child)
      rw [show prev = true from hprev rfl, Container.net, Container.Keeps, ← hzero,
        ← markup_without_eq_iff]
      simp only [Container.role, leftOver_true, leftOver_false, reduceCtorEq, decide_false, true_and,
        forall_const]
      constructor
      · intro h
        constructor <;> linarith
      · rintro ⟨h₁, h₂⟩
        linarith
    · have hp := Amount.markup.leftOver_nonneg prev o
      rw [Container.net_of_ne markup o id target child hhead hbody, Container.Keeps, ← hzero]
      simp only [Container.role, hhead, hbody, decide_false, leftOver_false, imp_false,
        Bool.not_eq_true, false_imp_iff, and_true]
      rw [← leftOver_markup_eq_zero_iff prev o]
      constructor
      · intro h
        constructor <;> linarith
      · rintro ⟨h₁, h₂⟩
        linarith

/-- Nothing is left over if and only if each head is followed by its body, and the items that begin
    inside a display or literal text end inside one. -/
theorem netAll_eq_zero_iff (o : NodeScope) (prev : Bool) :
    ∀ l : List Container, nestedAll o prev l →
      (leftOver markup prev o + netAll markup o l = 0 ↔ keepsAll o prev l)
  | [], _ => by
    rw [netAll, Int.add_zero, keepsAll]
    exact leftOver_markup_eq_zero_iff prev o
  | c :: l, ⟨hc, hprev, hl⟩ => by
    have h₁ := Container.net_nonneg Amount.markup o prev c hc hprev
    have h₂ := netAll_nonneg Amount.markup (o.without c.ends) (c.role = .itemHead) l hl
    have ih₁ := Container.net_eq_zero_iff o prev c hc hprev
    have ih₂ := netAll_eq_zero_iff (o.without c.ends) (c.role = .itemHead) l hl
    rw [netAll, keepsAll, ← and_assoc, ← ih₁, ← ih₂]
    constructor
    · intro h
      constructor <;> linarith
    · rintro ⟨h₃, h₄⟩
      linarith

end

/-! ## §7 The counters -/

/-- The stack and the counters fit the open nodes. -/
structure Tracks (o : NodeScope) (prev : Bool) (st : MdState) : Prop where
  /-- Each display and each piece of literal text is counted once. -/
  blocks : st.codeBlocks + st.quoteBlocks = o.displays + o.ticks
  /-- Literal text is counted by `code_blocks`. -/
  ticks : (o.ticks : Int) ≤ st.codeBlocks
  quote : 0 ≤ st.quoteBlocks
  stack : (o.displays : Int) + leftOver (fun _ => 1) prev o ≤ st.stack.length
  list : leftOver NodeScope.inside prev o ≤ st.listBlocks
  live : ∀ x ∈ o, st.ended x.1 = false
  seen : ∀ v ∈ st.seen, 0 ≤ v.1 ∧ 0 ≤ v.2.1 ∧ 0 ≤ v.2.2

/-- The counters are not negative. -/
def MdState.Nonneg (st : MdState) : Prop :=
  0 ≤ st.codeBlocks ∧ 0 ≤ st.quoteBlocks ∧ 0 ≤ st.listBlocks

/-- If the counters are not negative, they can be recorded. -/
theorem MdState.seen_nonneg {st st' : MdState} (hst : st'.Nonneg)
    (hrecord : st'.seen = st.seen ++ [(st'.codeBlocks, st'.quoteBlocks, st'.listBlocks)])
    (hseen : ∀ v ∈ st.seen, 0 ≤ v.1 ∧ 0 ≤ v.2.1 ∧ 0 ≤ v.2.2) :
    ∀ v ∈ st'.seen, 0 ≤ v.1 ∧ 0 ≤ v.2.1 ∧ 0 ≤ v.2.2 := by
  intro v hv
  rw [hrecord] at hv
  obtain hv | hv := List.mem_append.mp hv
  · exact hseen v hv
  · obtain rfl := List.mem_singleton.mp hv
    exact hst

namespace Tracks

variable {o : NodeScope} {prev : Bool} {st : MdState} (h : Tracks o prev st)
include h

theorem nonneg : st.Nonneg :=
  ⟨(Int.natCast_nonneg _).trans h.ticks, h.quote,
    (Amount.inside.leftOver_nonneg prev o).trans h.list⟩

theorem inside_iff : (st.codeBlocks ≠ 0 ∨ st.quoteBlocks ≠ 0) ↔ o.Inside := by
  obtain ⟨hc, hq, -⟩ := h.nonneg
  have hb := h.blocks
  rw [NodeScope.Inside]
  omega

/-- A head may remain without a body. -/
theorem weaken : Tracks o false st :=
  { h with
    stack := by
      have hp := Amount.one.leftOver_nonneg prev o
      have hs := h.stack
      rw [leftOver_false]
      linarith
    list := (Amount.inside.leftOver_nonneg prev o).trans h.list }

/-- The counters do not depend on which nodes were ended. -/
theorem setEnded {body : Nat} {b : Bool} (hlive : ∀ x ∈ o, x.1 = body → b = false) :
    Tracks o prev (st.setEnded body b) :=
  { h with
    live := by
      intro x hx
      show Function.update st.ended body b x.1 = false
      rw [Function.update_apply]
      split
      · rename_i hbody
        exact hlive x hx hbody
      · exact h.live x hx }

end Tracks

/-- Inside an item, the same displays are open as outside. -/
theorem Tracks.tail {id : Nat} {o : NodeScope} {st : MdState}
    (h : Tracks ((id, .itemBody) :: o) false st) : Tracks o false st where
  blocks := by
    have hb := h.blocks
    rwa [NodeScope.displays_itemBody, NodeScope.ticks_itemBody] at hb
  ticks := by
    have ht := h.ticks
    rwa [NodeScope.ticks_itemBody] at ht
  quote := h.quote
  stack := by
    have hs := h.stack
    rwa [NodeScope.displays_itemBody] at hs
  list := h.list
  live x hx := h.live x (List.mem_cons_of_mem _ hx)
  seen := h.seen

/-- How the stack, the list counter, and the ended nodes change. -/
structure Changes (o o' : NodeScope) (ids ends : List Nat) (tabs lists : Int) (st st' : MdState) :
    Prop where
  stack : (st'.stack.length : Int) - o'.displays = st.stack.length - o.displays + tabs
  list : st'.listBlocks = st.listBlocks + lists
  ended : ∀ x ∉ ids, st'.ended x = (st.ended x || decide (x ∈ ends))

theorem Changes.refl (o : NodeScope) (st : MdState) : Changes o o [] [] 0 0 st st where
  stack := by rw [add_zero]
  list := by rw [add_zero]
  ended x _ := by simp

namespace Tracks

variable {o : NodeScope} {prev : Bool} {st st' : MdState} {role : Role}

/-- One more display or piece of literal text is open. -/
theorem opened (h : Tracks o prev st) {id : Nat} (hid : st.ended id = false)
    (hrole : role.displays + role.ticks = 1)
    (hcount : st'.codeBlocks = st.codeBlocks + 1 ∧ st'.quoteBlocks = st.quoteBlocks ∨
      role.ticks = 0 ∧ st'.codeBlocks = st.codeBlocks ∧ st'.quoteBlocks = st.quoteBlocks + 1)
    (hstack : st'.stack.length = st.stack.length + role.displays)
    (hlist : st'.listBlocks = st.listBlocks) (hended : st'.ended = st.ended)
    (hrecord : st'.seen = st.seen ++ [(st'.codeBlocks, st'.quoteBlocks, st'.listBlocks)]) :
    Tracks ((id, role) :: o) false st' ∧ Changes o ((id, role) :: o) [] [] 0 0 st st' := by
  obtain ⟨hc, hq, hl⟩ := h.nonneg
  have hblocks := h.blocks
  have hticks := h.ticks
  have hs := h.weaken.stack
  -- All counters are nonnegative afterwards.
  have hst' : st'.Nonneg := by
    rw [MdState.Nonneg, hlist]
    omega
  refine ⟨{ blocks := ?_, ticks := ?_, quote := hst'.2.1, stack := ?_, list := ?_, live := ?_,
            seen := MdState.seen_nonneg hst' hrecord h.seen }, { stack := ?_, list := ?_, ended := ?_ }⟩
  · rw [NodeScope.displays_cons, NodeScope.ticks_cons]
    omega
  · rw [NodeScope.ticks_cons]
    omega
  · rw [leftOver_false] at hs ⊢
    rw [NodeScope.displays_cons, hstack]
    push_cast
    linarith
  · exact hst'.2.2
  · intro x hx
    rw [hended]
    obtain rfl | hx := List.mem_cons.mp hx
    · exact hid
    · exact h.live x hx
  · rw [NodeScope.displays_cons, hstack]
    push_cast
    ring
  · rw [hlist, add_zero]
  · intro x _
    simp [hended]

/-- The handler of a display or literal text opens it. -/
theorem begin (h : Tracks o prev st) {id : Nat} (hid : st.ended id = false)
    (hrole : role ≠ .itemHead) :
    Tracks ((id, role) :: o) false (role.begin st) ∧
      Changes o ((id, role) :: o) [] [] 0 0 st (role.begin st) := by
  -- A node without display and backtick opens nothing.
  have hplain (hd : role.displays = 0) (ht : role.ticks = 0) :
      Tracks ((id, role) :: o) false st ∧ Changes o ((id, role) :: o) [] [] 0 0 st st := by
    have hds : NodeScope.displays ((id, role) :: o) = o.displays := by
      rw [NodeScope.displays_cons, hd, Nat.zero_add]
    have hts : NodeScope.ticks ((id, role) :: o) = o.ticks := by
      rw [NodeScope.ticks_cons, ht, Nat.zero_add]
    constructor
    · exact
        { blocks := by rw [hds, hts]; exact h.blocks
          ticks := by rw [hts]; exact h.ticks
          quote := h.quote
          stack := by rw [hds]; exact h.weaken.stack
          list := h.weaken.list
          live := List.forall_mem_cons.mpr ⟨hid, h.live⟩
          seen := h.seen }
    · exact ⟨by rw [hds, add_zero], by rw [add_zero], fun x _ => by simp⟩
  cases role with
  | itemHead => exact absurd rfl hrole
  | plain | table | itemBody => exact hplain rfl rfl
  | tick => exact h.opened hid rfl (.inl ⟨rfl, rfl⟩) rfl rfl rfl rfl
  | quote =>
    -- Inside code blocks, a quote is one of them, too.
    rw [Role.begin, mdPreD1]
    split
    · exact h.opened hid rfl (.inl ⟨rfl, rfl⟩) List.length_append rfl rfl rfl
    · exact h.opened hid rfl (.inr ⟨rfl, rfl, rfl⟩) List.length_append rfl rfl rfl
  | code =>
    rw [Role.begin, mdPreDl]
    split
    · exact h.opened hid rfl (.inr ⟨rfl, rfl, rfl⟩) List.length_append rfl rfl rfl
    · exact h.opened hid rfl (.inl ⟨rfl, rfl⟩) List.length_append rfl rfl rfl

/-- One display or piece of literal text is closed. -/
theorem closed (h : Tracks o false st) {body : Nat} (hnd : (o.map Prod.fst).Nodup)
    (hmem : (body, role) ∈ o) (hrole : role.displays + role.ticks = 1)
    (hout : role.displays ≠ 0 → (o.without [body]).ticks = 0)
    (hcount : st'.codeBlocks = st.codeBlocks - 1 ∧ st'.quoteBlocks = st.quoteBlocks ∧
        (role.displays ≠ 0 → st.codeBlocks ≠ 0) ∨
      role.ticks = 0 ∧ st.codeBlocks = 0 ∧ st'.codeBlocks = 0 ∧
        st'.quoteBlocks = st.quoteBlocks - 1)
    (hstack : st'.stack.length + role.displays = st.stack.length)
    (hlist : st'.listBlocks = st.listBlocks) (hended : st'.ended = st.ended)
    (hrecord : st'.seen = st.seen ++ [(st'.codeBlocks, st'.quoteBlocks, st'.listBlocks)]) :
    Tracks (o.without [body]) false st' ∧ Changes o (o.without [body]) [] [] 0 0 st st' := by
  obtain ⟨hc, hq, hl⟩ := h.nonneg
  have hblocks := h.blocks
  have hticks := h.ticks
  have hs := h.stack
  -- The counters of the other nodes are those of all nodes without this one.
  have hd : o.displays = role.displays + (o.without [body]).displays :=
    NodeScope.sum_without_singleton _ hnd hmem
  have ht : o.ticks = role.ticks + (o.without [body]).ticks :=
    NodeScope.sum_without_singleton _ hnd hmem
  have hst' : st'.Nonneg := by
    rw [MdState.Nonneg, hlist]
    omega
  refine ⟨{ blocks := ?_, ticks := ?_, quote := hst'.2.1, stack := ?_, list := ?_, live := ?_,
            seen := MdState.seen_nonneg hst' hrecord h.seen }, { stack := ?_, list := ?_, ended := ?_ }⟩
  · omega
  · omega
  · rw [leftOver_false] at hs ⊢
    omega
  · exact hst'.2.2
  · intro x hx
    rw [hended]
    exact h.live x (NodeScope.mem_without.mp hx).1
  · omega
  · rw [hlist, add_zero]
  · intro x _
    simp [hended]

/-- The handler of a display or literal text closes it. -/
theorem finish (h : Tracks o false st) {body : Nat} (hnd : (o.map Prod.fst).Nodup)
    (hmem : (body, role) ∈ o) (hrole : role ≠ .itemBody)
    (hout : role.displays ≠ 0 → (o.without [body]).ticks = 0) :
    ∃ st', role.finish st = .ok st' ∧ Tracks (o.without [body]) false st' ∧
      Changes o (o.without [body]) [] [] 0 0 st st' := by
  have hd : o.displays = role.displays + (o.without [body]).displays :=
    NodeScope.sum_without_singleton _ hnd hmem
  have ht : o.ticks = role.ticks + (o.without [body]).ticks :=
    NodeScope.sum_without_singleton _ hnd hmem
  -- Without display and backtick, nothing is open afterwards that was not open before.
  have hplain (hd₀ : role.displays = 0) (ht₀ : role.ticks = 0) :
      Tracks (o.without [body]) false st ∧ Changes o (o.without [body]) [] [] 0 0 st st := by
    rw [hd₀, Nat.zero_add] at hd
    rw [ht₀, Nat.zero_add] at ht
    constructor
    · exact
        { blocks := by rw [← hd, ← ht]; exact h.blocks
          ticks := by rw [← ht]; exact h.ticks
          quote := h.quote
          stack := by rw [← hd]; exact h.stack
          list := h.list
          live := fun x hx => h.live x (NodeScope.mem_without.mp hx).1
          seen := h.seen }
    · exact ⟨by rw [← hd, add_zero], by rw [add_zero], fun x _ => by simp⟩
  -- The end of a display takes its entry from the stack.
  have hdisplay (hd₁ : role.displays = 1) (ht₀ : role.ticks = 0) :
      ∃ st', mdPostD1 st = .ok st' ∧ Tracks (o.without [body]) false st' ∧
        Changes o (o.without [body]) [] [] 0 0 st st' := by
    have hs := h.stack
    rw [leftOver_false] at hs
    have hne : st.stack ≠ [] := by
      intro hnil
      rw [hnil, List.length_nil] at hs
      omega
    have hlen : st.stack.dropLast.length + role.displays = st.stack.length := by
      rw [List.length_dropLast, hd₁]
      exact Nat.sub_add_cancel (List.length_pos_iff.mpr hne)
    have hrole₁ : role.displays + role.ticks = 1 := by rw [hd₁, ht₀]
    rw [mdPostD1, MdState.pop, if_neg hne]
    by_cases hcode : st.codeBlocks = 0
    · refine ⟨_, congrArg Except.ok (if_neg (not_not.mpr hcode)), ?_⟩
      exact h.closed hnd hmem hrole₁ hout (.inr ⟨ht₀, hcode, hcode, rfl⟩) hlen rfl rfl rfl
    · refine ⟨_, congrArg Except.ok (if_pos hcode), ?_⟩
      exact h.closed hnd hmem hrole₁ hout (.inl ⟨rfl, rfl, fun _ => hcode⟩) hlen rfl rfl rfl
  cases role with
  | itemBody => exact absurd rfl hrole
  | plain | table | itemHead => exact ⟨st, rfl, hplain rfl rfl⟩
  | tick =>
    exact ⟨_, rfl, h.closed hnd hmem rfl hout (.inl ⟨rfl, rfl, fun h => absurd rfl h⟩) rfl rfl rfl rfl⟩
  | quote | code => exact hdisplay rfl rfl

/-- The head of an item indents the item. -/
theorem beginItem (h : Tracks o prev st) :
    Tracks o true (Role.itemHead.begin st) ∧
      Changes o o [] [] 1 o.inside st (Role.itemHead.begin st) := by
  obtain ⟨hc, hq, hl⟩ := h.nonneg
  have hs := h.weaken.stack
  rw [leftOver_false, add_zero] at hs
  have hlen : (((st.push '\t').stack.length : Nat) : Int) = st.stack.length + 1 := by
    simp [MdState.push]
  have hone : (o.displays : Int) + leftOver (fun _ => 1) true o ≤ (st.push '\t').stack.length := by
    rw [hlen, leftOver_true]
    linarith
  have htabs : ((st.push '\t').stack.length : Int) - o.displays =
      st.stack.length - o.displays + 1 := by
    rw [hlen]
    ring
  have hiff : ((st.push '\t').codeBlocks ≠ 0 ∨ (st.push '\t').quoteBlocks ≠ 0) ↔ o.Inside := h.inside_iff
  rw [Role.begin]
  by_cases hin : o.Inside
  · have hinside : o.inside = 1 := if_pos hin
    have hst' : ((st.push '\t').addList 1).Nonneg := ⟨hc, hq, Int.add_nonneg hl zero_le_one⟩
    rw [if_pos (hiff.mpr hin), hinside]
    refine ⟨{ blocks := h.blocks, ticks := h.ticks, quote := h.quote, stack := hone, list := ?_,
              live := h.live, seen := MdState.seen_nonneg hst' rfl h.seen },
            { stack := htabs, list := rfl, ended := fun x _ => by simp [MdState.push, MdState.addList, MdState.record] }⟩
    rw [leftOver_true, hinside]
    exact Int.le_add_of_nonneg_left hl
  · have hinside : o.inside = 0 := if_neg hin
    rw [if_neg (hiff.not.mpr hin), hinside]
    refine ⟨{ blocks := h.blocks, ticks := h.ticks, quote := h.quote, stack := hone, list := ?_,
              live := h.live, seen := h.seen },
            { stack := htabs, list := by rw [add_zero]; rfl, ended := fun x _ => by simp [MdState.push] }⟩
    rw [leftOver_true, hinside]
    exact hl

/-- The body of an item ends the indentation. -/
theorem finishItem (h : Tracks o false st) (hstack : (o.displays : Int) + 1 ≤ st.stack.length)
    (hlist : o.inside ≤ st.listBlocks) :
    ∃ st', Role.itemBody.finish st = .ok st' ∧ Tracks o false st' ∧
      Changes o o [] [] (-1) (-o.inside) st st' := by
  obtain ⟨hc, hq, hl⟩ := h.nonneg
  -- There is an entry on the stack for the item.
  have hne : st.stack ≠ [] := by
    intro hnil
    rw [hnil, List.length_nil] at hstack
    omega
  have hlen : (st.stack.dropLast.length : Int) = st.stack.length - 1 := by
    have hpos := List.length_pos_iff.mpr hne
    rw [List.length_dropLast, Nat.cast_sub hpos, Nat.cast_one]
  have hs : (o.displays : Int) + leftOver (fun _ => 1) false o ≤ st.stack.dropLast.length := by
    rw [hlen, leftOver_false]
    linarith
  have htabs : (st.stack.dropLast.length : Int) - o.displays =
      st.stack.length - o.displays + -1 := by
    rw [hlen]
    ring
  rw [Role.finish, MdState.pop, if_neg hne]
  -- Only inside a display or a list, the counter of lists is decremented.
  by_cases hin : o.Inside
  · have hinside : o.inside = 1 := if_pos hin
    rw [hinside] at hlist ⊢
    have hst' : (MdState.addList (-1) { st with stack := st.stack.dropLast }).Nonneg :=
      ⟨hc, hq, Int.sub_nonneg.mpr hlist⟩
    refine ⟨_, congrArg Except.ok (if_pos (h.inside_iff.mpr hin)),
            { blocks := h.blocks, ticks := h.ticks, quote := h.quote, stack := hs, list := hst'.2.2,
              live := h.live, seen := MdState.seen_nonneg hst' rfl h.seen },
            { stack := htabs, list := rfl, ended := fun x _ => by simp [MdState.addList, MdState.record] }⟩
  · have hinside : o.inside = 0 := if_neg hin
    rw [hinside]
    refine ⟨_, congrArg Except.ok (if_neg (h.inside_iff.not.mpr hin)),
            { blocks := h.blocks, ticks := h.ticks, quote := h.quote, stack := hs, list := hl,
              live := h.live, seen := h.seen },
            { stack := htabs, list := by rw [neg_zero, add_zero], ended := fun x _ => by simp }⟩

end Tracks

/-! ## §8 Runs -/

namespace Changes

variable {o o' o'' : NodeScope} {ids ids' ends ends' : List Nat} {tabs tabs' lists lists' : Int}
  {st st' st'' : MdState}

/-- The changes that are made one after the other. -/
theorem trans (h : Changes o o' ids ends tabs lists st st')
    (h' : Changes o' o'' ids' ends' tabs' lists' st' st'') :
    Changes o o'' (ids ++ ids') (ends ++ ends') (tabs + tabs') (lists + lists') st st'' where
  stack := by rw [h'.stack, h.stack, add_assoc]
  list := by rw [h'.list, h.list, add_assoc]
  ended x hx := by
    rw [List.mem_append, not_or] at hx
    rw [h'.ended x hx.2, h.ended x hx.1, Bool.or_assoc]
    simp only [List.mem_append, Bool.decide_or]

/-- At the beginning of a node, its flag is cleared. -/
theorem clear (o : NodeScope) (id : Nat) (st : MdState) :
    Changes o o [id] [] 0 0 st (st.setEnded id false) where
  stack := by rw [add_zero]; rfl
  list := by rw [add_zero]; rfl
  ended x hx := by
    rw [List.mem_singleton] at hx
    simp [MdState.setEnded, hx]

/-- A marker sets the flag of its body. -/
theorem mark (o : NodeScope) (body : Nat) (st : MdState) :
    Changes o o [] [body] 0 0 st (st.setEnded body true) where
  stack := by rw [add_zero]; rfl
  list := by rw [add_zero]; rfl
  ended x _ := by
    rw [MdState.setEnded]
    by_cases hx : x = body <;> simp [hx]

end Changes

mutual

/-- The markers below a node refer to nodes around it or below it. -/
theorem Container.Nested.mem_ends {body : Nat} (o : NodeScope) :
    ∀ c : Container, c.Nested o → body ∈ c.ends → body ∈ o.map Prod.fst ∨ body ∈ c.ids
  | .mk role id none child, h, hmem => by
    rw [Container.ends, Option.toList_none, List.append_nil] at hmem
    rw [Container.ids, List.mem_cons]
    have ih := nestedAll.mem_ends _ _ child h.1 hmem
    rw [List.map_cons, List.mem_cons] at ih
    tauto
  | .mk role id (some target) child, h, hmem => by
    rw [Container.ends, List.mem_append] at hmem
    rw [Container.ids, List.mem_cons]
    obtain hmem | hmem := hmem
    · have ih := nestedAll.mem_ends _ _ child h.1 hmem
      tauto
    · obtain rfl := List.mem_singleton.mp hmem
      exact .inl (List.mem_map.mpr ⟨_, (NodeScope.mem_without.mp h.2.2.1).1, rfl⟩)

/-- The markers in a list of nodes refer to nodes around it or below it. -/
theorem nestedAll.mem_ends {body : Nat} (o : NodeScope) (prev : Bool) :
    ∀ l : List Container, nestedAll o prev l → body ∈ endsAll l →
      body ∈ o.map Prod.fst ∨ body ∈ idsAll l
  | [], _, hmem => absurd hmem List.not_mem_nil
  | c :: l, ⟨hc, _, hl⟩, hmem => by
    rw [idsAll, List.mem_append]
    obtain hmem | hmem := List.mem_append.mp hmem
    · have ih := Container.Nested.mem_ends o c hc hmem
      tauto
    · have ih := nestedAll.mem_ends _ _ l hl hmem
      have hsub : body ∈ (o.without c.ends).map Prod.fst → body ∈ o.map Prod.fst :=
        fun h => (List.filter_sublist.map _).subset h
      tauto

end

theorem NodeScope.without_cons_of_mem {id : Nat} {role : Role} {o : NodeScope} {ends : List Nat}
    (h : id ∈ ends) : NodeScope.without ((id, role) :: o) ends = o.without ends :=
  List.filter_cons_of_neg (by simpa using h)

theorem NodeScope.without_cons_of_notMem {id : Nat} {role : Role} {o : NodeScope} {ends : List Nat}
    (h : id ∉ ends) : NodeScope.without ((id, role) :: o) ends = (id, role) :: o.without ends :=
  List.filter_cons_of_pos (by simpa using h)

theorem NodeScope.without_singleton_cons {id : Nat} {role : Role} {o : NodeScope}
    (h : id ∉ o.map Prod.fst) : NodeScope.without ((id, role) :: o) [id] = o := by
  rw [NodeScope.without_cons_of_mem (List.mem_singleton_self id), NodeScope.without, List.filter_eq_self]
  intro x hx
  have hne : x.1 ≠ id := fun heq => h (List.mem_map.mpr ⟨x, hx, heq⟩)
  simpa using hne

theorem nodup_without {o : NodeScope} {ends ids ids' : List Nat}
    (h : (o.map Prod.fst ++ (ids ++ ids')).Nodup) :
    ((o.without ends).map Prod.fst ++ ids').Nodup :=
  h.sublist ((List.filter_sublist.map _).append (List.sublist_append_right ids ids'))

/-- The statement that no assertion fails in a list of nodes, and that the stack and the counters fit
    the open nodes behind it. -/
def RunsAll (o : NodeScope) (st : MdState) (l : List Container) : Prop :=
  ∃ st', runAll l st = .ok st' ∧ Tracks (o.without (endsAll l)) false st' ∧
    Changes o (o.without (endsAll l)) (idsAll l) (endsAll l) (netAll (fun _ => 1) o l)
      (netAll NodeScope.inside o l) st st'

/-- The same statement for one node. -/
def Container.Runs (o : NodeScope) (st : MdState) (c : Container) : Prop :=
  ∃ st', c.run st = .ok st' ∧ Tracks (o.without c.ends) (c.role = .itemHead) st' ∧
    Changes o (o.without c.ends) c.ids c.ends (c.net (fun _ => 1) o) (c.net NodeScope.inside o) st st'

/-- A node whose children have been processed. -/
theorem Container.run_eq {role : Role} {id : Nat} {target : Option Nat} {child : List Container}
    {st st₁ st₂ : MdState} (ht : role ≠ .table)
    (hbegin : (if target = none then role.begin (st.setEnded id false) else st.setEnded id false) = st₁)
    (hchild : runAll child st₁ = .ok st₂) :
    (Container.mk role id target child).run st =
      if st₂.ended id then .ok st₂ else (role.finish st₂).map (mdMark target) := by
  rw [run, if_neg ht]
  simp only [hbegin, hchild, Res.ok_bind]
  cases role.finish st₂ <;> rfl

/-- The head of an item. -/
theorem Container.runs_head {o : NodeScope} {prev : Bool} {st : MdState} {id : Nat}
    (h : Tracks o prev st) : (Container.mk .itemHead id none []).Runs o st := by
  have h₀ : Tracks o prev (st.setEnded id false) := h.setEnded fun _ _ _ => rfl
  obtain ⟨h₁, hch₁⟩ := h₀.beginItem
  have hended : (Role.itemHead.begin (st.setEnded id false)).ended id = false := by
    rw [hch₁.ended id List.not_mem_nil]
    simp [MdState.setEnded]
  refine ⟨Role.itemHead.begin (st.setEnded id false), ?_, ?_, ?_⟩
  · rw [run_eq Role.noConfusion (if_pos rfl) rfl, hended]
    rfl
  · simpa [Container.ends, endsAll, Container.role] using h₁
  · simpa [Container.ids, idsAll, Container.ends, endsAll, Container.net, netAll] using
      (Changes.clear o id st).trans hch₁

theorem nodup_child {o : NodeScope} {role : Role} {id : Nat} {child : List Container}
    (h : (o.map Prod.fst ++ id :: idsAll child).Nodup) :
    (((id, role) :: o : NodeScope).map Prod.fst ++ idsAll child).Nodup :=
  List.perm_middle.nodup_iff.mp h

/-- A node with a body that is not a marker. -/
theorem Container.runs_body {o : NodeScope} {prev : Bool} {st : MdState} {role : Role} {id : Nat}
    {child : List Container} (hn : (Container.mk role id none child).Nested o)
    (hprev : role = .itemBody → prev = true) (ht : role ≠ .table) (hhead : role ≠ .itemHead)
    (hnd : (o.map Prod.fst ++ id :: idsAll child).Nodup) (h : Tracks o prev st)
    (hchild : ∀ st₁, Tracks ((id, role) :: o) false st₁ → RunsAll ((id, role) :: o) st₁ child) :
    (Container.mk role id none child).Runs o st := by
  -- No node around this one or below it has the same identity.
  obtain ⟨hno, hnc⟩ : id ∉ o.map Prod.fst ∧ id ∉ idsAll child := by
    have hperm := List.perm_middle.nodup_iff.mp hnd
    rw [List.nodup_cons, List.mem_append, not_or] at hperm
    exact hperm.1
  have h₀ : Tracks o prev (st.setEnded id false) := h.setEnded fun _ _ _ => rfl
  have hid₀ : (st.setEnded id false).ended id = false := by simp [MdState.setEnded]
  obtain ⟨h₁, hch₁⟩ := h₀.begin hid₀ hhead
  obtain ⟨st₂, hrun₂, h₂, hch₂⟩ := hchild _ h₁
  have hch := ((Changes.clear o id st).trans hch₁).trans hch₂
  -- The handler behind the children is called unless the body has been ended below.
  have hended : st₂.ended id = decide (id ∈ endsAll child) := by
    rw [hch₂.ended id hnc, hch₁.ended id List.not_mem_nil, hid₀]
    simp
  have hrun : (Container.mk role id none child).run st = _ := run_eq ht (if_pos rfl) hrun₂
  rw [hended] at hrun
  by_cases hmem : id ∈ endsAll child
  · -- A marker below the node has done what the handler would do.
    have hbody : role ≠ .itemBody := fun hb => hn.2.2.1 hb hmem
    rw [if_pos (decide_eq_true hmem)] at hrun
    rw [NodeScope.without_cons_of_mem hmem] at h₂ hch
    refine ⟨st₂, hrun, ?_, ?_⟩
    · simpa [Container.ends, Container.role, hhead] using h₂
    · simpa [Container.ids, Container.ends, Container.scope,
        Container.net_of_ne _ o id none child hhead hbody] using hch
  · rw [if_neg (by simpa using hmem)] at hrun
    rw [NodeScope.without_cons_of_notMem hmem] at h₂ hch
    have hno' : id ∉ (o.without (endsAll child)).map Prod.fst :=
      fun h => hno ((List.filter_sublist.map _).subset h)
    by_cases hbody : role = .itemBody
    · -- The markup that the head left is still there.
      subst hbody
      have hprev := hprev rfl
      subst hprev
      have hone := netAll_nonneg Amount.one _ false child hn.1
      have hinside := netAll_nonneg Amount.inside _ false child hn.1
      have hend := Amount.inside.mono o (endsAll child)
      have hs := h.stack
      have hl := h.list
      have hs₂ := hch.stack
      have hl₂ := hch.list
      rw [NodeScope.displays_itemBody] at hs₂
      rw [leftOver_true] at hs hl
      rw [leftOver_false, zero_add] at hone hinside
      rw [zero_add, zero_add] at hs₂ hl₂
      obtain ⟨st₃, hfinish, h₃, hch₃⟩ := h₂.tail.finishItem (by linarith) (by linarith)
      rw [hfinish] at hrun
      refine ⟨st₃, hrun, ?_, ?_⟩
      · simpa [Container.ends, Container.role] using h₃
      · have htail : Changes ((id, .itemBody) :: o.without (endsAll child))
            (o.without (endsAll child)) [] [] 0 0 st₂ st₂ :=
          ⟨by rw [NodeScope.displays_itemBody, add_zero], by rw [add_zero], fun x _ => by simp⟩
        simpa [Container.ids, Container.ends, Container.scope, Container.net] using
          (hch.trans htail).trans hch₃
    · -- Any other node gives back what it has put on the stack.
      have hnd₂ : (((id, role) :: o.without (endsAll child) : NodeScope).map Prod.fst).Nodup := by
        rw [List.map_cons, List.nodup_cons]
        exact ⟨hno', (hnd.sublist (List.sublist_append_left _ _)).sublist (List.filter_sublist.map _)⟩
      have hout : role.displays ≠ 0 →
          (NodeScope.without ((id, role) :: o.without (endsAll child)) [id]).ticks = 0 := by
        rw [NodeScope.without_singleton_cons hno']
        exact hn.2.2.2 hmem
      obtain ⟨st₃, hfinish, h₃, hch₃⟩ := h₂.finish hnd₂ List.mem_cons_self hbody hout
      rw [NodeScope.without_singleton_cons hno'] at h₃ hch₃
      rw [hfinish] at hrun
      refine ⟨st₃, hrun, ?_, ?_⟩
      · simpa [Container.ends, Container.role, hhead] using h₃
      · simpa [Container.ids, Container.ends, Container.scope,
          Container.net_of_ne _ o id none child hhead hbody] using hch.trans hch₃

/-- A marker. -/
theorem Container.runs_marker {o : NodeScope} {prev : Bool} {st : MdState} {role : Role} {id body : Nat}
    {child : List Container} (hn : (Container.mk role id (some body) child).Nested o)
    (ht : role ≠ .table) (hnd : (o.map Prod.fst ++ id :: idsAll child).Nodup)
    (h : Tracks o prev st) (hchild : ∀ st₁, Tracks o false st₁ → RunsAll o st₁ child) :
    (Container.mk role id (some body) child).Runs o st := by
  obtain ⟨hno, hnc⟩ : id ∉ o.map Prod.fst ∧ id ∉ idsAll child := by
    have hperm := List.perm_middle.nodup_iff.mp hnd
    rw [List.nodup_cons, List.mem_append, not_or] at hperm
    exact hperm.1
  obtain ⟨hnest, ⟨hhead, hbody⟩, hmem, hout⟩ := hn
  have h₀ : Tracks o prev (st.setEnded id false) := h.setEnded fun _ _ _ => rfl
  have hid₀ : (st.setEnded id false).ended id = false := by simp [MdState.setEnded]
  obtain ⟨st₂, hrun₂, h₂, hch₂⟩ := hchild _ h₀.weaken
  have hch := (Changes.clear o id st).trans hch₂
  have hended : st₂.ended id = false := by
    -- No marker refers to a marker.
    have hends : id ∉ endsAll child := by
      intro h
      obtain h | h := nestedAll.mem_ends o false child hnest h
      · exact hno h
      · exact hnc h
    rw [hch₂.ended id hnc, hid₀, decide_eq_false hends]
    rfl
  have hnd₂ : ((o.without (endsAll child)).map Prod.fst).Nodup :=
    (hnd.sublist (List.sublist_append_left _ _)).sublist (List.filter_sublist.map _)
  have hticks : role.displays ≠ 0 → ((o.without (endsAll child)).without [body]).ticks = 0 :=
    fun hd => Nat.le_zero.mp ((NodeScope.ticks_without_le _ _).trans_eq (hout hd))
  obtain ⟨st₃, hfinish, h₃, hch₃⟩ := h₂.finish hnd₂ hmem hbody hticks
  have hrun : (Container.mk role id (some body) child).run st = _ := run_eq ht (if_neg nofun) hrun₂
  rw [hended, hfinish] at hrun
  rw [← NodeScope.without_append] at h₃ hch₃
  refine ⟨st₃.setEnded body true, hrun, ?_, ?_⟩
  · have hmark : Tracks _ false (st₃.setEnded body true) := h₃.setEnded fun x hx hx' =>
      absurd (hx' ▸ List.mem_append_right _ (List.mem_singleton_self x.1)) (NodeScope.mem_without.mp hx).2
    simpa [Container.ends, Container.role, hhead] using hmark
  · simpa [Container.ids, Container.ends, Container.scope,
      Container.net_of_ne _ o id (some body) child hhead hbody] using
      (hch.trans hch₃).trans (Changes.mark _ body st₃)

mutual

/-- No assertion fails in a node, and the stack and the counters fit the open nodes behind it. -/
theorem Container.run_tracks (o : NodeScope) (prev : Bool) (st : MdState) :
    ∀ c : Container, c.Nested o → (c.role = .itemBody → prev) → c.NoTable →
      (o.map Prod.fst ++ c.ids).Nodup → Tracks o prev st → c.Runs o st
  | .mk role id none child, hn, hprev, ⟨ht, htc⟩, hnd, h => by
    by_cases hhead : role = .itemHead
    · obtain rfl := hn.2.1 hhead
      subst hhead
      exact Container.runs_head h
    · exact Container.runs_body hn hprev ht hhead hnd h fun st₁ h₁ =>
        runAll_tracks _ false st₁ child hn.1 htc (nodup_child hnd) h₁
  | .mk role id (some body) child, hn, _, ⟨ht, htc⟩, hnd, h => by
    have hndc : (o.map Prod.fst ++ idsAll child).Nodup :=
      hnd.sublist ((List.sublist_cons_self _ _).append_left _)
    exact Container.runs_marker hn ht hnd h fun st₁ h₁ =>
      runAll_tracks o false st₁ child hn.1 htc hndc h₁

/-- No assertion fails in a list of nodes. -/
theorem runAll_tracks (o : NodeScope) (prev : Bool) (st : MdState) :
    ∀ l : List Container, nestedAll o prev l → noTableAll l → (o.map Prod.fst ++ idsAll l).Nodup →
      Tracks o prev st → RunsAll o st l
  | [], _, _, _, h => by
    rw [RunsAll, endsAll, NodeScope.without_nil]
    exact ⟨st, rfl, h.weaken, Changes.refl o st⟩
  | c :: l, ⟨hc, hprev, hl⟩, ⟨htc, htl⟩, hnd, h => by
    rw [idsAll] at hnd
    have hndc : (o.map Prod.fst ++ c.ids).Nodup :=
      hnd.sublist ((List.sublist_append_left _ _).append_left _)
    obtain ⟨st₁, hrun₁, h₁, hch₁⟩ := Container.run_tracks o prev st c hc hprev htc hndc h
    obtain ⟨st₂, hrun₂, h₂, hch₂⟩ :=
      runAll_tracks (o.without c.ends) (c.role = .itemHead) st₁ l hl htl (nodup_without hnd) h₁
    rw [RunsAll, endsAll, NodeScope.without_append]
    refine ⟨st₂, ?_, h₂, hch₁.trans hch₂⟩
    rw [runAll, hrun₁]
    exact hrun₂

end

mutual

/-- There is no handler for a table. -/
theorem Container.noTable_of_run {st st' : MdState} :
    ∀ c : Container, c.run st = .ok st' → c.NoTable
  | .mk role id target child, h => by
    have ht : role ≠ .table := by
      intro ht
      rw [Container.run, if_pos ht] at h
      cases h
    rw [Container.run, if_neg ht] at h
    obtain ⟨st₁, hchild, -⟩ := Res.bind_eq_ok.mp h
    exact ⟨ht, noTableAll_of_runAll child hchild⟩

theorem noTableAll_of_runAll {st st' : MdState} :
    ∀ l : List Container, runAll l st = .ok st' → noTableAll l
  | [], _ => trivial
  | c :: l, h => by
    obtain ⟨st₁, hrun₁, hrun₂⟩ := Res.bind_eq_ok.mp h
    exact ⟨Container.noTable_of_run c hrun₁, noTableAll_of_runAll l hrun₂⟩

end

/-! ## §9 Balance -/

/-- The stack is empty, the counters are zero, and they were never negative. -/
structure MdState.Balanced (st : MdState) : Prop where
  stack : st.stack = []
  code : st.codeBlocks = 0
  quote : st.quoteBlocks = 0
  list : st.listBlocks = 0
  seen : ∀ v ∈ st.seen, 0 ≤ v.1 ∧ 0 ≤ v.2.1 ∧ 0 ≤ v.2.2

/-- At the beginning, nothing is open. -/
theorem Tracks.init : Tracks [] false MdState.init where
  blocks := rfl
  ticks := le_rfl
  quote := le_rfl
  stack := le_rfl
  list := le_rfl
  live _ hx := absurd hx List.not_mem_nil
  seen _ hv := absurd hv List.not_mem_nil

/-- The stack and the counters are balanced if and only if no list markup is left over. -/
theorem RunsAll.balanced_iff {l : List Container} (hn : nestedAll [] false l)
    (h : RunsAll [] MdState.init l) :
    (∃ st, runAll l .init = .ok st ∧ st.Balanced) ↔ keepsAll [] false l := by
  obtain ⟨st, hrun, htr, hch⟩ := h
  have hone := netAll_nonneg Amount.one _ false l hn
  have hinside := netAll_nonneg Amount.inside _ false l hn
  have hsum := netAll_add (fun _ => 1) NodeScope.inside [] l
  -- The length of the stack and the counter of lists are net amounts of the nodes.
  have hlen : (st.stack.length : Int) = netAll (fun _ => 1) [] l := by
    simpa [NodeScope.without, NodeScope.displays, MdState.init] using hch.stack
  have hlist : st.listBlocks = netAll NodeScope.inside [] l := by
    simpa [MdState.init] using hch.list
  have hblocks : st.codeBlocks + st.quoteBlocks = 0 := htr.blocks
  obtain ⟨hc, hq, -⟩ := htr.nonneg
  rw [leftOver_false, zero_add] at hone hinside
  have hiff := netAll_eq_zero_iff [] false l hn
  rw [leftOver_false, zero_add] at hiff
  rw [← hiff]
  have hmarkup : netAll markup [] l = netAll (fun _ => 1) [] l + netAll NodeScope.inside [] l := hsum
  constructor
  · rintro ⟨st', hrun', hb⟩
    obtain rfl := Except.ok.inj (hrun.symm.trans hrun')
    rw [hmarkup, ← hlen, ← hlist, hb.stack, hb.list]
    rfl
  · -- Neither of the two is negative, and their sum is zero.
    intro hzero
    have hstack : (st.stack.length : Int) = 0 := by linarith
    refine ⟨st, hrun, { stack := ?_, code := ?_, quote := ?_, list := ?_, seen := htr.seen }⟩
    · exact List.length_eq_zero_iff.mp (Int.natCast_eq_zero.mp hstack)
    · linarith
    · linarith
    · linarith

/-- The stack and the counters are balanced if and only if there are no tables, each head of an item
    is followed by its body, and each item that begins inside a display or literal text also ends
    inside one. -/
theorem runAll_balanced_iff {l : List Container} (hn : nestedAll [] false l)
    (hnd : (idsAll l).Nodup) :
    (∃ st, runAll l .init = .ok st ∧ st.Balanced) ↔ noTableAll l ∧ keepsAll [] false l := by
  constructor
  · rintro ⟨st, hrun, hb⟩
    have ht := noTableAll_of_runAll l hrun
    have hall := runAll_tracks [] false .init l hn ht hnd Tracks.init
    exact ⟨ht, (hall.balanced_iff hn).mp ⟨st, hrun, hb⟩⟩
  · rintro ⟨ht, hkeeps⟩
    exact ((runAll_tracks [] false .init l hn ht hnd Tracks.init).balanced_iff hn).mpr hkeeps

end Mandoc
