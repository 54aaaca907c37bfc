import Mandoc.Lib.OrderedForest

/-!
# Trees with Doubly Linked Siblings

The usual representation of an ordered tree by pointers: every node points to its
parent, to its first and last child, and to its next and previous sibling. A heap maps
the nodes to their pointers.

`Linked h kids roots` says that the pointers of the heap represent the ordered forest
`kids`. The three operations on such a heap are taken from their usual imperative
implementations, one pointer assignment after the other, and each of them is shown to
implement an operation on ordered forests.

## Main results

- `Linked.unlink`: unlinking a node implements `cutKids`.
- `Linked.insert`: inserting a node between two siblings implements `attachKids`.
- `Linked.inserted_linkFirst`, `Linked.inserted_linkAfter`: the two ways to insert a node.
- `Linked.wellLinked`: what can be seen by following the pointers.
-/

namespace OrderedForest

variable {ν : Type*}

/-! ## §1 Pointers -/

/-- The pointers of one node. -/
structure Links (ν : Type*) where
  parent : Option ν := none
  child : Option ν := none
  last : Option ν := none
  next : Option ν := none
  prev : Option ν := none
deriving DecidableEq, Repr

/-- The consecutive siblings `l` below `p`, coming after `a` and before `b`. -/
def Segment (h : ν → Links ν) (p : ν) : Option ν → List ν → Option ν → Prop
  | _, [], _ => True
  | a, c :: l, b =>
    (h c).parent = some p ∧ (h c).prev = a ∧ (h c).next = l.head?.or b ∧ Segment h p (some c) l b

/-- The node `p` has the children `l`, in this order. -/
structure Children (h : ν → Links ν) (p : ν) (l : List ν) : Prop where
  child : (h p).child = l.head?
  last : (h p).last = l.getLast?
  segment : Segment h p none l none

/-- The pointers represent an ordered forest. -/
structure Linked (h : ν → Links ν) (kids : ν → List ν) (roots : Set ν) : Prop where
  forest : Forest kids roots
  children : ∀ p ∈ Nodes kids roots, Children h p (kids p)

variable {h h' : ν → Links ν} {p q n s x : ν} {a b : Option ν} {l l₁ l₂ : List ν}

/-- A segment depends on the parents and siblings of its members only. -/
theorem Segment.congr (heq : ∀ c ∈ l, (h' c).parent = (h c).parent ∧ (h' c).prev = (h c).prev ∧
      (h' c).next = (h c).next) (hs : Segment h p a l b) : Segment h' p a l b := by
  induction l generalizing a with
  | nil => trivial
  | cons c l ih =>
    obtain ⟨h1, h2, h3, h4⟩ := hs
    obtain ⟨e1, e2, e3⟩ := heq c List.mem_cons_self
    exact ⟨e1.trans h1, e2.trans h2, e3.trans h3,
      ih (fun d hd => heq d (List.mem_cons_of_mem c hd)) h4⟩

/-- A segment is made of shorter segments. -/
theorem segment_append :
    Segment h p a (l₁ ++ l₂) b ↔
      Segment h p a l₁ (l₂.head?.or b) ∧ Segment h p (l₁.getLast?.or a) l₂ b := by
  induction l₁ generalizing a with
  | nil => simp [Segment]
  | cons c l₁ ih =>
    have hlast : (c :: l₁).getLast?.or a = l₁.getLast?.or (some c) := by
      cases l₁ <;> simp [List.getLast?_cons]
    have hhead : (l₁ ++ l₂).head?.or b = l₁.head?.or (l₂.head?.or b) := by
      cases l₁ <;> simp
    simp only [List.cons_append, Segment, ih, hlast, hhead, and_assoc]

/-- What the pointers of a member of a segment are. -/
theorem segment_mid :
    Segment h p a (l₁ ++ n :: l₂) b ↔
      Segment h p a l₁ (some n) ∧ (h n).parent = some p ∧ (h n).prev = l₁.getLast?.or a ∧
        (h n).next = l₂.head?.or b ∧ Segment h p (some n) l₂ b := by
  rw [segment_append]
  rfl

theorem Segment.parent_eq (hs : Segment h p a l b) (hx : x ∈ l) : (h x).parent = some p := by
  obtain ⟨l₁, l₂, rfl⟩ := List.append_of_mem hx
  exact (segment_mid.mp hs).2.1

/-- The pointers that do not belong to the forest are free: those of other nodes, and
    the pointers of the roots to their parents and siblings. -/
theorem Linked.congr {kids : ν → List ν} {roots : Set ν} (hl : Linked h kids roots)
    (hdown : ∀ x ∈ Nodes kids roots, (h' x).child = (h x).child ∧ (h' x).last = (h x).last)
    (hside : ∀ x ∈ Nodes kids roots, x ∉ roots → (h' x).parent = (h x).parent ∧
      (h' x).prev = (h x).prev ∧ (h' x).next = (h x).next) : Linked h' kids roots := by
  refine ⟨hl.forest, fun p hp => ?_⟩
  have hcp := hl.children p hp
  refine ⟨(hdown p hp).1.trans hcp.child, (hdown p hp).2.trans hcp.last,
    hcp.segment.congr fun c hc => ?_⟩
  exact hside c (mem_nodes_child hp hc) fun hr => hl.forest.roots p hp c hr hc

/-- Fewer roots make a smaller forest. -/
theorem Linked.subset {kids : ν → List ν} {roots roots' : Set ν} (hl : Linked h kids roots)
    (hr : roots' ⊆ roots) : Linked h kids roots' :=
  ⟨hl.forest.subset hr, fun p ⟨r, hrr, hb⟩ => hl.children p ⟨r, hr hrr, hb⟩⟩

/-- Every child points to its parent. -/
theorem Linked.parent_eq {kids : ν → List ν} {roots : Set ν} (hl : Linked h kids roots)
    (hp : p ∈ Nodes kids roots) (hx : x ∈ kids p) : (h x).parent = some p :=
  (hl.children p hp).segment.parent_eq hx

/-- A node that is not a root is a child of some node. -/
theorem exists_parent {kids : ν → List ν} {roots : Set ν} (hx : x ∈ Nodes kids roots)
    (hr : x ∉ roots) : ∃ p ∈ Nodes kids roots, x ∈ kids p := by
  obtain ⟨r, hrr, hb⟩ := hx
  rcases Relation.ReflTransGen.cases_tail hb with rfl | ⟨p, hp, hc⟩
  · exact absurd hrr hr
  · exact ⟨p, ⟨r, hrr, hp⟩, hc⟩

/-! ## §2 Assignments -/

section

variable [DecidableEq ν]

/-- Assign to the pointers of a node, if there is one. -/
def adjust (h : ν → Links ν) (x : Option ν) (f : Links ν → Links ν) : ν → Links ν :=
  match x with
  | none => h
  | some x => Function.update h x (f (h x))

@[simp] theorem adjust_none (f : Links ν → Links ν) : adjust h none f = h := rfl

theorem adjust_some_self (f : Links ν → Links ν) : adjust h (some x) f x = f (h x) := by
  simp [adjust]

/-- The other nodes keep all their pointers. -/
theorem adjust_of_ne {y : Option ν} {f : Links ν → Links ν} (hne : y ≠ some x) :
    adjust h y f x = h x := by
  cases y with
  | none => rfl
  | some y => exact Function.update_of_ne (fun he => hne (congrArg some he.symm)) _ _

/-- A pointer that is not assigned to keeps its value. -/
theorem adjust_field {α : Type*} {y : Option ν} {f : Links ν → Links ν} (g : Links ν → α)
    (hg : ∀ k, g (f k) = g k) : g (adjust h y f x) = g (h x) := by
  cases y with
  | none => rfl
  | some y =>
    by_cases hxy : x = y
    · subst hxy
      rw [adjust_some_self, hg]
    · rw [adjust_of_ne (by simpa using Ne.symm hxy)]

/-- `x->next = v` -/
def setNext (h : ν → Links ν) (x v : Option ν) : ν → Links ν := adjust h x ({ · with next := v })

/-- `x->prev = v` -/
def setPrev (h : ν → Links ν) (x v : Option ν) : ν → Links ν := adjust h x ({ · with prev := v })

/-- `x->child = v` -/
def setChild (h : ν → Links ν) (x v : Option ν) : ν → Links ν :=
  adjust h x ({ · with child := v })

/-- `x->last = v` -/
def setLast (h : ν → Links ν) (x v : Option ν) : ν → Links ν := adjust h x ({ · with last := v })

/-- `x->parent = v` -/
def setParent (h : ν → Links ν) (x v : Option ν) : ν → Links ν :=
  adjust h x ({ · with parent := v })

section Fields

variable (y v : Option ν)

@[simp] theorem setNext_parent : (setNext h y v x).parent = (h x).parent :=
  adjust_field Links.parent fun _ => rfl
@[simp] theorem setNext_child : (setNext h y v x).child = (h x).child :=
  adjust_field Links.child fun _ => rfl
@[simp] theorem setNext_last : (setNext h y v x).last = (h x).last :=
  adjust_field Links.last fun _ => rfl
@[simp] theorem setNext_prev : (setNext h y v x).prev = (h x).prev :=
  adjust_field Links.prev fun _ => rfl
@[simp] theorem setPrev_parent : (setPrev h y v x).parent = (h x).parent :=
  adjust_field Links.parent fun _ => rfl
@[simp] theorem setPrev_child : (setPrev h y v x).child = (h x).child :=
  adjust_field Links.child fun _ => rfl
@[simp] theorem setPrev_last : (setPrev h y v x).last = (h x).last :=
  adjust_field Links.last fun _ => rfl
@[simp] theorem setPrev_next : (setPrev h y v x).next = (h x).next :=
  adjust_field Links.next fun _ => rfl
@[simp] theorem setChild_parent : (setChild h y v x).parent = (h x).parent :=
  adjust_field Links.parent fun _ => rfl
@[simp] theorem setChild_last : (setChild h y v x).last = (h x).last :=
  adjust_field Links.last fun _ => rfl
@[simp] theorem setChild_next : (setChild h y v x).next = (h x).next :=
  adjust_field Links.next fun _ => rfl
@[simp] theorem setChild_prev : (setChild h y v x).prev = (h x).prev :=
  adjust_field Links.prev fun _ => rfl
@[simp] theorem setLast_parent : (setLast h y v x).parent = (h x).parent :=
  adjust_field Links.parent fun _ => rfl
@[simp] theorem setLast_child : (setLast h y v x).child = (h x).child :=
  adjust_field Links.child fun _ => rfl
@[simp] theorem setLast_next : (setLast h y v x).next = (h x).next :=
  adjust_field Links.next fun _ => rfl
@[simp] theorem setLast_prev : (setLast h y v x).prev = (h x).prev :=
  adjust_field Links.prev fun _ => rfl
@[simp] theorem setParent_child : (setParent h y v x).child = (h x).child :=
  adjust_field Links.child fun _ => rfl
@[simp] theorem setParent_last : (setParent h y v x).last = (h x).last :=
  adjust_field Links.last fun _ => rfl
@[simp] theorem setParent_next : (setParent h y v x).next = (h x).next :=
  adjust_field Links.next fun _ => rfl
@[simp] theorem setParent_prev : (setParent h y v x).prev = (h x).prev :=
  adjust_field Links.prev fun _ => rfl

variable {y}

theorem setNext_of_ne (hne : y ≠ some x) : setNext h y v x = h x := adjust_of_ne hne
theorem setPrev_of_ne (hne : y ≠ some x) : setPrev h y v x = h x := adjust_of_ne hne
theorem setChild_of_ne (hne : y ≠ some x) : setChild h y v x = h x := adjust_of_ne hne
theorem setLast_of_ne (hne : y ≠ some x) : setLast h y v x = h x := adjust_of_ne hne
theorem setParent_of_ne (hne : y ≠ some x) : setParent h y v x = h x := adjust_of_ne hne

@[simp] theorem setNext_self : (setNext h (some x) v x).next = v := by
  simp [setNext, adjust_some_self]
@[simp] theorem setPrev_self : (setPrev h (some x) v x).prev = v := by
  simp [setPrev, adjust_some_self]
@[simp] theorem setChild_self : (setChild h (some x) v x).child = v := by
  simp [setChild, adjust_some_self]
@[simp] theorem setLast_self : (setLast h (some x) v x).last = v := by
  simp [setLast, adjust_some_self]
@[simp] theorem setParent_self : (setParent h (some x) v x).parent = v := by
  simp [setParent, adjust_some_self]

end Fields

/-- Assigning to the `next` pointer of a node outside a segment. -/
theorem Segment.setNext_of_notMem {v : Option ν} {y : Option ν} (hs : Segment h p a l b)
    (hy : ∀ c ∈ l, y ≠ some c) : Segment (setNext h y v) p a l b :=
  hs.congr fun c hc => by simp [setNext_of_ne v (hy c hc)]

/-- Assigning to the `prev` pointer of a node outside a segment. -/
theorem Segment.setPrev_of_notMem {v : Option ν} {y : Option ν} (hs : Segment h p a l b)
    (hy : ∀ c ∈ l, y ≠ some c) : Segment (setPrev h y v) p a l b :=
  hs.congr fun c hc => by simp [setPrev_of_ne v (hy c hc)]

/-- Redirecting the last `next` pointer of a segment. -/
theorem Segment.setNext_last (hs : Segment h p a l b) (hl : l.Nodup) (b' : Option ν) :
    Segment (setNext h l.getLast? b') p a l b' := by
  rcases List.eq_nil_or_concat l with rfl | ⟨l, c, rfl⟩
  · trivial
  · rw [List.concat_eq_append] at *
    obtain ⟨h1, h2, h3, -, -⟩ := segment_mid.mp hs
    have hc : c ∉ l := fun hc => (List.nodup_append.mp hl).2.2 c hc c (by simp) rfl
    rw [List.getLast?_concat]
    refine segment_mid.mpr ⟨h1.setNext_of_notMem ?_, ?_, ?_, ?_, trivial⟩
    · rintro d hd ⟨⟩
      exact hc hd
    · simpa using h2
    · simpa using h3
    · simp

/-- Redirecting the first `prev` pointer of a segment. -/
theorem Segment.setPrev_head (hs : Segment h p a l b) (hl : l.Nodup) (a' : Option ν) :
    Segment (setPrev h l.head? a') p a' l b := by
  cases l with
  | nil => trivial
  | cons c l =>
    obtain ⟨h1, -, h3, h4⟩ := hs
    refine ⟨by simpa using h1, by simp, by simpa using h3, h4.setPrev_of_notMem ?_⟩
    rintro d hd ⟨⟩
    exact (List.nodup_cons.mp hl).1 hd

omit [DecidableEq ν] in
/-- Segments do not depend on the first and last children. -/
theorem Segment.of_children_changed (hs : Segment h p a l b)
    (heq : ∀ x, (h' x).parent = (h x).parent ∧ (h' x).prev = (h x).prev ∧
      (h' x).next = (h x).next) : Segment h' p a l b :=
  hs.congr fun c _ => heq c

/-! ## §3 Unlinking -/

/-- The parent `p` loses its child `n` between the siblings `a` and `b`. -/
def unlinkParent (h : ν → Links ν) (p n : ν) (a b : Option ν) : ν → Links ν :=
  let h := if (h p).child = some n then setChild h (some p) b else h
  if (h p).last = some n then setLast h (some p) a else h

@[simp] theorem unlinkParent_siblings :
    (unlinkParent h p n a b x).parent = (h x).parent ∧
      (unlinkParent h p n a b x).prev = (h x).prev ∧
      (unlinkParent h p n a b x).next = (h x).next := by
  unfold unlinkParent
  split <;> split <;> simp

theorem unlinkParent_of_ne (hx : p ≠ x) : unlinkParent h p n a b x = h x := by
  have hp : some p ≠ some x := by simpa using hx
  unfold unlinkParent
  split <;> split <;> simp [setChild_of_ne _ hp, setLast_of_ne _ hp]

theorem unlinkParent_child :
    (unlinkParent h p n a b p).child = if (h p).child = some n then b else (h p).child := by
  unfold unlinkParent
  split <;> split <;> simp

theorem unlinkParent_last :
    (unlinkParent h p n a b p).last = if (h p).last = some n then a else (h p).last := by
  unfold unlinkParent
  by_cases hc : (h p).child = some n <;> by_cases hl : (h p).last = some n <;> simp [hc, hl]

/-- Unlink a node from its siblings and from its parent. Its own pointers are kept. -/
def unlink (h : ν → Links ν) (n : ν) : ν → Links ν :=
  -- Adjust siblings.
  let h := setNext h (h n).prev (h n).next
  let h := setPrev h (h n).next (h n).prev
  -- Adjust parent.
  match (h n).parent with
  | none => h
  | some p => unlinkParent h p n (h n).prev (h n).next

/-- Between the siblings `a` and `b`, the siblings are joined. -/
theorem unlink_eq (hp : (h n).parent = some p) (ha : (h n).prev = a) (hb : (h n).next = b)
    (hna : a ≠ some n) (hnb : b ≠ some n) :
    unlink h n = unlinkParent (setPrev (setNext h a b) b a) p n a b := by
  simp only [unlink, ha, hb, setNext_of_ne b hna, setPrev_of_ne a hnb, hp]

/-- Unlinking a child implements cutting it off. -/
theorem Linked.unlink {kids : ν → List ν} {roots : Set ν} (hl : Linked h kids roots)
    (hp : p ∈ Nodes kids roots) (hn : n ∈ kids p) :
    Linked (unlink h n) (Forest.cutKids kids p n) (insert n roots) := by
  refine ⟨hl.forest.cut hp hn, fun q hq => ?_⟩
  have hqn := Forest.nodes_cut_subset hp hn hq
  have hcp := hl.children p hp
  obtain ⟨l₁, l₂, hkids⟩ := List.append_of_mem hn
  have hnodup := hl.forest.nodup p hp
  rw [hkids] at hcp hnodup
  obtain ⟨hs1, hpar, hprev, hnext, hs2⟩ := segment_mid.mp hcp.segment
  rw [Option.or_none] at hprev hnext
  have hn1 : n ∉ l₁ := fun hm => (List.nodup_append.mp hnodup).2.2 n hm n (by simp) rfl
  have hn2 : n ∉ l₂ := (List.nodup_cons.mp (List.nodup_append.mp hnodup).2.1).1
  have hdisj : ∀ c ∈ l₁, c ∉ l₂ := fun c h1 h2 =>
    (List.nodup_append.mp hnodup).2.2 c h1 c (List.mem_cons_of_mem n h2) rfl
  have hlast : ∀ c, l₁.getLast? = some c → c ∈ l₁ := fun c hc => List.mem_of_getLast? hc
  have hhead : ∀ c, l₂.head? = some c → c ∈ l₂ := fun c hc => List.mem_of_head? hc
  rw [unlink_eq hpar hprev hnext (fun hc => hn1 (hlast n hc)) (fun hc => hn2 (hhead n hc))]
  by_cases hqp : q = p
  · -- The two segments around `n` are joined.
    subst hqp
    rw [show Forest.cutKids kids q n q = l₁ ++ l₂ by
      simp [Forest.cutKids, hkids, List.erase_append_right _ hn1]]
    refine ⟨?_, ?_, Segment.of_children_changed ?_ fun x => unlinkParent_siblings⟩
    · rw [unlinkParent_child, setPrev_child, setNext_child, hcp.child]
      cases l₁ with
      | nil => simp
      | cons c l₁ => simp [show c ≠ n from fun hc => hn1 (hc ▸ List.mem_cons_self)]
    · rw [unlinkParent_last, setPrev_last, setNext_last, hcp.last]
      rcases List.eq_nil_or_concat l₂ with rfl | ⟨l₂, c, rfl⟩
      · simp
      · have hcn : c ≠ n := fun hc => hn2 (by simp [hc])
        simp only [List.concat_eq_append, ← List.append_assoc, ← List.cons_append,
          List.getLast?_concat, Option.some.injEq, hcn, if_false]
    · refine segment_append.mpr ⟨?_, ?_⟩
      · rw [Option.or_none]
        refine (hs1.setNext_last (List.nodup_append.mp hnodup).1 _).setPrev_of_notMem ?_
        exact fun c hc he => hdisj c hc (hhead c he)
      · rw [Option.or_none]
        refine Segment.setPrev_head (a := some n) (hs2.setNext_of_notMem ?_)
          (List.nodup_cons.mp (List.nodup_append.mp hnodup).2.1).2 _
        exact fun c hc he => hdisj c (hlast c he) hc
  · -- The children of other nodes are not touched.
    rw [show Forest.cutKids kids p n q = kids q by simp [Forest.cutKids, hqp]]
    have hcq := hl.children q hqn
    refine ⟨?_, ?_, Segment.of_children_changed (hcq.segment.congr fun c hc => ?_)
      fun x => unlinkParent_siblings⟩
    · simp [unlinkParent_of_ne (Ne.symm hqp), hcq.child]
    · simp [unlinkParent_of_ne (Ne.symm hqp), hcq.last]
    · have hc' : c ∉ kids p := fun hc' => hqp (hl.forest.unique q hqn p hp c hc hc')
      rw [hkids] at hc'
      have h1 : l₁.getLast? ≠ some c := fun he => hc' (by simp [hlast c he])
      have h2 : l₂.head? ≠ some c := fun he => hc' (by simp [hhead c he])
      simp [setPrev_of_ne _ h2, setNext_of_ne _ h1]

/-- Unlinking a child leaves the parents and siblings of all nodes alone, except those of
    the other children. In particular, the node itself keeps its pointers. -/
theorem Linked.unlink_other {kids : ν → List ν} {roots : Set ν} (hl : Linked h kids roots)
    (hp : p ∈ Nodes kids roots) (hn : n ∈ kids p) (hx : x ∈ kids p → x = n) :
    (OrderedForest.unlink h n x).parent = (h x).parent ∧
      (OrderedForest.unlink h n x).prev = (h x).prev ∧
      (OrderedForest.unlink h n x).next = (h x).next := by
  have hcp := hl.children p hp
  have hnodup := hl.forest.nodup p hp
  obtain ⟨l₁, l₂, hkids⟩ := List.append_of_mem hn
  rw [hkids] at hcp hx hnodup
  obtain ⟨-, hpar, hprev, hnext, -⟩ := segment_mid.mp hcp.segment
  rw [Option.or_none] at hprev hnext
  have hn1 : n ∉ l₁ := fun hm => (List.nodup_append.mp hnodup).2.2 n hm n (by simp) rfl
  have hn2 : n ∉ l₂ := (List.nodup_cons.mp (List.nodup_append.mp hnodup).2.1).1
  have h1 : ∀ y, (y ∈ l₁ ++ n :: l₂ → y = n) → l₁.getLast? ≠ some y := fun y hy he =>
    hn1 (hy (by simp [List.mem_of_getLast? he]) ▸ List.mem_of_getLast? he)
  have h2 : ∀ y, (y ∈ l₁ ++ n :: l₂ → y = n) → l₂.head? ≠ some y := fun y hy he =>
    hn2 (hy (by simp [List.mem_of_head? he]) ▸ List.mem_of_head? he)
  rw [unlink_eq hpar hprev hnext (h1 n fun _ => rfl) (h2 n fun _ => rfl)]
  simp [setPrev_of_ne _ (h2 x hx), setNext_of_ne _ (h1 x hx)]

/-- A node without parent and siblings cannot be unlinked any further. -/
theorem unlink_orphan (hparent : (h n).parent = none) (hprev : (h n).prev = none)
    (hnext : (h n).next = none) : unlink h n = h := by
  simp [unlink, setNext, setPrev, hparent, hprev, hnext]

/-- Nothing changes about the parents. -/
theorem unlink_parent : (unlink h n x).parent = (h x).parent := by
  have hparent : ∀ (o : Option ν) (h' : ν → Links ν) (a b : Option ν),
      ((match o with | none => h' | some p => unlinkParent h' p n a b) x).parent =
        (h' x).parent := by
    intro o h' a b
    cases o <;> simp
  simp only [unlink, hparent, setPrev_parent, setNext_parent]

/-! ## §4 Linking -/

/-- The heap `h'` differs from `h` by the node `n`, which is inserted below `p` between
    the siblings `l₁` and `l₂`. -/
structure Inserted (h h' : ν → Links ν) (p n : ν) (l₁ l₂ : List ν) : Prop where
  parent_new : (h' n).parent = some p
  next_new : (h' n).next = l₂.head?
  prev_new : (h' n).prev = l₁.getLast?
  parent_old : ∀ x, x ≠ n → (h' x).parent = (h x).parent
  next_old : ∀ x, x ≠ n → (h' x).next = if l₁.getLast? = some x then some n else (h x).next
  prev_old : ∀ x, x ≠ n → (h' x).prev = if l₂.head? = some x then some n else (h x).prev
  child : ∀ x, (h' x).child = if x = p ∧ l₁ = [] then some n else (h x).child
  last : ∀ x, (h' x).last = if x = p ∧ l₂ = [] then some n else (h x).last

/-- The parents and siblings of other roots are left alone. -/
theorem Inserted.root {kids : ν → List ν} {roots : Set ν} (hi : Inserted h h' p n l₁ l₂)
    (hf : Forest kids roots) (hp : p ∈ Nodes kids roots) (hkids : kids p = l₁ ++ l₂) {r : ν}
    (hr : r ∈ roots) (hrn : r ≠ n) :
    (h' r).parent = (h r).parent ∧ (h' r).prev = (h r).prev ∧ (h' r).next = (h r).next := by
  have hrp := hf.roots p hp r hr
  rw [hkids] at hrp
  have h1 : l₁.getLast? ≠ some r := fun he => hrp (by simp [List.mem_of_getLast? he])
  have h2 : l₂.head? ≠ some r := fun he => hrp (by simp [List.mem_of_head? he])
  exact ⟨hi.parent_old r hrn, by simp [hi.prev_old r hrn, h2], by simp [hi.next_old r hrn, h1]⟩

/-- Inserting a root below a node of another tree implements attaching it. -/
theorem Linked.insert {kids : ν → List ν} {roots : Set ν} (hl : Linked h kids (insert n roots))
    (hn : n ∉ roots) (hp : p ∈ Nodes kids roots) (hkids : kids p = l₁ ++ l₂)
    (hi : Inserted h h' p n l₁ l₂) :
    Linked h' (Forest.attachKids kids p (l₁ ++ n :: l₂)) roots := by
  have hperm : (l₁ ++ n :: l₂).Perm (n :: kids p) := hkids ▸ List.perm_middle
  have hpn : p ∈ Nodes kids (Insert.insert n roots) := by
    obtain ⟨r, hr, hb⟩ := hp
    exact ⟨r, .inr hr, hb⟩
  refine ⟨hl.forest.attach hn hp hperm, fun q hq => ?_⟩
  -- The new node was a root before, so it has no other parent.
  have hqn := Forest.nodes_attach_subset hperm hq
  have hnew : ∀ q ∈ Nodes kids (Insert.insert n roots), ∀ c ∈ kids q, c ≠ n := fun q hq c hc he =>
    hl.forest.roots q hq n (.inl rfl) (he ▸ hc)
  have hcp := hl.children p hpn
  have hnodup := hl.forest.nodup p hpn
  rw [hkids] at hcp hnodup
  have hdisj : ∀ c ∈ l₁, c ∉ l₂ := fun c h1 h2 =>
    (List.nodup_append.mp hnodup).2.2 c h1 c h2 rfl
  have hlast : ∀ c, l₁.getLast? = some c → c ∈ l₁ := fun c hc => List.mem_of_getLast? hc
  have hhead : ∀ c, l₂.head? = some c → c ∈ l₂ := fun c hc => List.mem_of_head? hc
  by_cases hqp : q = p
  · -- The parent gets one more child, between the two parts of its list.
    subst hqp
    have hne : ∀ c, c ∈ l₁ ∨ c ∈ l₂ → c ≠ n := fun c hc =>
      hnew q hpn c (by simpa [hkids] using hc)
    obtain ⟨hs1, hs2⟩ := segment_append.mp hcp.segment
    rw [Option.or_none] at hs1 hs2
    rw [show Forest.attachKids kids q (l₁ ++ n :: l₂) q = l₁ ++ n :: l₂ by
      simp [Forest.attachKids]]
    refine ⟨?_, ?_, segment_mid.mpr ⟨?_, hi.parent_new, by simp [hi.prev_new],
      by simp [hi.next_new], ?_⟩⟩
    · rw [hi.child, hcp.child]
      cases l₁ <;> simp
    · rw [hi.last, hcp.last]
      rcases List.eq_nil_or_concat l₂ with rfl | ⟨l₂, c, rfl⟩ <;>
        simp [List.getLast?_append, List.getLast?_cons]
    · refine (hs1.setNext_last (List.nodup_append.mp hnodup).1 (some n)).congr fun c hc => ?_
      have hcn := hne c (.inl hc)
      have hc2 : l₂.head? ≠ some c := fun he => hdisj c hc (hhead c he)
      refine ⟨by simp [hi.parent_old c hcn], by simp [hi.prev_old c hcn, hc2], ?_⟩
      rw [hi.next_old c hcn]
      split
      · rename_i he
        rw [he, setNext_self]
      · rename_i he
        rw [setNext_of_ne _ he]
    · refine (hs2.setPrev_head (List.nodup_append.mp hnodup).2.1 (some n)).congr fun c hc => ?_
      have hcn := hne c (.inr hc)
      have hc1 : l₁.getLast? ≠ some c := fun he => hdisj c (hlast c he) hc
      refine ⟨by simp [hi.parent_old c hcn], ?_, by simp [hi.next_old c hcn, hc1]⟩
      rw [hi.prev_old c hcn]
      split
      · rename_i he
        rw [he, setPrev_self]
      · rename_i he
        rw [setPrev_of_ne _ he]
  · -- All other nodes keep their children, and no pointer in these lists changes.
    rw [show Forest.attachKids kids p (l₁ ++ n :: l₂) q = kids q by
      simp [Forest.attachKids, hqp]]
    have hcq := hl.children q hqn
    refine ⟨by simp [hi.child, hqp, hcq.child], by simp [hi.last, hqp, hcq.last],
      hcq.segment.congr fun c hc => ?_⟩
    have hc' : c ∉ kids p := fun hc' => hqp (hl.forest.unique q hqn p hpn c hc hc')
    rw [hkids] at hc'
    have hcn := hnew q hqn c hc
    have h1 : l₁.getLast? ≠ some c := fun he => hc' (by simp [hlast c he])
    have h2 : l₂.head? ≠ some c := fun he => hc' (by simp [hhead c he])
    exact ⟨hi.parent_old c hcn, by simp [hi.prev_old c hcn, h2],
      by simp [hi.next_old c hcn, h1]⟩

/-- Let the node `n` come before its next sibling `b`, or let it become the last child
    of its parent `q`. -/
def linkNext (h : ν → Links ν) (n : ν) (b q : Option ν) : ν → Links ν :=
  match b with
  | none => setLast h q (some n)
  | some t =>
    let h := setNext h (some n) (some t)
    setPrev h (some t) (some n)

/-- Insert the node `n` as the first child of `p`. -/
def linkFirst (h : ν → Links ν) (p n : ν) : ν → Links ν :=
  let h := linkNext h n (h p).child (some p)
  let h := setChild h (some p) (some n)
  setParent h (some n) (some p)

/-- Insert the node `n` right after its new sibling `s`. -/
def linkAfter (h : ν → Links ν) (s n : ν) : ν → Links ν :=
  let h := linkNext h n (h s).next (h s).parent
  let h := setNext h (some s) (some n)
  let h := setPrev h (some n) (some s)
  setParent h (some n) (h s).parent

section LinkNext

variable {q : Option ν}

@[simp] theorem linkNext_parent : (linkNext h n b q x).parent = (h x).parent := by
  cases b <;> simp [linkNext]

@[simp] theorem linkNext_child : (linkNext h n b q x).child = (h x).child := by
  cases b <;> simp [linkNext]

theorem linkNext_last :
    (linkNext h n b q x).last = if q = some x ∧ b = none then some n else (h x).last := by
  cases b with
  | none =>
    by_cases hq : q = some x
    · subst hq
      simp [linkNext]
    · simp [linkNext, setLast_of_ne _ hq, hq]
  | some t => simp [linkNext]

theorem linkNext_next (hn : (h n).next = none) :
    (linkNext h n b q x).next = if x = n then b else (h x).next := by
  cases b with
  | none => by_cases hx : x = n <;> simp [linkNext, hx, hn]
  | some t =>
    by_cases hx : x = n
    · subst hx
      simp [linkNext]
    · simp [linkNext, hx, setNext_of_ne _ (show some n ≠ some x by simpa using Ne.symm hx)]

theorem linkNext_prev :
    (linkNext h n b q x).prev = if b = some x then some n else (h x).prev := by
  cases b with
  | none => simp [linkNext]
  | some t =>
    by_cases hx : some t = some x
    · cases hx
      simp [linkNext]
    · simp [linkNext, hx, setPrev_of_ne _ hx]

end LinkNext

omit [DecidableEq ν] in
/-- What happens outside the subtrees of the roots does not matter. -/
theorem nodes_congr {kids kids' : ν → List ν} {roots : Set ν}
    (heq : ∀ p ∈ Nodes kids roots, kids' p = kids p) :
    Nodes kids' roots = Nodes kids roots := by
  have hto : ∀ r ∈ roots, ∀ x, Below kids r x → Below kids' r x := by
    intro r hr x hb
    induction hb with
    | refl => exact .refl
    | @tail y z hb hc ih => exact ih.tail (show z ∈ kids' y from heq y ⟨r, hr, hb⟩ ▸ hc)
  have hfrom : ∀ r ∈ roots, ∀ x, Below kids' r x → Below kids r x := by
    intro r hr x hb
    induction hb with
    | refl => exact .refl
    | @tail y z _ hc ih => exact ih.tail (show z ∈ kids y from heq y ⟨r, hr, ih⟩ ▸ hc)
  ext x
  exact ⟨fun ⟨r, hr, hb⟩ => ⟨r, hr, hfrom r hr x hb⟩, fun ⟨r, hr, hb⟩ => ⟨r, hr, hto r hr x hb⟩⟩

/-- A new node does not change the subtrees of the roots. -/
theorem nodes_alloc {kids : ν → List ν} {roots : Set ν} (hnew : n ∉ Nodes kids roots) :
    Nodes (Function.update kids n []) roots = Nodes kids roots :=
  nodes_congr fun _ hp => Function.update_of_ne (ne_of_mem_of_not_mem hp hnew) _ _

/-- A new node without any links is a root. -/
theorem Linked.alloc {kids : ν → List ν} {roots : Set ν} (hl : Linked h kids roots)
    (hnew : n ∉ Nodes kids roots) :
    Linked (Function.update h n {}) (Function.update kids n []) (Insert.insert n roots) := by
  have hsame : ∀ x ∈ Nodes (Function.update kids n []) roots, x ∈ Nodes kids roots := fun x hx =>
    nodes_alloc hnew ▸ hx
  have hkids : ∀ p ∈ Nodes kids roots, Function.update kids n [] p = kids p := fun p hp =>
    Function.update_of_ne (ne_of_mem_of_not_mem hp hnew) _ _
  have hf : Forest (Function.update kids n []) roots :=
    ⟨fun p hp => hkids p (hsame p hp) ▸ hl.forest.nodup p (hsame p hp),
      fun p hp q hq c hc hc' => hl.forest.unique p (hsame p hp) q (hsame q hq) c
        (hkids p (hsame p hp) ▸ hc) (hkids q (hsame q hq) ▸ hc'),
      fun p hp r hr hrp => hl.forest.roots p (hsame p hp) r hr (hkids p (hsame p hp) ▸ hrp)⟩
  refine ⟨hf.add_root (by simp) fun hn => hnew (hsame n hn), fun p hp => ?_⟩
  obtain ⟨r, rfl | hr, hb⟩ := hp
  · have hpr := below_of_no_kids (by simp) hb
    subst hpr
    exact ⟨by simp, by simp, by simp [Segment]⟩
  · have hp : p ∈ Nodes kids roots := hsame p ⟨r, hr, hb⟩
    have hpn : p ≠ n := ne_of_mem_of_not_mem hp hnew
    have hcp := hl.children p hp
    rw [hkids p hp]
    refine ⟨by simp [hpn, hcp.child], by simp [hpn, hcp.last], hcp.segment.congr fun c hc => ?_⟩
    have hcn : c ≠ n := ne_of_mem_of_not_mem (mem_nodes_child hp hc) hnew
    simp [hcn]

section Link

variable {kids : ν → List ν} {roots : Set ν}

/-- A root that has no siblings yet becomes the first child of a node. -/
theorem Linked.inserted_linkFirst (hl : Linked h kids (Insert.insert n roots)) (hn : n ∉ roots)
    (hp : p ∈ Nodes kids roots) (hprev : (h n).prev = none) (hnext : (h n).next = none) :
    Inserted h (linkFirst h p n) p n [] (kids p) := by
  obtain ⟨hpn, hne⟩ := hl.forest.not_root hn hp
  have hnew : ∀ c ∈ kids p, c ≠ n := fun c hc he => hl.forest.roots p hpn n (.inl rfl) (he ▸ hc)
  have hchild := (hl.children p hpn).child
  have hcn : (h p).child ≠ some n := fun he =>
    hnew n (List.mem_of_head? (hchild ▸ he)) rfl
  have hpx : ∀ x, x ≠ n → some n ≠ some x := fun x hx he => hx (Option.some.inj he).symm
  refine ⟨?_, ?_, ?_, fun x hx => ?_, fun x hx => ?_,
    fun x hx => ?_, fun x => ?_, fun x => ?_⟩
  · simp [OrderedForest.linkFirst]
  · simp [OrderedForest.linkFirst, linkNext_next hnext, hchild]
  · simp [OrderedForest.linkFirst, linkNext_prev, hcn, hprev]
  · simp [OrderedForest.linkFirst, setParent_of_ne _ (hpx x hx)]
  · simp [OrderedForest.linkFirst, linkNext_next hnext, hx]
  · simp [OrderedForest.linkFirst, linkNext_prev, hchild]
  · by_cases hxp : x = p
    · subst hxp
      simp [OrderedForest.linkFirst]
    · have hpx' : some p ≠ some x := by simpa using Ne.symm hxp
      simp [OrderedForest.linkFirst, setChild_of_ne _ hpx', hxp]
  · simp [OrderedForest.linkFirst, linkNext_last, hchild, eq_comm (a := p)]

/-- A root that has no siblings yet is inserted right after a child of a node. -/
theorem Linked.inserted_linkAfter (hl : Linked h kids (Insert.insert n roots)) (hn : n ∉ roots)
    (hp : p ∈ Nodes kids roots) (hkids : kids p = (l₁ ++ [s]) ++ l₂) (hnext : (h n).next = none) :
    Inserted h (linkAfter h s n) p n (l₁ ++ [s]) l₂ := by
  obtain ⟨hpn, hne⟩ := hl.forest.not_root hn hp
  have hnew : ∀ c ∈ kids p, c ≠ n := fun c hc he => hl.forest.roots p hpn n (.inl rfl) (he ▸ hc)
  have hsn : s ≠ n := hnew s (by simp [hkids])
  have hseg := (hl.children p hpn).segment
  rw [hkids, List.append_assoc, List.singleton_append] at hseg
  obtain ⟨-, hpar, -, hs, -⟩ := segment_mid.mp hseg
  rw [Option.or_none] at hs
  have hpx : ∀ x, x ≠ n → some n ≠ some x := fun x hx he => hx (Option.some.inj he).symm
  have hns : some s ≠ some n := by simpa using hsn
  refine ⟨?_, ?_, ?_, fun x hx => ?_, fun x hx => ?_,
    fun x hx => ?_, fun x => ?_, fun x => ?_⟩
  · simp [OrderedForest.linkAfter, hpar]
  · simp [OrderedForest.linkAfter, setNext_of_ne _ hns, linkNext_next hnext, hs]
  · simp [OrderedForest.linkAfter]
  · simp [OrderedForest.linkAfter, setParent_of_ne _ (hpx x hx)]
  · by_cases hxs : x = s
    · subst hxs
      simp [OrderedForest.linkAfter]
    · have hsx : some s ≠ some x := by simpa using Ne.symm hxs
      simp [OrderedForest.linkAfter, setNext_of_ne _ hsx, linkNext_next hnext, hx, Ne.symm hxs]
  · simp [OrderedForest.linkAfter, setPrev_of_ne _ (hpx x hx), linkNext_prev, hs]
  · simp [OrderedForest.linkAfter]
  · simp [OrderedForest.linkAfter, linkNext_last, hpar, hs, eq_comm (a := p)]

end Link

end

/-! ## §5 Reading the forest off the pointers -/

/-- Following the pointers, `c` is a child of `p`. -/
def ChildOf (h : ν → Links ν) (p c : ν) : Prop :=
  ∃ d, (h p).child = some d ∧ Relation.ReflTransGen (fun x y => (h x).next = some y) d c

/-- Following the pointers, `x` belongs to the subtree of `r`. -/
abbrev BelowPtr (h : ν → Links ν) : ν → ν → Prop := Relation.ReflTransGen (ChildOf h)

/-- Following the pointers, `x` can be reached from a root. -/
def InTree (h : ν → Links ν) (roots : Set ν) (x : ν) : Prop := ∃ r ∈ roots, BelowPtr h r x

/-- The pointers of the reachable nodes fit together. -/
structure WellLinked (h : ν → Links ν) (roots : Set ν) : Prop where
  /-- Next and previous siblings are mutually inverse. -/
  siblings : ∀ p x y, InTree h roots p → ChildOf h p x → ChildOf h p y →
    ((h x).next = some y ↔ (h y).prev = some x)
  /-- A sibling of a child is a child. -/
  next : ∀ p x y, InTree h roots p → ChildOf h p x → (h x).next = some y → ChildOf h p y
  prev : ∀ p x y, InTree h roots p → ChildOf h p x → (h x).prev = some y → ChildOf h p y
  /-- The first child is the one without a previous sibling. -/
  first : ∀ p c, InTree h roots p → ((h p).child = some c ↔ ChildOf h p c ∧ (h c).prev = none)
  /-- The last child is the one without a next sibling. -/
  last : ∀ p c, InTree h roots p → ((h p).last = some c ↔ ChildOf h p c ∧ (h c).next = none)
  /-- Children point to their parents. -/
  parent : ∀ p c, InTree h roots p → ChildOf h p c → (h c).parent = some p
  /-- No node comes after itself. -/
  chain : ∀ p c, InTree h roots p → ChildOf h p c →
    ¬ Relation.TransGen (fun x y => (h x).next = some y) c c
  /-- Roots are not children. -/
  root : ∀ p r, InTree h roots p → r ∈ roots → ¬ ChildOf h p r

section Read

variable {kids : ν → List ν} {roots : Set ν}

/-- Walking along the siblings visits exactly the members of the list. -/
theorem Children.mem_iff {c : ν} (hc : Children h p l) : ChildOf h p c ↔ c ∈ l := by
  constructor
  · rintro ⟨d, hd, hr⟩
    induction hr with
    | refl => exact List.mem_of_head? (hc.child ▸ hd)
    | @tail x y _ hxy ih =>
      obtain ⟨l₁, l₂, rfl⟩ := List.append_of_mem ih
      obtain ⟨-, -, -, hnext, -⟩ := segment_mid.mp hc.segment
      rw [hxy, Option.or_none] at hnext
      simp [List.mem_of_head? hnext.symm]
  · intro hm
    have hwalk : ∀ (l : List ν) (a : Option ν) (d : ν), Segment h p a (d :: l) none → c ∈ d :: l →
        Relation.ReflTransGen (fun x y => (h x).next = some y) d c := by
      intro l
      induction l with
      | nil =>
        rintro a d - hm
        obtain rfl : c = d := by simpa using hm
        exact .refl
      | cons e l ih =>
        rintro a d ⟨-, -, hnext, hs⟩ hm
        rcases List.mem_cons.mp hm with rfl | hm
        · exact .refl
        · exact Relation.ReflTransGen.head (by simpa using hnext) (ih (some d) e hs hm)
    cases l with
    | nil => simp at hm
    | cons d l => exact ⟨d, by simp [hc.child], hwalk l none d hc.segment hm⟩

theorem Linked.childOf_iff {c : ν} (hl : Linked h kids roots) (hp : p ∈ Nodes kids roots) :
    ChildOf h p c ↔ c ∈ kids p :=
  (hl.children p hp).mem_iff

theorem Linked.belowPtr_iff (hl : Linked h kids roots) (hx : x ∈ Nodes kids roots) {y : ν} :
    BelowPtr h x y ↔ Below kids x y := by
  constructor
  · intro hb
    induction hb with
    | refl => exact .refl
    | tail _ hc ih => exact ih.tail ((hl.childOf_iff (mem_nodes_below hx ih)).mp hc)
  · intro hb
    induction hb with
    | refl => exact .refl
    | tail hb hc ih => exact ih.tail ((hl.childOf_iff (mem_nodes_below hx hb)).mpr hc)

theorem Linked.inTree_iff (hl : Linked h kids roots) : InTree h roots x ↔ x ∈ Nodes kids roots :=
  ⟨fun ⟨r, hr, hb⟩ => ⟨r, hr, (hl.belowPtr_iff (mem_nodes_root hr)).mp hb⟩,
    fun ⟨r, hr, hb⟩ => ⟨r, hr, (hl.belowPtr_iff (mem_nodes_root hr)).mpr hb⟩⟩

namespace Children

variable {c y : ν}

theorem next_eq (hc : Children h p (l₁ ++ c :: l₂)) : (h c).next = l₂.head? := by
  simpa using (segment_mid.mp hc.segment).2.2.2.1

theorem prev_eq (hc : Children h p (l₁ ++ c :: l₂)) : (h c).prev = l₁.getLast? := by
  simpa using (segment_mid.mp hc.segment).2.2.1

/-- The node after a child follows it in the list. -/
theorem split_of_next (hc : Children h p l) (hx : x ∈ l) (hy : (h x).next = some y) :
    ∃ l₁ l₂, l = l₁ ++ x :: y :: l₂ := by
  obtain ⟨l₁, l₂, rfl⟩ := List.append_of_mem hx
  rw [hc.next_eq] at hy
  obtain ⟨l₂, rfl⟩ := List.head?_eq_some_iff.mp hy
  exact ⟨l₁, l₂, rfl⟩

/-- The node before a child precedes it in the list. -/
theorem split_of_prev (hc : Children h p l) (hy : y ∈ l) (hx : (h y).prev = some x) :
    ∃ l₁ l₂, l = l₁ ++ x :: y :: l₂ := by
  obtain ⟨l₁, l₂, rfl⟩ := List.append_of_mem hy
  rw [hc.prev_eq] at hx
  obtain ⟨l₁, rfl⟩ := List.getLast?_eq_some_iff.mp hx
  exact ⟨l₁, l₂, by simp⟩

theorem next_iff_prev (hc : Children h p l) (hx : x ∈ l) (hy : y ∈ l) :
    (h x).next = some y ↔ (h y).prev = some x := by
  constructor
  · intro hn
    obtain ⟨l₁, l₂, rfl⟩ := hc.split_of_next hx hn
    rw [← List.concat_append, List.concat_eq_append] at hc
    simp [hc.prev_eq]
  · intro hn
    obtain ⟨l₁, l₂, rfl⟩ := hc.split_of_prev hy hn
    simp [hc.next_eq]

theorem child_iff (hc : Children h p l) : (h p).child = some c ↔ c ∈ l ∧ (h c).prev = none := by
  constructor
  · intro he
    obtain ⟨l, rfl⟩ := List.head?_eq_some_iff.mp (hc.child ▸ he)
    exact ⟨by simp, prev_eq (show Children h p ([] ++ c :: l) from hc)⟩
  · rintro ⟨hm, he⟩
    obtain ⟨l₁, l₂, rfl⟩ := List.append_of_mem hm
    rw [hc.prev_eq, List.getLast?_eq_none_iff] at he
    simp [hc.child, he]

theorem last_iff (hc : Children h p l) : (h p).last = some c ↔ c ∈ l ∧ (h c).next = none := by
  constructor
  · intro he
    obtain ⟨l, rfl⟩ := List.getLast?_eq_some_iff.mp (hc.last ▸ he)
    exact ⟨by simp, next_eq (show Children h p (l ++ c :: []) from hc)⟩
  · rintro ⟨hm, he⟩
    obtain ⟨l₁, l₂, rfl⟩ := List.append_of_mem hm
    rw [hc.next_eq, List.head?_eq_none_iff] at he
    simp [hc.last, he]

/-- Walking along the siblings never returns to the same child. -/
theorem not_next_self (hc : Children h p l) (hl : l.Nodup) (hx : x ∈ l) :
    ¬ Relation.TransGen (fun x y => (h x).next = some y) x x := by
  obtain ⟨l₁, l₂, rfl⟩ := List.append_of_mem hx
  have hafter : ∀ y, Relation.TransGen (fun x y => (h x).next = some y) x y → y ∈ l₂ := by
    intro y hy
    induction hy with
    | single hxy => exact List.mem_of_head? (hc.next_eq ▸ hxy)
    | @tail y z _ hyz ih =>
      obtain ⟨a, b, rfl⟩ := List.append_of_mem ih
      rw [show l₁ ++ x :: (a ++ y :: b) = (l₁ ++ x :: a) ++ y :: b by simp] at hc
      simp [List.mem_of_head? (hc.next_eq ▸ hyz)]
  exact fun hs => (List.nodup_cons.mp (List.nodup_append.mp hl).2.1).1 (hafter x hs)

end Children

/-- The pointers that represent an ordered forest fit together. -/
theorem Linked.wellLinked (hl : Linked h kids roots) : WellLinked h roots := by
  have hkids : ∀ {p}, InTree h roots p → Children h p (kids p) := fun hp =>
    hl.children _ (hl.inTree_iff.mp hp)
  refine ⟨fun p x y hp hx hy => ?_, fun p x y hp hx hy => ?_, fun p x y hp hx hy => ?_,
    fun p c hp => ?_, fun p c hp => ?_, fun p c hp hc => ?_, fun p c hp hc => ?_,
    fun p r hp hr hc => ?_⟩
  · exact (hkids hp).next_iff_prev ((hkids hp).mem_iff.mp hx) ((hkids hp).mem_iff.mp hy)
  · obtain ⟨l₁, l₂, he⟩ := (hkids hp).split_of_next ((hkids hp).mem_iff.mp hx) hy
    exact (hkids hp).mem_iff.mpr (by simp [he])
  · obtain ⟨l₁, l₂, he⟩ := (hkids hp).split_of_prev ((hkids hp).mem_iff.mp hx) hy
    exact (hkids hp).mem_iff.mpr (by simp [he])
  · rw [(hkids hp).child_iff, (hkids hp).mem_iff]
  · rw [(hkids hp).last_iff, (hkids hp).mem_iff]
  · exact (hkids hp).segment.parent_eq ((hkids hp).mem_iff.mp hc)
  · exact (hkids hp).not_next_self (hl.forest.nodup p (hl.inTree_iff.mp hp))
      ((hkids hp).mem_iff.mp hc)
  · exact hl.forest.roots p (hl.inTree_iff.mp hp) r hr ((hkids hp).mem_iff.mp hc)

end Read

end OrderedForest
