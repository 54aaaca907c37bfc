import Mandoc.Lib.SiblingLinks
import Mathlib.Data.Set.Card

/-!
# The Trees of a Forest

A traversal of a linked forest follows the pointers to first children and to next siblings. It is
easier to reason about when the forest is written as a list of trees, because then the part that
is yet to be visited gets smaller with every step.

`Laid h kids p a ts` says that `ts` are the trees of a chain of siblings below `p`, coming after
`a`: following the pointers of the heap `h` from a node of one of these trees leads to the next
node of the trees.

## Main results

- `Linked.exists_laid`: the chain of children of every node of a finite forest is laid out.
-/

namespace OrderedForest

universe u

variable {ν : Type u}

/-! ## §1 Trees -/

/-- An ordered tree. -/
inductive OrderedTree (ν : Type u) where
  | node (x : ν) (sub : List (OrderedTree ν))

namespace OrderedTree

def root : OrderedTree ν → ν
  | node x _ => x

def sub : OrderedTree ν → List (OrderedTree ν)
  | node _ sub => sub

@[simp] theorem root_node (x : ν) (sub : List (OrderedTree ν)) : (node x sub).root = x := rfl

@[simp] theorem sub_node (x : ν) (sub : List (OrderedTree ν)) : (node x sub).sub = sub := rfl

mutual

/-- The nodes of a tree, a parent before its children. -/
def nodes : OrderedTree ν → List ν
  | node x sub => x :: nodesAll sub

/-- The nodes of a list of trees. -/
def nodesAll : List (OrderedTree ν) → List ν
  | [] => []
  | T :: ts => nodes T ++ nodesAll ts

end

@[simp] theorem nodesAll_nil : nodesAll ([] : List (OrderedTree ν)) = [] := by rw [nodesAll]

theorem nodesAll_cons (x : ν) (sub ts : List (OrderedTree ν)) :
    nodesAll (node x sub :: ts) = x :: (nodesAll sub ++ nodesAll ts) := by
  rw [nodesAll, nodes, List.cons_append]

theorem nodesAll_append (ts us : List (OrderedTree ν)) :
    nodesAll (ts ++ us) = nodesAll ts ++ nodesAll us := by
  induction ts with
  | nil => rw [nodesAll_nil, List.nil_append, List.nil_append]
  | cons T ts ih => rw [List.cons_append, nodesAll, nodesAll, ih, List.append_assoc]

/-- The nodes of the first tree come first. -/
theorem nodesAll_cons_eq (T : OrderedTree ν) (ts : List (OrderedTree ν)) :
    nodesAll (T :: ts) = nodesAll [T] ++ nodesAll ts := nodesAll_append [T] ts

mutual

/-- A tree and the trees below it. -/
def subtrees : OrderedTree ν → List (OrderedTree ν)
  | node x sub => node x sub :: subtreesAll sub

/-- The members of a list of trees, and the trees below them. -/
def subtreesAll : List (OrderedTree ν) → List (OrderedTree ν)
  | [] => []
  | T :: ts => subtrees T ++ subtreesAll ts

end

@[simp] theorem subtreesAll_nil : subtreesAll ([] : List (OrderedTree ν)) = [] := by
  rw [subtreesAll]

theorem subtreesAll_cons (x : ν) (sub ts : List (OrderedTree ν)) :
    subtreesAll (node x sub :: ts) = node x sub :: (subtreesAll sub ++ subtreesAll ts) := by
  rw [subtreesAll, subtrees, List.cons_append]

theorem subtreesAll_append (ts us : List (OrderedTree ν)) :
    subtreesAll (ts ++ us) = subtreesAll ts ++ subtreesAll us := by
  induction ts with
  | nil => rw [subtreesAll_nil, List.nil_append, List.nil_append]
  | cons T ts ih => rw [List.cons_append, subtreesAll, subtreesAll, ih, List.append_assoc]

/-- The nodes of a member of a list of trees. -/
theorem mem_nodesAll {T : OrderedTree ν} {ts : List (OrderedTree ν)} (hT : T ∈ ts) {x : ν}
    (hx : x ∈ nodesAll T.sub) : x ∈ nodesAll ts := by
  induction ts with
  | nil => cases hT
  | cons S ts ih =>
    cases S with
    | node y sub =>
      rw [nodesAll_cons]
      rcases List.mem_cons.mp hT with rfl | hT
      · exact List.mem_cons_of_mem _ (List.mem_append_left _ hx)
      · exact List.mem_cons_of_mem _ (List.mem_append_right _ (ih hT))

/-- What is below a member of a list of trees is smaller than the list. -/
theorem length_nodesAll_sub {T : OrderedTree ν} {ts : List (OrderedTree ν)} (hT : T ∈ ts) :
    (nodesAll T.sub).length < (nodesAll ts).length := by
  induction ts with
  | nil => cases hT
  | cons S ts ih =>
    cases S with
    | node y sub =>
      rw [nodesAll_cons, List.length_cons, List.length_append]
      rcases List.mem_cons.mp hT with rfl | hT
      · exact Nat.lt_succ_of_le (Nat.le_add_right _ _)
      · exact Nat.lt_succ_of_le (Nat.le_trans (ih hT).le (Nat.le_add_left _ _))

/-- A list of trees has at least as many nodes as members. -/
theorem length_le_nodesAll (ts : List (OrderedTree ν)) : ts.length ≤ (nodesAll ts).length := by
  induction ts with
  | nil => exact Nat.zero_le _
  | cons S ts ih =>
    cases S with
    | node y sub =>
      rw [nodesAll_cons, List.length_cons, List.length_cons, List.length_append]
      exact Nat.succ_le_succ (ih.trans (Nat.le_add_left _ _))

theorem root_mem_nodesAll {T : OrderedTree ν} {ts : List (OrderedTree ν)} (hT : T ∈ ts) :
    T.root ∈ nodesAll ts := by
  induction ts with
  | nil => cases hT
  | cons S ts ih =>
    cases S with
    | node y sub =>
      rw [nodesAll_cons]
      rcases List.mem_cons.mp hT with rfl | hT
      · exact List.mem_cons_self
      · exact List.mem_cons_of_mem _ (List.mem_append_right _ (ih hT))

/-- Leaving out some of the first trees leaves out nodes. -/
theorem nodesAll_tail_subset (ts : List (OrderedTree ν)) : nodesAll ts.tail ⊆ nodesAll ts := by
  cases ts with
  | nil => exact List.Subset.refl _
  | cons S ts =>
    cases S with
    | node y sub =>
      rw [nodesAll_cons]
      exact fun x hx => List.mem_cons_of_mem _ (List.mem_append_right _ hx)

/-- The nodes below a tree of the list. -/
theorem nodesAll_subtree_subset {T : OrderedTree ν} :
    ∀ {ts : List (OrderedTree ν)}, T ∈ subtreesAll ts → nodesAll T.sub ⊆ nodesAll ts
  | [], hT => by cases (subtreesAll_nil ▸ hT : T ∈ [])
  | node y sub :: ts, hT => by
    rw [subtreesAll_cons] at hT
    rw [nodesAll_cons]
    intro x hx
    rcases List.mem_cons.mp hT with rfl | hT
    · exact List.mem_cons_of_mem _ (List.mem_append_left _ hx)
    rcases List.mem_append.mp hT with hT | hT
    · exact List.mem_cons_of_mem _
        (List.mem_append_left _ (nodesAll_subtree_subset hT hx))
    · exact List.mem_cons_of_mem _
        (List.mem_append_right _ (nodesAll_subtree_subset hT hx))

end OrderedTree

open OrderedTree

/-! ## §2 Trees in a heap -/

/-- The trees are laid out in the heap as a chain of siblings below `p`, coming after `a`. -/
inductive Laid (h : ν → Links ν) (kids : ν → List ν) :
    Option ν → Option ν → List (OrderedTree ν) → Prop where
  | nil {p a : Option ν} : Laid h kids p a []
  | cons {p a : Option ν} {x : ν} {sub ts : List (OrderedTree ν)} :
      (h x).parent = p → (h x).prev = a → (h x).child = sub.head?.map root →
        (h x).next = ts.head?.map root → sub.map root = kids x → Laid h kids (some x) none sub →
          Laid h kids p (some x) ts → Laid h kids p a (.node x sub :: ts)

variable {h : ν → Links ν} {kids : ν → List ν} {roots : Set ν} {p : Option ν} {a : Option ν} {x : ν}
variable {ts : List (OrderedTree ν)}

/-- The children of a member of a chain are a chain. -/
theorem Laid.of_mem (hl : Laid h kids p a ts) {T : OrderedTree ν} (hT : T ∈ ts) :
    (h T.root).child = T.sub.head?.map root ∧ T.sub.map root = kids T.root ∧
      Laid h kids (some T.root) none T.sub := by
  induction hl with
  | nil => cases hT
  | cons _ _ hchild _ hkids hsub _ _ ih =>
    rcases List.mem_cons.mp hT with rfl | hT
    · exact ⟨hchild, hkids, hsub⟩
    · exact ih hT

/-- What comes after the first tree is a chain as well. -/
theorem Laid.tail {T : OrderedTree ν} (hl : Laid h kids p a (T :: ts)) :
    (h T.root).next = ts.head?.map root ∧ Laid h kids p (some T.root) ts := by
  cases hl with
  | cons _ _ _ hnext _ _ hts => exact ⟨hnext, hts⟩

/-- All nodes of the trees have a property that the roots have and that is inherited. -/
theorem Laid.forall_nodes (hl : Laid h kids p a ts) {P : ν → Prop}
    (hroots : ∀ T ∈ ts, P T.root) (hkids : ∀ x, P x → ∀ c ∈ kids x, P c) :
    ∀ x ∈ nodesAll ts, P x := by
  induction hl with
  | nil => exact fun x hx => by cases (nodesAll_nil ▸ hx : x ∈ [])
  | @cons p a y sub ts _ _ _ _ hsub _ _ ihsub ihts =>
    have hy : P y := hroots _ List.mem_cons_self
    intro x hx
    rw [nodesAll_cons] at hx
    rcases List.mem_cons.mp hx with rfl | hx
    · exact hy
    rcases List.mem_append.mp hx with hx | hx
    · refine ihsub (fun T hT => hkids y hy _ ?_) x hx
      rw [← hsub]
      exact List.mem_map_of_mem hT
    · exact ihts (fun T hT => hroots T (List.mem_cons_of_mem _ hT)) x hx

/-- The nodes of the trees of all children are below one of the children. -/
theorem Laid.exists_child_below {q : ν} (hl : Laid h kids p a ts) (hkids : ts.map root = kids q) :
    ∀ x ∈ nodesAll ts, ∃ c ∈ kids q, Below kids c x := by
  refine hl.forall_nodes (P := fun x => ∃ c ∈ kids q, Below kids c x) (fun T hT => ?_) ?_
  · exact ⟨T.root, hkids ▸ List.mem_map_of_mem hT, .refl⟩
  · rintro x ⟨c, hc, hx⟩ y hy
    exact ⟨c, hc, hx.tail hy⟩

/-- **Every chain of children is laid out**, because the part of the forest below a child is smaller
    than the one below its parent. -/
theorem Linked.exists_laid (hl : Linked h kids roots) (hfin : (Nodes kids roots).Finite) {q : ν}
    (hq : q ∈ Nodes kids roots) : ∃ ts, Laid h kids (some q) none ts ∧ ts.map root = kids q := by
  induction hn : {y | Below kids q y}.ncard using Nat.strong_induction_on generalizing q with
  | _ n ih =>
    subst hn
    have hchild : ∀ c ∈ kids q, ∃ ts, Laid h kids (some c) none ts ∧ ts.map root = kids c := by
      intro c hc
      have hcq : c ∈ Nodes kids roots := mem_nodes_child hq hc
      refine ih _ (Set.ncard_lt_ncard ?_ (hfin.subset fun y hy => mem_nodes_below hq hy)) hcq rfl
      refine ⟨fun y hy => .head hc hy, fun hsub => ?_⟩
      exact hl.forest.acyclic hq hc (hsub .refl)
    have hchain : ∀ (l : List ν) (a : Option ν), (∀ c ∈ l, c ∈ kids q) →
        Segment h q a l none → ∃ ts, Laid h kids (some q) a ts ∧ ts.map root = l := by
      intro l
      induction l with
      | nil => exact fun a _ _ => ⟨[], .nil, rfl⟩
      | cons c l ihl =>
        rintro a hmem ⟨hparent, hprev, hnext, hrest⟩
        obtain ⟨ts, hts, hroots⟩ :=
          ihl (some c) (fun d hd => hmem d (List.mem_cons_of_mem _ hd)) hrest
        have hc := hmem c List.mem_cons_self
        obtain ⟨sub, hsub, hkids⟩ := hchild c hc
        refine ⟨.node c sub :: ts, .cons hparent hprev ?_ ?_ hkids hsub hts, ?_⟩
        · rw [(hl.children c (mem_nodes_child hq hc)).child, ← hkids, List.head?_map]
        · rw [hnext, Option.or_none, ← hroots, List.head?_map]
        · exact congrArg (c :: ·) hroots
    exact hchain (kids q) none (fun c hc => hc) (hl.children q hq).segment

end OrderedForest
