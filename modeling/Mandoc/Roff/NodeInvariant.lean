import Mandoc.Roff.Node

/-!
# The Syntax Tree Invariant

Whatever sequence of operations builds a syntax tree, its pointers fit together, and
the parse point is a node of the tree. The proof goes through the ordered forest that
the pointers represent: `Represents man kids` is the invariant, and each operation of
`roff.c` is shown to implement an operation on ordered forests.

An operation has to be used properly. Nodes can only be unlinked, relinked, or deleted
while they are in the tree. Since `roff_node_unlink()` moves the parse point only if it
is the unlinked node itself, it must not be used on a node while the parse point is
further down in its subtree; `roff_node_delete()` deletes the children first, and
`roff_node_relink()` is never used to relink a node below itself.
-/

namespace Mandoc

open OrderedForest

/-! ## §1 The invariant -/

/-- The root of the syntax tree, if it still exists. -/
def RoffMan.roots (man : RoffMan) : Set Nat := {r | man.first = some r}

/-- The pointers fit together, and the parse point belongs to the tree. -/
structure SyntaxTree (man : RoffMan) : Prop where
  wellLinked : WellLinked man.links man.roots
  last : ∀ l, man.last = some l → InTree man.links man.roots l
  next : man.next = .SIBLING → ∃ l p, man.last = some l ∧ (man.links l).parent = some p

/-- The pointers represent an ordered tree, and the parse point belongs to it. -/
structure Represents (man : RoffMan) (kids : Nat → List Nat) : Prop where
  linked : Linked man.links kids man.roots
  root : ∀ r ∈ man.roots,
    (man.links r).parent = none ∧ (man.links r).prev = none ∧ (man.links r).next = none
  count : ∀ x ∈ Nodes kids man.roots, x < man.count
  last : ∀ l, man.last = some l → l ∈ Nodes kids man.roots
  empty : man.last = none → man.first = none
  next : man.next = .SIBLING → ∃ l p, man.last = some l ∧ (man.links l).parent = some p

theorem Represents.syntaxTree {man : RoffMan} {kids : Nat → List Nat} (h : Represents man kids) :
    SyntaxTree man :=
  ⟨h.linked.wellLinked, fun l hl => h.linked.inTree_iff.mpr (h.last l hl), h.next⟩

/-- The tree made of a root only. -/
theorem represents_roffManAlloc1 : Represents roffManAlloc1 fun _ => [] := by
  have hnodes : ∀ x ∈ Nodes (fun _ => []) roffManAlloc1.roots, x = 0 := by
    rintro x ⟨r, hr, hb⟩
    obtain rfl : 0 = r := Option.some.inj hr
    exact below_of_no_kids rfl hb
  refine ⟨⟨⟨by simp, by simp, by simp⟩, fun p _ => ⟨rfl, rfl, trivial⟩⟩, fun r _ => ⟨rfl, rfl, rfl⟩,
    fun x hx => ?_, fun l hl => ?_, by simp [roffManAlloc1], by simp [roffManAlloc1]⟩
  · rw [hnodes x hx]
    exact Nat.one_pos
  · obtain rfl : 0 = l := Option.some.inj hl
    exact mem_nodes_root rfl

/-! ## §2 Unlinking -/

section

variable {man : RoffMan} {kids : Nat → List Nat} {n p : Nat} {adjust : Bool}

@[simp] theorem roffNodeUnlink_count : (roffNodeUnlink man adjust n).count = man.count := by
  simp only [roffNodeUnlink]
  cases adjust with
  | false => rfl
  | true =>
    by_cases hl : man.last = some n
    · cases hs : (OrderedForest.unlink man.links n n).prev <;> simp [hl] <;> split <;> rfl
    · simp only [hl, if_true, if_false]
      split <;> rfl

/-- Unlinking a node other than the root. -/
theorem roffNodeUnlink_eq (hf : man.first ≠ some n)
    (hprev : (unlink man.links n n).prev = (man.links n).prev) :
    roffNodeUnlink man adjust n =
      if adjust = true ∧ man.last = some n then
        { man with
          links := unlink man.links n
          last := (man.links n).prev.or (man.links n).parent
          next := if (man.links n).prev = none then .CHILD else .SIBLING }
      else { man with links := unlink man.links n } := by
  cases adjust with
  | false => rfl
  | true =>
    by_cases hl : man.last = some n
    · cases hs : (man.links n).prev <;>
        simp [roffNodeUnlink, hl, hf, hprev, hs, unlink_parent]
    · simp [roffNodeUnlink, hl, hf]

/-- A node other than the root can be unlinked unless that would take the parse point
    out of the tree. -/
theorem Represents.unlink (h : Represents man kids) (adjust : Bool) (hp : p ∈ Nodes kids man.roots)
    (hn : n ∈ kids p)
    (hlast : ∀ l, man.last = some l → Below kids n l → adjust = true ∧ l = n) :
    Represents (roffNodeUnlink man adjust n) (Forest.cutKids kids p n) ∧
      Linked (roffNodeUnlink man adjust n).links (Forest.cutKids kids p n)
        (insert n (roffNodeUnlink man adjust n).roots) ∧
      (roffNodeUnlink man adjust n).first = man.first ∧
      (roffNodeUnlink man adjust n).count = man.count := by
  have hf : man.first ≠ some n := fun hf => h.linked.forest.roots p hp n hf hn
  have hcut := h.linked.unlink hp hn
  have hsub : ∀ x ∈ Nodes (Forest.cutKids kids p n) man.roots, x ∈ Nodes kids man.roots :=
    fun x ⟨r, hr, hb⟩ => Forest.nodes_cut_subset hp hn ⟨r, .inr hr, hb⟩
  have hpcut : p ∈ Nodes (Forest.cutKids kids p n) man.roots :=
    Forest.mem_nodes_cut hp (h.linked.forest.acyclic hp hn)
  have hroot : ∀ r ∈ man.roots, (OrderedForest.unlink man.links n r).parent = none ∧
      (OrderedForest.unlink man.links n r).prev = none ∧
      (OrderedForest.unlink man.links n r).next = none := by
    intro r hr
    obtain ⟨e1, e2, e3⟩ := h.linked.unlink_other hp hn
      (x := r) fun hrp => absurd hrp (h.linked.forest.roots p hp r hr)
    obtain ⟨h1, h2, h3⟩ := h.root r hr
    exact ⟨e1.trans h1, e2.trans h2, e3.trans h3⟩
  rw [roffNodeUnlink_eq hf (h.linked.unlink_other hp hn fun _ => rfl).2.1]
  split
  · rename_i hmove
    -- The parse point moves to the previous sibling or to the parent.
    obtain ⟨l₁, l₂, hkids⟩ := List.append_of_mem hn
    have hcp := h.linked.children p hp
    have hnodup := h.linked.forest.nodup p hp
    rw [hkids] at hcp hnodup
    have hpar := h.linked.parent_eq hp hn
    have hprev : ∀ s, (man.links n).prev = some s → s ∈ kids p ∧ s ≠ n := by
      intro s hs
      rw [hcp.prev_eq] at hs
      have hm := List.mem_of_getLast? hs
      exact ⟨by simp [hkids, hm], fun he =>
        (List.nodup_append.mp hnodup).2.2 s hm n (by simp) he⟩
    refine ⟨⟨hcut.subset (Set.subset_insert n _), hroot, fun x hx => h.count x (hsub x hx),
      fun l hl => ?_, fun hl => ?_, fun hs => ?_⟩, hcut, rfl, rfl⟩
    · cases hs : (man.links n).prev with
      | none =>
        obtain rfl : p = l := by simpa [hs, hpar] using hl
        exact hpcut
      | some s =>
        obtain rfl : s = l := by simpa [hs] using hl
        refine mem_nodes_child hpcut ?_
        simpa [Forest.cutKids] using (List.mem_erase_of_ne (hprev s hs).2).mpr (hprev s hs).1
    · simp [hpar] at hl
    · cases hs' : (man.links n).prev with
      | none => simp [hs'] at hs
      | some s =>
        refine ⟨s, p, by simp, ?_⟩
        rw [unlink_parent]
        exact h.linked.parent_eq hp (hprev s hs').1
  · rename_i hstay
    refine ⟨⟨hcut.subset (Set.subset_insert n _), hroot, fun x hx => h.count x (hsub x hx),
      fun l hl => ?_, h.empty, fun hs => ?_⟩, hcut, rfl, rfl⟩
    · refine Forest.mem_nodes_cut (h.last l hl) fun hb => hstay ?_
      obtain ⟨ha, rfl⟩ := hlast l hl hb
      exact ⟨ha, hl⟩
    · obtain ⟨l, q, hl, hq⟩ := h.next hs
      exact ⟨l, q, hl, by rw [unlink_parent]; exact hq⟩

/-- Unlinking the root removes the whole tree. -/
theorem Represents.unlink_root (h : Represents man kids) (adjust : Bool) (hr : man.first = some n)
    (hlast : ∀ l, man.last = some l → adjust = true ∧ l = n) :
    Represents (roffNodeUnlink man adjust n) kids ∧ (roffNodeUnlink man adjust n).roots = ∅ := by
  obtain ⟨hl, rfl⟩ : man.last = some n ∧ adjust = true := by
    cases hl : man.last with
    | none => exact absurd (hr.symm.trans (h.empty hl)) (by simp)
    | some l =>
      obtain ⟨ha, rfl⟩ := hlast l hl
      exact ⟨rfl, ha⟩
  obtain ⟨h1, h2, h3⟩ := h.root n hr
  have hman : roffNodeUnlink man true n =
      { man with first := none, last := none, next := .CHILD } := by
    simp [roffNodeUnlink, unlink_orphan h1 h2 h3, hl, hr, h1, h2]
  have hroots : (roffNodeUnlink man true n).roots = ∅ := by
    ext x
    simp [RoffMan.roots, hman]
  have hempty : ∀ x, x ∉ Nodes kids (roffNodeUnlink man true n).roots := by
    rintro x ⟨r, hr, -⟩
    exact (hroots ▸ hr : r ∈ (∅ : Set Nat))
  refine ⟨⟨⟨h.linked.forest.subset (hroots ▸ Set.empty_subset _), fun p hp => ?_⟩,
    fun r hr => ?_, fun x hx => ?_, by simp [hman], by simp [hman], by simp [hman]⟩, hroots⟩
  · exact absurd hp (hempty p)
  · exact absurd (mem_nodes_root hr) (hempty r)
  · exact absurd hx (hempty x)

/-! ## §3 Appending -/

theorem Represents.node (h : Represents man kids) (node : Nat → RoffNode) :
    Represents { man with node := node } kids :=
  ⟨h.linked, h.root, h.count, h.last, h.empty, h.next⟩

/-- A node with a parent gets its role, or the assertion about its parent fails. -/
theorem roffNodeRole_cases (hp : (man.links n).parent = some p) :
    (∃ node, roffNodeRole man n = .ok { man with node := node }) ∨
      roffNodeRole man n = .error .abort := by
  unfold roffNodeRole
  simp only [hp]
  repeat' split
  all_goals first
    | exact .inl ⟨_, rfl⟩
    | exact .inr rfl

/-- A root can be put among the children of a node of the tree. -/
theorem Represents.inserted (h : Represents man kids)
    (hl : Linked man.links kids (insert n man.roots)) (hn : man.first ≠ some n)
    (hcount : ∀ x, Below kids n x → x < man.count) {l₁ l₂ : List Nat} {links : Nat → Links Nat}
    (hp : p ∈ Nodes kids man.roots) (hkids : kids p = l₁ ++ l₂)
    (hi : Inserted man.links links p n l₁ l₂) :
    Represents { man with links := links, last := some n }
      (Forest.attachKids kids p (l₁ ++ n :: l₂)) := by
  have hnr : n ∉ man.roots := hn
  have hl' := hl.insert hnr hp hkids hi
  have hperm : (l₁ ++ n :: l₂).Perm (n :: kids p) := hkids ▸ List.perm_middle
  obtain ⟨hpn, -⟩ := hl.forest.not_root hnr hp
  refine ⟨hl', fun r hr => ?_, fun x hx => ?_, fun l he => ?_, by simp, fun _ => ?_⟩
  · have hrn : r ≠ n := fun he => hnr (he ▸ hr)
    obtain ⟨e1, e2, e3⟩ := hi.root hl.forest hpn hkids (.inr hr) hrn
    obtain ⟨h1, h2, h3⟩ := h.root r hr
    exact ⟨e1.trans h1, e2.trans h2, e3.trans h3⟩
  · rcases Forest.nodes_attach_subset hperm hx with ⟨r, rfl | hr, hb⟩
    · exact hcount x hb
    · exact h.count x ⟨r, hr, hb⟩
  · obtain rfl : n = l := Option.some.inj he
    exact mem_nodes_child (Forest.mem_nodes_attach hperm hp) (by simp [Forest.attachKids])
  · exact ⟨n, p, rfl, hi.parent_new⟩

/-- A root without siblings can be appended at the parse point. -/
theorem Represents.append (h : Represents man kids)
    (hl : Linked man.links kids (insert n man.roots)) (hn : man.first ≠ some n)
    (hprev : (man.links n).prev = none) (hnext : (man.links n).next = none)
    (hcount : ∀ x, Below kids n x → x < man.count) (hlast : man.last ≠ none) :
    (∃ man' kids', roffNodeAppend man n = .ok man' ∧ Represents man' kids') ∨
      roffNodeAppend man n = .error .abort := by
  obtain ⟨last, hlast⟩ := Option.ne_none_iff_exists'.mp hlast
  have hlastn := h.last last hlast
  have hnr : n ∉ man.roots := hn
  -- Either way, the node is inserted among the children of some node `p`.
  have hrole : ∀ {p l₁ l₂ links}, p ∈ Nodes kids man.roots → kids p = l₁ ++ l₂ →
      Inserted man.links links p n l₁ l₂ →
      (∃ man' kids', roffNodeRole { man with links := links, last := some n } n = .ok man' ∧
        Represents man' kids') ∨
      roffNodeRole { man with links := links, last := some n } n = .error .abort := by
    intro p l₁ l₂ links hp hkids hi
    refine (roffNodeRole_cases (p := p) hi.parent_new).imp_left ?_
    rintro ⟨node, hnode⟩
    exact ⟨_, _, hnode, (h.inserted hl hn hcount hp hkids hi).node node⟩
  cases hnx : man.next with
  | CHILD =>
    simp only [roffNodeAppend, hlast, hnx]
    simpa [hnx] using
      hrole hlastn (List.nil_append _).symm (hl.inserted_linkFirst hnr hlastn hprev hnext)
  | SIBLING =>
    obtain ⟨l, p, hl', hpar⟩ := h.next hnx
    obtain rfl : last = l := Option.some.inj (hlast.symm.trans hl')
    have hlr : last ∉ man.roots := fun hr => by
      simp [(h.root last hr).1] at hpar
    obtain ⟨q, hq, hlq⟩ := exists_parent hlastn hlr
    obtain ⟨l₁, l₂, hkids⟩ := List.append_of_mem hlq
    have hkids' : kids q = (l₁ ++ [last]) ++ l₂ := by simp [hkids]
    simp only [roffNodeAppend, hlast, hnx]
    rw [if_neg (by simp [hpar])]
    simpa [hnx] using hrole hq hkids' (hl.inserted_linkAfter hnr hq hkids' hnext)

/-- Allocating a node does not change the tree. -/
theorem Represents.alloc (h : Represents man kids) (line pos : Nat) (type : RoffType) (tok : Tok) :
    Represents (roffNodeAlloc man line pos type tok) (Function.update kids man.count []) ∧
      Linked (roffNodeAlloc man line pos type tok).links (Function.update kids man.count [])
        (insert man.count man.roots) := by
  have hnew : man.count ∉ Nodes kids man.roots := fun hn => absurd (h.count _ hn) (lt_irrefl _)
  have hfirst : man.first ≠ some man.count := fun hf => hnew (mem_nodes_root hf)
  have hl := h.linked.alloc hnew
  have hnodes := nodes_alloc hnew
  refine ⟨⟨hl.subset (Set.subset_insert _ _), fun r hr => ?_, fun x hx => ?_, fun l hl' => ?_,
    h.empty, fun hs => ?_⟩, hl⟩
  · have hne : r ≠ man.count := fun he => hfirst (he ▸ hr)
    simpa [roffNodeAlloc, hne] using h.root r hr
  · exact Nat.lt_succ_of_lt (h.count x (hnodes ▸ hx))
  · exact hnodes.symm ▸ h.last l hl'
  · obtain ⟨l, p, hl', hpar⟩ := h.next hs
    have hne : l ≠ man.count := ne_of_mem_of_not_mem (h.last l hl') hnew
    exact ⟨l, p, hl', by simpa [roffNodeAlloc, hne] using hpar⟩

/-- A newly allocated node can be appended, whatever data it is given. -/
theorem Represents.append_new (h : Represents man kids) (line pos : Nat) (type : RoffType)
    (tok : Tok) (node : Nat → RoffNode) (hlast : man.last ≠ none) :
    (∃ man' kids', roffNodeAppend { roffNodeAlloc man line pos type tok with node := node }
        man.count = .ok man' ∧ Represents man' kids') ∨
      roffNodeAppend { roffNodeAlloc man line pos type tok with node := node } man.count =
        .error .abort := by
  have hnew : man.count ∉ Nodes kids man.roots := fun hn => absurd (h.count _ hn) (lt_irrefl _)
  obtain ⟨ha, hl⟩ := h.alloc line pos type tok
  refine Represents.append (ha.node node) hl (fun hf => hnew (mem_nodes_root hf)) ?_ ?_ ?_ hlast
  · simp [roffNodeAlloc]
  · simp [roffNodeAlloc]
  · intro x hb
    rw [below_of_no_kids (by simp) hb]
    exact Nat.lt_succ_self _

theorem Represents.add (h : Represents man kids) (line pos : Nat) (type : RoffType) (tok : Tok)
    (endb : EndBody) (hlast : man.last ≠ none) :
    (∃ man' kids', (TreeOp.add line pos type tok endb).apply man = .ok man' ∧
        Represents man' kids') ∨
      (TreeOp.add line pos type tok endb).apply man = .error .abort :=
  h.append_new line pos type tok _ hlast

/-- The pointers of nodes outside the tree are not part of the invariant. -/
theorem Represents.links_congr (h : Represents man kids) {links : Nat → Links Nat}
    (heq : ∀ x ∈ Nodes kids man.roots, links x = man.links x) :
    Represents { man with links := links } kids := by
  refine ⟨h.linked.congr (fun x hx => by simp [heq x hx]) (fun x hx _ => by simp [heq x hx]),
    fun r hr => ?_, h.count, h.last, h.empty, fun hs => ?_⟩
  · simpa [heq r (mem_nodes_root hr)] using h.root r hr
  · obtain ⟨l, p, hl, hp⟩ := h.next hs
    exact ⟨l, p, hl, by simpa [heq l (h.last l hl)] using hp⟩

/-- A node can be relinked unless that would put it below itself. -/
theorem Represents.relink (h : Represents man kids) (hp : p ∈ Nodes kids man.roots)
    (hn : n ∈ kids p) (hlast : ∀ l, man.last = some l → Below kids n l → l = n) :
    (∃ man' kids', roffNodeRelink man n = .ok man' ∧ Represents man' kids') ∨
      roffNodeRelink man n = .error .abort := by
  obtain ⟨h1, hl1, hf1, hc1⟩ := h.unlink true hp hn fun l hl hb => ⟨rfl, hlast l hl hb⟩
  have hnn : n ∉ Nodes (Forest.cutKids kids p n) man.roots := fun hm =>
    h.linked.forest.not_below_cut hp hn hm .refl
  have hroots : (roffNodeUnlink man true n).roots = man.roots := by
    simp only [RoffMan.roots, hf1]
  have hfirst : (roffNodeUnlink man true n).first ≠ some n := fun hf =>
    hnn (mem_nodes_root (hf1.symm.trans hf))
  unfold roffNodeRelink
  dsimp only
  refine Represents.append (h1.links_congr fun x hx => ?_) (hl1.congr (fun x _ => by simp)
    fun x _ hx => ?_) hfirst (by simp) (by simp) (fun x hb => ?_) fun hnone => ?_
  · have hne : some n ≠ some x := by
      rintro ⟨⟩
      exact hnn (hroots ▸ hx)
    rw [setPrev_of_ne _ hne, setNext_of_ne _ hne]
  · have hne : some n ≠ some x := fun he => hx (.inl (Option.some.inj he).symm)
    simp [setPrev_of_ne _ hne, setNext_of_ne _ hne]
  · have hb' := hb.mono (Forest.cutKids_subset p n)
    exact hc1.symm ▸ h.count x (mem_nodes_below (mem_nodes_child hp hn) hb')
  · obtain ⟨r, hr, -⟩ := hp
    have := h1.empty hnone
    rw [hf1, show man.first = some r from hr] at this
    cases this

/-! ## §4 Deleting -/

/-- The number of nodes in a subtree. -/
noncomputable def subtreeSize (man : RoffMan) (kids : Nat → List Nat) (n : Nat) : Nat :=
  open Classical in ((Finset.range man.count).filter (Below kids n)).card

theorem subtreeSize_le : subtreeSize man kids n ≤ man.count := by
  classical
  exact (Finset.card_filter_le _ _).trans (Finset.card_range _).le

/-- What is left of a tree after the subtree of `n` has been deleted. -/
structure Deleted (man man' : RoffMan) (kids kids' : Nat → List Nat) (adjust : Bool) (n : Nat) :
    Prop where
  represents : Represents man' kids'
  count : man'.count = man.count
  subset : ∀ q, kids' q ⊆ kids q
  gone : n ∉ Nodes kids' man'.roots
  kept : ∀ x ∈ Nodes kids man.roots, ¬ Below kids n x → x ∈ Nodes kids' man'.roots
  last : adjust = false → man'.last = man.last

/-- A node without children is unlinked and freed. -/
theorem Represents.delete_leaf (h : Represents man kids) (hn : n ∈ Nodes kids man.roots)
    (hkids : kids n = []) (hlast : adjust = false → ∀ l, man.last = some l → ¬ Below kids n l) :
    ∃ kids', Deleted man (roffNodeFree (roffNodeUnlink man adjust n) n) kids kids' adjust n := by
  by_cases hr : n ∈ man.roots
  · -- The root is the only node left, so it is the parse point, too.
    have honly : ∀ x ∈ Nodes kids man.roots, x = n := by
      rintro x ⟨r, hr', hb⟩
      obtain rfl : n = r := Option.some.inj (hr.symm.trans hr')
      exact below_of_no_kids hkids hb
    obtain ⟨h1, hroots⟩ := h.unlink_root adjust hr fun l hl => by
      cases hadj : adjust with
      | false => exact absurd .refl (honly l (h.last l hl) ▸ hlast hadj l hl)
      | true => exact ⟨rfl, honly l (h.last l hl)⟩
    have hempty : ∀ x, x ∉ Nodes kids (roffNodeUnlink man adjust n).roots := by
      rintro x ⟨r, hr, -⟩
      exact (hroots ▸ hr : r ∈ (∅ : Set Nat))
    refine ⟨kids, (h1.links_congr fun x hx => absurd hx (hempty x)).node _,
      roffNodeUnlink_count, fun q => List.Subset.refl _, hempty n,
      fun x hx hb => absurd (honly x hx ▸ .refl) hb, ?_⟩
    rintro rfl
    rfl
  · obtain ⟨p, hp, hnp⟩ := exists_parent hn hr
    obtain ⟨h1, hl1, hf1, hc1⟩ := h.unlink adjust hp hnp fun l hl hb => by
      cases hadj : adjust with
      | false => exact absurd hb (hlast hadj l hl)
      | true => exact ⟨rfl, below_of_no_kids hkids hb⟩
    have hnn : n ∉ Nodes (Forest.cutKids kids p n) man.roots := fun hm =>
      h.linked.forest.not_below_cut hp hnp hm .refl
    have hroots : (roffNodeUnlink man adjust n).roots = man.roots := by
      simp only [RoffMan.roots, hf1]
    refine ⟨Forest.cutKids kids p n, (h1.links_congr fun x hx => ?_).node _, hc1,
      Forest.cutKids_subset p n, ?_, fun x hx hb => ?_, ?_⟩
    · exact Function.update_of_ne (ne_of_mem_of_not_mem hx (hroots ▸ hnn)) _ _
    · exact fun hm => hnn (hroots ▸ hm)
    · exact hroots.symm ▸ Forest.mem_nodes_cut hx hb
    · rintro rfl
      rfl

/-- By induction on the number of steps left, which bounds the size of the subtree. -/
theorem Represents.delete (h : Represents man kids) {steps : Nat} (hn : n ∈ Nodes kids man.roots)
    (hlast : adjust = false → ∀ l, man.last = some l → ¬ Below kids n l)
    (hsteps : subtreeSize man kids n ≤ steps) :
    ∃ man' kids', roffNodeDelete steps man adjust n = .ok man' ∧
      Deleted man man' kids kids' adjust n := by
  classical
  induction steps generalizing man kids n with
  | zero =>
    have hmem : n ∈ (Finset.range man.count).filter (Below kids n) := by
      simpa using ⟨h.count n hn, .refl⟩
    have := Finset.card_pos.mpr ⟨n, hmem⟩
    unfold subtreeSize at hsteps
    omega
  | succ steps ih =>
    have hcn := h.linked.children n hn
    cases hc : (man.links n).child with
    | none =>
      have hkids : kids n = [] := by simpa [hcn.child] using hc
      obtain ⟨kids', hd⟩ := h.delete_leaf hn hkids hlast
      exact ⟨_, kids', by simp [roffNodeDelete, hc], hd⟩
    | some c =>
      have hcn' : c ∈ kids n := List.mem_of_head? (hcn.child ▸ hc)
      have hnc := h.linked.forest.acyclic hn hcn'
      have hcb : ∀ {x}, Below kids c x → Below kids n x := fun hb => Relation.ReflTransGen.head hcn' hb
      -- The subtree of the child is smaller because it does not contain `n`.
      obtain ⟨man₁, kids₁, hok₁, hd₁⟩ := ih h (mem_nodes_child hn hcn')
        (fun hadj l hl hb => hlast hadj l hl (hcb hb)) (by
          refine Nat.le_of_lt_succ (lt_of_lt_of_le (Finset.card_lt_card ?_) hsteps)
          refine Finset.ssubset_iff_of_subset (fun x hx => ?_) |>.mpr ⟨n, ?_, ?_⟩
          · simp only [Finset.mem_filter] at hx ⊢
            exact ⟨hx.1, hcb hx.2⟩
          · simpa using ⟨h.count n hn, .refl⟩
          · simpa using fun _ => hnc)
      have hn₁ : n ∈ Nodes kids₁ man₁.roots := hd₁.kept n hn hnc
      -- What is left below `n` is smaller because it does not contain the child.
      obtain ⟨man₂, kids₂, hok₂, hd₂⟩ := ih hd₁.represents hn₁
        (fun hadj l hl hb => hlast hadj l (hd₁.last hadj ▸ hl) (hb.mono hd₁.subset)) (by
          refine Nat.le_of_lt_succ (lt_of_lt_of_le (Finset.card_lt_card ?_) hsteps)
          refine Finset.ssubset_iff_of_subset (fun x hx => ?_) |>.mpr ⟨c, ?_, ?_⟩
          · simp only [Finset.mem_filter, hd₁.count] at hx ⊢
            exact ⟨hx.1, hx.2.mono hd₁.subset⟩
          · simpa using ⟨h.count c (mem_nodes_child hn hcn'), .single hcn'⟩
          · simpa using fun _ hb => hd₁.gone (mem_nodes_below hn₁ hb))
      refine ⟨man₂, kids₂, by simp [roffNodeDelete, hc, hok₁, hok₂], hd₂.represents,
        hd₂.count.trans hd₁.count, fun q => List.Subset.trans (hd₂.subset q) (hd₁.subset q), hd₂.gone,
        fun x hx hb => ?_, fun hadj => (hd₂.last hadj).trans (hd₁.last hadj)⟩
      exact hd₂.kept x (hd₁.kept x hx fun hb' => hb (hcb hb')) fun hb' => hb (hb'.mono hd₁.subset)

end

/-! ## §5 Sequences of operations -/

/-- The parse point lies in the subtree of `n`, and is not `n` itself. -/
def LastBelow (man : RoffMan) (n : Nat) : Prop :=
  ∃ l, man.last = some l ∧ l ≠ n ∧ BelowPtr man.links n l

/-- Proper use of the operations. -/
def TreeOp.Legal (man : RoffMan) : TreeOp → Prop
  | .next v => v = .SIBLING → ∃ l p, man.last = some l ∧ (man.links l).parent = some p
  | .add _ _ _ _ _ => man.last ≠ none
  | .unlink adjust n =>
    InTree man.links man.roots n ∧ ¬ LastBelow man n ∧ (adjust = false → man.last ≠ some n)
  | .relink n => InTree man.links man.roots n ∧ man.first ≠ some n ∧ ¬ LastBelow man n
  | .delete adjust n =>
    InTree man.links man.roots n ∧
      (adjust = false → man.last ≠ some n ∧ ¬ LastBelow man n)

/-- The trees that can be built by properly used operations. -/
inductive TreeReachable : RoffMan → Prop where
  | alloc : TreeReachable roffManAlloc1
  | step {man man' : RoffMan} (op : TreeOp) : TreeReachable man → op.Legal man →
      op.apply man = .ok man' → TreeReachable man'

section

variable {man : RoffMan} {kids : Nat → List Nat} {n : Nat}

theorem Represents.last_eq (h : Represents man kids) (hn : n ∈ Nodes kids man.roots)
    (hb : ¬ LastBelow man n) {l : Nat} (hl : man.last = some l) (hbelow : Below kids n l) :
    l = n := by
  by_contra hne
  exact hb ⟨l, hl, hne, (h.linked.belowPtr_iff hn).mpr hbelow⟩

/-- A properly used operation preserves the invariant, unless a head, body, or tail is put
    below a node that is not a block. -/
theorem Represents.apply (h : Represents man kids) {op : TreeOp} (hop : op.Legal man) :
    (∃ man' kids', op.apply man = .ok man' ∧ Represents man' kids') ∨
      op.apply man = .error .abort := by
  -- By the operation.
  cases op with
  | next v =>
    exact .inl ⟨_, kids, rfl, ⟨h.linked, h.root, h.count, h.last, h.empty, hop⟩⟩
  | add line pos type tok endb => exact h.add line pos type tok endb hop
  | unlink adjust n =>
    obtain ⟨hn, hb, ha⟩ := hop
    have hn := h.linked.inTree_iff.mp hn
    -- If the last node is below the one to be unlinked, the operation must adjust it.
    have hlast : ∀ l, man.last = some l → Below kids n l → adjust = true ∧ l = n := by
      intro l hl hbelow
      obtain rfl := h.last_eq hn hb hl hbelow
      refine ⟨?_, rfl⟩
      by_contra hadj
      exact ha (by simpa using hadj) hl
    by_cases hr : n ∈ man.roots
    · refine .inl ⟨_, kids, rfl, (h.unlink_root adjust hr fun l hl => ?_).1⟩
      obtain ⟨r, hr', hbelow⟩ := h.last l hl
      obtain rfl : n = r := Option.some.inj (hr.symm.trans hr')
      exact hlast l hl hbelow
    · obtain ⟨p, hp, hnp⟩ := exists_parent hn hr
      exact .inl ⟨_, _, rfl, (h.unlink adjust hp hnp hlast).1⟩
  | relink n =>
    obtain ⟨hn, hf, hb⟩ := hop
    have hn := h.linked.inTree_iff.mp hn
    obtain ⟨p, hp, hnp⟩ := exists_parent hn hf
    exact h.relink hp hnp fun l hl hbelow => h.last_eq hn hb hl hbelow
  | delete adjust n =>
    obtain ⟨hn, ha⟩ := hop
    have hn := h.linked.inTree_iff.mp hn
    have hlast : adjust = false → ∀ l, man.last = some l → ¬ Below kids n l := by
      intro hadj l hl hbelow
      obtain ⟨hne, hb⟩ := ha hadj
      exact hne (h.last_eq hn hb hl hbelow ▸ hl)
    obtain ⟨man', kids', hok, hd⟩ := h.delete hn hlast (Nat.le_succ_of_le subtreeSize_le)
    exact .inl ⟨man', kids', hok, hd.represents⟩

theorem TreeReachable.represents (h : TreeReachable man) : ∃ kids, Represents man kids := by
  induction h with
  | alloc => exact ⟨_, represents_roffManAlloc1⟩
  | step op _ hop happly ih =>
    obtain ⟨kids, hk⟩ := ih
    rcases hk.apply hop with ⟨man', kids', hok, hk'⟩ | habort
    · cases hok.symm.trans happly
      exact ⟨kids', hk'⟩
    · exact absurd (habort.symm.trans happly) (by simp)

/-- In every tree that can be built, the pointers fit together and the parse point is a node
    of the tree; and every properly used operation succeeds, unless the assertion about the
    parents of heads, bodies, and tails fails. -/
theorem treeReachable_syntaxTree (h : TreeReachable man) :
    SyntaxTree man ∧ ∀ op : TreeOp, op.Legal man →
      (∃ man', op.apply man = .ok man') ∨ op.apply man = .error .abort := by
  obtain ⟨kids, hk⟩ := h.represents
  refine ⟨hk.syntaxTree, fun op hop => (hk.apply hop).imp_left ?_⟩
  rintro ⟨man', -, hok, -⟩
  exact ⟨man', hok⟩

end

/-- A list of operations, one after the other. -/
def runTreeOps : RoffMan → List TreeOp → Res RoffMan
  | man, [] => .ok man
  | man, op :: ops => op.apply man >>= (runTreeOps · ops)

theorem not_lastBelow_of_leaf {man : RoffMan} {n : Nat} (h : (man.links n).child = none) :
    ¬ LastBelow man n := by
  rintro ⟨l, -, hne, hb⟩
  rcases Relation.ReflTransGen.cases_head hb with rfl | ⟨c, ⟨d, hd, -⟩, -⟩
  · exact hne rfl
  · exact absurd (hd.symm.trans h) (by simp)

/-- Three text nodes, the first of which is moved behind the others, which are then removed. -/
theorem treeReachable_text : ∃ man, runTreeOps roffManAlloc1
      [.add 1 0 .TEXT .TOKEN_NONE .NOT, .next .SIBLING, .add 1 4 .TEXT .TOKEN_NONE .NOT,
        .add 1 8 .TEXT .TOKEN_NONE .NOT, .relink 1, .unlink true 3, .delete true 2] = .ok man ∧
    man.last = some 1 ∧ (man.links 0).child = some 1 ∧ SyntaxTree man := by
  have h1 : TreeReachable _ := .step (.add 1 0 .TEXT .TOKEN_NONE .NOT) .alloc
    (Option.some_ne_none _) rfl
  have h2 : TreeReachable _ := .step (.next .SIBLING) h1 (fun _ => ⟨1, 0, rfl, rfl⟩) rfl
  have h3 : TreeReachable _ := .step (.add 1 4 .TEXT .TOKEN_NONE .NOT) h2 (Option.some_ne_none _) rfl
  have h4 : TreeReachable _ := .step (.add 1 8 .TEXT .TOKEN_NONE .NOT) h3 (Option.some_ne_none _) rfl
  have h5 : TreeReachable _ := .step (.relink 1) h4
    ⟨⟨0, rfl, .single ⟨1, rfl, .refl⟩⟩, show some 0 ≠ some 1 by decide,
      not_lastBelow_of_leaf rfl⟩ rfl
  have h6 : TreeReachable _ := .step (.unlink true 3) h5
    ⟨⟨0, rfl, .single ⟨2, rfl, .single rfl⟩⟩, not_lastBelow_of_leaf rfl, fun h => absurd h (by decide)⟩ rfl
  have h7 : TreeReachable _ := .step (.delete true 2) h6
    ⟨⟨0, rfl, .single ⟨2, rfl, .refl⟩⟩, fun h => absurd h (by decide)⟩ rfl
  exact ⟨_, rfl, rfl, rfl, (treeReachable_syntaxTree h7).1⟩

/-- Unlinking a node while the parse point is its child takes the parse point out of
    the tree. -/
theorem unlink_above_last : ∃ man,
    runTreeOps roffManAlloc1 [.add 1 0 .ELEM .ROFF_sp .NOT, .add 1 4 .TEXT .TOKEN_NONE .NOT, .unlink true 1] =
      .ok man ∧ man.last = some 2 ∧ ¬ InTree man.links man.roots 2 ∧ ¬ SyntaxTree man := by
  refine ⟨_, rfl, rfl, ?_⟩
  rw [and_iff_left_of_imp fun h hs => h (hs.last 2 rfl)]
  rintro ⟨r, hr, hb⟩
  obtain rfl : 0 = r := Option.some.inj hr
  rcases Relation.ReflTransGen.cases_head hb with h | ⟨c, ⟨d, hd, -⟩, -⟩
  · exact absurd h (by decide)
  · exact absurd (show none = some d from hd) (by simp)

end Mandoc
