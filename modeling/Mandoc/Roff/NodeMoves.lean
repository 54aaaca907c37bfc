import Mandoc.Roff.NodeInvariant

/-!
# Moving Nodes

The handlers that validate a syntax tree move nodes around: they choose a parse point, and then
they relink existing nodes or allocate new ones there. The results of this file say precisely
what the ordered tree is afterwards.

- `RoffMan.PointsTo` says where the next node is going to be put.
- `Represents.relink_at` and `Represents.add_new` say that it is put there.
- `roffNodeRole_plain`, `roffNodeRole_head`, and `roffNodeRole_body` are the cases of the role
  that a node has for its parent.
-/

namespace Mandoc

open OrderedForest

/-! ## §1 The parse point -/

/-- The next node is going to be a child of `p`, right behind the children `l₁`. -/
def RoffMan.PointsTo (man : RoffMan) (p : Nat) (l₁ : List Nat) : Prop :=
  (man.next = .CHILD ∧ man.last = some p ∧ l₁ = []) ∨
    (man.next = .SIBLING ∧ man.last = l₁.getLast? ∧ l₁ ≠ [])

section

variable {man : RoffMan} {kids : Nat → List Nat} {n p q : Nat} {l₁ l₂ : List Nat}

/-- The parse point can be chosen freely within the tree. -/
theorem Represents.setPoint (h : Represents man kids) (last : Option Nat) (next : RoffNext)
    (hp : p ∈ Nodes kids man.roots) (hkids : kids p = l₁ ++ l₂)
    (hpoint : RoffMan.PointsTo { man with last := last, next := next } p l₁) :
    Represents { man with last := last, next := next } kids := by
  rcases hpoint with ⟨hnext, hlast, -⟩ | ⟨hnext, hlast, hne⟩
  · have hlast : last = some p := hlast
    refine ⟨h.linked, h.root, h.count, fun l hl => ?_, fun hnone => ?_, fun hs => ?_⟩
    · obtain rfl := Option.some.inj (hlast.symm.trans hl)
      exact hp
    · exact absurd (hlast.symm.trans hnone) (Option.some_ne_none p)
    · exact absurd (hnext.symm.trans hs) (by decide)
  · obtain ⟨l, s, rfl⟩ := (List.eq_nil_or_concat l₁).resolve_left hne
    rw [List.concat_eq_append] at hkids hlast
    have hlast : last = some s := hlast.trans List.getLast?_concat
    have hs : s ∈ kids p := by simp [hkids]
    refine ⟨h.linked, h.root, h.count, fun l hl => ?_, fun hnone => ?_, fun _ => ?_⟩
    · obtain rfl := Option.some.inj (hlast.symm.trans hl)
      exact mem_nodes_child hp hs
    · exact absurd (hlast.symm.trans hnone) (Option.some_ne_none s)
    · exact ⟨s, p, hlast, h.linked.parent_eq hp hs⟩

/-- The last node can be any node of the tree, if its children come next. -/
theorem Represents.setLast (h : Represents man kids) (hp : p ∈ Nodes kids man.roots)
    (hnext : man.next = .SIBLING → ∃ q ∈ Nodes kids man.roots, p ∈ kids q) :
    Represents { man with last := some p } kids := by
  refine ⟨h.linked, h.root, h.count, fun l hl => ?_, fun hnone => ?_, fun hs => ?_⟩
  · obtain rfl := Option.some.inj hl
    exact hp
  · exact absurd hnone (Option.some_ne_none p)
  · obtain ⟨q, hq, hpq⟩ := hnext hs
    exact ⟨p, q, rfl, h.linked.parent_eq hq hpq⟩

theorem length_le_of_nodup {l : List Nat} {n : Nat} (hl : l.Nodup) (hlt : ∀ c ∈ l, c < n) :
    l.length ≤ n := by
  have hsub : l.toFinset ⊆ Finset.range n := fun c hc =>
    Finset.mem_range.mpr (hlt c (List.mem_toFinset.mp hc))
  have hcard := Finset.card_le_card hsub
  rwa [List.toFinset_card_of_nodup hl, Finset.card_range] at hcard

/-- The children of a node are not all the nodes. -/
theorem Represents.length_kids_lt (h : Represents man kids) (hp : p ∈ Nodes kids man.roots) :
    (kids p).length < man.count := by
  have hnodup : (p :: kids p).Nodup := List.nodup_cons.mpr
    ⟨fun hpp => h.linked.forest.acyclic hp hpp .refl, h.linked.forest.nodup p hp⟩
  refine length_le_of_nodup hnodup fun c hc => ?_
  rcases List.mem_cons.mp hc with rfl | hc
  · exact h.count c hp
  · exact h.count c (mem_nodes_child hp hc)

/-- A root without siblings is appended at the parse point. -/
theorem Represents.append_at (h : Represents man kids)
    (hl : Linked man.links kids (insert n man.roots)) (hn : man.first ≠ some n)
    (hprev : (man.links n).prev = none) (hnext : (man.links n).next = none)
    (hcount : ∀ x, Below kids n x → x < man.count) (hp : p ∈ Nodes kids man.roots)
    (hpoint : man.PointsTo p l₁) (hkids : kids p = l₁ ++ l₂) :
    ∃ links, roffNodeAppend man n =
        roffNodeRole { man with links := links, last := some n } n ∧
      (links n).parent = some p ∧
      Represents { man with links := links, last := some n }
        (Forest.attachKids kids p (l₁ ++ n :: l₂)) := by
  rcases hpoint with ⟨hnx, hlast, rfl⟩ | ⟨hnx, hlast, hne⟩
  · have hi := hl.inserted_linkFirst hn hp hprev hnext
    rw [hkids, List.nil_append] at hi
    refine ⟨_, ?_, hi.parent_new, h.inserted hl hn hcount hp hkids hi⟩
    simp only [roffNodeAppend, hlast, hnx]
  · obtain ⟨l, s, rfl⟩ := (List.eq_nil_or_concat l₁).resolve_left hne
    rw [List.concat_eq_append] at *
    rw [List.getLast?_concat] at hlast
    have hi := hl.inserted_linkAfter hn hp hkids hnext
    refine ⟨_, ?_, hi.parent_new, h.inserted hl hn hcount hp hkids hi⟩
    have hparent := h.linked.parent_eq hp (x := s) (by simp [hkids])
    simp only [roffNodeAppend, hlast, hnx]
    rw [if_neg (by simp [hparent])]

/-! ## §2 Relinking -/

/-- A node is relinked to the parse point, which must not be below the node. The children of
    other nodes stay the same. -/
theorem Represents.relink_at (h : Represents man kids) (hq : q ∈ Nodes kids man.roots)
    (hn : n ∈ kids q) (hp : p ∈ Nodes kids man.roots) (hbelow : ¬ Below kids n p)
    (hpoint : man.PointsTo p l₁) (hkids : Forest.cutKids kids q n p = l₁ ++ l₂) :
    ∃ links, roffNodeRelink man n =
        roffNodeRole { man with links := links, last := some n } n ∧
      (links n).parent = some p ∧
      Represents { man with links := links, last := some n }
        (Forest.attachKids (Forest.cutKids kids q n) p (l₁ ++ n :: l₂)) := by
  have hfirst : man.first ≠ some n := fun hf => h.linked.forest.roots q hq n hf hn
  -- The parse point is not the node itself.
  have hlast : ∀ l, man.last = some l → ¬ Below kids n l := by
    intro l hl hb
    rcases hpoint with ⟨-, hlast, -⟩ | ⟨-, hlast, hne⟩
    · obtain rfl := Option.some.inj (hlast.symm.trans hl)
      exact hbelow hb
    · have hmem : l ∈ Forest.cutKids kids q n p := by
        rw [hkids]
        exact List.mem_append_left _ (List.mem_of_getLast? (hlast.symm.trans hl))
      rcases h.linked.forest.below_parent (mem_nodes_child hq hn) hp
        (Forest.cutKids_subset q n p hmem) hb with rfl | hb
      · -- The node has been cut off from the only list of children that it was in.
        have hpq := h.linked.forest.unique p hp q hq n (Forest.cutKids_subset q n p hmem) hn
        subst hpq
        rw [Forest.cutKids, Function.update_self] at hmem
        exact (h.linked.forest.nodup p hq).not_mem_erase hmem
      · exact hbelow hb
  obtain ⟨h1, hl1, hf1, hc1⟩ := h.unlink true hq hn fun l hl hb => absurd hb (hlast l hl)
  have hnn : n ∉ Nodes (Forest.cutKids kids q n) man.roots := fun hm =>
    h.linked.forest.not_below_cut hq hn hm .refl
  have hunlink : roffNodeUnlink man true n = { man with links := OrderedForest.unlink man.links n } := by
    have hprev := (h.linked.unlink_other hq hn fun _ => rfl).2.1
    rw [roffNodeUnlink_eq hfirst hprev, if_neg fun hmove => hlast n hmove.2 .refl]
  rw [hunlink] at h1 hl1
  have hroots : ∀ x ∈ Nodes (Forest.cutKids kids q n) man.roots, some n ≠ some x := by
    rintro x hx ⟨⟩
    exact hnn hx
  have h2 : Represents { man with
      links := setPrev (setNext (OrderedForest.unlink man.links n) (some n) none) (some n) none }
      (Forest.cutKids kids q n) :=
    h1.links_congr fun x hx => by rw [setPrev_of_ne _ (hroots x hx), setNext_of_ne _ (hroots x hx)]
  have hl2 : Linked (setPrev (setNext (OrderedForest.unlink man.links n) (some n) none) (some n) none)
      (Forest.cutKids kids q n) (insert n man.roots) := by
    refine hl1.congr (fun x _ => by simp) fun x _ hx => ?_
    have hne : some n ≠ some x := fun he => hx (.inl (Option.some.inj he).symm)
    simp [setPrev_of_ne _ hne, setNext_of_ne _ hne]
  have happend := h2.append_at hl2 hfirst (by simp) (by simp) (fun x hb => ?_)
    (Forest.mem_nodes_cut hp hbelow) hpoint hkids
  · simp only [roffNodeRelink, hunlink]
    exact happend
  · have hb' := hb.mono (Forest.cutKids_subset q n)
    exact h.count x (mem_nodes_below (mem_nodes_child hq hn) hb')

end

/-! ## §3 Roles -/

/-- The node has no role for its parent. -/
def RoffNode.plain (n : RoffNode) : Prop :=
  n.type ≠ .HEAD ∧ n.type ≠ .TAIL ∧ (n.type = .BODY → n.endb ≠ .NOT)

section

variable {man : RoffMan} {n p : Nat}

theorem roffNodeRole_plain (h : (man.node n).plain) : roffNodeRole man n = .ok man := by
  obtain ⟨hhead, htail, hbody⟩ := h
  cases htype : (man.node n).type with
  | HEAD => exact absurd htype hhead
  | TAIL => exact absurd htype htail
  | BODY => simp only [roffNodeRole, htype, if_pos (hbody htype)]
  | _ => simp only [roffNodeRole, htype]

/-- The block gets to know its head. -/
theorem roffNodeRole_head (hparent : (man.links n).parent = some p)
    (htype : (man.node n).type = .HEAD) (hblock : (man.node p).type = .BLOCK) (hne : n ≠ p) :
    roffNodeRole man n = .ok { man with
      node := Function.update (Function.update man.node p { man.node p with head := some n }) n
        { man.node n with norm := (man.node p).norm } } := by
  simp [roffNodeRole, htype, hparent, hne, hne.symm, hblock]

/-- The block gets to know its body. -/
theorem roffNodeRole_body (hparent : (man.links n).parent = some p)
    (htype : (man.node n).type = .BODY) (hend : (man.node n).endb = .NOT)
    (hblock : (man.node p).type = .BLOCK) (hne : n ≠ p) :
    roffNodeRole man n = .ok { man with
      node := Function.update (Function.update man.node p { man.node p with body := some n }) n
        { man.node n with norm := (man.node p).norm } } := by
  simp [roffNodeRole, htype, hend, hparent, hne, hne.symm, hblock]

end

/-! ## §4 Allocating -/

/-- The data of a node after the child `c` with the given type has been appended. -/
def RoffNode.withChild (n : RoffNode) (type : RoffType) (c : Nat) : RoffNode :=
  match type with
  | .HEAD => { n with head := some c }
  | .BODY => { n with body := some c }
  | _ => n

/-- The state `man'` has one more node than `man`, which is a child of `p`, behind the children
    `l₁` and before the children `l₂`. -/
structure Added (man man' : RoffMan) (kids kids' : Nat → List Nat) (p : Nat) (l₁ l₂ : List Nat)
    (type : RoffType) (tok : Tok) : Prop where
  represents : Represents man' kids'
  first : man'.first = man.first
  count : man'.count = man.count + 1
  last : man'.last = some man.count
  next : man'.next = man.next
  tok_new : (man'.node man.count).tok = tok
  type_new : (man'.node man.count).type = type
  node_old : ∀ x, x ≠ man.count → x ≠ p → man'.node x = man.node x
  node_parent : man'.node p = (man.node p).withChild type man.count
  kids_new : kids' man.count = []
  kids_parent : kids' p = l₁ ++ man.count :: l₂
  kids_old : ∀ x, x ≠ man.count → x ≠ p → kids' x = kids x
  mem : ∀ x ∈ Nodes kids man.roots, x ∈ Nodes kids' man'.roots

section

variable {man : RoffMan} {kids : Nat → List Nat} {p : Nat} {l₁ l₂ : List Nat}

/-- A new node is put at the parse point. -/
theorem Represents.add_at (h : Represents man kids) (line pos : Nat) (type : RoffType) (tok : Tok)
    (hp : p ∈ Nodes kids man.roots) (hpoint : man.PointsTo p l₁) (hkids : kids p = l₁ ++ l₂) :
    ∃ links, roffNodeAppend (roffNodeAlloc man line pos type tok) man.count =
        roffNodeRole { roffNodeAlloc man line pos type tok with
          links := links, last := some man.count } man.count ∧
      (links man.count).parent = some p ∧
      Represents { roffNodeAlloc man line pos type tok with
          links := links, last := some man.count }
        (Forest.attachKids (Function.update kids man.count []) p (l₁ ++ man.count :: l₂)) := by
  have hnew : man.count ∉ Nodes kids man.roots := fun hn => absurd (h.count _ hn) (lt_irrefl _)
  have hpne : p ≠ man.count := ne_of_mem_of_not_mem hp hnew
  obtain ⟨ha, hl⟩ := h.alloc line pos type tok
  refine ha.append_at hl (fun hf => hnew (mem_nodes_root hf)) (by simp [roffNodeAlloc])
    (by simp [roffNodeAlloc]) (fun x hb => ?_) ?_ hpoint ?_
  · rw [below_of_no_kids (by simp) hb]
    exact Nat.lt_succ_self _
  · have hnodes := nodes_alloc hnew
    exact hnodes.symm ▸ hp
  · rw [Function.update_of_ne hpne, hkids]

/-- Heads and bodies can only be put into blocks. -/
theorem Represents.add_new (h : Represents man kids) (line pos : Nat) (type : RoffType) (tok : Tok)
    (hp : p ∈ Nodes kids man.roots) (hpoint : man.PointsTo p l₁) (hkids : kids p = l₁ ++ l₂)
    (hrole : type = .HEAD ∨ type = .BODY → (man.node p).type = .BLOCK) (htail : type ≠ .TAIL) :
    ∃ man' kids', roffNodeAppend (roffNodeAlloc man line pos type tok) man.count = .ok man' ∧
      Added man man' kids kids' p l₁ l₂ type tok := by
  have hnew : man.count ∉ Nodes kids man.roots := fun hn => absurd (h.count _ hn) (lt_irrefl _)
  have hpne : p ≠ man.count := ne_of_mem_of_not_mem hp hnew
  obtain ⟨links, happend, hparent, hrep⟩ := h.add_at line pos type tok hp hpoint hkids
  have hmem : ∀ x ∈ Nodes kids man.roots, x ∈ Nodes (Forest.attachKids
      (Function.update kids man.count []) p (l₁ ++ man.count :: l₂)) man.roots := by
    intro x hx
    have hnodes := nodes_alloc hnew
    have hperm : (l₁ ++ man.count :: l₂).Perm (man.count :: Function.update kids man.count [] p) := by
      rw [Function.update_of_ne hpne, hkids]
      exact List.perm_middle
    exact Forest.mem_nodes_attach hperm (hnodes.symm ▸ hx)
  -- The role is about the data of the nodes only.
  have hadded : ∀ node : Nat → RoffNode, (node man.count).tok = tok →
      (node man.count).type = type → (∀ x, x ≠ man.count → x ≠ p → node x = man.node x) →
      node p = (man.node p).withChild type man.count →
      Added man { roffNodeAlloc man line pos type tok with
        links := links, last := some man.count, node := node } kids _ p l₁ l₂ type tok :=
    fun node htok htype hold hnode => ⟨hrep.node node, rfl, rfl, rfl, rfl, htok, htype, hold, hnode,
      by simp [Forest.attachKids, hpne.symm], by simp [Forest.attachKids],
      fun x hx hxp => by simp [Forest.attachKids, hx, hxp], hmem⟩
  rw [happend]
  cases type with
  | HEAD =>
    rw [roffNodeRole_head hparent (by simp [roffNodeAlloc])
      (by simpa [roffNodeAlloc, hpne] using hrole (.inl rfl)) hpne.symm]
    refine ⟨_, _, rfl, hadded _ ?_ ?_ (fun x hx hxp => ?_) ?_⟩
    · simp [roffNodeAlloc]
    · simp [roffNodeAlloc]
    · simp [roffNodeAlloc, hx, hxp]
    · simp [roffNodeAlloc, RoffNode.withChild, hpne]
  | BODY =>
    rw [roffNodeRole_body hparent (by simp [roffNodeAlloc]) (by simp [roffNodeAlloc])
      (by simpa [roffNodeAlloc, hpne] using hrole (.inr rfl)) hpne.symm]
    refine ⟨_, _, rfl, hadded _ ?_ ?_ (fun x hx hxp => ?_) ?_⟩
    · simp [roffNodeAlloc]
    · simp [roffNodeAlloc]
    · simp [roffNodeAlloc, hx, hxp]
    · simp [roffNodeAlloc, RoffNode.withChild, hpne]
  | TAIL => exact absurd rfl htail
  | _ =>
    rw [roffNodeRole_plain (by simp [RoffNode.plain, roffNodeAlloc])]
    refine ⟨_, _, rfl, hadded _ ?_ ?_ (fun x hx hxp => ?_) ?_⟩
    · simp [roffNodeAlloc]
    · simp [roffNodeAlloc]
    · simp [roffNodeAlloc, hx]
    · simp [roffNodeAlloc, RoffNode.withChild, hpne]

end

/-! ## §5 Finite trees -/

instance Segment.decidable {h : Nat → Links Nat} {p : Nat} :
    ∀ (a : Option Nat) (l : List Nat) (b : Option Nat), Decidable (Segment h p a l b)
  | _, [], _ => .isTrue trivial
  | _, c :: l, b =>
    have := Segment.decidable (h := h) (p := p) (some c) l b
    inferInstanceAs (Decidable (_ ∧ _ ∧ _ ∧ _))

instance Children.decidable {h : Nat → Links Nat} {p : Nat} {l : List Nat} :
    Decidable (Children h p l) :=
  decidable_of_iff ((h p).child = l.head? ∧ (h p).last = l.getLast? ∧ Segment h p none l none)
    ⟨fun ⟨h1, h2, h3⟩ => ⟨h1, h2, h3⟩, fun ⟨h1, h2, h3⟩ => ⟨h1, h2, h3⟩⟩

/-- The links between the nodes below `n` whose children are given. -/
def linksOf (kids : Nat → List Nat) (n x : Nat) : Links Nat :=
  let l := ((List.range n).find? fun p => x ∈ kids p).elim [] kids
  { parent := (List.range n).find? fun p => x ∈ kids p
    child := (kids x).head?
    last := (kids x).getLast?
    prev := (l.takeWhile (· ≠ x)).getLast?
    next := (l.dropWhile (· ≠ x)).tail.head? }

/-- The tree with the root 0 and the nodes below `count`, with the parse point at `last`. -/
def manOf (kids : Nat → List Nat) (node : Nat → RoffNode) (count last : Nat) : RoffMan where
  links := linksOf kids count
  node := node
  count := count
  first := some 0
  last := some last

/-- It can be checked whether the children that are given make a tree. -/
theorem represents_manOf {kids : Nat → List Nat} {node : Nat → RoffNode} {count last : Nat}
    (hkids : ∀ p < count, (kids p).Nodup ∧ Children (linksOf kids count) p (kids p) ∧
      ∀ c ∈ kids p, c < count ∧ c ≠ 0 ∧ ∀ q < count, c ∈ kids q → q = p)
    (hroot : linksOf kids count 0 = { child := (kids 0).head?, last := (kids 0).getLast? })
    (hcount : 0 < count) (hlast : Below kids 0 last) :
    Represents (manOf kids node count last) kids := by
  have hnodes : ∀ x ∈ Nodes kids (manOf kids node count last).roots, x < count := by
    rintro x ⟨r, hr, hb⟩
    obtain rfl : 0 = r := Option.some.inj hr
    induction hb with
    | refl => exact hcount
    | tail _ hc ih => exact ((hkids _ ih).2.2 _ hc).1
  refine ⟨⟨⟨fun p hp => (hkids p (hnodes p hp)).1, fun p hp q hq c hcp hcq => ?_,
    fun p hp r hr hc => ?_⟩, fun p hp => (hkids p (hnodes p hp)).2.1⟩, fun r hr => ?_, hnodes,
    fun l hl => ?_, fun hnone => ?_, fun hnext => ?_⟩
  · exact ((hkids q (hnodes q hq)).2.2 c hcq).2.2 p (hnodes p hp) hcp
  · obtain rfl : 0 = r := Option.some.inj hr
    exact ((hkids p (hnodes p hp)).2.2 0 hc).2.1 rfl
  · obtain rfl : 0 = r := Option.some.inj hr
    show (linksOf kids count 0).parent = none ∧ (linksOf kids count 0).prev = none ∧
      (linksOf kids count 0).next = none
    rw [hroot]
    exact ⟨rfl, rfl, rfl⟩
  · obtain rfl : last = l := Option.some.inj hl
    exact ⟨0, rfl, hlast⟩
  · exact absurd hnone (Option.some_ne_none last)
  · exact absurd (show RoffNext.CHILD = RoffNext.SIBLING from hnext) (by decide)

end Mandoc
