import Mandoc.Mdoc.ListBody

/-!
# Rows of Lists

The second loop of `post_bl()`, which wraps the nodes between items into implicit items.

- `wrapRound_ok` says what one round does to the tree.
- `wrapLoop_null` says that the loop fails if no item follows.
- `wrapLoop_cases` is the result for the whole loop.
-/

namespace Mandoc

open OrderedForest

/-! ## §1 What is left alone -/

section

variable {man man' man'' : RoffMan} {kids kids' kids'' : Nat → List Nat} {changed : List Nat}
  {n p q b e : Nat} {l l₁ l₂ r : List Nat}

/-- Nodes may have been added, and only the nodes in the list may have got other children. -/
structure Extends (man man' : RoffMan) (kids kids' : Nat → List Nat) (changed : List Nat) :
    Prop where
  first : man'.first = man.first
  count : man.count ≤ man'.count
  node : ∀ x < man.count, man'.node x = man.node x
  kids : ∀ x < man.count, x ∉ changed → kids' x = kids x

theorem Extends.refl : Extends man man kids kids changed :=
  ⟨rfl, le_refl _, fun _ _ => rfl, fun _ _ _ => rfl⟩

theorem Extends.trans (h : Extends man man' kids kids' changed)
    (h' : Extends man' man'' kids' kids'' changed) : Extends man man'' kids kids'' changed where
  first := h'.first.trans h.first
  count := le_trans h.count h'.count
  node x hx := (h'.node x (lt_of_lt_of_le hx h.count)).trans (h.node x hx)
  kids x hx hc := (h'.kids x (lt_of_lt_of_le hx h.count) hc).trans (h.kids x hx hc)

theorem Extends.mono {changed' : List Nat} (h : Extends man man' kids kids' changed)
    (hsub : ∀ x < man.count, x ∈ changed → x ∈ changed') :
    Extends man man' kids kids' changed' :=
  ⟨h.first, h.count, h.node, fun x hx hc => h.kids x hx fun hin => hc (hsub x hx hin)⟩

theorem erase_mid {x : Nat} (h : (l₁ ++ x :: l₂).Nodup) : (l₁ ++ x :: l₂).erase x = l₁ ++ l₂ := by
  have hx : x ∉ l₁ := fun hm => (List.nodup_append.mp h).2.2 x hm x (List.mem_cons_self ..) rfl
  rw [List.erase_append_right _ hx, List.erase_cons_head]

/-! ## §2 Opening an item -/

/-- The node `b` is an implicit item, and its body has the children `l`. -/
structure ItemAround (man : RoffMan) (kids : Nat → List Nat) (b : Nat) (l : List Nat) : Prop where
  tok : (man.node b).tok.isIt = true
  type : (man.node b).type = .BLOCK
  head : (man.node b).head = some (b + 1)
  block_kids : kids b = [b + 1, b + 2]
  head_kids : kids (b + 1) = []
  body_kids : kids (b + 2) = l

/-- Later changes elsewhere do not matter. -/
theorem ItemAround.extends (h : ItemAround man kids b l) (he : Extends man man' kids kids' changed)
    (hb : b + 2 < man.count) (hc : ∀ x ∈ changed, x < b) : ItemAround man' kids' b l := by
  have hkids : ∀ x, b ≤ x → x < man.count → kids' x = kids x := fun x hx hlt =>
    he.kids x hlt fun hin => absurd (hc x hin) (not_lt.mpr hx)
  have hnode := he.node b (lt_of_le_of_lt (Nat.le_add_right b 2) hb)
  refine ⟨hnode ▸ h.tok, hnode ▸ h.type, hnode ▸ h.head, ?_, ?_, ?_⟩
  · exact (hkids b (le_refl b) (lt_of_le_of_lt (Nat.le_add_right b 2) hb)).trans h.block_kids
  · exact (hkids (b + 1) (Nat.le_add_right b 1) (lt_of_le_of_lt (Nat.le_succ _) hb)).trans h.head_kids
  · exact (hkids (b + 2) (Nat.le_add_right b 2) hb).trans h.body_kids

/-- Opening an item puts an empty one to the parse point, which moves into its body. -/
theorem openItem_ok (h : Represents man kids) (line pos : Nat) (hq : q ∈ Nodes kids man.roots)
    (hpoint : man.PointsTo q l₁) (hkids : kids q = l₁ ++ l₂) :
    ∃ man' kids', openItem man line pos = .ok man' ∧ Represents man' kids' ∧
      man'.count = man.count + 3 ∧ man'.PointsTo (man.count + 2) [] ∧
      q ∈ Nodes kids' man'.roots ∧ kids' q = l₁ ++ man.count :: l₂ ∧
      ItemAround man' kids' man.count [] ∧ Extends man man' kids kids' [q] := by
  -- The block is put to the parse point.
  obtain ⟨man₁, kids₁, hok₁, a₁⟩ := h.add_new line pos .BLOCK (.MDOC "It") hq hpoint hkids (by simp)
    (by simp)
  have hblk₁ := a₁.represents.last _ a₁.last
  have h₁ := a₁.represents.setPoint man₁.last .CHILD hblk₁ (List.nil_append _).symm
    (.inl ⟨rfl, a₁.last, rfl⟩)
  -- The head is put into the block.
  obtain ⟨man₂, kids₂, hok₂, a₂⟩ := h₁.add_new line pos .HEAD (.MDOC "It") hblk₁
    (.inl ⟨rfl, a₁.last, rfl⟩) (show kids₁ man.count = [] ++ [] from a₁.kids_new)
    (fun _ => a₁.type_new) (by simp)
  have hblk₂ := a₂.mem _ hblk₁
  have hlast₂ : man₂.last = [man₁.count].getLast? := a₂.last
  have hkids₂ : kids₂ man.count = [man₁.count] ++ [] := a₂.kids_parent
  have htype₂ : (man₂.node man.count).type = .BLOCK := by
    rw [a₂.node_parent]
    exact a₁.type_new
  have h₂ := a₂.represents.setPoint man₂.last .SIBLING hblk₂ hkids₂ (.inr ⟨rfl, hlast₂, by simp⟩)
  -- The body is put behind the head.
  obtain ⟨man₃, kids₃, hok₃, a₃⟩ := h₂.add_new line pos .BODY (.MDOC "It") hblk₂
    (.inr ⟨rfl, hlast₂, by simp⟩) hkids₂ (fun _ => htype₂) (by simp)
  have h₃ := a₃.represents.setPoint man₃.last .CHILD (a₃.represents.last _ a₃.last)
    (List.nil_append _).symm (.inl ⟨rfl, a₃.last, rfl⟩)
  have hcount₁ : man₁.count = man.count + 1 := a₁.count
  have hcount₂ : man₂.count = man.count + 2 := a₂.count.trans (congrArg (· + 1) hcount₁)
  have hcount₃ : man₃.count = man.count + 3 := a₃.count.trans (congrArg (· + 1) hcount₂)
  have hold : ∀ x < man.count, x ≠ man.count ∧ x ≠ man₁.count ∧ x ≠ man₂.count := by
    rw [hcount₁, hcount₂]
    intro x hx
    exact ⟨Nat.ne_of_lt hx, Nat.ne_of_lt (Nat.lt_succ_of_lt hx), Nat.ne_of_lt (Nat.lt_add_right 2 hx)⟩
  have hblk : man.count ≠ man₁.count ∧ man.count ≠ man₂.count ∧ man₁.count ≠ man₂.count := by
    rw [hcount₁, hcount₂]
    exact ⟨Nat.ne_of_lt (Nat.lt_succ_self _), Nat.ne_of_lt (Nat.lt_add_of_pos_right Nat.two_pos),
      Nat.ne_of_lt (Nat.lt_succ_self _)⟩
  have hkids : ∀ x < man.count, kids₃ x = kids₁ x := fun x hx =>
    (a₃.kids_old x (hold x hx).2.2 (hold x hx).1).trans (a₂.kids_old x (hold x hx).2.1 (hold x hx).1)
  have hnode : ∀ x < man.count, man₃.node x = man₁.node x := fun x hx =>
    (a₃.node_old x (hold x hx).2.2 (hold x hx).1).trans (a₂.node_old x (hold x hx).2.1 (hold x hx).1)
  have hparent₃ : man₃.node man.count = ((man₁.node man.count).withChild .HEAD man₁.count).withChild
      .BODY man₂.count := by
    rw [a₃.node_parent, ← show man₂.node man.count = _ from a₂.node_parent]
  refine ⟨{ man₃ with next := .CHILD }, kids₃, ?_, h₃, hcount₃,
    .inl ⟨rfl, hcount₂ ▸ a₃.last, rfl⟩, a₃.mem _ (a₂.mem _ (a₁.mem _ hq)), ?_, ⟨?_, ?_, ?_, ?_, ?_, ?_⟩, ⟨?_, ?_, ?_, ?_⟩⟩
  · simp only [openItem, hok₁, Res.ok_bind, hok₂, hok₃]
    rfl
  · rw [hkids q (h.count q hq), a₁.kids_parent]
  · show (man₃.node man.count).tok.isIt = true
    rw [hparent₃]
    simp [RoffNode.withChild, a₁.tok_new, Tok.isIt]
  · show (man₃.node man.count).type = .BLOCK
    rw [hparent₃]
    exact a₁.type_new
  · show (man₃.node man.count).head = some (man.count + 1)
    rw [hparent₃, hcount₁]
    rfl
  · rw [a₃.kids_parent]
    simp [hcount₁, hcount₂]
  · rw [← hcount₁, a₃.kids_old _ hblk.2.2 hblk.1.symm]
    exact a₂.kids_new
  · rw [← hcount₂]
    exact a₃.kids_new
  · exact a₃.first.trans (a₂.first.trans a₁.first)
  · exact hcount₃ ▸ Nat.le_add_right _ 3
  · intro x hx
    refine (hnode x hx).trans ?_
    by_cases hxq : x = q
    · rw [hxq]
      exact a₁.node_parent
    · exact a₁.node_old x (hold x hx).1 hxq
  · intro x hx hxq
    rw [hkids x hx, a₁.kids_old x (hold x hx).1 (by simpa using hxq)]

/-! ## §3 Wrapping a run of nodes -/

/-- Moving one node from behind `l₁` to the end of the body `b` of an item in `l₁`. -/
theorem relink_into (h : Represents man kids) {c : Nat} (hq : q ∈ Nodes kids man.roots)
    (hkids : kids q = l₁ ++ c :: l₂) (he : e ∈ l₁) (hb : b ∈ kids e) (hl : kids b = l)
    (hpoint : man.PointsTo b l) (hplain : (man.node c).plain) :
    ∃ man' kids', roffNodeRelink man c = .ok man' ∧ Represents man' kids' ∧
      man'.count = man.count ∧ man'.last = some c ∧ q ∈ Nodes kids' man'.roots ∧
      kids' q = l₁ ++ l₂ ∧ kids' b = l ++ [c] ∧ b ∈ kids' e ∧ man'.node = man.node ∧
      Extends man man' kids kids' [q, b] := by
  have hf := h.linked.forest
  have hc : c ∈ kids q := by simp [hkids]
  have heq : e ∈ kids q := by
    rw [hkids]
    exact List.mem_append_left _ he
  have hen := mem_nodes_child hq heq
  have hbn := mem_nodes_child hen hb
  have hnodup := hf.nodup q hq
  rw [hkids] at hnodup
  have hec : e ≠ c := fun hec => (List.nodup_append.mp hnodup).2.2 e he c (List.mem_cons_self ..) hec
  -- The item and its body are not below the node that is moved.
  have hqc : ¬ Below kids c q := hf.acyclic hq hc
  have hecb : ¬ Below kids c e := fun hce =>
    (hf.below_parent (mem_nodes_child hq hc) hq heq hce).elim (fun heq => hec heq.symm) hqc
  have hbc : ¬ Below kids c b := by
    intro hcb
    rcases hf.below_parent (mem_nodes_child hq hc) hen hb hcb with rfl | hce
    · have hqe := hf.unique q hq e hen c hc hb
      exact hf.acyclic hq heq (hqe ▸ .refl)
    · exact hecb hce
  have hbq : b ≠ q := by
    rintro rfl
    exact hf.acyclic hq heq (Relation.ReflTransGen.single hb)
  have heqne : e ≠ q := fun heq' => hf.acyclic hq heq (heq' ▸ .refl)
  have heb : e ≠ b := fun heq' => hf.acyclic hen hb (heq' ▸ .refl)
  have hcut : Forest.cutKids kids q c b = l ++ [] := by
    rw [Forest.cutKids, Function.update_of_ne hbq, hl, List.append_nil]
  obtain ⟨links, hrelink, -, hrep⟩ := h.relink_at hq hc hbn hbc hpoint hcut
  refine ⟨_, _, hrelink.trans (roffNodeRole_plain hplain), hrep, rfl, rfl, ?_, ?_, ?_, ?_, rfl, rfl, le_refl _, fun _ _ => rfl, ?_⟩
  · have hperm : (l ++ [c]).Perm (c :: Forest.cutKids kids q c b) := by
      rw [hcut, List.append_nil]
      exact List.perm_append_singleton c l
    exact Forest.mem_nodes_attach hperm (Forest.mem_nodes_cut hq hqc)
  · simp [Forest.attachKids, Forest.cutKids, hbq.symm, hkids, erase_mid hnodup]
  · simp [Forest.attachKids]
  · simpa [Forest.attachKids, Forest.cutKids, heb, heqne] using hb
  · intro x _ hx
    have hxq : x ≠ q := fun he => hx (by simp [he])
    have hxb : x ≠ b := fun he => hx (by simp [he])
    simp [Forest.attachKids, Forest.cutKids, hxq, hxb]

/-- Moving the nodes `c :: r` from between `l₁` and `l₂` to the end of the body `b` of an item
    in `l₁`. The loop ends at the next item, or else with the last node moved. -/
theorem wrapRun_ok (steps : Nat) {c : Nat} (h : Represents man kids) (hq : q ∈ Nodes kids man.roots)
    (hkids : kids q = l₁ ++ (c :: r) ++ l₂) (he : e ∈ l₁) (hb : b ∈ kids e) (hl : kids b = l)
    (hpoint : man.PointsTo b l)
    (hrun : ∀ x ∈ c :: r, (man.node x).tok.isIt = false ∧ (man.node x).plain)
    (hnext : ∀ y ∈ l₂.head?, (man.node y).tok.isIt = true) (hsteps : (c :: r).length < steps) :
    ∃ man' kids', wrapRun steps man c (r ++ l₂).head? =
        .ok (man', l₂.head?.getD ((c :: r).getLast (List.cons_ne_nil c r))) ∧
      Represents man' kids' ∧ man'.count = man.count ∧ q ∈ Nodes kids' man'.roots ∧
      kids' q = l₁ ++ l₂ ∧ kids' b = l ++ c :: r ∧ b ∈ kids' e ∧
      Extends man man' kids kids' [q, b] := by
  -- The induction is on the nodes that follow in the same run.
  induction r generalizing c l man kids steps with
  -- The last node of the run: the next one is an item, or there is none.
  | nil =>
    obtain ⟨steps, rfl⟩ : ∃ m, steps = m + 1 :=
      Nat.exists_eq_add_one.mpr (lt_of_le_of_lt (Nat.zero_le _) hsteps)
    have hmid : kids q = l₁ ++ c :: l₂ := by simpa using hkids
    obtain ⟨man', kids', hrelink, hrep, hcount, hlast, hq', hkids', hb', hbe, hnode, hext⟩ :=
      relink_into h hq hmid he hb hl hpoint (hrun c (List.mem_cons_self ..)).2
    rw [wrapRun, if_neg (by simp [(hrun c (List.mem_cons_self ..)).1]), hrelink, Res.ok_bind]
    cases l₂ with
    | nil => exact ⟨man', kids', rfl, hrep, hcount, hq', hkids', hb', hbe, hext⟩
    | cons y l₂ =>
      have hy := hnext y rfl
      obtain ⟨steps, rfl⟩ : ∃ m, steps = m + 1 :=
        Nat.exists_eq_add_one.mpr (Nat.lt_of_succ_lt_succ hsteps)
      refine ⟨{ man' with next := .SIBLING }, kids', ?_, ?_, hcount, hq', hkids', hb', hbe,
        ⟨hext.first, hext.count, hext.node, hext.kids⟩⟩
      · simp only [List.nil_append, List.head?_cons, wrapRun, hnode, hy, if_true]
        rfl
      · have hbn := mem_nodes_child (mem_nodes_child hq' (by
          rw [hkids']
          exact List.mem_append_left _ he)) hbe
        exact hrep.setPoint man'.last .SIBLING hbn (hb'.trans (List.append_nil _).symm)
          (.inr ⟨rfl, by simp [hlast], by simp⟩)
  -- Behind the first node, the rest of the run is moved to the same body.
  | cons d r ih =>
    obtain ⟨steps, rfl⟩ : ∃ m, steps = m + 1 :=
      Nat.exists_eq_add_one.mpr (lt_of_le_of_lt (Nat.zero_le _) hsteps)
    have hmid : kids q = l₁ ++ c :: (d :: r ++ l₂) := by simpa using hkids
    obtain ⟨man', kids', hrelink, hrep, hcount, hlast, hq', hkids', hb', hbe, hnode, hext⟩ :=
      relink_into h hq hmid he hb hl hpoint (hrun c (List.mem_cons_self ..)).2
    have hbn := mem_nodes_child (mem_nodes_child hq' (by
      rw [hkids']
      exact List.mem_append_left _ he)) hbe
    have hpoint' : RoffMan.PointsTo { man' with next := .SIBLING } b (l ++ [c]) :=
      .inr ⟨rfl, by simp [hlast], by simp⟩
    have hrep' := hrep.setPoint man'.last .SIBLING hbn (hb'.trans (List.append_nil _).symm) hpoint'
    obtain ⟨man'', kids'', hwrap, hrep'', hcount', hq'', hkids'', hb'', hbe', hext'⟩ :=
      ih steps hrep' hq' (by rw [hkids']; simp) hbe hb' hpoint'
        (fun x hx => by simpa [hnode] using hrun x (List.mem_cons_of_mem c hx))
        (fun y hy => by simpa [hnode] using hnext y hy) (Nat.lt_of_succ_lt_succ hsteps)
    refine ⟨man'', kids'', ?_, hrep'', hcount'.trans hcount, hq'', hkids'', by simpa using hb'',
      hbe', hext.trans ⟨hext'.first, hext'.count, hext'.node, hext'.kids⟩⟩
    have hd : (man'.links d).next = (r ++ l₂).head? := by
      have hchildren := hrep.linked.children q hq'
      rw [hkids', List.cons_append] at hchildren
      exact hchildren.next_eq
    rw [wrapRun, if_neg (by simp [(hrun c (List.mem_cons_self ..)).1]), hrelink, Res.ok_bind,
      List.cons_append, List.head?_cons]
    simp only [hd, hwrap]
    simp

/-- One round wraps the nodes `c :: r` into an implicit item, which gets their place. -/
theorem wrapRound_ok (steps : Nat) {c : Nat} (h : Represents man kids) (hq : q ∈ Nodes kids man.roots)
    (hkids : kids q = l₁ ++ (c :: r) ++ l₂) (hl₁ : l₁ ≠ [])
    (hrun : ∀ x ∈ c :: r, (man.node x).tok.isIt = false ∧ (man.node x).plain)
    (hnext : ∀ y ∈ l₂.head?, (man.node y).tok.isIt = true) (hsteps : (c :: r).length < steps) :
    ∃ man' kids', wrapRound steps man c =
        .ok (man', l₂.head?.getD ((c :: r).getLast (List.cons_ne_nil c r))) ∧
      Represents man' kids' ∧ man'.count = man.count + 3 ∧ q ∈ Nodes kids' man'.roots ∧
      kids' q = l₁ ++ man.count :: l₂ ∧ ItemAround man' kids' man.count (c :: r) ∧
      Extends man man' kids kids' [q] := by
  -- The item is put in front of the run, where the first node of the run was.
  have hchildren := h.linked.children q hq
  rw [hkids, List.append_assoc, List.cons_append] at hchildren
  have hsplit : kids q = l₁ ++ (c :: (r ++ l₂)) := by simp [hkids]
  have hpoint : RoffMan.PointsTo { man with last := (man.links c).prev, next := .SIBLING } q l₁ :=
    .inr ⟨rfl, hchildren.prev_eq, hl₁⟩
  obtain ⟨man₁, kids₁, hopen, h₁, hcount₁, hpoint₁, hq₁, hkids₁, hw₁, hext₁⟩ :=
    openItem_ok (h.setPoint _ _ hq hsplit hpoint) (man.node c).line (man.node c).pos hq hpoint hsplit
  have hext₁ : Extends man man₁ kids kids₁ [q] := ⟨hext₁.first, hext₁.count, hext₁.node, hext₁.kids⟩
  have hcount₁ : man₁.count = man.count + 3 := hcount₁
  have hkids₁ : kids₁ q = l₁ ++ man.count :: (c :: (r ++ l₂)) := hkids₁
  have hw₁ : ItemAround man₁ kids₁ man.count [] := hw₁
  -- Opening the item does not change the nodes that were there before.
  have hold : ∀ x ∈ kids q, man₁.node x = man.node x := fun x hx =>
    hext₁.node x (h.count x (mem_nodes_child hq hx))
  -- Then the run is moved to the body of the item.
  obtain ⟨man₂, kids₂, hwrap, h₂, hcount₂, hq₂, hkids₂, hbody₂, -, hext₂⟩ :=
    wrapRun_ok steps h₁ hq₁
      (show kids₁ q = (l₁ ++ [man.count]) ++ (c :: r) ++ l₂ by simp [hkids₁])
      (List.mem_append_right _ (List.mem_singleton_self _))
      (show man.count + 2 ∈ kids₁ man.count by simp [hw₁.block_kids]) hw₁.body_kids hpoint₁
      (fun x hx => by
        rw [hold x (by rw [hkids]; exact List.mem_append_left _ (List.mem_append_right _ hx))]
        exact hrun x hx)
      (fun y hy => by
        rw [hold y (by rw [hkids]; exact List.mem_append_right _ (List.mem_of_head? hy))]
        exact hnext y hy) hsteps
  have hqlt := h.count q hq
  refine ⟨man₂, kids₂, ?_, h₂, hcount₂.trans hcount₁, hq₂, by simpa using hkids₂, ?_, ?_⟩
  · simp only [wrapRound, hopen, Res.ok_bind]
    rw [hchildren.next_eq]
    exact hwrap
  · -- The item has been made before, and now its body has got the nodes.
    have hnode : man₂.node man.count = man₁.node man.count :=
      hext₂.node _ (hcount₁ ▸ Nat.lt_add_of_pos_right (Nat.succ_pos 2))
    have hkids : ∀ i < 2, kids₂ (man.count + i) = kids₁ (man.count + i) := by
      intro i hi
      refine hext₂.kids _ (hcount₁ ▸ Nat.add_lt_add_left (Nat.lt_succ_of_lt hi) _) ?_
      have hneq : man.count + i ≠ q := (lt_of_lt_of_le hqlt (Nat.le_add_right _ i)).ne'
      simp [hneq, hi.ne]
    exact ⟨hnode ▸ hw₁.tok, hnode ▸ hw₁.type, hnode ▸ hw₁.head,
      (hkids 0 Nat.two_pos).trans hw₁.block_kids, (hkids 1 Nat.one_lt_two).trans hw₁.head_kids,
      by simpa using hbody₂⟩
  · refine ⟨hext₂.first.trans hext₁.first, le_trans hext₁.count hext₂.count, fun x hx => ?_,
      fun x hx hxq => ?_⟩
    · exact (hext₂.node x (lt_of_lt_of_le hx hext₁.count)).trans (hext₁.node x hx)
    · have hne₂ : x ≠ man.count + 2 := (Nat.lt_add_right 2 hx).ne
      refine (hext₂.kids x (lt_of_lt_of_le hx hext₁.count) ?_).trans (hext₁.kids x hx hxq)
      simpa [hne₂] using hxq

theorem wrapRound_null (steps : Nat) {c : Nat} (hprev : (man.links c).prev = none) :
    wrapRound steps man c = .error .null := by
  simp only [wrapRound, openItem, hprev, roffNodeAppend, roffNodeAlloc]
  rfl

/-! ## §4 Wrapping all runs -/

/-- Every node is transparent, or an item, or followed by an item. -/
def RowsClosed (man : RoffMan) (l : List Nat) : Prop :=
  ∀ c t, c :: t <:+ l → (man.node c).transparent = true ∨ (man.node c).tok.isIt = true ∨
    ∃ y ∈ t, (man.node y).tok.isIt = true

theorem rowsClosed_cons {c : Nat} : RowsClosed man (c :: l) ↔
    ((man.node c).transparent = true ∨ (man.node c).tok.isIt = true ∨
      ∃ y ∈ l, (man.node y).tok.isIt = true) ∧ RowsClosed man l := by
  constructor
  · exact fun h => ⟨h c l (List.suffix_refl _), fun d t ht => h d t (ht.trans (List.suffix_cons c l))⟩
  · rintro ⟨hc, hl⟩ d t ht
    rcases List.suffix_cons_iff.mp ht with heq | hsuffix
    · obtain ⟨rfl, rfl⟩ := List.cons.inj heq
      exact hc
    · exact hl d t hsuffix

theorem rowsClosed_nil : RowsClosed man [] := fun _ _ ht =>
  absurd (List.suffix_nil.mp ht) (List.cons_ne_nil _ _)

/-- What comes before does not matter if it is transparent, or if an item follows. -/
theorem rowsClosed_append (h : (∀ c ∈ l₁, (man.node c).transparent = true) ∨
      ∃ y ∈ l₂, (man.node y).tok.isIt = true) :
    RowsClosed man (l₁ ++ l₂) ↔ RowsClosed man l₂ := by
  induction l₁ with
  | nil => rfl
  | cons c l₁ ih =>
    have htail := ih (h.imp_left fun hl x hx => hl x (List.mem_cons_of_mem c hx))
    rw [List.cons_append, rowsClosed_cons, htail, and_iff_right_iff_imp]
    intro _
    rcases h with hl | ⟨y, hy, hit⟩
    · exact .inl (hl c (List.mem_cons_self ..))
    · exact .inr (.inr ⟨y, List.mem_append_right _ hy, hit⟩)

theorem rowsClosed_congr (heq : ∀ x ∈ l, man'.node x = man.node x) :
    RowsClosed man' l ↔ RowsClosed man l := by
  induction l with
  | nil => exact ⟨fun _ => rowsClosed_nil, fun _ => rowsClosed_nil⟩
  | cons c l ih =>
    rw [rowsClosed_cons, rowsClosed_cons, ih fun x hx => heq x (List.mem_cons_of_mem c hx),
      heq c (List.mem_cons_self ..)]
    have hex : (∃ y ∈ l, (man'.node y).tok.isIt = true) ↔ ∃ y ∈ l, (man.node y).tok.isIt = true := by
      refine exists_congr fun y => and_congr_right fun hy => ?_
      rw [heq y (List.mem_cons_of_mem c hy)]
    rw [hex]

/-- Skipping transparent nodes finds the first other one. -/
theorem skipTransparent_eq {a t : List Nat} {steps : Nat} (hc : Children man.links q (a ++ t))
    (hsteps : t.length ≤ steps) :
    skipTransparent steps man t.head? = .ok (t.find? fun n => !(man.node n).transparent) := by
  induction t generalizing a steps with
  | nil => cases steps <;> rfl
  | cons c t ih =>
    obtain ⟨steps, rfl⟩ : ∃ m, steps = m + 1 :=
      Nat.exists_eq_add_one.mpr (lt_of_lt_of_le (by simp) hsteps)
    rw [List.head?_cons, skipTransparent]
    cases htrans : (man.node c).transparent with
    | true =>
      rw [if_pos rfl, hc.next_eq, List.find?_cons_of_neg (by simp [htrans])]
      exact ih (a := a ++ [c]) (by simpa using hc) (Nat.le_of_succ_le_succ hsteps)
    | false =>
      rw [if_neg Bool.false_ne_true, List.find?_cons_of_pos (by simp [htrans])]

theorem Represents.setBody (h : Represents man kids) (hn : n ∈ Nodes kids man.roots)
    (hroot : man.first ≠ some n) : Represents { man with last := some n } kids :=
  h.setLast hn fun _ => exists_parent hn hroot

theorem ItemAround.children (hw : ItemAround man kids b l) (h : Represents man kids)
    (hq : q ∈ Nodes kids man.roots) (hb : b ∈ kids q) :
    b + 2 ∈ Nodes kids man.roots ∧ Children man.links (b + 2) l := by
  have hmem : b + 2 ∈ Nodes kids man.roots :=
    mem_nodes_child (mem_nodes_child hq hb) (by simp [hw.block_kids])
  exact ⟨hmem, hw.body_kids ▸ h.linked.children (b + 2) hmem⟩

theorem wrapLoop_first {steps c nbody : Nat} (hprev : (man.links c).prev = none)
    (hc : (man.node c).tok.isIt = false) :
    wrapLoop (steps + 1) man nbody (some c) = .error .null := by
  rw [wrapLoop, if_neg (by simp [hc]), wrapRound_null _ hprev]
  rfl

/-- If no item follows, the loop does not stop after the nodes have been wrapped: it goes on with
    the last one of them, until there is no previous node. -/
theorem wrapLoop_null {steps c nbody : Nat} {d : List Nat} (h : Represents man kids)
    (hbody : nbody ∈ Nodes kids man.roots) (hroot : man.first ≠ some nbody)
    (hkids : kids nbody = d ++ c :: r) (hd : d ≠ [])
    (hrun : ∀ x ∈ c :: r, (man.node x).tok.isIt = false ∧ (man.node x).plain)
    (hsteps : (c :: r).length < steps) :
    wrapLoop steps man nbody (some c) = .error .null := by
  have hlength := h.length_kids_lt hbody
  have hlt : ∀ x ∈ c :: r, x < man.count := fun x hx =>
    h.count x (mem_nodes_child hbody (hkids ▸ List.mem_append_right d hx))
  have hsplit : kids nbody = d ++ (c :: r) ++ [] := by simp [hkids]
  obtain ⟨man₁, kids₁, hround₁, h₁, hcount₁, hbody₁, hkids₁, hw₁, hext₁⟩ :=
    wrapRound_ok man.count h hbody hsplit hd hrun (by simp)
      (lt_of_le_of_lt (by simp [hkids]) hlength)
  obtain ⟨hmem₁, hchildren₁⟩ := hw₁.children h₁ hbody₁ (by simp [hkids₁])
  have h₁' := h₁.setBody hbody₁ (hext₁.first ▸ hroot)
  have hrun₁ : ∀ x ∈ c :: r, (man₁.node x).tok.isIt = false ∧ (man₁.node x).plain := by
    intro x hx
    rw [hext₁.node x (hlt x hx)]
    exact hrun x hx
  obtain ⟨steps, rfl⟩ : ∃ m, steps = m + 1 :=
    Nat.exists_eq_add_one.mpr (lt_of_le_of_lt (Nat.zero_le _) hsteps)
  obtain ⟨steps, rfl⟩ : ∃ m, steps = m + 1 :=
    Nat.exists_eq_add_one.mpr (lt_of_le_of_lt (Nat.zero_le _) (Nat.lt_of_succ_lt_succ hsteps))
  rw [wrapLoop, if_neg (by simp [(hrun c (List.mem_cons_self ..)).1]), hround₁]
  simp only [Res.ok_bind, List.head?_nil, Option.getD_none]
  rcases List.eq_nil_or_concat (c :: r) with hnil | ⟨r', x, hlast⟩
  · exact absurd hnil (List.cons_ne_nil c r)
  rw [List.concat_eq_append] at hlast
  have hx : x ∈ c :: r := hlast ▸ List.mem_append_right _ (List.mem_singleton_self x)
  simp only [hlast, List.getLast_concat]
  rw [hlast] at hchildren₁ hrun₁ hsteps
  cases r' with
  | nil => exact wrapLoop_first hchildren₁.segment.2.1 (hrun₁ x (by simp)).1
  | cons y r' =>
    -- The last node is taken out of its item again, and gets another one inside.
    obtain ⟨steps, rfl⟩ : ∃ m, steps = m + 1 := Nat.exists_eq_add_one.mpr (by
      refine Nat.lt_of_succ_lt_succ (Nat.lt_of_succ_lt_succ (lt_of_le_of_lt ?_ hsteps))
      simp)
    obtain ⟨man₂, kids₂, hround₂, h₂, -, hbody₂, hkids₂, hw₂, hext₂⟩ :=
      wrapRound_ok man₁.count h₁' hmem₁
        (show kids₁ (man.count + 2) = (y :: r') ++ [x] ++ [] by rw [hw₁.body_kids, hlast]; simp)
        (List.cons_ne_nil y r') (fun z hz => hrun₁ z (List.mem_append_right _ hz)) (by simp)
        (by simp [hcount₁])
    obtain ⟨-, hchildren₂⟩ := hw₂.children h₂ hbody₂ (by simp [hkids₂])
    have hx₁ : x < man₁.count := lt_of_lt_of_le (hlt x hx) hext₁.count
    rw [wrapLoop, if_neg (by simp [(hrun₁ x (by simp)).1]), hround₂]
    simp only [Res.ok_bind, List.head?_nil, Option.getD_none, List.getLast_singleton]
    refine wrapLoop_first hchildren₂.segment.2.1 ?_
    show (man₂.node x).tok.isIt = false
    rw [hext₂.node x hx₁]
    exact (hrun₁ x (by simp)).1

/-- A child of the body of the list after the second loop: an old node, or an implicit item with
    the number `b` around old nodes. -/
inductive Row where
  | old (n : Nat)
  | wrapped (b : Nat) (l : List Nat)

/-- The child itself. -/
def Row.child : Row → Nat
  | .old n => n
  | .wrapped b _ => b

/-- The old nodes. -/
def Row.content : Row → List Nat
  | .old n => [n]
  | .wrapped _ l => l

/-- Old nodes remain children of the list if they are items or transparent. The others are
    wrapped into new nodes, whose numbers begin with `count`. -/
def Row.Valid (count : Nat) (man : RoffMan) (kids : Nat → List Nat) : Row → Prop
  | .old n => (man.node n).tok.isIt = true ∨ (man.node n).transparent = true
  | .wrapped b l => count ≤ b ∧ b + 2 < man.count ∧ ItemAround man kids b l

/-- The second loop has wrapped the runs in the nodes `t`, which come behind `d`. -/
structure RowsWrapped (man man' : RoffMan) (kids kids' : Nat → List Nat) (nbody : Nat)
    (d t : List Nat) (rows : List Row) : Prop where
  represents : Represents man' kids'
  last : man'.last = some nbody
  unchanged : Extends man man' kids kids' [nbody]
  kids_body : kids' nbody = d ++ rows.map Row.child
  content : rows.flatMap Row.content = t
  valid : ∀ row ∈ rows, row.Valid man.count man' kids'

/-- What the second loop relies on: the parse point is at the body of the list, and the node
    `c` is an item, or it has to be wrapped. -/
structure WrapReady (man : RoffMan) (kids : Nat → List Nat) (nbody : Nat) (d : List Nat) (c : Nat)
    (t : List Nat) : Prop where
  represents : Represents man kids
  last : man.last = some nbody
  root : man.first ≠ some nbody
  kids_body : kids nbody = d ++ c :: t
  start : (man.node c).tok.isIt = true ∨ d ≠ [] ∧ (man.node c).transparent = false
  plain : ∀ x ∈ c :: t, (man.node x).tok.isIt = false → (man.node x).plain
  item : ∀ x ∈ c :: t, (man.node x).tok.isIt = true → (man.node x).transparent = false

theorem WrapReady.body_mem {nbody c : Nat} {d t : List Nat} (h : WrapReady man kids nbody d c t) :
    nbody ∈ Nodes kids man.roots := h.represents.last nbody h.last

/-- The node behind an item and some transparent nodes. -/
theorem WrapReady.next {nbody c y : Nat} {d t₀ t₁ : List Nat}
    (h : WrapReady man kids nbody d c (t₀ ++ y :: t₁)) (hy : (man.node y).transparent = false) :
    WrapReady man kids nbody (d ++ c :: t₀) y t₁ where
  represents := h.represents
  last := h.last
  root := h.root
  kids_body := by simp [h.kids_body]
  start := .inr ⟨by simp, hy⟩
  plain x hx := h.plain x (List.mem_cons_of_mem c (List.mem_append_right t₀ hx))
  item x hx := h.item x (List.mem_cons_of_mem c (List.mem_append_right t₀ hx))

/-- The run before an item gets wrapped. -/
theorem WrapReady.wrapped {nbody c y : Nat} {d t : List Nat}
    (h : WrapReady man kids nbody d c (r ++ y :: t)) (hy : (man.node y).tok.isIt = true)
    (hrep : Represents man' kids') (hext : Extends man man' kids kids' [nbody])
    (hbody : nbody ∈ Nodes kids' man'.roots) (hkids : kids' nbody = d ++ n :: y :: t) :
    WrapReady { man' with last := some nbody } kids' nbody (d ++ [n]) y t := by
  have hnode : ∀ x ∈ c :: (r ++ y :: t), man'.node x = man.node x := fun x hx =>
    hext.node x (h.represents.count x (mem_nodes_child h.body_mem
      (h.kids_body ▸ List.mem_append_right d hx)))
  have hmem : ∀ x ∈ y :: t, x ∈ c :: (r ++ y :: t) := fun x hx =>
    List.mem_cons_of_mem c (List.mem_append_right r hx)
  have hroot : man'.first ≠ some nbody := hext.first ▸ h.root
  refine ⟨hrep.setBody hbody hroot, rfl, hroot, by simp [hkids], .inl ?_, fun x hx hit => ?_,
    fun x hx hit => ?_⟩
  · show (man'.node y).tok.isIt = true
    rw [hnode y (hmem y (List.mem_cons_self ..))]
    exact hy
  · have hx' := hnode x (hmem x hx)
    have hit : (man'.node x).tok.isIt = false := hit
    rw [hx'] at hit
    show (man'.node x).plain
    rw [hx']
    exact h.plain x (hmem x hx) hit
  · have hx' := hnode x (hmem x hx)
    have hit : (man'.node x).tok.isIt = true := hit
    rw [hx'] at hit
    show (man'.node x).transparent = false
    rw [hx']
    exact h.item x (hmem x hx) hit

theorem Row.Valid.mono {count count' : Nat} {row : Row} (hle : count' ≤ count)
    (h : row.Valid count man kids) : row.Valid count' man kids := by
  cases row with
  | old n => exact h
  | wrapped b l => exact ⟨le_trans hle h.1, h.2⟩

/-- Nodes that stay where they are before other rows. -/
theorem RowsWrapped.old {nbody : Nat} {d t : List Nat} {rows : List Row}
    (h : RowsWrapped man man' kids kids' nbody (d ++ l) t rows)
    (hl : ∀ x ∈ l, x < man.count ∧
      ((man.node x).tok.isIt = true ∨ (man.node x).transparent = true)) :
    RowsWrapped man man' kids kids' nbody d (l ++ t) (l.map Row.old ++ rows) where
  represents := h.represents
  last := h.last
  unchanged := h.unchanged
  kids_body := by
    rw [h.kids_body, List.map_append, List.map_map, List.append_assoc]
    congr 2
    exact (List.map_id'' (fun _ => rfl) l).symm
  content := by
    rw [List.flatMap_append, h.content, List.flatMap_map]
    congr 1
    exact List.flatMap_singleton' l
  valid row hrow := by
    rcases List.mem_append.mp hrow with hold | hrow
    · obtain ⟨x, hx, rfl⟩ := List.mem_map.mp hold
      show (man'.node x).tok.isIt = true ∨ (man'.node x).transparent = true
      rw [h.unchanged.node x (hl x hx).1]
      exact (hl x hx).2
    · exact h.valid row hrow

/-- An implicit item before other rows. -/
theorem RowsWrapped.cons {nbody : Nat} {d t : List Nat} {rows : List Row}
    (h : RowsWrapped { man' with last := some nbody } man'' kids' kids'' nbody (d ++ [man.count]) t rows)
    (hext : Extends man man' kids kids' [nbody]) (hcount : man'.count = man.count + 3)
    (hw : ItemAround man' kids' man.count l) (hbody : nbody < man.count) :
    RowsWrapped man man'' kids kids'' nbody d (l ++ t) (.wrapped man.count l :: rows) where
  represents := h.represents
  last := h.last
  unchanged := hext.trans ⟨h.unchanged.first, h.unchanged.count, h.unchanged.node, h.unchanged.kids⟩
  kids_body := by simpa [Row.child] using h.kids_body
  content := by
    rw [List.flatMap_cons, h.content]
    rfl
  valid row hrow := by
    have hunchanged : Extends man' man'' kids' kids'' [nbody] :=
      ⟨h.unchanged.first, h.unchanged.count, h.unchanged.node, h.unchanged.kids⟩
    rcases List.mem_cons.mp hrow with rfl | hrow
    · refine ⟨le_refl _, lt_of_lt_of_le ?_ hunchanged.count, hw.extends hunchanged ?_ ?_⟩
      · exact hcount ▸ Nat.lt_succ_self _
      · exact hcount ▸ Nat.lt_succ_self _
      · intro x hx
        exact List.mem_singleton.mp hx ▸ hbody
    · exact (h.valid row hrow).mono (hcount ▸ Nat.le_add_right _ 3)

theorem wrapLoop_none (steps nbody : Nat) : wrapLoop steps man nbody none = .ok man := by
  cases steps <;> rfl

/-- Only transparent nodes follow the last item. -/
theorem WrapReady.finish {nbody c : Nat} {d t : List Nat} (h : WrapReady man kids nbody d c t)
    (hc : (man.node c).tok.isIt = true) (ht : ∀ x ∈ t, (man.node x).transparent = true) :
    RowsClosed man t ∧ ∃ rows, RowsWrapped man man kids kids nbody d (c :: t) rows := by
  constructor
  · have happend : RowsClosed man (t ++ []) ↔ RowsClosed man [] := rowsClosed_append (.inl ht)
    rw [List.append_nil] at happend
    exact happend.mpr rowsClosed_nil
  · have hnil : RowsWrapped man man kids kids nbody (d ++ c :: t) [] [] :=
      ⟨h.represents, h.last, Extends.refl, by simp [h.kids_body], rfl, by simp⟩
    have hrows := hnil.old fun x hx => ⟨h.represents.count x (mem_nodes_child h.body_mem
      (h.kids_body ▸ List.mem_append_right d hx)), ?_⟩
    · rw [List.append_nil] at hrows
      exact ⟨_, hrows⟩
    · rcases List.mem_cons.mp hx with rfl | hx
      · exact .inl hc
      · exact .inr (ht x hx)

/-- The second loop wraps all runs if an item follows them, and fails otherwise. -/
theorem wrapLoop_cases (steps : Nat) {nbody c : Nat} {d t : List Nat}
    (h : WrapReady man kids nbody d c t) (hsteps : (c :: t).length < steps) :
    (RowsClosed man (c :: t) → ∃ man' kids' rows, wrapLoop steps man nbody (some c) = .ok man' ∧
        RowsWrapped man man' kids kids' nbody d (c :: t) rows) ∧
      (¬ RowsClosed man (c :: t) → wrapLoop steps man nbody (some c) = .error .null) := by
  induction steps generalizing man kids d c t with
  | zero => exact absurd hsteps (Nat.not_lt_zero _)
  | succ steps ih =>
    have hchildren := h.represents.linked.children nbody h.body_mem
    have hlt := h.represents.length_kids_lt h.body_mem
    have hcount : ∀ x ∈ c :: t, x < man.count := fun x hx =>
      h.represents.count x (mem_nodes_child h.body_mem
        (h.kids_body ▸ List.mem_append_right d hx))
    rw [h.kids_body] at hchildren hlt
    cases hc : (man.node c).tok.isIt with
    | true =>
      have hnext : roffNodeNext man c = .ok (t.find? fun n => !(man.node n).transparent) := by
        rw [roffNodeNext, hchildren.next_eq]
        have hchildren' : Children man.links nbody ((d ++ [c]) ++ t) := by simpa using hchildren
        refine skipTransparent_eq hchildren' (le_trans ?_ hlt.le)
        rw [List.length_append, List.length_cons]
        omega
      rw [wrapLoop, if_pos hc, hnext, Res.ok_bind]
      cases hfind : t.find? fun n => !(man.node n).transparent with
      | none =>
        obtain ⟨hclosed, rows, hrows⟩ := h.finish hc fun x hx => by
          simpa using List.find?_eq_none.mp hfind x hx
        exact ⟨fun _ => ⟨man, kids, rows, wrapLoop_none steps nbody, hrows⟩,
          fun hnot => absurd (rowsClosed_cons.mpr ⟨.inr (.inl hc), hclosed⟩) hnot⟩
      | some y =>
        obtain ⟨hy, t₀, t₁, rfl, ht₀⟩ := List.find?_eq_some_iff_append.mp hfind
        have hy : (man.node y).transparent = false := by simpa using hy
        have ht₀ : ∀ x ∈ t₀, (man.node x).transparent = true := fun x hx => by
          simpa using ht₀ x hx
        have hshort : (y :: t₁).length < steps := by
          simp only [List.length_cons, List.length_append] at hsteps ⊢
          omega
        have hclosed : RowsClosed man (c :: (t₀ ++ y :: t₁)) ↔ RowsClosed man (y :: t₁) := by
          rw [rowsClosed_cons, rowsClosed_append (.inl ht₀)]
          exact and_iff_right (.inr (.inl hc))
        rw [hclosed]
        refine (ih (h.next hy) hshort).imp_left fun hih hclosed => ?_
        obtain ⟨man', kids', rows, hok, hrows⟩ := hih hclosed
        refine ⟨man', kids', _, hok, hrows.old fun x hx => ⟨?_, ?_⟩⟩
        · exact hcount x (List.mem_append_left (y :: t₁) hx)
        · exact (List.mem_cons.mp hx).elim (fun he => .inl (he ▸ hc)) fun hx => .inr (ht₀ x hx)
    | false =>
      obtain ⟨hd, htrans⟩ := h.start.resolve_left (by simp [hc])
      -- The run reaches up to the next item.
      obtain ⟨r, l₂, rfl, hr, hl₂⟩ : ∃ r l₂, t = r ++ l₂ ∧
          (∀ x ∈ r, (man.node x).tok.isIt = false) ∧ ∀ y ∈ l₂.head?, (man.node y).tok.isIt = true := by
        refine ⟨t.takeWhile fun x => !(man.node x).tok.isIt, t.dropWhile fun x => !(man.node x).tok.isIt,
          List.takeWhile_append_dropWhile.symm, fun x hx => ?_, fun y hy => ?_⟩
        · simpa using List.mem_takeWhile_imp hx
        · have hhead := List.head?_dropWhile_not (fun x => !(man.node x).tok.isIt) t
          rw [Option.mem_def.mp hy] at hhead
          simpa using hhead
      have hrun : ∀ x ∈ c :: r, (man.node x).tok.isIt = false ∧ (man.node x).plain := by
        intro x hx
        have hit : (man.node x).tok.isIt = false :=
          (List.mem_cons.mp hx).elim (fun he => he ▸ hc) fun hx => hr x hx
        exact ⟨hit, h.plain x (List.mem_append_left l₂ hx) hit⟩
      cases l₂ with
      | nil =>
        rw [List.append_nil] at h hsteps ⊢
        refine ⟨fun hclosed => ?_, fun _ =>
          wrapLoop_null h.represents h.body_mem h.root h.kids_body hd hrun hsteps⟩
        rcases (rowsClosed_cons.mp hclosed).1 with htrue | htrue | ⟨y, hy, htrue⟩
        · exact absurd htrue (by simp [htrans])
        · exact absurd htrue (by simp [hc])
        · exact absurd htrue (by simp [hr y hy])
      | cons y l₂ =>
        have hy := hl₂ y rfl
        have hsplit : kids nbody = d ++ (c :: r) ++ y :: l₂ := by simp [h.kids_body]
        obtain ⟨man₁, kids₁, hround, h₁, hcount₁, hbody₁, hkids₁, hw₁, hext₁⟩ :=
          wrapRound_ok man.count h.represents h.body_mem hsplit hd hrun hl₂ (by
            refine lt_of_le_of_lt ?_ hlt
            simp only [List.length_cons, List.length_append]
            omega)
        have hready := h.wrapped hy h₁ hext₁ hbody₁ hkids₁
        have hshort : (y :: l₂).length < steps := by
          simp only [List.length_cons, List.length_append] at hsteps ⊢
          omega
        have hclosed : RowsClosed { man₁ with last := some nbody } (y :: l₂) ↔
            RowsClosed man (c :: (r ++ y :: l₂)) := by
          rw [← List.cons_append, rowsClosed_append (.inr ⟨y, List.mem_cons_self .., hy⟩)]
          exact rowsClosed_congr fun x hx => hext₁.node x (hcount x
            (List.mem_cons_of_mem c (List.mem_append_right r hx)))
        rw [wrapLoop, if_neg (by simp [hc]), hround, ← hclosed]
        refine (ih hready hshort).imp_left fun hih hclosed => ?_
        obtain ⟨man', kids', rows, hok, hrows⟩ := hih hclosed
        exact ⟨man', kids', _, hok, hrows.cons hext₁ hcount₁ hw₁ (h.represents.count _ h.body_mem)⟩

end

end Mandoc
