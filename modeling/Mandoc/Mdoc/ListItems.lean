import Mandoc.Mdoc.ListRows

/-!
# Items of Lists

What `post_bl()` does to the body of a list as a whole: the first loop moves nodes out of the list,
and the second one wraps what is left between the items.

- `moveOutLoop_ok` is the result of the first loop.
- `erOrderLoop_ok` says that the comparison of error numbers can read the items.
- `postBl_cases` describes the complete validation.
-/

namespace Mandoc

open OrderedForest

section

variable {man man' : RoffMan} {kids kids' : Nat → List Nat} {q : Nat} {l l₁ : List Nat}

/-! ## §1 Moving nodes out of the list -/

/-- The first loop is at work: the list `blk` with the body `nbody` comes behind `l₁` and before
    `post` below `gp`, and its body has the children `l`. -/
structure OutReady (man : RoffMan) (kids : Nat → List Nat) (nbody blk gp : Nat)
    (l₁ post l : List Nat) : Prop where
  represents : Represents man kids
  body_mem : nbody ∈ kids blk
  outer_mem : gp ∈ Nodes kids man.roots
  outer_kids : kids gp = l₁ ++ blk :: post
  kids_body : kids nbody = l
  plain : ∀ x ∈ l, (man.node x).tok.isIt = false → (man.node x).plain
  item : ∀ x ∈ l, (man.node x).tok.isIt = true → (man.node x).transparent = false

section

variable {nbody blk gp c : Nat} {post : List Nat}

theorem OutReady.nodes (h : OutReady man kids nbody blk gp l₁ post l) :
    blk ∈ Nodes kids man.roots ∧ nbody ∈ Nodes kids man.roots := by
  have hblk := mem_nodes_child h.outer_mem (c := blk) (by simp [h.outer_kids])
  exact ⟨hblk, mem_nodes_child hblk h.body_mem⟩

theorem OutReady.not_root (h : OutReady man kids nbody blk gp l₁ post l) :
    man.first ≠ some nbody := fun hf =>
  h.represents.linked.forest.roots blk h.nodes.1 nbody hf h.body_mem

/-- The parse point is set before the list. -/
theorem OutReady.pointBefore (h : OutReady man kids nbody blk gp l₁ post l) :
    ∃ last next, pointBefore man blk = { man with last := last, next := next } ∧
      RoffMan.PointsTo { man with last := last, next := next } gp l₁ := by
  have hchildren := h.represents.linked.children gp h.outer_mem
  have hparent := h.represents.linked.parent_eq h.outer_mem (x := blk) (by simp [h.outer_kids])
  rw [h.outer_kids] at hchildren
  have hprev := hchildren.prev_eq
  rcases List.eq_nil_or_concat l₁ with rfl | ⟨l, s, rfl⟩
  · rw [List.getLast?_nil] at hprev
    refine ⟨some gp, .CHILD, ?_, .inl ⟨rfl, rfl, rfl⟩⟩
    simp only [Mandoc.pointBefore, hprev, hparent]
  · rw [List.concat_eq_append] at hprev ⊢
    rw [List.getLast?_concat] at hprev
    refine ⟨some s, .SIBLING, ?_, .inr ⟨rfl, List.getLast?_concat.symm, by simp⟩⟩
    simp only [Mandoc.pointBefore, hprev]

/-- The first child is moved out of the list. -/
theorem OutReady.move (h : OutReady man kids nbody blk gp l₁ post (c :: l))
    (hc : (man.node c).tok.isIt = false) :
    ∃ man' kids', roffNodeRelink (Mandoc.pointBefore man blk) c = .ok man' ∧
      OutReady man' kids' nbody blk gp (l₁ ++ [c]) post l ∧ man'.last = some c ∧
      man'.count = man.count ∧ man'.node = man.node ∧
      Extends man man' kids kids' [nbody, gp] := by
  have hf := h.represents.linked.forest
  obtain ⟨hblk, hbody⟩ := h.nodes
  have hcn : c ∈ kids nbody := by simp [h.kids_body]
  have hblkgp : blk ∈ kids gp := by simp [h.outer_kids]
  -- The list is below the outer node, which thus is not below a child of the list.
  have hbelow : ¬ Below kids c gp := fun hcgp => hf.acyclic hbody hcn
    ((hcgp.tail hblkgp).tail h.body_mem)
  have hgpn : gp ≠ nbody := by
    rintro rfl
    exact hf.acyclic hbody hblkgp (Relation.ReflTransGen.single h.body_mem)
  have hblkn : blk ≠ nbody := fun heq => hf.acyclic hblk h.body_mem (heq ▸ .refl)
  have hblkg : blk ≠ gp := fun heq => hf.acyclic h.outer_mem hblkgp (heq ▸ .refl)
  obtain ⟨last, next, hpoint, hpointsTo⟩ := h.pointBefore
  have hcut : Forest.cutKids kids nbody c gp = l₁ ++ blk :: post := by
    rw [Forest.cutKids, Function.update_of_ne hgpn, h.outer_kids]
  obtain ⟨links, hrelink, -, hrep⟩ := (h.represents.setPoint last next h.outer_mem h.outer_kids
    hpointsTo).relink_at hbody hcn h.outer_mem hbelow hpointsTo hcut
  have hplain := h.plain c (List.mem_cons_self ..) hc
  refine ⟨_, _, (congrArg (roffNodeRelink · c) hpoint).trans
    (hrelink.trans (roffNodeRole_plain hplain)), ⟨hrep, ?_, ?_, ?_, ?_, ?_, ?_⟩, rfl, rfl, rfl,
    rfl, le_refl _, fun _ _ => rfl, fun x _ hx => ?_⟩
  · simpa [Forest.attachKids, Forest.cutKids, hblkg, hblkn] using h.body_mem
  · have hperm : (l₁ ++ c :: blk :: post).Perm (c :: Forest.cutKids kids nbody c gp) := by
      rw [hcut]
      exact List.perm_middle
    exact Forest.mem_nodes_attach hperm (Forest.mem_nodes_cut h.outer_mem hbelow)
  · simp [Forest.attachKids]
  · simp [Forest.attachKids, Forest.cutKids, hgpn.symm, h.kids_body]
  · exact fun x hx => h.plain x (List.mem_cons_of_mem c hx)
  · exact fun x hx => h.item x (List.mem_cons_of_mem c hx)
  · have hxn : x ≠ nbody := fun he => hx (by simp [he])
    have hxg : x ≠ gp := fun he => hx (by simp [he])
    simp [Forest.attachKids, Forest.cutKids, hxn, hxg]

/-- The first node that is not transparent. -/
def firstVisible (man : RoffMan) (l : List Nat) : Option Nat :=
  l.find? fun n => !(man.node n).transparent

/-- The loop is about to look at the first visible child. Its number is known if the node moved
    last is another one. -/
def KeepsFirst (man : RoffMan) (nbody nchild : Nat) (l : List Nat) : Prop :=
  keptChild man nbody nchild = .ok (firstVisible man l)

/-- At the beginning, and when a visible node has been moved, the number is looked up. -/
theorem OutReady.keepsFirst {nchild : Nat} (h : OutReady man kids nbody blk gp l₁ post l)
    (hlast : man.last = some nchild) : KeepsFirst man nbody nchild l := by
  have hchildren := h.represents.linked.children nbody h.nodes.2
  have hlength := h.represents.length_kids_lt h.nodes.2
  rw [h.kids_body] at hchildren hlength
  rw [KeepsFirst, keptChild, if_pos hlast, roffNodeChild, hchildren.child]
  exact skipTransparent_eq (a := []) hchildren hlength.le

/-- The result of the first loop: the nodes `moved` have been moved out, and `rest` begins with
    an item, apart from transparent nodes, unless it has only got those. -/
structure MovedOut (man man' : RoffMan) (kids kids' : Nat → List Nat) (nbody blk gp : Nat)
    (l₁ post l moved rest : List Nat) : Prop where
  split : l = moved ++ rest
  moved_plain : ∀ x ∈ moved, (man.node x).tok.isIt = false
  rest_item : ∀ y ∈ firstVisible man rest, (man.node y).tok.isIt = true
  ready : OutReady man' kids' nbody blk gp (l₁ ++ moved) post rest
  last : man'.last = some nbody
  count : man'.count = man.count
  node : man'.node = man.node
  unchanged : Extends man man' kids kids' [nbody, gp]

/-- The loop stops if the first visible node is an item, or if there is none. -/
theorem moveOutLoop_stop (steps : Nat) {nchild : Nat} (h : OutReady man kids nbody blk gp l₁ post l)
    (hkept : KeepsFirst man nbody nchild l)
    (hit : ∀ y ∈ firstVisible man l, (man.node y).tok.isIt = true) :
    moveOutLoop (steps + 1) man nbody nchild = .ok ({ man with last := some nbody }, firstVisible man l) ∧
      MovedOut man { man with last := some nbody } kids kids nbody blk gp l₁ post l [] l := by
  constructor
  · rw [moveOutLoop, hkept, Res.ok_bind]
    cases hfirst : firstVisible man l with
    | none => rfl
    | some y =>
      rw [hfirst] at hit
      simp only [hit y rfl, if_true]
  · refine ⟨rfl, by simp, hit, ⟨h.represents.setBody h.nodes.2 h.not_root, h.body_mem, h.outer_mem,
      ?_, h.kids_body, h.plain, h.item⟩, rfl, rfl, rfl, ⟨rfl, le_refl _, fun _ _ => rfl,
      fun _ _ _ => rfl⟩⟩
    rw [List.append_nil]
    exact h.outer_kids

/-- The first loop moves out everything up to the last visible node before the first item. -/
theorem moveOutLoop_ok (steps : Nat) {nchild : Nat} (h : OutReady man kids nbody blk gp l₁ post l)
    (hkept : KeepsFirst man nbody nchild l) (hsteps : l.length < steps) :
    ∃ man' kids' moved rest, moveOutLoop steps man nbody nchild = .ok (man', firstVisible man rest) ∧
      MovedOut man man' kids kids' nbody blk gp l₁ post l moved rest := by
  induction l generalizing man kids l₁ nchild steps with
  | nil =>
    obtain ⟨steps, rfl⟩ : ∃ m, steps = m + 1 := Nat.exists_eq_add_one.mpr hsteps
    exact ⟨_, kids, [], [], moveOutLoop_stop steps h hkept (by simp [firstVisible])⟩
  | cons c l ih =>
    obtain ⟨steps, rfl⟩ : ∃ m, steps = m + 1 :=
      Nat.exists_eq_add_one.mpr (lt_of_le_of_lt (Nat.zero_le _) hsteps)
    by_cases hit : ∀ y ∈ firstVisible man (c :: l), (man.node y).tok.isIt = true
    · exact ⟨_, kids, [], c :: l, moveOutLoop_stop steps h hkept hit⟩
    obtain ⟨y, hy, hnot⟩ : ∃ y ∈ firstVisible man (c :: l), (man.node y).tok.isIt = false := by
      simpa using hit
    -- The first child is not an item: it is transparent, or it is the first visible node.
    have hc : (man.node c).tok.isIt = false := by
      cases hcit : (man.node c).tok.isIt with
      | false => rfl
      | true =>
        have hvisible := h.item c (List.mem_cons_self ..) hcit
        rw [firstVisible, List.find?_cons_of_pos (by simp [hvisible])] at hy
        rw [← Option.some.inj hy, hcit] at hnot
        exact absurd hnot.symm Bool.false_ne_true
    obtain ⟨man₁, kids₁, hrelink, h₁, hlast₁, hcount₁, hnode₁, hext₁⟩ := h.move hc
    have hfirst : ∀ l, firstVisible man₁ l = firstVisible man l := fun l => by
      rw [firstVisible, firstVisible, hnode₁]
    have hkept₁ : KeepsFirst man₁ nbody y l := by
      cases htrans : (man.node c).transparent with
      | false =>
        rw [firstVisible, List.find?_cons_of_pos (by simp [htrans])] at hy
        exact h₁.keepsFirst (Option.some.inj hy ▸ hlast₁)
      | true =>
        rw [firstVisible, List.find?_cons_of_neg (by simp [htrans])] at hy
        have hne : man₁.last ≠ some y := by
          rw [hlast₁]
          intro heq
          have hvisible := List.find?_some hy
          rw [← Option.some.inj heq, htrans] at hvisible
          exact absurd hvisible (by decide)
        rw [KeepsFirst, keptChild, if_neg hne, hfirst]
        exact congrArg Except.ok hy.symm
    obtain ⟨man₂, kids₂, moved, rest, hok, hmoved⟩ :=
      ih steps h₁ hkept₁ (Nat.lt_of_succ_lt_succ hsteps)
    refine ⟨man₂, kids₂, c :: moved, rest, ?_, ?_, fun x hx => ?_, ?_, ?_, hmoved.last,
      hmoved.count.trans hcount₁, hmoved.node.trans hnode₁, hext₁.trans hmoved.unchanged⟩
    · have hparent := h.represents.linked.parent_eq h.nodes.1 h.body_mem
      have hchild := (h.represents.linked.children nbody h.nodes.2).child
      rw [h.kids_body, List.head?_cons] at hchild
      rw [moveOutLoop, hkept, Res.ok_bind, Option.mem_def.mp hy]
      simp only [hnot, Bool.false_eq_true, if_false, hparent, hchild, hrelink, Res.ok_bind]
      rw [hok, hfirst]
    · rw [hmoved.split, List.cons_append]
    · rcases List.mem_cons.mp hx with rfl | hx
      · exact hc
      · exact hnode₁ ▸ hmoved.moved_plain x hx
    · simpa only [hfirst, hnode₁] using hmoved.rest_item
    · have hready := hmoved.ready
      rwa [List.append_assoc] at hready

/-! ## §2 Reading the error numbers -/

/-- An `Er` macro has got a name. -/
def ErNamed (man : RoffMan) (kids : Nat → List Nat) (er : Nat) : Prop :=
  (man.node er).tok = .MDOC "Er" → ∃ name ∈ (kids er).head?, (man.node name).string ≠ none

/-- The item has got a head, a block at the beginning of the head has got a body, and an `Er`
    macro at the beginning has got a name. -/
def ItemReadable (man : RoffMan) (kids : Nat → List Nat) (c : Nat) : Prop :=
  ∃ head ∈ kids c, (man.node c).head = some head ∧ ∀ f ∈ (kids head).head?,
    if (man.node f).type = .BLOCK then
      ∃ body ∈ kids f, (man.node f).body = some body ∧ ∀ er ∈ (kids body).head?, ErNamed man kids er
    else ErNamed man kids f

/-- The part of the tree below `c` is the same in `man'`. -/
def SameBelow (man man' : RoffMan) (kids : Nat → List Nat) (c : Nat) : Prop :=
  ∀ x, Below kids c x → man'.node x = man.node x ∧ (man'.links x).child = (kids x).head?

/-- What has been read from an item is fine for the comparison of the names. -/
def ErRead (man : RoffMan) (nchild : Nat) : Prop :=
  ∃ er, itemEr man nchild = .ok er ∧
    ∀ m ∈ er, ∃ name, (man.links m).child = some name ∧ (man.node name).string ≠ none

/-- The first node is used if it is an `Er` macro. -/
theorem ErNamed.read (h : SameBelow man man' kids c) {o : Option Nat}
    (ho : ∀ m ∈ o, Below kids c m ∧ ErNamed man kids m) :
    ∀ m ∈ o.filter fun n => decide ((man'.node n).tok = .MDOC "Er"),
      ∃ name, (man'.links m).child = some name ∧ (man'.node name).string ≠ none := by
  intro m hm
  obtain ⟨hmo, htok⟩ := Option.mem_filter_iff.mp hm
  obtain ⟨hbelow, hnamed⟩ := ho m hmo
  obtain ⟨hnode, hchild⟩ := h m hbelow
  rw [hnode] at htok
  obtain ⟨name, hname, hstring⟩ := hnamed (of_decide_eq_true htok)
  have hbname : Below kids c name := hbelow.tail (List.mem_of_head? hname)
  exact ⟨name, hchild.trans hname, (h name hbname).1 ▸ hstring⟩

theorem ItemReadable.read (h : ItemReadable man kids c) (hsame : SameBelow man man' kids c) :
    ErRead man' c := by
  obtain ⟨head, hhead, hptr, hfirst⟩ := h
  have hbhead : Below kids c head := Relation.ReflTransGen.single hhead
  obtain ⟨hnode, -⟩ := hsame c .refl
  obtain ⟨-, hchild⟩ := hsame head hbhead
  rw [ErRead, itemEr]
  simp only [hnode, hptr, hchild]
  cases hf : (kids head).head? with
  | none => exact ⟨none, rfl, by simp⟩
  | some f =>
    have hbf : Below kids c f := hbhead.tail (List.mem_of_head? hf)
    have hread := hfirst f hf
    simp only [(hsame f hbf).1]
    split
    · rename_i hblock
      rw [if_pos hblock] at hread
      obtain ⟨body, hbody, hbptr, hers⟩ := hread
      have hbb : Below kids c body := hbf.tail hbody
      simp only [hbptr, (hsame body hbb).2]
      exact ⟨_, rfl, ErNamed.read hsame fun m hm => ⟨hbb.tail (List.mem_of_head? hm), hers m hm⟩⟩
    · rename_i hblock
      rw [if_neg hblock] at hread
      refine ⟨_, rfl, ErNamed.read hsame fun m hm => ?_⟩
      obtain rfl := Option.some.inj hm
      exact ⟨hbf, hread⟩

/-- If all items can be read, nothing goes wrong. -/
theorem erOrderLoop_ok {a t : List Nat} (steps : Nat) (hc : Children man.links q (a ++ t))
    (hread : ∀ x ∈ t, (man.node x).tok.isIt = true → ErRead man x) (hsteps : t.length ≤ steps)
    (prevEr : Option CStr) : erOrderLoop steps man t.head? prevEr = .ok () := by
  induction t generalizing a steps prevEr with
  | nil => cases steps <;> rfl
  | cons c t ih =>
    obtain ⟨steps, rfl⟩ : ∃ m, steps = m + 1 :=
      Nat.exists_eq_add_one.mpr (lt_of_lt_of_le (by simp) hsteps)
    have hnext := ih (a := a ++ [c]) steps (by simpa using hc)
      (fun x hx => hread x (List.mem_cons_of_mem c hx)) (Nat.le_of_succ_le_succ hsteps)
    rw [List.head?_cons, erOrderLoop, hc.next_eq]
    cases hit : (man.node c).tok.isIt with
    | false => simpa using hnext prevEr
    | true =>
      obtain ⟨er, her, hname⟩ := hread c (List.mem_cons_self ..) hit
      simp only [if_true, her, Res.ok_bind]
      cases er with
      | none => exact hnext prevEr
      | some m =>
        obtain ⟨name, hchild, hstring⟩ := hname m rfl
        simp only [hchild, hstring, and_false, if_false]
        exact hnext _

/-! ## §3 The result -/

/-- The body of a `Bl` block in a syntax tree, ready for being validated. The block stands behind
    `pre` and before `post` below the node `gp`. -/
structure BlBody (man : RoffMan) (kids : Nat → List Nat) (nbody blk gp : Nat) (pre post : List Nat) :
    Prop where
  represents : Represents man kids
  last : man.last = some nbody
  endb : (man.node nbody).endb = .NOT
  body_mem : nbody ∈ kids blk
  outer_kids : kids gp = pre ++ blk :: post
  outer_mem : gp ∈ Nodes kids man.roots
  /-- Heads, bodies, and tails are children of blocks only, apart from end marks. -/
  plain : ∀ x ∈ kids nbody, (man.node x).plain
  /-- The macro `It` makes blocks, and these are printed. -/
  item : ∀ x ∈ kids nbody, (man.node x).tok.isIt = true →
    (man.node x).type = .BLOCK ∧ (man.node x).flags.noprt = false
  readable : ∀ x ∈ kids nbody, (man.node x).tok.isIt = true → ItemReadable man kids x

/-- What `post_bl()` is for. The nodes `moved`, which include all visible ones before the first
    item, stand before the list; the other nodes are still there in their order, as children of
    the list or of an implicit item; and the visible children of the list are items. -/
structure BlResult (man man' : RoffMan) (kids kids' : Nat → List Nat) (nbody blk gp : Nat)
    (pre post moved rest : List Nat) (rows : List Row) : Prop where
  represents : Represents man' kids'
  last : man'.last = some nbody
  unchanged : Extends man man' kids kids' [nbody, gp]
  split : kids nbody = moved ++ rest
  moved_plain : ∀ x ∈ moved, (man.node x).tok.isIt = false
  rest_item : ∀ y ∈ firstVisible man rest, (man.node y).tok.isIt = true
  outer_kids : kids' gp = pre ++ moved ++ blk :: post
  kids_body : kids' nbody = rows.map Row.child
  content : rows.flatMap Row.content = rest
  valid : ∀ row ∈ rows, row.Valid man.count man' kids'
  items : ∀ x ∈ kids' nbody, (man'.node x).transparent = false →
    (man'.node x).tok.isIt = true ∧ (man'.node x).type = .BLOCK

/-- From the first item on, every node is transparent, or an item, or followed by an item. -/
def ItemsLast (man : RoffMan) (l : List Nat) : Prop :=
  RowsClosed man (l.dropWhile fun x => !(man.node x).tok.isIt)

/-- An item is visible. -/
theorem BlBody.visible {pre : List Nat} (h : BlBody man kids nbody blk gp pre post) {x : Nat}
    (hx : x ∈ kids nbody) (hit : (man.node x).tok.isIt = true) :
    (man.node x).transparent = false := by
  obtain ⟨htype, hnoprt⟩ := h.item x hx hit
  have htok : (man.node x).tok = .MDOC "It" := of_decide_eq_true hit
  rw [RoffNode.transparent, htype, hnoprt, htok]
  decide

theorem BlBody.ready {pre : List Nat} (h : BlBody man kids nbody blk gp pre post) :
    OutReady man kids nbody blk gp pre post (kids nbody) :=
  ⟨h.represents, h.body_mem, h.outer_mem, h.outer_kids, rfl, fun x hx _ => h.plain x hx,
    fun _ hx => h.visible hx⟩

/-- The tree below an item is not touched. -/
theorem BlBody.sameBelow {pre : List Nat} (h : BlBody man kids nbody blk gp pre post)
    (hrep : Represents man' kids') (hext : Extends man man' kids kids' [nbody, gp])
    (hbody : nbody ∈ Nodes kids' man'.roots) (hc : c ∈ kids nbody) (hc' : c ∈ kids' nbody) :
    SameBelow man man' kids c := by
  have hf := h.represents.linked.forest
  obtain ⟨hblk, hnbody⟩ := h.ready.nodes
  have hcn := mem_nodes_child hnbody hc
  have hnot : ∀ x, Below kids c x → x ∉ [nbody, gp] := by
    intro x hx hin
    have hup : Below kids c nbody := by
      rcases List.mem_pair.mp hin with rfl | rfl
      · exact hx
      · exact (hx.tail (show blk ∈ kids x by simp [h.outer_kids])).tail h.body_mem
    exact hf.acyclic hnbody hc hup
  -- Going down from the item, the children stay the same.
  have hsame : ∀ x, Below kids c x → x ∈ Nodes kids' man'.roots ∧ kids' x = kids x := by
    intro x hx
    have hxkids : kids' x = kids x :=
      hext.kids x (h.represents.count x (mem_nodes_below hcn hx)) (hnot x hx)
    refine ⟨?_, hxkids⟩
    induction hx with
    | refl => exact mem_nodes_child hbody hc'
    | @tail y z hy hyz ih =>
      have hykids : kids' y = kids y :=
        hext.kids y (h.represents.count y (mem_nodes_below hcn hy)) (hnot y hy)
      exact mem_nodes_child (ih hykids) (show z ∈ kids' y from hykids ▸ hyz)
  intro x hx
  obtain ⟨hmem, hkids⟩ := hsame x hx
  refine ⟨hext.node x (h.represents.count x (mem_nodes_below hcn hx)), ?_⟩
  rw [(hrep.linked.children x hmem).child, hkids]

/-- An implicit item does not begin with an `Er` macro. -/
theorem ItemAround.erRead {b : Nat} (hw : ItemAround man kids b l) (h : Represents man kids)
    (hq : q ∈ Nodes kids man.roots) (hb : b ∈ kids q) : ErRead man b := by
  have hmem : b + 1 ∈ Nodes kids man.roots :=
    mem_nodes_child (mem_nodes_child hq hb) (by simp [hw.block_kids])
  have hchild := (h.linked.children (b + 1) hmem).child
  rw [hw.head_kids, List.head?_nil] at hchild
  refine ⟨none, ?_, by simp⟩
  rw [itemEr]
  simp only [hw.head, hchild]

/-- Both loops together. -/
theorem BlBody.result {man₁ man₂ : RoffMan} {kids₁ kids₂ : Nat → List Nat}
    {pre moved rest : List Nat} {rows : List Row} (h : BlBody man kids nbody blk gp pre post)
    (hm : MovedOut man man₁ kids kids₁ nbody blk gp pre post (kids nbody) moved rest)
    (hw : RowsWrapped man₁ man₂ kids₁ kids₂ nbody [] rest rows) :
    BlResult man man₂ kids kids₂ nbody blk gp pre post moved rest rows := by
  obtain ⟨hblk, hnbody⟩ := h.ready.nodes
  -- The body of the list is not one of its own ancestors.
  have hgpn : gp ≠ nbody := by
    rintro rfl
    exact h.represents.linked.forest.acyclic hnbody (show blk ∈ kids gp by simp [h.outer_kids])
      (Relation.ReflTransGen.single h.body_mem)
  have hext : Extends man man₂ kids kids₂ [nbody, gp] :=
    hm.unchanged.trans (hw.unchanged.mono fun x _ hx => by simp [List.mem_singleton.mp hx])
  have houter : kids₂ gp = kids₁ gp := by
    refine hw.unchanged.kids gp (hm.count ▸ h.represents.count gp h.outer_mem) ?_
    simpa using hgpn
  refine ⟨hw.represents, hw.last, hext, hm.split, hm.moved_plain, hm.rest_item,
    houter.trans hm.ready.outer_kids, by simpa using hw.kids_body, hw.content,
    fun row hrow => hm.count ▸ hw.valid row hrow, fun x hx hvisible => ?_⟩
  -- Every child of the body is an item that was there before or a new one.
  rw [hw.kids_body, List.nil_append] at hx
  obtain ⟨row, hrow, rfl⟩ := List.mem_map.mp hx
  have hvalid := hw.valid row hrow
  cases row with
  | old n =>
    have hn : n ∈ kids nbody := by
      rw [hm.split, ← hw.content]
      exact List.mem_append_right _ (List.mem_flatMap.mpr ⟨_, hrow, List.mem_singleton_self n⟩)
    have hnode : man₂.node n = man.node n :=
      hext.node n (h.represents.count n (mem_nodes_child hnbody hn))
    have hit : (man₂.node n).tok.isIt = true :=
      hvalid.resolve_right fun htrans => by
        have hvisible : (man₂.node n).transparent = false := hvisible
        rw [htrans] at hvisible
        exact absurd hvisible.symm Bool.false_ne_true
    refine ⟨hit, ?_⟩
    show (man₂.node n).type = .BLOCK
    rw [hnode] at hit ⊢
    exact (h.item n hn hit).1
  | wrapped b l => exact ⟨hvalid.2.2.tok, hvalid.2.2.type⟩

/-- All the items of the result can be read. -/
theorem BlResult.erRead {man₂ : RoffMan} {kids₂ : Nat → List Nat} {pre moved rest : List Nat}
    {rows : List Row} (h : BlBody man kids nbody blk gp pre post)
    (hr : BlResult man man₂ kids kids₂ nbody blk gp pre post moved rest rows) :
    ∀ x ∈ kids₂ nbody, (man₂.node x).tok.isIt = true → ErRead man₂ x := by
  obtain ⟨-, hnbody⟩ := h.ready.nodes
  have hbody := hr.represents.last nbody hr.last
  intro x hx hit
  have hxkids := hx
  rw [hr.kids_body] at hx
  obtain ⟨row, hrow, rfl⟩ := List.mem_map.mp hx
  have hvalid := hr.valid row hrow
  cases row with
  | old n =>
    have hn : n ∈ kids nbody := by
      rw [hr.split, ← hr.content]
      exact List.mem_append_right _ (List.mem_flatMap.mpr ⟨_, hrow, List.mem_singleton_self n⟩)
    have hnode : man₂.node n = man.node n :=
      hr.unchanged.node n (h.represents.count n (mem_nodes_child hnbody hn))
    have hit : (man₂.node n).tok.isIt = true := hit
    rw [hnode] at hit
    exact (h.readable n hn hit).read (h.sameBelow hr.represents hr.unchanged hbody hn hxkids)
  | wrapped b l => exact hvalid.2.2.erRead hr.represents hbody hxkids

/-- What `post_bl()` does to the body of a list. -/
theorem postBl_cases (netbsd : Bool) {pre : List Nat} (h : BlBody man kids nbody blk gp pre post) :
    (ItemsLast man (kids nbody) → ∃ man' kids' moved rest rows, postBl netbsd man = .ok man' ∧
        BlResult man man' kids kids' nbody blk gp pre post moved rest rows) ∧
      (¬ ItemsLast man (kids nbody) → postBl netbsd man = .error .null) := by
  obtain ⟨-, hnbody⟩ := h.ready.nodes
  obtain ⟨man₁, kids₁, moved, rest, hok, hm⟩ := moveOutLoop_ok (man.count + 1) h.ready
    (h.ready.keepsFirst h.last) (Nat.lt_succ_of_lt (h.represents.length_kids_lt hnbody))
  have hpost : postBl netbsd man =
      (firstVisible man rest).elim (.ok man₁) (postBlItems netbsd man₁ nbody) := by
    rw [postBl, h.last]
    simp only [h.endb, ne_eq, not_true_eq_false, if_false, hok, Res.ok_bind]
    cases firstVisible man rest <;> rfl
  have hfirst : firstVisible man rest = rest.find? fun n => !(man.node n).transparent := rfl
  have hcount : ∀ x ∈ kids nbody, x < man.count := fun x hx =>
    h.represents.count x (mem_nodes_child hnbody hx)
  have hrest : ∀ x ∈ rest, x ∈ kids nbody := fun x hx => hm.split ▸ List.mem_append_right moved hx
  have hhidden : ∀ x ∈ rest, (man.node x).transparent = true → (man.node x).tok.isIt = false := by
    intro x hx htrans
    cases hit : (man.node x).tok.isIt with
    | false => rfl
    | true => exact absurd (htrans.symm.trans (h.visible (hrest x hx) hit)) (by decide)
  rw [hpost]
  cases hvisible : firstVisible man rest with
  | none =>
    -- There is no item.
    have htrans : ∀ x ∈ rest, (man.node x).transparent = true := by
      intro x hx
      simpa using List.find?_eq_none.mp (hfirst.symm.trans hvisible) x hx
    have hclosed : ItemsLast man (kids nbody) := by
      have hdrop : (kids nbody).dropWhile (fun x => !(man.node x).tok.isIt) = [] := by
        refine List.dropWhile_eq_nil_iff.mpr fun x hx => ?_
        rw [hm.split] at hx
        rcases List.mem_append.mp hx with hx | hx
        · simp [hm.moved_plain x hx]
        · simp [hhidden x hx (htrans x hx)]
      rw [ItemsLast, hdrop]
      exact rowsClosed_nil
    have hnil : RowsWrapped man₁ man₁ kids₁ kids₁ nbody ([] ++ rest) [] [] :=
      ⟨hm.ready.represents, hm.last, Extends.refl, by simp [hm.ready.kids_body], rfl, by simp⟩
    have hrows := hnil.old fun x hx => ⟨hm.count ▸ hcount x (hrest x hx),
      .inr (hm.node ▸ htrans x hx)⟩
    rw [List.append_nil] at hrows
    exact ⟨fun _ => ⟨man₁, kids₁, moved, rest, _, rfl, h.result hm hrows⟩,
      fun hnot => absurd hclosed hnot⟩
  | some y =>
    obtain ⟨hyvisible, t₀, t₁, rfl, ht₀⟩ :=
      List.find?_eq_some_iff_append.mp (hfirst.symm.trans hvisible)
    have ht₀ : ∀ x ∈ t₀, (man.node x).transparent = true := fun x hx => by simpa using ht₀ x hx
    have hy : (man.node y).tok.isIt = true := hm.rest_item y hvisible
    have hready : WrapReady man₁ kids₁ nbody t₀ y t₁ :=
      ⟨hm.ready.represents, hm.last, hm.ready.not_root, hm.ready.kids_body, .inl (hm.node ▸ hy),
        fun x hx => hm.ready.plain x (List.mem_append_right t₀ hx),
        fun x hx => hm.ready.item x (List.mem_append_right t₀ hx)⟩
    -- The items begin with the first visible node that has not been moved.
    have hclosed : ItemsLast man (kids nbody) ↔ RowsClosed man₁ (y :: t₁) := by
      have hdrop : (kids nbody).dropWhile (fun x => !(man.node x).tok.isIt) = y :: t₁ := by
        rw [hm.split, List.dropWhile_append_of_pos fun x hx => by simp [hm.moved_plain x hx],
          List.dropWhile_append_of_pos fun x hx => by
            simp [hhidden x (List.mem_append_left _ hx) (ht₀ x hx)],
          List.dropWhile_cons_of_neg (by simp [hy])]
      rw [ItemsLast, hdrop]
      exact (rowsClosed_congr fun x _ => by rw [hm.node]).symm
    have hlength : (y :: t₁).length < man₁.count + 1 := by
      have hlt := hm.ready.represents.length_kids_lt hready.body_mem
      rw [hready.kids_body, List.length_append] at hlt
      omega
    obtain ⟨hwrap, hnull⟩ := wrapLoop_cases (man₁.count + 1) hready hlength
    rw [hclosed]
    refine ⟨fun hrows => ?_, fun hnot => ?_⟩
    · obtain ⟨man₂, kids₂, rows, hwrap, hrows⟩ := hwrap hrows
      have hold := (show RowsWrapped man₁ man₂ kids₁ kids₂ nbody ([] ++ t₀) (y :: t₁) rows from
        hrows).old fun x hx => ⟨hm.count ▸ hcount x (hrest x (List.mem_append_left _ hx)),
          .inr (hm.node ▸ ht₀ x hx)⟩
      have hresult := h.result hm hold
      refine ⟨man₂, kids₂, moved, _, _, ?_, hresult⟩
      have hbody := hresult.represents.last nbody hresult.last
      have hchildren := hresult.represents.linked.children nbody hbody
      simp only [Option.elim_some, postBlItems, hwrap, Res.ok_bind, hchildren.child]
      cases netbsd with
      | false => rfl
      | true =>
        rw [if_pos rfl, erOrderLoop_ok (a := []) man₂.count hchildren (hresult.erRead h)
          (hresult.represents.length_kids_lt hbody).le]
        rfl
    · simp only [Option.elim_some, postBlItems, hnull hnot]
      rfl

/-- The validation of the body of a list succeeds if, from the first item on, every node is
    transparent, or an item, or followed by an item. -/
theorem postBl_iff (netbsd : Bool) {pre : List Nat} (h : BlBody man kids nbody blk gp pre post) :
    (∃ man' kids' moved rest rows, postBl netbsd man = .ok man' ∧
      BlResult man man' kids kids' nbody blk gp pre post moved rest rows) ↔
      ItemsLast man (kids nbody) := by
  obtain ⟨hok, hnull⟩ := postBl_cases netbsd h
  refine ⟨?_, hok⟩
  rintro ⟨man', kids', moved, rest, rows, hrun, -⟩
  by_contra hnot
  rw [hnull hnot] at hrun
  cases hrun

end

end

/-- The children of a list with the block 1, the head 2, and the body 3. The item 5 has the head 7
    and the body 8. -/
def blKids (l : List Nat) : Nat → List Nat
  | 0 => [1]
  | 1 => [2, 3]
  | 3 => l
  | 5 => [7, 8]
  | _ => []

/-- The nodes 4 and 6 are text and vertical space. -/
def blNode : Nat → RoffNode
  | 1 => { tok := .MDOC "Bl", type := .BLOCK, head := some 2, body := some 3 }
  | 2 => { tok := .MDOC "Bl", type := .HEAD }
  | 3 => { tok := .MDOC "Bl", type := .BODY }
  | 4 => { tok := .TOKEN_NONE, type := .TEXT, string := some ['x'] }
  | 5 => { tok := .MDOC "It", type := .BLOCK, head := some 7, body := some 8 }
  | 6 => { tok := .ROFF_sp, type := .ELEM }
  | 7 => { tok := .MDOC "It", type := .HEAD }
  | 8 => { tok := .MDOC "It", type := .BODY }
  | _ => {}

/-- The list while its body is being validated. -/
def blSample (l : List Nat) : RoffMan := manOf (blKids l) blNode 9 3

theorem blBody_blSample {l : List Nat}
    (hkids : ∀ p < 9, (blKids l p).Nodup ∧ Children (linksOf (blKids l) 9) p (blKids l p) ∧
      ∀ c ∈ blKids l p, c < 9 ∧ c ≠ 0 ∧ ∀ q < 9, c ∈ blKids l q → q = p)
    (hroot : linksOf (blKids l) 9 0 = { child := some 1, last := some 1 })
    (hl : ∀ x ∈ l, x = 4 ∨ x = 5 ∨ x = 6) :
    BlBody (blSample l) (blKids l) 3 1 0 [] [] := by
  have hblk : Child (blKids l) 0 1 := List.mem_singleton_self 1
  have hbody : Child (blKids l) 1 3 := by simp [Child, blKids]
  have hplain : ∀ x ∈ l, (blNode x).plain := by
    intro x hx
    rcases hl x hx with rfl | rfl | rfl <;> simp [RoffNode.plain, blNode]
  have hitem : ∀ x ∈ l, (blNode x).tok.isIt = true → x = 5 := by
    intro x hx hit
    rcases hl x hx with rfl | rfl | rfl
    · exact absurd hit (by decide)
    · rfl
    · exact absurd hit (by decide)
  refine ⟨represents_manOf hkids hroot (Nat.succ_pos 8) ?_, rfl, rfl, hbody, rfl,
    mem_nodes_root rfl, hplain, fun x hx hit => ?_, fun x hx hit => ?_⟩
  · exact (Relation.ReflTransGen.single hblk).tail hbody
  · obtain rfl := hitem x hx hit
    exact ⟨rfl, rfl⟩
  · obtain rfl := hitem x hx hit
    exact ⟨7, by simp [blKids], rfl, by simp [blKids]⟩

/-- Text before an item is moved out of the list. -/
theorem postBl_sample : ∃ man' kids' moved rest rows, postBl true (blSample [4, 5]) = .ok man' ∧
    BlResult (blSample [4, 5]) man' (blKids [4, 5]) kids' 3 1 0 [] [] moved rest rows := by
  refine (postBl_iff true (blBody_blSample (by decide) (by decide) (by simp))).mpr ?_
  have hdrop : (blKids [4, 5] 3).dropWhile (fun x => !((blSample [4, 5]).node x).tok.isIt) = [5] := by
    decide
  rw [ItemsLast, hdrop]
  exact rowsClosed_cons.mpr ⟨.inr (.inl (by decide)), rowsClosed_nil⟩

/-- A request between an implicit row and the end of the list. -/
theorem postBl_null : BlBody (blSample [5, 6]) (blKids [5, 6]) 3 1 0 [] [] ∧
    postBl false (blSample [5, 6]) = .error .null := by
  refine ⟨blBody_blSample (by decide) (by decide) (by simp), ?_⟩
  have hrun : (postBl false (blSample [5, 6])).map (fun _ => ()) = .error .null := by
    decide +kernel
  cases hpost : postBl false (blSample [5, 6]) with
  | ok man =>
    rw [hpost] at hrun
    cases hrun
  | error e =>
    rw [hpost] at hrun
    have hrun : (Except.error e : Res Unit) = .error .null := hrun
    rw [Except.error.inj hrun]

end Mandoc
