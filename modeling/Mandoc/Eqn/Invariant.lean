import Mandoc.Eqn.Box

/-!
# The Box Tree Invariant

The pointers of the boxes represent an ordered tree, and the counter `args` of every box is
the number of its children. Each function that builds the tree is shown to implement an
operation on ordered forests, and to keep the counters right, with one exception: a list
that takes the place of a word does not count its first member.

## Main results

- `eqnBoxAlloc_spec`, `eqnBoxMakebinary_spec`, `eqnBoxEnlist_spec`: the three operations.
- `Built.climb`, `Built.find`: climbing from a box of the tree ends at a box of the tree.
- `Built.boxTree`: what can be seen by following the pointers.
-/

namespace Mandoc

open OrderedForest

/-! ## §1 The invariant -/

/-- The boxes reachable from the root fit together. -/
structure BoxTree (t : EqnTree) : Prop where
  /-- The pointers to siblings, to the ends of the chain of children, and to the parent. -/
  wellLinked : WellLinked t.links {0}
  /-- The children of a box are a chain without repetitions, and `args` is its length. -/
  args : ∀ x, InTree t.links {0} x →
    ∃ l, Children t.links x l ∧ l.Nodup ∧ (t.box x).args = l.length

/-- The pointers represent an ordered tree, the root of which accepts any number of
    arguments. -/
structure Built (t : EqnTree) (kids : Nat → List Nat) : Prop where
  linked : Linked t.links kids {0}
  root : (t.links 0).parent = none
  rootBox : (t.box 0).type = .TEXT ∧ (t.box 0).expectargs = none ∧ (t.box 0).pos = .NONE
  count : ∀ x ∈ Nodes kids {0}, x < t.count

/-- The counters are right. -/
def Counted (t : EqnTree) (kids : Nat → List Nat) : Prop :=
  ∀ x ∈ Nodes kids {0}, (t.box x).args = (kids x).length

variable {t : EqnTree} {kids : Nat → List Nat} {x p b : Nat} {l : List Nat} {gsize : Int}

theorem mem_root (kids : Nat → List Nat) : 0 ∈ Nodes kids {0} := mem_nodes_root rfl

theorem Built.count_notMem (h : Built t kids) : t.count ∉ Nodes kids {0} := fun hm =>
  Nat.lt_irrefl _ (h.count _ hm)

/-- What can be seen by following the pointers. -/
theorem Built.boxTree (h : Built t kids) (hc : Counted t kids) : BoxTree t := by
  refine ⟨h.linked.wellLinked, fun x hx => ?_⟩
  have hn := h.linked.inTree_iff.mp hx
  exact ⟨kids x, h.linked.children x hn, h.linked.forest.nodup x hn, hc x hn⟩

/-- The tree made of a root only. -/
theorem built_eqnBoxNew : Built eqnBoxNew fun _ => [] := by
  have hnodes : ∀ x ∈ Nodes (fun _ => []) ({0} : Set Nat), x = 0 := by
    rintro x ⟨r, hr, hb⟩
    rw [below_of_no_kids rfl hb]
    exact hr
  refine ⟨⟨⟨by simp, by simp, by simp⟩, fun p _ => ⟨rfl, rfl, trivial⟩⟩, rfl, ⟨rfl, rfl, rfl⟩,
    fun x hx => ?_⟩
  rw [hnodes x hx]
  exact Nat.one_pos

theorem counted_eqnBoxNew : Counted eqnBoxNew fun _ => [] := fun _ _ => rfl

theorem Built.last_eq_none (h : Built t kids) (hx : x ∈ Nodes kids {0}) :
    (t.links x).last = none ↔ kids x = [] := by
  rw [(h.linked.children x hx).last]
  exact List.getLast?_eq_none_iff

/-! ## §2 Changing the data of a box -/

theorem Built.modify (h : Built t kids) {f : EqnBox → EqnBox} (hx : x ≠ 0) :
    Built (t.modify x f) kids :=
  ⟨h.linked, h.root, by simpa [EqnTree.modify, Function.update_of_ne (Ne.symm hx)] using h.rootBox,
    h.count⟩

theorem Counted.modify (h : Counted t kids) {f : EqnBox → EqnBox}
    (hf : ∀ b, (f b).args = b.args) : Counted (t.modify x f) kids := by
  intro y hy
  by_cases hyx : y = x
  · subst hyx
    simpa [EqnTree.modify, hf] using h y hy
  · simpa [EqnTree.modify, hyx] using h y hy

/-! ## §3 Allocation -/

/-- The lists of children after appending a new box. -/
def appendKids (kids : Nat → List Nat) (p n : Nat) : Nat → List Nat :=
  Forest.attachKids (Function.update kids n []) p (kids p ++ [n])

theorem appendKids_self : appendKids kids p b p = kids p ++ [b] := by
  simp [appendKids, Forest.attachKids]

theorem appendKids_new (hpb : p ≠ b) : appendKids kids p b b = [] := by
  simp [appendKids, Forest.attachKids, Ne.symm hpb]

theorem appendKids_of_ne (hp : x ≠ p) (hb : x ≠ b) : appendKids kids p b x = kids x := by
  simp [appendKids, Forest.attachKids, hp, hb]

/-- Appending a new box adds this box to the tree. -/
theorem mem_appendKids (hp : p ∈ Nodes kids {0}) (hnew : b ∉ Nodes kids {0}) :
    x ∈ Nodes (appendKids kids p b) {0} ↔ x ∈ Nodes kids {0} ∨ x = b := by
  have hpb : p ≠ b := ne_of_mem_of_not_mem hp hnew
  have hperm : (kids p ++ [b]).Perm (b :: Function.update kids b [] p) := by
    simp [hpb]
  have hold : ∀ y ∈ Nodes kids {0}, y ∈ Nodes (appendKids kids p b) {0} := fun y hy =>
    Forest.mem_nodes_attach hperm (nodes_alloc hnew ▸ hy)
  constructor
  · intro hx
    obtain ⟨r, hr, hb⟩ := Forest.nodes_attach_subset hperm hx
    rcases hr with rfl | hr
    · exact .inr (below_of_no_kids (by simp) hb)
    · exact .inl (nodes_alloc hnew ▸ ⟨r, hr, hb⟩)
  · rintro (hx | rfl)
    · exact hold x hx
    · exact mem_nodes_child (hold p hp) (by simp [appendKids_self])

/-- The pointers to the first and last child are never at odds. -/
theorem eqnBoxAlloc_eq (hc : (t.links p).child = l.head?) (hl : (t.links p).last = l.getLast?) :
    eqnBoxAlloc gsize t p = .ok {
      links := linkLast (Function.update t.links t.count {}) p t.count
      box := Function.update
        (t.modify p fun p => { p with args := p.args + 1 }).box t.count
        { font := (t.box p).font, size := gsize }
      count := t.count + 1 } := by
  have hguard : ¬ ((t.links p).child ≠ none ∧ (t.links p).last = none) := by
    rw [hc, hl]
    cases l <;> simp
  have hfont : ((t.modify p fun p => { p with args := p.args + 1 }).box p).font =
      (t.box p).font := by
    simp [EqnTree.modify]
  unfold eqnBoxAlloc
  rw [if_neg hguard]
  simp only [hfont]
  rfl

/-- `eqn_box_alloc()` appends a new box. -/
theorem eqnBoxAlloc_spec (gsize : Int) (h : Built t kids) (hp : p ∈ Nodes kids {0}) :
    ∃ t', eqnBoxAlloc gsize t p = .ok t' ∧ t'.count = t.count + 1 ∧
      Built t' (appendKids kids p t.count) ∧
      (Counted t kids → Counted t' (appendKids kids p t.count)) := by
  have hnew := h.count_notMem
  have hpn : p ≠ t.count := ne_of_mem_of_not_mem hp hnew
  have h0n : 0 ≠ t.count := ne_of_mem_of_not_mem (mem_root kids) hnew
  have hcp := h.linked.children p hp
  obtain ⟨hi, hlinked⟩ := h.linked.append hp hnew
  refine ⟨_, eqnBoxAlloc_eq hcp.child hcp.last, rfl, ⟨hlinked, ?_, ?_, fun x hx => ?_⟩, fun hc x hx => ?_⟩
  · exact (hi.parent_old 0 h0n).trans (by simp [h0n, h.root])
  · simp only [Function.update_of_ne h0n]
    by_cases h0p : 0 = p
    · subst h0p
      simpa [EqnTree.modify] using h.rootBox
    · simpa [EqnTree.modify, h0p] using h.rootBox
  · rcases (mem_appendKids hp hnew).mp hx with hx | hx
    · exact Nat.lt_succ_of_lt (h.count x hx)
    · simp [hx]
  · by_cases hxn : x = t.count
    · subst hxn
      simp [appendKids_new hpn]
    · have hxk := ((mem_appendKids hp hnew).mp hx).resolve_right hxn
      by_cases hxp : x = p
      · subst hxp
        simp [hpn, EqnTree.modify, appendKids_self, hc x hxk]
      · simp [hxn, hxp, EqnTree.modify, appendKids_of_ne hxp hxn, hc x hxk]

/-! ## §4 A new parent for the last child -/

section Wrap

variable (h : Built t kids) (hp : p ∈ Nodes kids {0}) (hkids : kids p = l ++ [b])
include h hp hkids

/-- Replacing the last child: the two operations that do it end in a tree whose pointers
    are `Wrapped`, and whose boxes are the old ones and the new one. -/
theorem Built.wrap {t' : EqnTree} (hw : Wrapped t.links t'.links p b t.count l)
    (hcount : t'.count = t.count + 1)
    (hbox : ∀ x, x ≠ t.count → x ≠ p → t'.box x = t.box x)
    (hparent : ∃ args, t'.box p = { t.box p with args := args }) :
    Built t' (wrapKids kids p l b t.count) := by
  have hnew := h.count_notMem
  have h0n : 0 ≠ t.count := ne_of_mem_of_not_mem (mem_root kids) hnew
  have h0b : 0 ≠ b := fun he => h.linked.forest.roots p hp 0 rfl (by simp [hkids, he])
  refine ⟨h.linked.wrap hp hkids hnew hw, (hw.parent 0 h0n h0b).trans h.root, ?_, fun x hx => ?_⟩
  · by_cases h0p : 0 = p
    · subst h0p
      obtain ⟨args, ha⟩ := hparent
      rw [ha]
      exact h.rootBox
    · rw [hbox 0 h0n h0p]
      exact h.rootBox
  · rw [hcount]
    rcases nodes_wrap_subset hp hkids hnew hx with hx | hx
    · exact Nat.lt_succ_of_lt (h.count x hx)
    · simp [hx]

/-- The counters of the other boxes stay right. -/
theorem Built.wrap_counted {t' : EqnTree} (hc : Counted t kids)
    (hbox : ∀ x, x ≠ t.count → x ≠ p → t'.box x = t.box x)
    (hparent : (t'.box p).args = (t.box p).args - 1 + 1) (hnewb : (t'.box t.count).args = 1) :
    Counted t' (wrapKids kids p l b t.count) := by
  have hnew := h.count_notMem
  have hpn : p ≠ t.count := ne_of_mem_of_not_mem hp hnew
  intro x hx
  by_cases hxp : x = p
  · subst hxp
    have hx : (t.box x).args = l.length + 1 := by simpa [hkids] using hc x hp
    simp [hparent, hx, wrapKids]
  · by_cases hxn : x = t.count
    · simp [hxn, hnewb, wrapKids, Ne.symm hpn]
    · rw [hbox x hxn hxp]
      have hxk := (nodes_wrap_subset hp hkids hnew hx).resolve_right hxn
      simpa [wrapKids, hxp, hxn] using hc x hxk

/-- `eqn_box_makebinary()` puts a new box above the last child. -/
theorem eqnBoxMakebinary_spec (gsize : Int) : ∃ t', eqnBoxMakebinary gsize t p = .ok t' ∧
    Built t' (wrapKids kids p l b t.count) ∧
    (Counted t kids → Counted t' (wrapKids kids p l b t.count)) := by
  have hnew := h.count_notMem
  have hpn : p ≠ t.count := ne_of_mem_of_not_mem hp hnew
  have hlast : (t.links p).last = some b := (h.linked.last_child hp hkids).2.1
  have hcut := h.linked.cutOff_last hp hkids
  simp only [eqnBoxMakebinary, hlast]
  rw [eqnBoxAlloc_eq hcut.child hcut.last]
  refine ⟨_, rfl, h.wrap hp hkids (h.linked.wrapped_last hp hkids hnew) rfl
    (fun x hxn hxp => ?_) ⟨(t.box p).args - 1 + 1, ?_⟩, fun hc => h.wrap_counted hp hkids hc
    (fun x hxn hxp => ?_) ?_ ?_⟩
  · simp [EqnTree.modify, hxn, hxp]
  · simp [EqnTree.modify, hpn]
  · simp [EqnTree.modify, hxn, hxp]
  · simp [EqnTree.modify, hpn]
  · simp [EqnTree.modify]

/-- The list that takes the place of a word is put above it in the same way. -/
theorem eqnBoxEnlist_spec (gsize : Int) : ∃ t', eqnBoxEnlist gsize t p b = .ok t' ∧ t'.count = t.count + 1 ∧
    Built t' (wrapKids kids p l b t.count) := by
  have hnew := h.count_notMem
  have hpn : p ≠ t.count := ne_of_mem_of_not_mem hp hnew
  have hcut := h.linked.cutOff_word hp hkids
  simp only [eqnBoxEnlist]
  rw [eqnBoxAlloc_eq hcut.child hcut.last]
  refine ⟨_, rfl, rfl, h.wrap hp hkids (h.linked.wrapped_word hp hkids hnew) rfl
    (fun x hxn hxp => ?_) ⟨(t.box p).args - 1 + 1, ?_⟩⟩
  · simp [EqnTree.modify, hxn, hxp]
  · simp [EqnTree.modify, hpn]

end Wrap

/-! ## §5 Climbing -/

/-- The boxes from a box up to the root. -/
theorem Built.path (h : Built t kids) (hx : x ∈ Nodes kids {0}) :
    ∃ path : List Nat, path.Nodup ∧ (∀ y ∈ path, y ∈ Nodes kids {0} ∧ Below kids y x) ∧
      ∀ (stop : EqnBox → Bool) (steps : Nat), path.length ≤ steps →
        ∃ o, eqnAscend t stop steps x = .ok o ∧
          (∀ q, o = some q → q ∈ path ∧ stop (t.box q) = true ∧ (q = x ∨ kids q ≠ [])) ∧
          (o = none → stop (t.box 0) = false) := by
  obtain ⟨r, rfl, hb⟩ := hx
  -- Induction on the path from the root down to the box.
  induction hb with
  | refl =>
    refine ⟨[0], by simp, by simpa using ⟨mem_root kids, .refl⟩, fun stop steps hs => ?_⟩
    obtain ⟨steps, rfl⟩ := Nat.exists_eq_add_of_le' hs
    by_cases hstop : stop (t.box 0) = true
    · exact ⟨some 0, by simp [eqnAscend, hstop], by simpa using hstop, by simp⟩
    · exact ⟨none, by simp [eqnAscend, hstop, h.root], by simp, by simpa using hstop⟩
  | @tail y c hy hc ih =>
    obtain ⟨path, hnodup, hpath, hascend⟩ := ih
    have hyn : y ∈ Nodes kids {0} := ⟨0, rfl, hy⟩
    have hpar : (t.links c).parent = some y := h.linked.parent_eq hyn hc
    have hcpath : c ∉ path := fun hm => h.linked.forest.acyclic hyn hc (hpath c hm).2
    refine ⟨c :: path, List.nodup_cons.mpr ⟨hcpath, hnodup⟩, ?_, fun stop steps hs => ?_⟩
    · rintro z (_ | ⟨_, hz⟩)
      · exact ⟨mem_nodes_child hyn hc, .refl⟩
      · exact ⟨(hpath z hz).1, (hpath z hz).2.tail hc⟩
    · obtain ⟨steps, rfl⟩ := Nat.exists_eq_add_of_le' (Nat.le_trans (Nat.le_add_left 1 _) hs)
      by_cases hstop : stop (t.box c) = true
      · exact ⟨some c, by simp [eqnAscend, hstop], by simpa using hstop, by simp⟩
      · obtain ⟨o, ho, hsome, hnone⟩ := hascend stop steps (by simpa using hs)
        refine ⟨o, by simp [eqnAscend, hstop, hpar, ho], fun q hq => ?_, hnone⟩
        obtain ⟨hqp, hqs, hqy⟩ := hsome q hq
        refine ⟨List.mem_cons_of_mem c hqp, hqs, .inr ?_⟩
        rcases hqy with rfl | hqy
        · exact List.ne_nil_of_mem hc
        · exact hqy

/-- Climbing from a box of the tree takes fewer steps than there are boxes. -/
theorem Built.ascend (h : Built t kids) (hx : x ∈ Nodes kids {0}) (stop : EqnBox → Bool) :
    ∃ o, eqnAscend t stop t.count x = .ok o ∧
      (∀ q, o = some q → q ∈ Nodes kids {0} ∧ stop (t.box q) = true ∧ (q = x ∨ kids q ≠ [])) ∧
      (o = none → stop (t.box 0) = false) := by
  obtain ⟨path, hnodup, hpath, hascend⟩ := h.path hx
  have hlen : path.length ≤ t.count := by
    have hsub : path ⊆ List.range t.count := fun y hy =>
      List.mem_range.mpr (h.count y (hpath y hy).1)
    simpa using (hnodup.subperm hsub).length_le
  obtain ⟨o, ho, hsome, hnone⟩ := hascend stop t.count hlen
  exact ⟨o, ho, fun q hq => ⟨(hpath q (hsome q hq).1).1, (hsome q hq).2⟩, hnone⟩

/-- A cursor that does not leave the root arrives at a box of the tree. -/
theorem Built.climb (h : Built t kids) (hx : x ∈ Nodes kids {0}) {closed : EqnBox → Bool}
    (h0 : closed (t.box 0) = false) :
    ∃ q, eqnClimb t closed x = .ok q ∧ q ∈ Nodes kids {0} ∧ (q = x ∨ kids q ≠ []) := by
  obtain ⟨o, ho, hsome, hnone⟩ := h.ascend hx fun b => !closed b
  cases o with
  | none => simp [h0] at hnone
  | some q =>
    obtain ⟨hq, -, hqx⟩ := hsome q rfl
    exact ⟨q, by simp [eqnClimb, ho]; rfl, hq, hqx⟩

theorem Built.parent (h : Built t kids) (hx : x ∈ Nodes kids {0}) (h0 : x ≠ 0) :
    ∃ q, eqnParent t x = .ok q ∧ q ∈ Nodes kids {0} ∧ x ∈ kids q := by
  obtain ⟨q, hq, hxq⟩ := exists_parent hx h0
  exact ⟨q, by simp [eqnParent, h.linked.parent_eq hq hxq], hq, hxq⟩

end Mandoc
