import Mandoc.Eqn.TreeInvariant
import Mandoc.Lib.ForestTrees

/-!
# The Shape of Equation Boxes

The formatters take more for granted than the pointers of the boxes: they assert that a box with
a position has neither text nor a symbol above it, follow the pointer to the first operand of an
operator without looking, and format as many operands as belong to the operator. All of that is
up to the parser.

## Main results

- `Formed.alloc`, `Formed.wrap`: the two ways in which the tree grows.
- `eqnProcess_formed`: every token keeps the boxes in shape.
- `eqnParse_forms`: so the boxes of every equation are in shape.
-/

namespace Mandoc

open OrderedForest

/-! ## §1 Boxes in shape -/

/-- How many operands belong to a position. -/
def EqnPost.arity : EqnPost → Nat
  | .SQRT => 1
  | .SUBSUP | .FROMTO => 3
  | _ => 2

/-- The strings of a box. -/
def EqnBox.words (b : EqnBox) : List CStr :=
  b.text.toList ++ b.left.toList ++ b.right.toList ++ b.top.toList ++ b.bottom.toList

/-- A box with `n` children is in shape. -/
structure EqnBox.InShape (b : EqnBox) (n : Nat) : Prop where
  text : b.text ≠ none → b.type = .TEXT
  pos : b.pos ≠ .NONE ↔ b.type = .SUBEXPR
  /-- Only a list with one element has a symbol above or below it. -/
  mark : b.top ≠ none ∨ b.bottom ≠ none → b.type = .LIST ∧ b.expectargs = some 1
  arity : b.type = .SUBEXPR → b.expectargs = some b.pos.arity
  single : b.type = .PILE ∨ b.type = .MATRIX → b.expectargs = some 1
  /-- A list that took the place of a word does not count its first member. -/
  counted : b.args = n ∨ (b.type = .LIST ∧ b.expectargs = none ∧ b.args + 1 = n)
  room : b.type = .SUBEXPR ∨ b.type = .MATRIX → ∀ e, b.expectargs = some e → n ≤ e
  /-- There is a first operand. -/
  operand : b.type = .SUBEXPR → b.pos ≠ .SQRT → 0 < n
  clean : ∀ w ∈ b.words, NUL ∉ w

variable {b : EqnBox} {n : Nat}

theorem EqnPost.arity_pos (pos : EqnPost) : 0 < pos.arity := by
  cases pos <;> exact Nat.succ_pos _

/-- A box gets another child unless it is full. -/
theorem EqnBox.InShape.grow (h : b.InShape n)
    (hroom : b.type = .SUBEXPR ∨ b.type = .MATRIX → b.full = false ∨ n = 0) :
    ({ b with args := b.args + 1 } : EqnBox).InShape (n + 1) where
  text := h.text
  pos := h.pos
  mark := h.mark
  arity := h.arity
  single := h.single
  counted := h.counted.imp (congrArg (· + 1)) fun h' => ⟨h'.1, h'.2.1, congrArg (· + 1) h'.2.2⟩
  room ht e he := by
    rcases hroom ht with hfull | rfl
    · have hargs : b.args = n := h.counted.resolve_right fun hlist => by
        rcases ht with ht | ht <;> exact absurd (ht.symm.trans hlist.1) (by decide)
      have hne : e ≠ n := by
        rintro rfl
        rw [EqnBox.full, he, hargs] at hfull
        exact absurd hfull (by simp)
      exact Nat.lt_of_le_of_ne (h.room ht e he) (Ne.symm hne)
    · rcases ht with ht | ht
      · rw [h.arity ht] at he
        exact Option.some.inj he ▸ b.pos.arity_pos
      · rw [h.single (.inr ht)] at he
        exact Option.some.inj he ▸ Nat.one_pos
  operand _ _ := Nat.succ_pos n
  clean := h.clean

/-- The last child of a box is replaced. -/
theorem EqnBox.InShape.refill (h : b.InShape (n + 1)) :
    ({ b with args := b.args - 1 + 1 } : EqnBox).InShape (n + 1) where
  text := h.text
  pos := h.pos
  mark := h.mark
  arity := h.arity
  single := h.single
  counted := by
    rcases h.counted with ha | ⟨ht, he, ha⟩
    · exact .inl (congrArg (· - 1 + 1) ha)
    · cases hargs : b.args with
      | zero =>
        rw [hargs] at ha
        exact .inl ha
      | succ m =>
        rw [hargs] at ha
        exact .inr ⟨ht, he, ha⟩
  room := h.room
  operand := h.operand
  clean := h.clean

/-! ## §2 The invariant -/

/-- The tree is in order, and all of its boxes are in shape. -/
structure Formed (st : EqnParse) (kids : Nat → List Nat) : Prop extends Sound False st kids where
  shape : ∀ x ∈ Nodes kids {0}, (st.tree.box x).InShape (kids x).length
  /-- Text boxes have text, except that the root is one without. -/
  text : ∀ x ∈ Nodes kids {0}, x ≠ 0 → (st.tree.box x).type = .TEXT → (st.tree.box x).text ≠ none
  /-- The root has no siblings. -/
  alone : (st.tree.links 0).next = none ∧ (st.tree.links 0).prev = none

/-- What the data of a new box have to be, after it has got `n` children. -/
structure EqnBox.Fresh (b : EqnBox) (n : Nat) : Prop where
  shape : b.InShape n
  text : b.type = .TEXT → b.text ≠ none

variable {st st' : EqnParse} {kids kids' : Nat → List Nat} {p q cur : Nat} {l : List Nat}
variable {f : EqnBox → EqnBox} {tok : EqnTok} {word : CStr}

theorem Formed.goto (h : Formed st kids) (hp : p ∈ Nodes kids {0}) :
    Formed { st with parent := p } kids :=
  ⟨h.toSound.move hp, h.shape, h.text, h.alone⟩

theorem Formed.next (h : Formed st kids) (ep : EqnNode) : Formed { st with ep := ep } kids :=
  ⟨h.toSound.ep ep, h.shape, h.text, h.alone⟩

/-- Changing the data of a box. -/
theorem Formed.modify (h : Formed st kids) (hp : p ∈ Nodes kids {0}) (hp0 : p ≠ 0)
    (hshape : (f (st.tree.box p)).Fresh (kids p).length) :
    Formed { st with tree := st.tree.modify p f } kids := by
  refine ⟨⟨h.built.modify hp0, h.parent, False.elim, False.elim⟩, fun x hx => ?_,
    fun x hx hx0 htext => ?_, h.alone⟩
  · by_cases hxp : x = p
    · subst hxp
      simpa [EqnTree.modify] using hshape.shape
    · simpa [EqnTree.modify, hxp] using h.shape x hx
  · by_cases hxp : x = p
    · subst hxp
      simp only [EqnTree.modify, Function.update_self] at htext ⊢
      exact hshape.text htext
    · simp only [EqnTree.modify, Function.update_of_ne hxp] at htext ⊢
      exact h.text x hx hx0 htext

/-- A new box has been put into the tree, and its parent has changed its counter. -/
theorem Formed.of_new {n : Nat} {args : Nat} (h : Formed st kids) (hs : Sound False st' kids')
    (hnodes : ∀ x ∈ Nodes kids' {0}, x ∈ Nodes kids {0} ∨ x = n)
    (hkeep : ∀ x, x ≠ n → x ≠ p → st'.tree.box x = st.tree.box x ∧ kids' x = kids x)
    (hbox : st'.tree.box p = { st.tree.box p with args := args })
    (hshape : (st'.tree.box p).InShape (kids' p).length)
    (hnew : (st'.tree.box n).Fresh (kids' n).length)
    (halone : (st'.tree.links 0).next = (st.tree.links 0).next ∧
      (st'.tree.links 0).prev = (st.tree.links 0).prev) : Formed st' kids' := by
  refine ⟨hs, fun x hx => ?_, fun x hx hx0 htext => ?_,
    halone.1.trans h.alone.1, halone.2.trans h.alone.2⟩
  · by_cases hxp : x = p
    · exact hxp ▸ hshape
    · by_cases hxn : x = n
      · exact hxn ▸ hnew.shape
      · obtain ⟨heq, hk⟩ := hkeep x hxn hxp
        rw [heq, hk]
        exact h.shape x ((hnodes x hx).resolve_right hxn)
  · by_cases hxn : x = n
    · exact hxn ▸ hnew.text (hxn ▸ htext)
    · have hold := (hnodes x hx).resolve_right hxn
      by_cases hxp : x = p
      · subst hxp
        rw [hbox] at htext ⊢
        exact h.text x hold hx0 htext
      · rw [(hkeep x hxn hxp).1] at htext ⊢
        exact h.text x hold hx0 htext

/-- The assignments put a new box into shape. -/
def Opens (f : EqnBox → EqnBox) : Prop := ∀ font size, (f { font, size }).Fresh 0

/-- The assignments put a box into shape that has been put above another one. -/
def Pivots (f : EqnBox → EqnBox) : Prop := ∀ font size,
  (f { font, size, type := .SUBEXPR, expectargs := some 2, args := 1 }).Fresh 1

/-! ## §3 The two ways to grow -/

/-- What allocation does to the data of the boxes. -/
theorem eqnBoxAlloc_boxes {t t' : EqnTree} {gsize : Int} (h : eqnBoxAlloc gsize t p = .ok t') :
    t'.box = Function.update (t.modify p fun b => { b with args := b.args + 1 }).box t.count
      { font := (t.box p).font, size := gsize } := by
  unfold eqnBoxAlloc at h
  split at h
  · cases h
  · cases h
    simp [EqnTree.modify]

/-- What allocation does to the pointers. -/
theorem eqnBoxAlloc_links {t t' : EqnTree} {gsize : Int} (h : eqnBoxAlloc gsize t p = .ok t') :
    t'.links = linkLast (Function.update t.links t.count {}) p t.count := by
  unfold eqnBoxAlloc at h
  split at h
  · cases h
  · cases h
    rfl

theorem EqnRes.bind_eq_ok {α β : Type} {x : EqnRes α} {f : α → EqnRes β} {c : β} :
    (x >>= f) = .ok c ↔ ∃ a, x = .ok a ∧ f a = .ok c := by
  cases x with
  | error e => simp [bind, Except.bind]
  | ok a => simp [bind, Except.bind]

/-- What `eqn_box_makebinary()` does to the data of the boxes. -/
theorem eqnBoxMakebinary_boxes {t t' : EqnTree} {gsize : Int} (hp : p ≠ t.count)
    (h : eqnBoxMakebinary gsize t p = .ok t') (hlast : (t.links p).last = some cur) :
    t'.links = adoptLast (linkLast (Function.update (cutLast t.links p cur) t.count {}) p t.count)
        t.count cur ∧ (∀ x, x ≠ t.count → x ≠ p → t'.box x = t.box x) ∧
      t'.box p = { t.box p with args := (t.box p).args - 1 + 1 } ∧
      t'.box t.count =
        { font := (t.box p).font, size := gsize, type := .SUBEXPR, expectargs := some 2,
          args := 1 } := by
  unfold eqnBoxMakebinary at h
  split at h
  · cases h
  · rename_i b hb
    cases hlast.symm.trans hb
    obtain ⟨t₁, halloc, h⟩ := EqnRes.bind_eq_ok.mp h
    cases h
    have hbox := eqnBoxAlloc_boxes halloc
    refine ⟨?_, fun x hxn hxp => ?_, ?_, ?_⟩
    · simp only [EqnTree.modify, eqnBoxAlloc_links halloc]
    · simp [EqnTree.modify, hbox, hxn, hxp]
    · simp [EqnTree.modify, hbox, hp]
    · simp [EqnTree.modify, hbox]

/-- What putting a list in the place of a word does to the data of the boxes. -/
theorem eqnBoxEnlist_boxes {t t' : EqnTree} {gsize : Int} (hp : p ≠ t.count)
    (h : eqnBoxEnlist gsize t p cur = .ok t') :
    t'.links = adoptWord (linkLast (Function.update (cutWord t.links p cur) t.count {}) p t.count)
        t.count cur ∧ (∀ x, x ≠ t.count → x ≠ p → t'.box x = t.box x) ∧
      t'.box p = { t.box p with args := (t.box p).args - 1 + 1 } ∧
      t'.box t.count = { font := (t.box p).font, size := gsize, type := .LIST } := by
  unfold eqnBoxEnlist at h
  obtain ⟨t₁, halloc, h⟩ := EqnRes.bind_eq_ok.mp h
  cases h
  have hbox := eqnBoxAlloc_boxes halloc
  refine ⟨?_, fun x hxn hxp => ?_, ?_, ?_⟩
  · simp only [EqnTree.modify, eqnBoxAlloc_links halloc]
  · simp [EqnTree.modify, hbox, hxn, hxp]
  · simp [EqnTree.modify, hbox, hp]
  · simp [EqnTree.modify, hbox]

/-- Allocating a box as the last child of a box that is not full. -/
theorem Formed.alloc (h : Formed st kids) (hp : p ∈ Nodes kids {0})
    (hroom : (st.tree.box p).type = .SUBEXPR ∨ (st.tree.box p).type = .MATRIX →
      (st.tree.box p).full = false ∨ (kids p).length = 0)
    (hf : Opens f) :
    ∃ t, eqnBoxAlloc st.ep.gsize st.tree p = .ok t ∧
      st.tree.count ∈ Nodes (appendKids kids p st.tree.count) {0} ∧
      ∀ q ∈ Nodes (appendKids kids p st.tree.count) {0},
        Formed { st with tree := t.modify st.tree.count f, parent := q }
          (appendKids kids p st.tree.count) := by
  obtain ⟨t, ht, -, hb, -⟩ := eqnBoxAlloc_spec st.ep.gsize h.built hp
  have hfree := h.built.count_notMem
  have hpn : p ≠ st.tree.count := ne_of_mem_of_not_mem hp hfree
  have hn0 : st.tree.count ≠ 0 := fun he => hfree (he ▸ mem_root kids)
  have hmem := (mem_appendKids hp hfree).mpr (.inr rfl)
  have hbox := eqnBoxAlloc_boxes ht
  refine ⟨t, ht, hmem, fun q hq => ?_⟩
  -- The shapes change only at the parent and at the new box.
  apply h.of_new (n := st.tree.count) (p := p) ⟨hb.modify hn0, hq, False.elim, False.elim⟩
  · exact fun x hx => (mem_appendKids hp hfree).mp hx
  · intro x hxn hxp
    refine ⟨?_, appendKids_of_ne hxp hxn⟩
    simp [EqnTree.modify, hbox, hxn, hxp]
  · simp only [EqnTree.modify, hbox, Function.update_of_ne hpn, Function.update_self]
    rfl
  · rw [appendKids_self, List.length_append]
    simpa [EqnTree.modify, hbox, hpn] using (h.shape p hp).grow hroom
  · rw [appendKids_new hpn]
    simpa [EqnTree.modify, hbox] using hf _ _
  · -- The root still has no siblings, as the new box is below another one.
    obtain ⟨hi, -⟩ := h.built.linked.append hp hfree
    have hroot := hi.root h.built.linked.forest hp (List.append_nil _).symm rfl (Ne.symm hn0)
    rw [← eqnBoxAlloc_links ht, Function.update_of_ne (Ne.symm hn0)] at hroot
    exact ⟨hroot.2.2, hroot.2.1⟩

/-- Putting a new box in the place of the last child, and the last child into the new box. -/
theorem Formed.wrap {t : EqnTree} (h : Formed st kids) (hp : p ∈ Nodes kids {0})
    (hk : kids p = l ++ [cur]) (hb : Built t (wrapKids kids p l cur st.tree.count))
    (hkeep : ∀ x, x ≠ st.tree.count → x ≠ p → t.box x = st.tree.box x)
    (hbox : t.box p = { st.tree.box p with args := (st.tree.box p).args - 1 + 1 })
    (hnew : (t.box st.tree.count).Fresh 1)
    (hwrapped : Wrapped st.tree.links t.links p cur st.tree.count l) {binaries : List EqnTree} :
    Formed { st with tree := t, parent := st.tree.count, binaries := binaries }
      (wrapKids kids p l cur st.tree.count) := by
  have hfree := h.built.count_notMem
  have hpn : p ≠ st.tree.count := ne_of_mem_of_not_mem hp hfree
  have hq := mem_nodes_wrap_new hp hk hfree
  apply h.of_new (n := st.tree.count) (p := p) ⟨hb, hq, False.elim, False.elim⟩
  · exact fun x hx => nodes_wrap_subset hp hk hfree hx
  · intro x hxn hxp
    refine ⟨hkeep x hxn hxp, ?_⟩
    simp [wrapKids, hxn, hxp]
  · exact hbox
  · have hlen : (kids p).length = l.length + 1 := by simp [hk]
    have hlen' : (wrapKids kids p l cur st.tree.count p).length = l.length + 1 := by
      simp [wrapKids]
    rw [hlen']
    change (t.box p).InShape _
    rw [hbox]
    exact (hlen ▸ h.shape p hp).refill
  · have hlen : (wrapKids kids p l cur st.tree.count st.tree.count).length = 1 := by
      simp [wrapKids, Ne.symm hpn]
    rw [hlen]
    exact hnew
  · -- The root is not one of the children.
    have h0k : 0 ∉ kids p := h.built.linked.forest.roots p hp 0 rfl
    rw [hk] at h0k
    have h0n : 0 ≠ st.tree.count := fun he => hfree (he ▸ mem_root kids)
    have h0c : 0 ≠ cur := fun he => h0k (by simp [he])
    have h0l : l.getLast? ≠ some 0 := fun he =>
      h0k (List.mem_append_left _ (List.mem_of_getLast? he))
    exact ⟨(hwrapped.next 0 h0n h0c).trans (if_neg h0l), hwrapped.prev 0 h0n h0c⟩

/-! ## §4 The building blocks -/

/-- Any computation may fail; what counts is what it delivers. -/
abbrev Delivers {α : Type} (x : EqnRes α) (Q : α → Prop) : Prop := Guarantees (fun _ => True) x Q

theorem eqnOpen_formed (h : Formed st kids) (hp : p ∈ Nodes kids {0})
    (hroom : (st.tree.box p).type = .SUBEXPR ∨ (st.tree.box p).type = .MATRIX →
      (st.tree.box p).full = false ∨ (kids p).length = 0) (hset : Opens f) :
    Delivers (eqnOpen st p f) fun st' => ∃ kids', Formed st' kids' := by
  obtain ⟨t, ht, hmem, hs⟩ := h.alloc hp hroom hset
  exact Guarantees.bind_of_eq ht (Guarantees.pure_iff.mpr ⟨_, hs _ hmem⟩)

theorem eqnPivot_formed (h : Formed st kids) (hk : kids st.parent ≠ []) (hset : Pivots f) :
    Delivers (eqnPivot st f) fun st' => st'.parent ≠ 0 ∧ ∃ kids', Formed st' kids' := by
  obtain ⟨l, b, hl⟩ : ∃ l b, kids st.parent = l ++ [b] :=
    ⟨_, _, (List.dropLast_append_getLast hk).symm⟩
  obtain ⟨t, ht, hb, -⟩ := eqnBoxMakebinary_spec h.built h.parent hl st.ep.gsize
  have hfree := h.built.count_notMem
  have hn0 : st.tree.count ≠ 0 := fun he => hfree (he ▸ mem_root kids)
  have hpn : st.parent ≠ st.tree.count := ne_of_mem_of_not_mem h.parent hfree
  obtain ⟨hlinks, hkeep, hparent, hnew⟩ := eqnBoxMakebinary_boxes hpn ht
    (h.built.linked.last_child h.parent hl).2.1
  refine Guarantees.bind_of_eq ht (Guarantees.pure_iff.mpr
    ⟨hn0, wrapKids kids st.parent l b st.tree.count, ?_⟩)
  apply h.wrap h.parent hl (hb.modify hn0)
  · intro x hxn hxp
    simp [EqnTree.modify, hxn, hkeep x hxn hxp]
  · simp [EqnTree.modify, hpn, hparent]
  · simp only [EqnTree.modify, Function.update_self, hnew]
    exact hset _ _
  · change Wrapped _ t.links _ _ _ _
    rw [hlinks]
    exact h.built.linked.wrapped_last h.parent hl hfree

/-- A new word is in shape. -/
theorem opens_word {w : CStr} (hw : NUL ∉ w) (font : EqnFontt → EqnFontt) :
    Opens fun b => { b with type := .TEXT, text := some w, font := font b.font } := by
  intro _ _
  refine ⟨⟨fun _ => rfl, ?_, ?_, ?_, ?_, .inl rfl, ?_, ?_, ?_⟩, fun _ => Option.some_ne_none _⟩
  · simp
  · simp
  · exact fun htype => by cases htype
  · rintro (htype | htype) <;> cases htype
  · rintro (htype | htype) <;> cases htype
  · exact fun htype => by cases htype
  · exact fun v hv => List.mem_singleton.mp hv ▸ hw

/-- The operand of an operator exists. -/
theorem eqnNobox_formed (h : Formed st kids) : Delivers (eqnNobox st) fun st' =>
    ∃ kids', Formed st' kids' ∧ kids' st'.parent ≠ [] := by
  refine Guarantees.ite (fun hlast => ?_) fun hlast => ?_
  · rw [h.built.last_eq_none h.parent] at hlast
    obtain ⟨t, ht, -, hs⟩ := h.alloc (f := ({ · with type := .TEXT, text := some [] })) h.parent
      (fun _ => .inr (by rw [hlast]; rfl)) (opens_word List.not_mem_nil id)
    have hfree := h.built.count_notMem
    refine Guarantees.bind_of_eq ht (Guarantees.pure_iff.mpr ⟨_, hs st.parent
      ((mem_appendKids h.parent hfree).mpr (.inl h.parent)), ?_⟩)
    simp [appendKids_self]
  · rw [h.built.last_eq_none h.parent] at hlast
    exact Guarantees.pure_iff.mpr ⟨kids, h, hlast⟩

theorem eqnUp_formed (h : Formed st kids) (h0 : st.parent ≠ 0) :
    Delivers (eqnUp st) fun st' => st'.tree = st.tree ∧ Formed st' kids := by
  obtain ⟨q, hq, hqn, -⟩ := h.built.parent h.parent h0
  exact Guarantees.bind_of_eq hq (Guarantees.pure_iff.mpr ⟨rfl, h.goto hqn⟩)

/-- Leaving boxes that are closed ends at one that is not. -/
theorem eqnClimb_formed (h : Formed st kids) {closed : EqnBox → Bool}
    (h0 : closed (st.tree.box 0) = false) :
    Delivers (eqnClimb st.tree closed st.parent) fun q => q ∈ Nodes kids {0} ∧
      closed (st.tree.box q) = false ∧ (kids st.parent ≠ [] → kids q ≠ []) := by
  obtain ⟨o, ho, hsome, hnone⟩ := h.built.ascend h.parent fun b => !closed b
  cases o with
  | none => exact absurd (hnone rfl) (by simp [h0])
  | some q =>
    obtain ⟨hq, hopen, hqx⟩ := hsome q rfl
    refine Guarantees.bind_of_eq ho (Guarantees.pure_iff.mpr ⟨hq, by simpa using hopen, ?_⟩)
    intro hk
    rcases hqx with rfl | hqx
    · exact hk
    · exact hqx

theorem eqnRewind_formed (h : Formed st kids) : Delivers (eqnRewind st) fun st' =>
    Formed st' kids ∧ (st'.tree.box st'.parent).full = false ∧
      (kids st.parent ≠ [] → kids st'.parent ≠ []) :=
  (eqnClimb_formed h h.root_full).bind fun _ hq =>
    Guarantees.pure_iff.mpr ⟨h.goto hq.1, hq.2.1, hq.2.2⟩

/-! ## §5 Tokens -/

/-- A list is in shape if its data are. -/
theorem fresh_list (htype : b.type = .LIST) (htext : b.text = none) (hpos : b.pos = .NONE)
    (hmark : (b.top = none ∧ b.bottom = none) ∨ b.expectargs = some 1)
    (hargs : b.args = n ∨ (b.expectargs = none ∧ b.args + 1 = n))
    (hclean : ∀ w ∈ b.words, NUL ∉ w) : b.Fresh n where
  shape := {
    text := fun hne => absurd htext hne
    pos := by simp [hpos, htype]
    mark := fun hne => ⟨htype, hmark.resolve_left fun hnone => by simp [hnone] at hne⟩
    arity := fun hsub => by simp [htype] at hsub
    single := fun hsub => by simp [htype] at hsub
    counted := hargs.imp id fun hlist => ⟨htype, hlist⟩
    room := fun hsub => by simp [htype] at hsub
    operand := fun hsub => by simp [htype] at hsub
    clean := hclean }
  text := fun hsub => by simp [htype] at hsub

/-- An operator is in shape if its operands are there. -/
theorem fresh_subexpr (htype : b.type = .SUBEXPR) (hpos : b.pos ≠ .NONE) (hwords : b.words = [])
    (harity : b.expectargs = some b.pos.arity) (hargs : b.args = n) (hn : n ≤ b.pos.arity)
    (hoperand : b.pos ≠ .SQRT → 0 < n) : b.Fresh n where
  shape := {
    text := fun hne => by
      cases htext : b.text with
      | none => exact absurd htext hne
      | some w => simp [EqnBox.words, htext] at hwords
    pos := by simp [hpos, htype]
    mark := fun hne => by
      rcases hne with hne | hne <;>
      · obtain ⟨w, hw⟩ := Option.ne_none_iff_exists'.mp hne
        simp [EqnBox.words, hw] at hwords
    arity := fun _ => harity
    single := fun hsub => by simp [htype] at hsub
    counted := .inl hargs
    room := fun _ e he => by
      rw [harity] at he
      exact Option.some.inj he ▸ hn
    operand := fun _ => hoperand
    clean := fun w hw => by
      rw [hwords] at hw
      cases hw }
  text := fun hsub => by simp [htype] at hsub

/-- What processing a token delivers. -/
def Forms (st' : EqnParse) : Prop := ∃ kids', Formed st' kids'

/-- A diacritic is in shape. -/
theorem pivots_mark (tok : EqnTok) : Pivots fun b =>
    eqnMark tok { b with type := .LIST, expectargs := some 1, font := .ROMAN } := by
  intro font size
  unfold eqnMark
  split <;>
  · apply fresh_list rfl rfl rfl (.inr rfl) (.inl rfl)
    simp [EqnBox.words, NUL]

/-- An operator with an operand is in shape. -/
theorem pivots_pos {pos : EqnPost} (hne : pos ≠ .NONE) (harity : pos.arity = 2) :
    Pivots ({ · with pos := pos }) := by
  intro font size
  apply fresh_subexpr rfl hne rfl (by rw [harity]) rfl
  · change 1 ≤ pos.arity
    rw [harity]
    exact Nat.le_succ 1
  · exact fun _ => Nat.one_pos

section Steps

variable (h : Formed st kids)
include h

theorem eqnDiacritic_formed (tok : EqnTok) : Delivers (eqnDiacritic tok st) Forms := by
  refine (eqnNobox_formed h).bind fun st₁ hres => ?_
  obtain ⟨kids₁, h₁, hk₁⟩ := hres
  refine (eqnPivot_formed h₁ hk₁ (pivots_mark tok)).bind fun st₂ hres => ?_
  obtain ⟨h0, kids₂, h₂⟩ := hres
  exact (eqnUp_formed h₂ h0).mono fun st₃ h₃ => ⟨kids₂, h₃.2⟩

theorem eqnRewind_open (hset : Opens f) : Delivers (do
    let st ← eqnRewind st
    eqnOpen st st.parent f) Forms := by
  refine (eqnRewind_formed h).bind fun st₁ hres => ?_
  obtain ⟨h₁, hroom, _⟩ := hres
  exact eqnOpen_formed h₁ h₁.parent (fun _ => .inl hroom) hset

theorem eqnList_formed
    (hset : ∀ font size, (f { font, size, type := .LIST, expectargs := some 1 }).Fresh 0) :
    Delivers (eqnList f st) Forms := eqnRewind_open h hset

theorem eqnSize_formed (tok : EqnTok) : Delivers (eqnSize tok st) Forms := by
  refine Guarantees.bind (P := fun _ => True) ⟨fun _ _ => trivial, fun _ _ => trivial⟩ fun n _ => ?_
  refine Guarantees.ite (fun _ => Guarantees.pure_iff.mpr ⟨kids, h.next _⟩) fun _ => ?_
  refine Guarantees.ite (fun _ => Guarantees.pure_iff.mpr ⟨kids, h.next _⟩) fun _ => ?_
  refine Guarantees.ite (fun _ => Guarantees.pure_iff.mpr ⟨kids, h.next _⟩) fun _ => ?_
  exact eqnList_formed (h.next _) fun _ _ =>
    fresh_list rfl rfl rfl (.inr rfl) (.inl rfl) fun _ hw => by cases hw

theorem eqnSqrt_formed : Delivers (eqnSqrt st) Forms :=
  eqnRewind_open h fun _ _ =>
    fresh_subexpr rfl (by simp) rfl rfl rfl (Nat.zero_le _) fun hne => absurd rfl hne

theorem eqnPile_formed {type : EqnBoxt} (htype : type = .PILE ∨ type = .MATRIX) :
    Delivers (eqnPile type st) Forms := by
  refine eqnRewind_open h fun font size => ?_
  rcases htype with rfl | rfl <;>
  · refine ⟨⟨by simp, by simp, by simp, by simp, fun _ => rfl, .inl rfl, ?_, by simp, ?_⟩, by simp⟩
    · exact fun _ e _ => Nat.zero_le e
    · simp [EqnBox.words]

theorem eqnAbove_formed : Delivers (eqnAbove st) Forms := by
  refine (eqnFind_sound h.toSound h.parent _).bind fun o ho => ?_
  cases o with
  | none => exact Guarantees.pure_iff.mpr ⟨kids, h⟩
  | some cur =>
    obtain ⟨hcur, hpile⟩ := ho cur rfl
    -- A pile takes any number of elements.
    apply eqnOpen_formed h hcur
    · intro htype
      have hpile : (st.tree.box cur).type = .PILE := of_decide_eq_true hpile
      simp [hpile] at htype
    · exact fun _ _ => fresh_list rfl rfl rfl (.inl ⟨rfl, rfl⟩) (.inl rfl) fun _ hw => by cases hw

theorem eqnOver_formed : Delivers (eqnOver st) Forms := by
  refine (eqnNobox_formed h).bind fun st₁ hres => ?_
  obtain ⟨kids₁, h₁, hk₁⟩ := hres
  refine (eqnRewind_formed h₁).bind fun st₂ hres => ?_
  obtain ⟨h₂, _, hk₂⟩ := hres
  refine (eqnClimb_formed h₂ (by simp [h₂.built.rootBox.1])).bind fun q hres => ?_
  obtain ⟨hq, _, hk₃⟩ := hres
  exact (eqnPivot_formed (h₂.goto hq) (hk₃ (hk₂ hk₁)) (pivots_pos (by simp) rfl)).mono
    fun st₃ h₃ => h₃.2

/-- A second limit, or a second script. -/
theorem Formed.third (hp : p ∈ Nodes kids {0}) {pos pos' : EqnPost}
    (hpos : (st.tree.box p).pos = pos) (hne : pos ≠ .NONE) (hne' : pos' ≠ .NONE)
    (hsqrt : pos ≠ .SQRT) (harity : pos'.arity = 3) :
    Formed { st with tree := st.tree.modify p ({ · with expectargs := some 3, pos := pos' }) }
      kids := by
  have hp0 : p ≠ 0 := by
    rintro rfl
    exact hne (hpos.symm.trans h.built.rootBox.2.2)
  have hshape := h.shape p hp
  have htype : (st.tree.box p).type = .SUBEXPR := hshape.pos.mp (hpos.symm ▸ hne)
  have hle : (kids p).length ≤ 3 := by
    refine (hshape.room (.inl htype) _ (hshape.arity htype)).trans ?_
    rw [hpos]
    cases pos <;> decide
  refine h.modify hp hp0 ⟨{ hshape with
      pos := by simp [hne', htype]
      mark := fun hmark => absurd ((hshape.mark hmark).1.symm.trans htype) (by decide)
      arity := fun _ => by rw [harity]
      single := fun hpile => by simp [htype] at hpile
      counted := .inl (hshape.counted.resolve_right fun hlist =>
        absurd (hlist.1.symm.trans htype) (by decide))
      room := fun _ e he => by
        cases he
        exact hle
      operand := fun _ _ => hshape.operand htype (hpos.symm ▸ hsqrt) }, fun htext => ?_⟩
  exact absurd (htext.symm.trans htype) (by decide)

theorem eqnScript_formed (tok : EqnTok) : Delivers (eqnScript tok st) Forms := by
  refine (eqnNobox_formed h).bind fun st₁ hres => ?_
  obtain ⟨kids₁, h₁, hk₁⟩ := hres
  refine (eqnClimb_formed h₁ h₁.root_single).bind fun p hres => ?_
  obtain ⟨hp, _, hkp⟩ := hres
  refine (eqnLeave_sound h₁.toSound tok hp (hkp hk₁)).bind fun q hres => ?_
  obtain ⟨hq, hkq⟩ := hres
  have h₂ := h₁.goto hq
  refine Guarantees.ite (fun hsup => Guarantees.pure_iff.mpr ?_) fun _ => ?_
  · have hpos : (st₁.tree.box q).pos = .SUB := by simpa using (Bool.and_eq_true_iff.mp hsup).2
    exact ⟨kids₁, h₂.third hq hpos (by simp) (by simp) (by simp) rfl⟩
  refine Guarantees.ite (fun hto => Guarantees.pure_iff.mpr ?_) fun _ => ?_
  · have hpos : (st₁.tree.box q).pos = .FROM := by simpa using (Bool.and_eq_true_iff.mp hto).2
    exact ⟨kids₁, h₂.third hq hpos (by simp) (by simp) (by simp) rfl⟩
  · refine (eqnPivot_formed h₂ hkq (pivots_pos ?_ ?_)).mono fun st₃ h₃ => h₃.2
    · unfold eqnPost
      split <;> simp
    · unfold eqnPost
      split <;> rfl

end Steps

/-! ## §6 Brackets -/

/-- The text of a token is a part of the equation, or the name of a special character. -/
theorem eqnNextLoop_text {mode : ParseMode} {rounds : Nat} {moved : Bool} {ep : EqnNode}
    {r : EqnNext} (hr : eqnNextLoop mode rounds moved ep = .ok r) : r.text = [] ∨ r.text = r.ep.token ∨
      ∃ sym ∈ eqnsyms, r.text = "\\[".toList ++ sym.2.toList ++ [']'] := by
  -- A word is classified as a keyword, a symbol, or a text.
  have hclassify : ∀ (q : Bool) (ep : EqnNode),
      (eqnClassify mode q ep).text = (eqnClassify mode q ep).ep.token ∨
        ∃ sym ∈ eqnsyms, (eqnClassify mode q ep).text = "\\[".toList ++ sym.2.toList ++ [']'] := by
    intro q ep
    unfold eqnClassify
    split
    · exact .inl rfl
    split
    · exact .inl rfl
    generalize hkey : eqnKeyword ep.token = key
    generalize hsym : eqnsyms.find? (·.1.toList = ep.token) = sym
    dsimp only
    rw [hkey, hsym]
    cases key with
    | some tok => exact .inl rfl
    | none =>
      cases sym with
      | some sym => exact .inr ⟨sym, List.mem_of_find?_eq_some hsym, rfl⟩
      | none => exact .inl rfl
  induction rounds generalizing moved ep with
  | zero => cases hr
  | succ rounds ih =>
    rw [eqnNextLoop] at hr
    split at hr
    · -- The end of the equation has no text.
      cases hr
      exact .inl rfl
    · cases hr
      exact .inr (hclassify true _)
    · split at hr
      · cases hr
        exact .inr (.inl rfl)
      split at hr
      · cases hr
        exact .inr (hclassify false _)
      simp only at hr
      split at hr
      · cases hr
        exact .inr (hclassify false _)
      · -- A defined name was replaced, and reading goes on.
        exact ih hr

theorem nul_notMem_eqnsyms : ∀ sym ∈ eqnsyms, NUL ∉ "\\[".toList ++ sym.2.toList ++ [']'] := by
  decide +kernel

theorem eqnNext_text {mode : ParseMode} {ep : EqnNode} (hclean : ep.Clean) :
    Delivers (eqnNext mode ep) fun r => r.ep.Clean ∧ NUL ∉ r.text := by
  refine (Guarantees.with_eq (eqnNext_spec mode hclean)).mono fun r hres => ?_
  obtain ⟨heq, hadv, _, _⟩ := hres
  refine ⟨hadv.clean, ?_⟩
  rw [eqnNext] at heq
  rcases eqnNextLoop_text heq with htext | htext | ⟨sym, hsym, htext⟩
  · simp [htext]
  · exact htext ▸ hadv.clean.token
  · exact htext ▸ nul_notMem_eqnsyms sym hsym

theorem nul_notMem_eqnFence {left : Bool} (hw : NUL ∉ word) : NUL ∉ eqnFence left word := by
  unfold eqnFence
  split
  · cases left <;> decide
  split
  · cases left <;> decide
  · exact hw

/-- Leaving a list. -/
theorem eqnLeaveList_formed (h : Formed st kids) (h0 : st.parent ≠ 0) :
    Delivers (eqnLeaveList tok st) Forms := by
  refine (eqnUp_formed h h0).bind fun st₁ hres => ?_
  obtain ⟨_, h₁⟩ := hres
  have hup : Delivers (if tok = .BRACE_CLOSE &&
      ((st₁.tree.box st₁.parent).type = .PILE || (st₁.tree.box st₁.parent).type = .MATRIX)
      then eqnUp st₁ else pure st₁) fun st₂ => Formed st₂ kids := by
    refine Guarantees.ite (fun hpile => ?_) fun _ => Guarantees.pure_iff.mpr h₁
    have h01 : st₁.parent ≠ 0 := by
      intro he
      simp [he, h₁.built.rootBox.1] at hpile
    exact (eqnUp_formed h₁ h01).mono fun st₂ h₂ => h₂.2
  refine hup.bind fun st₂ h₂ => ?_
  refine (eqnClimb_formed h₂ (by simp [h₂.root_single])).bind fun q hres => ?_
  obtain ⟨hq, _⟩ := hres
  exact Guarantees.pure_iff.mpr ⟨kids, h₂.goto hq⟩

/-- A right-hand fence changes nothing else. -/
theorem EqnBox.InShape.fence (h : b.InShape n) (hlist : b.type = .LIST) (hw : NUL ∉ word) :
    ({ b with right := some word } : EqnBox).Fresh n where
  shape := { h with
    clean := fun v hv => by
      simp only [words, List.mem_append, Option.toList_some, List.mem_singleton] at hv
      rcases hv with (((hv | hv) | rfl) | hv) | hv
      case inl.inl.inr => exact hw
      all_goals exact h.clean v (by simp [words, hv]) }
  text := fun htext => absurd (htext.symm.trans hlist) (by decide)

theorem eqnClose_formed (h : Formed st kids) (hclean : st.ep.Clean) (tok : EqnTok) :
    Delivers (eqnClose tok st) Forms := by
  refine (eqnFind_sound h.toSound h.parent _).bind fun o ho => ?_
  cases o with
  | none => exact Guarantees.pure_iff.mpr ⟨kids, h⟩
  | some cur =>
    obtain ⟨hcur, hbracket⟩ := ho cur rfl
    have htype : (st.tree.box cur).type = .LIST := by
      simp only [EqnBox.bracket, Bool.and_eq_true, decide_eq_true_eq] at hbracket
      exact hbracket.1.1
    -- The root is not a list.
    have h0 : cur ≠ 0 := by
      rintro rfl
      exact absurd (h.built.rootBox.1.symm.trans htype) (by decide)
    have h₁ := h.goto hcur
    refine Guarantees.ite (fun _ => ?_) fun _ => eqnLeaveList_formed h₁ h0
    refine (eqnNext_text hclean).bind fun r hres => ?_
    obtain ⟨_, htext⟩ := hres
    refine Guarantees.ite (fun _ => Guarantees.pure_iff.mpr ⟨kids, h₁.next _⟩) fun _ => ?_
    have h₂ := (h₁.next r.ep).modify (f := ({ · with right := some (eqnFence false r.text) }))
      hcur h0
      ((h.shape cur hcur).fence htype (nul_notMem_eqnFence htext))
    exact eqnLeaveList_formed h₂ h0

theorem eqnBracket_formed (h : Formed st kids) (hclean : st.ep.Clean) (tok : EqnTok) :
    Delivers (eqnBracket tok st) Forms := by
  have hrewind := Guarantees.with_eq (eqnRewind_formed h)
  refine hrewind.bind fun st₁ hres => ?_
  obtain ⟨heq, h₁, hroom, _⟩ := hres
  have hclean₁ : st₁.ep.Clean := by
    obtain ⟨q, -, hst⟩ := EqnRes.bind_eq_ok.mp heq
    cases hst
    exact hclean
  refine Guarantees.ite (fun _ => ?_) fun _ => ?_
  · refine (eqnNext_text hclean₁).bind fun r hres => ?_
    obtain ⟨_, htext⟩ := hres
    refine Guarantees.ite (fun _ => Guarantees.pure_iff.mpr ⟨kids, h₁.next _⟩) fun _ => ?_
    refine eqnOpen_formed (h₁.next r.ep) h₁.parent (fun _ => .inl hroom) fun _ _ => ?_
    refine fresh_list rfl rfl rfl (.inl ⟨rfl, rfl⟩) (.inl rfl) fun w hw => ?_
    rw [List.mem_singleton.mp (show w ∈ [eqnFence true r.text] from hw)]
    exact nul_notMem_eqnFence htext
  · refine eqnOpen_formed h₁ h₁.parent (fun _ => .inl hroom) fun _ _ => ?_
    exact fresh_list rfl rfl rfl (.inl ⟨rfl, rfl⟩) (.inl rfl) fun _ hw => by cases hw

/-! ## §7 Words -/

/-- A box for a word may get another font and another text. -/
theorem EqnBox.InShape.retext (h : b.InShape n) (htype : b.type = .TEXT) (hw : NUL ∉ word) :
    ({ b with text := some word } : EqnBox).Fresh n where
  shape := { h with
    text := fun _ => htype
    clean := fun v hv => by
      simp only [words, List.mem_append, Option.toList_some, List.mem_singleton] at hv
      rcases hv with (((rfl | hv) | hv) | hv) | hv
      case inl.inl.inl.inl => exact hw
      all_goals exact h.clean v (by simp [words, hv]) }
  text := fun _ => Option.some_ne_none word

theorem EqnBox.InShape.refont (h : b.InShape n) (htext : b.type = .TEXT → b.text ≠ none)
    (font : EqnFontt) : ({ b with font := font } : EqnBox).Fresh n :=
  ⟨{ h with }, htext⟩

/-- Making room for a new box. -/
theorem eqnSplit_formed (h : Formed st kids) (hlast : kids st.parent = l ++ [cur])
    (hcur : (st.tree.box cur).type = .TEXT) : Delivers (eqnSplit st cur) fun r =>
      (r.1.tree.box r.1.parent).full = false ∧ r.1.parent ≠ cur ∧
        (r.1.tree.box cur).type = .TEXT ∧ ∃ kids', Formed r.1 kids' ∧
          (∀ x ∈ Nodes kids {0}, x ∈ Nodes kids' {0}) ∧
          ∀ s, r.2 = some s → s ≠ 0 ∧ s ∈ Nodes kids' {0} := by
  have hmem : cur ∈ kids st.parent := by simp [hlast]
  have hne : st.parent ≠ cur := fun he =>
    h.built.linked.forest.acyclic h.parent hmem (he ▸ .refl)
  -- If there is room, nothing is done; otherwise, a list is put around the last child.
  refine Guarantees.ite (fun _ => ?_) fun hroom =>
    Guarantees.pure_iff.mpr ⟨Bool.eq_false_iff.mpr hroom, hne, hcur, kids, h, fun _ hx => hx,
      fun _ hs => by cases hs⟩
  obtain ⟨t, ht, -, hb⟩ := eqnBoxEnlist_spec h.built h.parent hlast st.ep.gsize
  have hfree := h.built.count_notMem
  have hpn : st.parent ≠ st.tree.count := ne_of_mem_of_not_mem h.parent hfree
  have hcn : cur ≠ st.tree.count :=
    ne_of_mem_of_not_mem (mem_nodes_child h.parent hmem) hfree
  obtain ⟨hlinks, hkeep, hparent, hnew⟩ := eqnBoxEnlist_boxes hpn ht
  -- The new box is a list with one child, so the shapes are kept.
  have hformed : Formed { st with tree := t, parent := st.tree.count } _ :=
    h.wrap h.parent hlast hb hkeep hparent
      (by
        rw [hnew]
        exact fresh_list rfl rfl rfl (.inl ⟨rfl, rfl⟩) (.inr ⟨rfl, rfl⟩) fun _ hw => by cases hw)
      (hlinks ▸ h.built.linked.wrapped_word h.parent hlast hfree)
  refine Guarantees.bind_of_eq ht (Guarantees.pure_iff.mpr ⟨?_, Ne.symm hcn, ?_, _, hformed,
    fun x hx => mem_nodes_wrap h.parent hlast hfree hx, ?_⟩)
  · change (t.box st.tree.count).full = false
    rw [hnew]
    rfl
  · change (t.box cur).type = .TEXT
    rw [hkeep cur hcn (Ne.symm hne)]
    exact hcur
  · intro s hs
    cases hs
    exact ⟨fun he => hfree (he ▸ mem_root kids), mem_nodes_wrap_new h.parent hlast hfree⟩

/-- Splitting a word keeps the boxes in shape. -/
theorem eqnWordLoop_formed {steps : Nat} {split : Option Nat} (hword : NUL ∉ word)
    (h : Formed st kids) (hlast : kids st.parent = l ++ [cur])
    (hcur : (st.tree.box cur).type = .TEXT)
    (hsplit : ∀ s, split = some s → s ≠ 0 ∧ s ∈ Nodes kids {0}) :
    Delivers (eqnWordLoop steps st cur word split) Forms := by
  induction steps generalizing st cur word split kids l with
  | zero => exact Guarantees.error_iff.mpr trivial
  | succ steps ih =>
    have hmem : cur ∈ kids st.parent := by simp [hlast]
    have hcurn := mem_nodes_child h.parent hmem
    have hcur0 : cur ≠ 0 := fun he =>
      h.built.linked.forest.roots st.parent h.parent 0 rfl (he ▸ hmem)
    refine Guarantees.bind (P := fun _ => True) ⟨fun _ _ => trivial, fun _ _ => trivial⟩
      fun part _ => ?_
    have h₁ : Formed { st with tree := st.tree.modify cur ({ · with font := part.font }) } kids :=
      h.modify hcurn hcur0 ((h.shape cur hcurn).refont (h.text cur hcurn hcur0) _)
    have hcur₁ : ((st.tree.modify cur ({ · with font := part.font })).box cur).type = .TEXT := by
      simp [EqnTree.modify, hcur]
    cases hb : part.boundary with
    | none =>
      -- The rest of the word is in one font.
      cases split with
      | none => exact Guarantees.pure_iff.mpr ⟨kids, h₁⟩
      | some s =>
        obtain ⟨hs0, hs⟩ := hsplit s rfl
        exact (eqnUp_formed (h₁.goto hs) hs0).mono fun st' hup => ⟨kids, hup.2⟩
    | some cpn =>
      refine (eqnSplit_formed h₁ hlast hcur₁).bind fun r hres => ?_
      obtain ⟨st₂, list⟩ := r
      obtain ⟨hroom, hpc, hcur₂, kids₂, h₂, hsub, hlist⟩ := hres
      simp only at hroom hpc hcur₂ h₂ hlist
      have hfree := h₂.built.count_notMem
      have hmono : ∀ x ∈ Nodes kids₂ {0},
          x ∈ Nodes (appendKids kids₂ st₂.parent st₂.tree.count) {0} := fun x hx =>
        (mem_appendKids h₂.parent hfree).mpr (.inl hx)
      have hcn : cur ≠ st₂.tree.count := ne_of_mem_of_not_mem (hsub cur hcurn) hfree
      obtain ⟨t, ht, -, hs⟩ := h₂.alloc h₂.parent (fun _ => .inl hroom)
        (opens_word (w := word.drop cpn) (fun hm => hword (List.mem_of_mem_drop hm)) id)
      have hbox := eqnBoxAlloc_boxes ht
      have h₃ := hs st₂.parent (hmono _ h₂.parent)
      have hcur₃ : ((t.modify st₂.tree.count fun b =>
          { b with type := .TEXT, text := some (word.drop cpn), font := id b.font }).box cur).type =
            .TEXT := by
        simp [EqnTree.modify, hbox, hcn, Ne.symm hpc, hcur₂]
      have htake : NUL ∉ word.take cpn := fun hm => hword (List.mem_of_mem_take hm)
      have h₄ := h₃.modify (f := ({ · with text := some (word.take cpn) }))
        (hmono _ (hsub cur hcurn)) hcur0
        ((h₃.shape cur (hmono _ (hsub cur hcurn))).retext hcur₃ htake)
      refine Guarantees.bind_of_eq ht (ih (l := kids₂ st₂.parent) ?_ h₄ appendKids_self ?_ ?_)
      · exact fun hm => hword (List.mem_of_mem_drop hm)
      · simp [EqnTree.modify, Ne.symm hcn]
      · intro s hs'
        cases list with
        | none => exact (hsplit s (by simpa using hs')).imp_right fun hm => hmono s (hsub s hm)
        | some s' =>
          obtain rfl : s' = s := by simpa using hs'
          exact (hlist s' rfl).imp_right (hmono s')

/-- Appending a word keeps the boxes in shape. -/
theorem eqnText_formed (h : Formed st kids) (hword : NUL ∉ word) :
    Delivers (eqnText tok word st) Forms := by
  refine (eqnRewind_formed h).bind fun st₁ hres => ?_
  obtain ⟨h₁, hroom, _⟩ := hres
  obtain ⟨t, ht, hmem, hs⟩ := h₁.alloc h₁.parent (fun _ => .inl hroom)
    (opens_word hword (eqnTextFont tok))
  have h₂ := hs st₁.parent ((mem_appendKids h₁.parent h₁.built.count_notMem).mpr (.inl h₁.parent))
  refine Guarantees.bind_of_eq ht ?_
  refine Guarantees.ite (fun _ => Guarantees.pure_iff.mpr ⟨_, h₂⟩) fun _ => ?_
  refine eqnWordLoop_formed hword h₂ (l := kids st₁.parent) appendKids_self ?_
    fun s hs => by cases hs
  simp [EqnTree.modify]

/-! ## §8 Whole equations -/

/-- **Every token keeps the boxes in shape.** -/
theorem eqnProcess_formed (h : Formed st kids) (hclean : st.ep.Clean) (hword : NUL ∉ word) :
    Delivers (eqnProcess tok word st) Forms := by
  have hcontrol : Delivers (do
      let ep ← eqnControl tok st.ep
      return { st with ep := ep }) Forms :=
    Guarantees.bind (P := fun _ => True) ⟨fun _ _ => trivial, fun _ _ => trivial⟩
      fun ep _ => Guarantees.pure_iff.mpr ⟨kids, h.next _⟩
  have hlist : ∀ font : EqnFontt, Delivers (eqnList ({ · with font := font }) st) Forms :=
    fun _ => eqnList_formed h fun _ _ =>
      fresh_list rfl rfl rfl (.inr rfl) (.inl rfl) fun _ hw => by cases hw
  unfold eqnProcess
  split
  all_goals first
    | with_reducible exact hcontrol
    | with_reducible exact eqnDiacritic_formed h _
    | with_reducible exact hlist _
    | with_reducible exact eqnSize_formed h _
    | with_reducible exact eqnScript_formed h _
    | with_reducible exact eqnSqrt_formed h
    | with_reducible exact eqnOver_formed h
    | with_reducible exact eqnClose_formed h hclean _
    | with_reducible exact eqnBracket_formed h hclean _
    | with_reducible exact eqnPile_formed h (.inl rfl)
    | with_reducible exact eqnPile_formed h (.inr rfl)
    | with_reducible exact eqnAbove_formed h
    | with_reducible exact eqnText_formed h hword
    | exact Guarantees.ok_iff.mpr ⟨kids, h⟩

/-- The root of an equation is in shape. -/
theorem formed_eqnParseStart (ep : EqnNode) (data : CStr) :
    Formed (eqnParseStart ep data) fun _ => [] where
  toSound := sound_eqnParseStart False ep data
  shape x _ := by
    refine ⟨?_, ?_, ?_, ?_, ?_, .inl rfl, ?_, ?_, ?_⟩ <;>
      simp [eqnParseStart, eqnBoxNew, EqnBox.words]
  text x hx hx0 _ := by
    obtain ⟨r, rfl, hb⟩ := hx
    exact absurd (below_of_no_kids rfl hb) hx0
  alone := ⟨rfl, rfl⟩

/-- **The boxes of an equation are in shape** after every run of the parser. -/
theorem eqnParse_formed {steps : Nat} {ep : EqnNode} {data : CStr} (hdata : NUL ∉ data)
    (hdefs : ∀ d ∈ ep.defs, NUL ∉ d.val) (hparse : eqnParse steps ep (some data) = .ok st) :
    ∃ kids, Formed st kids := by
  have hstep : ∀ st : EqnParse, (st.ep.Clean ∧ Forms st) → Ensures (eqnToken st)
      (Loop.Next.Sat (fun st => st.ep.Clean ∧ Forms st) Forms) := by
    rintro st ⟨hclean, kids, h⟩
    apply Ensures.of_imp
    intro next hnext
    have hclean' :
        Delivers (eqnToken st) (Loop.Next.Sat (fun st => st.ep.Clean) fun _ => True) := by
      have hsound : Guarantees (fun _ => True) (eqnToken st) _ :=
        eqnToken_sound (fun _ => ⟨trivial, fun _ _ _ => trivial⟩) h.toSound hclean False.elim
      refine hsound.mono fun next hsat => ?_
      cases next with
      | again st' => exact hsat.1.1
      | done st' => trivial
    have hforms : Delivers (eqnToken st) (Loop.Next.Sat Forms Forms) := by
      unfold eqnToken
      refine Guarantees.ite (fun _ => Guarantees.error_iff.mpr trivial) fun _ => ?_
      refine (eqnNext_text hclean).bind fun r hres => ?_
      obtain ⟨hr, htext⟩ := hres
      refine Guarantees.ite (fun _ => Guarantees.pure_iff.mpr ⟨kids, h.next _⟩) fun _ => ?_
      refine (eqnProcess_formed (h.next r.ep) hr htext).bind fun st' hst' => ?_
      exact Guarantees.pure_iff.mpr hst'
    cases next with
    | again st' => exact ⟨hclean'.1 _ hnext, hforms.1 _ hnext⟩
    | done st' => exact hforms.1 _ hnext
  exact (Loop.run_invariant hstep ⟨⟨hdata, hdefs⟩, _, formed_eqnParseStart ep data⟩).of_eq_ok hparse

/-- Without any text, there is just the root. -/
theorem eqnParse_forms {steps : Nat} {ep : EqnNode} {data : Option CStr}
    (hdata : ∀ c, data = some c → NUL ∉ c) (hdefs : ∀ d ∈ ep.defs, NUL ∉ d.val)
    (hparse : eqnParse steps ep data = .ok st) : ∃ kids, Formed st kids := by
  cases data with
  | none =>
    cases hparse
    exact ⟨_, (formed_eqnParseStart ep []).next ep⟩
  | some text => exact eqnParse_formed (hdata text rfl) hdefs hparse

/-- The boxes of an equation as a tree. -/
theorem Formed.exists_tree (h : Formed st kids) : ∃ sub,
    Laid st.tree.links kids none none [.node 0 sub] ∧
      ∀ x ∈ OrderedTree.nodesAll [.node 0 sub], x ∈ Nodes kids {0} := by
  have hfin : (Nodes kids {0}).Finite :=
    (Set.finite_lt_nat st.tree.count).subset fun x hx => h.built.count x hx
  obtain ⟨sub, hsub, hkids⟩ := h.built.linked.exists_laid hfin (mem_root kids)
  have hchild := (h.built.linked.children 0 (mem_root kids)).child
  have hl : Laid st.tree.links kids none none [.node 0 sub] := by
    refine .cons h.built.root h.alone.2 ?_ h.alone.1 hkids hsub .nil
    rw [hchild, ← hkids, List.head?_map]
  refine ⟨sub, hl, hl.forall_nodes (fun T hT => ?_) fun x hx c hc => mem_nodes_child hx hc⟩
  rw [List.mem_singleton.mp hT]
  exact mem_root kids

/-! ## §9 Following the pointers -/

/-- A box and the boxes after it. -/
def eqnSiblings (t : EqnTree) : Nat → Option Nat → Res (List Nat)
  | _, none => .ok []
  | 0, some _ => .error .fuel
  | steps + 1, some bp => do return bp :: (← eqnSiblings t steps (t.links bp).next)

/-- Following the pointers to the next siblings ends. -/
theorem eqnSiblings_laid {t : EqnTree} {a : Option Nat} {q : Option Nat} {steps : Nat}
    {ts : List (OrderedTree Nat)} (hl : Laid t.links kids q a ts) (hsteps : ts.length ≤ steps) :
    eqnSiblings t steps (ts.head?.map OrderedTree.root) = .ok (ts.map OrderedTree.root) := by
  induction ts generalizing steps q a with
  | nil => cases steps <;> rfl
  | cons T ts ih =>
    cases steps with
    | zero => cases hsteps
    | succ steps =>
      cases hl with
      | cons _ _ _ hnext _ _ hrest =>
        rw [List.head?_cons, Option.map_some, eqnSiblings, OrderedTree.root_node, hnext,
          ih hrest (Nat.le_of_succ_le_succ hsteps)]
        rfl

end Mandoc
