import Mandoc.Eqn.Parse
import Mandoc.Eqn.Invariant
import Mandoc.Eqn.Progress
import Mandoc.Roff.Prefix

/-!
# Parsing Equations Keeps the Tree in Order

Whatever the tokens, the pointers of the boxes represent a tree, and the cursor is a box
of this tree. The counters of the boxes are right, too, unless a word is split into a list
of words: the list does not count its first member.

So the parser never loses its cursor. It can only fail to return because it reads what is
not the equation: a buffer that has been freed, or what is behind the end of a word.

## Main results

- `eqnProcess_sound`: processing one token keeps the invariant.
- `eqnParse_boxTree`: in every run that does not split a word into a list, the counters are
  right.
- `eqnParse_split_args`: a run in which a counter is wrong.
- `eqnParse_returns_iff`: the equations of which the parser comes to an end.
-/

namespace Mandoc

open OrderedForest

/-! ## §1 The invariant of the parser -/

/-- The tree is in order, and the cursor belongs to it. If `c` holds, the counters are
    right, and have been after each call of `eqn_box_makebinary()`. -/
structure Sound (c : Prop) (st : EqnParse) (kids : Nat → List Nat) : Prop where
  built : Built st.tree kids
  parent : st.parent ∈ Nodes kids {0}
  counted : c → Counted st.tree kids
  binaries : c → ∀ t ∈ st.binaries, BoxTree t

variable {c : Prop} {st st' : EqnParse} {kids : Nat → List Nat} {p : Nat}
variable {allowed : EqnFault → Prop}

theorem Sound.ep (h : Sound c st kids) (ep : EqnNode) : Sound c { st with ep := ep } kids :=
  ⟨h.built, h.parent, h.counted, h.binaries⟩

theorem Sound.move (h : Sound c st kids) (hp : p ∈ Nodes kids {0}) :
    Sound c { st with parent := p } kids :=
  ⟨h.built, hp, h.counted, h.binaries⟩

theorem Sound.modify (h : Sound c st kids) (hp : p ≠ 0) (f : EqnBox → EqnBox)
    (hf : ∀ b, (f b).args = b.args) : Sound c { st with tree := st.tree.modify p f } kids :=
  ⟨h.built.modify hp, h.parent, fun hc => (h.counted hc).modify hf, h.binaries⟩

theorem Sound.root_full (h : Sound c st kids) : (st.tree.box 0).full = false := by
  simp [EqnBox.full, h.built.rootBox.2.1]

theorem Sound.root_single (h : Sound c st kids) : (st.tree.box 0).single = false := by
  simp [EqnBox.single, h.built.rootBox.2.1]

/-! ## §2 The building blocks -/

/-- Allocation of a box. -/
theorem Sound.alloc (h : Sound c st kids) (hp : p ∈ Nodes kids {0}) (set : EqnBox → EqnBox)
    (hset : ∀ b, (set b).args = b.args) :
    ∃ t, eqnBoxAlloc st.ep.gsize st.tree p = .ok t ∧
      st.tree.count ∈ Nodes (appendKids kids p st.tree.count) {0} ∧
      ∀ q ∈ Nodes (appendKids kids p st.tree.count) {0},
        Sound c { st with tree := t.modify st.tree.count set, parent := q }
          (appendKids kids p st.tree.count) := by
  obtain ⟨t, ht, -, hb, hc⟩ := eqnBoxAlloc_spec st.ep.gsize h.built hp
  have hnew := h.built.count_notMem
  have hne : st.tree.count ≠ 0 := fun he => hnew (he ▸ mem_root kids)
  refine ⟨t, ht, (mem_appendKids hp hnew).mpr (.inr rfl), fun q hq => ?_⟩
  exact ⟨hb.modify hne, hq, fun hcc => (hc (h.counted hcc)).modify hset, h.binaries⟩

theorem eqnOpen_sound (h : Sound c st kids) (hp : p ∈ Nodes kids {0}) {set : EqnBox → EqnBox}
    (hset : ∀ b, (set b).args = b.args) : Guarantees allowed (eqnOpen st p set) fun st' =>
      st'.ep = st.ep ∧ ∃ kids', Sound c st' kids' := by
  obtain ⟨t, ht, hmem, hs⟩ := h.alloc hp set hset
  refine Guarantees.bind_of_eq ht (Guarantees.pure_iff.mpr ⟨rfl, _, hs _ hmem⟩)

/-- Putting a box above the last child. -/
theorem eqnPivot_sound (h : Sound c st kids) (hk : kids st.parent ≠ []) {set : EqnBox → EqnBox}
    (hset : ∀ b, (set b).args = b.args) : Guarantees allowed (eqnPivot st set) fun st' =>
      st'.ep = st.ep ∧ st'.parent ≠ 0 ∧ ∃ kids', Sound c st' kids' := by
  obtain ⟨l, b, hl⟩ : ∃ l b, kids st.parent = l ++ [b] :=
    ⟨_, _, (List.dropLast_append_getLast hk).symm⟩
  obtain ⟨t, ht, hb, hc⟩ := eqnBoxMakebinary_spec h.built h.parent hl st.ep.gsize
  have hnew := h.built.count_notMem
  have hne : st.tree.count ≠ 0 := fun he => hnew (he ▸ mem_root kids)
  refine Guarantees.bind_of_eq ht (Guarantees.pure_iff.mpr ⟨rfl, hne, _, hb.modify hne,
    mem_nodes_wrap_new h.parent hl hnew, fun hcc => (hc (h.counted hcc)).modify hset,
    fun hcc t' ht' => ?_⟩)
  rcases List.mem_cons.mp ht' with rfl | ht'
  · exact hb.boxTree (hc (h.counted hcc))
  · exact h.binaries hcc t' ht'

/-- The operand of an operator exists. -/
theorem eqnNobox_sound (h : Sound c st kids) : Guarantees allowed (eqnNobox st) fun st' =>
    st'.ep = st.ep ∧ ∃ kids', Sound c st' kids' ∧ kids' st'.parent ≠ [] := by
  refine Guarantees.ite (fun hlast => ?_) fun hlast => ?_
  · obtain ⟨t, ht, -, hs⟩ := h.alloc h.parent
      ({ · with type := .TEXT, text := some [] }) fun _ => rfl
    have hnew := h.built.count_notMem
    refine Guarantees.bind_of_eq ht (Guarantees.pure_iff.mpr ⟨rfl, _, hs st.parent
      ((mem_appendKids h.parent hnew).mpr (.inl h.parent)), ?_⟩)
    simp [appendKids_self]
  · rw [h.built.last_eq_none h.parent] at hlast
    exact Guarantees.pure_iff.mpr ⟨rfl, kids, h, hlast⟩

theorem eqnUp_sound (h : Sound c st kids) (h0 : st.parent ≠ 0) :
    Guarantees allowed (eqnUp st) fun st' => st'.ep = st.ep ∧ st'.tree = st.tree ∧
      Sound c st' kids ∧ kids st'.parent ≠ [] := by
  obtain ⟨q, hq, hqn, hmem⟩ := h.built.parent h.parent h0
  exact Guarantees.bind_of_eq hq
    (Guarantees.pure_iff.mpr ⟨rfl, rfl, h.move hqn, List.ne_nil_of_mem hmem⟩)

/-- Leaving boxes that are closed. -/
theorem eqnClimb_sound (h : Sound c st kids) {closed : EqnBox → Bool}
    (h0 : closed (st.tree.box 0) = false) :
    Guarantees allowed (eqnClimb st.tree closed st.parent) fun q =>
      q ∈ Nodes kids {0} ∧ (kids st.parent ≠ [] → kids q ≠ []) := by
  obtain ⟨q, hq, hqn, hqx⟩ := h.built.climb h.parent h0
  refine Guarantees.of_eq hq ⟨hqn, fun hk => ?_⟩
  rcases hqx with rfl | hqx
  · exact hk
  · exact hqx

theorem eqnRewind_sound (h : Sound c st kids) : Guarantees allowed (eqnRewind st) fun st' =>
    st'.ep = st.ep ∧ Sound c st' kids ∧ (kids st.parent ≠ [] → kids st'.parent ≠ []) :=
  (eqnClimb_sound h h.root_full).bind fun _ hq =>
    Guarantees.pure_iff.mpr ⟨rfl, h.move hq.1, hq.2⟩

theorem eqnFind_sound (h : Sound c st kids) (hp : p ∈ Nodes kids {0}) (stop : EqnBox → Bool) :
    Guarantees allowed (eqnFind st.tree stop p) fun o =>
      ∀ q, o = some q → q ∈ Nodes kids {0} ∧ stop (st.tree.box q) = true := by
  obtain ⟨o, ho, hsome, -⟩ := h.built.ascend hp stop
  exact Guarantees.of_eq ho fun q hq => ⟨(hsome q hq).1, (hsome q hq).2.1⟩

/-! ## §3 Operators -/

/-- What processing a token does: reading does not go back, and the tree is in order. -/
def Processed (c : Prop) (ep : EqnNode) (st' : EqnParse) : Prop :=
  Advance ep st'.ep ∧ ∃ kids', Sound c st' kids'

theorem Processed.of_eq (hclean : st.ep.Clean) (he : st'.ep = st.ep) {kids' : Nat → List Nat}
    (hs : Sound c st' kids') : Processed c st.ep st' :=
  ⟨by rw [he]; exact Advance.refl hclean, kids', hs⟩

section Steps

variable (h : Sound c st kids) (hclean : st.ep.Clean)
include h hclean

theorem eqnDiacritic_sound (tok : EqnTok) :
    Guarantees allowed (eqnDiacritic tok st) (Processed c st.ep) := by
  have hargs : ∀ b : EqnBox, (eqnMark tok b).args = b.args := by
    intro b
    unfold eqnMark
    split <;> rfl
  refine (eqnNobox_sound h).bind fun st₁ ⟨he₁, kids₁, h₁, hk₁⟩ => ?_
  refine (eqnPivot_sound h₁ hk₁ (by intro b; exact hargs _)).bind fun st₂ ⟨he₂, h0, kids₂, h₂⟩ => ?_
  refine (eqnUp_sound h₂ h0).mono fun st₃ ⟨he₃, _, h₃, _⟩ => ?_
  exact Processed.of_eq hclean (he₃.trans (he₂.trans he₁)) h₃

theorem eqnList_sound {set : EqnBox → EqnBox} (hset : ∀ b, (set b).args = b.args) :
    Guarantees allowed (eqnList set st) (Processed c st.ep) := by
  refine (eqnRewind_sound h).bind fun st₁ ⟨he₁, h₁, _⟩ => ?_
  refine (eqnOpen_sound h₁ h₁.parent (by intro b; exact hset _)).mono fun st₂ ⟨he₂, kids₂, h₂⟩ => ?_
  exact Processed.of_eq hclean (he₂.trans he₁) h₂

theorem eqnSize_sound (tok : EqnTok) :
    Guarantees allowed (eqnSize tok st) (Processed c st.ep) := by
  refine (eqnNext_spec .SUB hclean).bind fun n ⟨hn, _, _⟩ => ?_
  have hst : Processed c st.ep { st with ep := n.ep } := ⟨hn, kids, h.ep _⟩
  refine Guarantees.ite (fun _ => Guarantees.pure_iff.mpr hst) fun _ => ?_
  refine Guarantees.ite (fun _ => Guarantees.pure_iff.mpr hst) fun _ => ?_
  refine Guarantees.ite (fun _ => Guarantees.pure_iff.mpr ?_) fun _ => ?_
  · exact ⟨⟨hn.left, hn.clean.data, hn.clean.defs⟩, kids, h.ep _⟩
  · refine (eqnList_sound (h.ep _) hn.clean (by intro b; rfl)).mono fun st₁ ⟨hadv, hs⟩ => ?_
    exact ⟨hn.trans hadv, hs⟩

theorem eqnSqrt_sound : Guarantees allowed (eqnSqrt st) (Processed c st.ep) := by
  refine (eqnRewind_sound h).bind fun st₁ ⟨he₁, h₁, _⟩ => ?_
  refine (eqnOpen_sound h₁ h₁.parent (by intro b; rfl)).mono fun st₂ ⟨he₂, kids₂, h₂⟩ => ?_
  exact Processed.of_eq hclean (he₂.trans he₁) h₂

theorem eqnPile_sound (type : EqnBoxt) :
    Guarantees allowed (eqnPile type st) (Processed c st.ep) := by
  refine (eqnRewind_sound h).bind fun st₁ ⟨he₁, h₁, _⟩ => ?_
  refine (eqnOpen_sound h₁ h₁.parent (by intro b; rfl)).mono fun st₂ ⟨he₂, kids₂, h₂⟩ => ?_
  exact Processed.of_eq hclean (he₂.trans he₁) h₂

theorem eqnAbove_sound : Guarantees allowed (eqnAbove st) (Processed c st.ep) := by
  refine (eqnFind_sound h h.parent _).bind fun o ho => ?_
  cases o with
  | none => exact Guarantees.pure_iff.mpr (Processed.of_eq hclean rfl h)
  | some cur =>
    refine (eqnOpen_sound h (ho cur rfl).1 (by intro b; rfl)).mono fun st₁ ⟨he₁, kids₁, h₁⟩ => ?_
    exact Processed.of_eq hclean he₁ h₁

theorem eqnOver_sound : Guarantees allowed (eqnOver st) (Processed c st.ep) := by
  refine (eqnNobox_sound h).bind fun st₁ ⟨he₁, kids₁, h₁, hk₁⟩ => ?_
  refine (eqnRewind_sound h₁).bind fun st₂ ⟨he₂, h₂, hk₂⟩ => ?_
  refine (eqnClimb_sound h₂ (by simp [h₂.built.rootBox.1])).bind fun q ⟨hq, hk₃⟩ => ?_
  refine (eqnPivot_sound (h₂.move hq) (hk₃ (hk₂ hk₁)) (by intro b; rfl)).mono
    fun st₃ ⟨he₃, _, kids₃, h₃⟩ => ?_
  exact Processed.of_eq hclean (he₃.trans (he₂.trans he₁)) h₃

omit hclean in
/-- Where `from` and `to` leave a subexpression, there is an operand. -/
theorem eqnLeave_sound (tok : EqnTok) (hp : p ∈ Nodes kids {0}) (hk : kids p ≠ []) :
    Guarantees allowed (eqnLeave tok st.tree p) fun q => q ∈ Nodes kids {0} ∧ kids q ≠ [] := by
  refine Guarantees.ite (fun _ => ?_) fun _ => Guarantees.pure_iff.mpr ⟨hp, hk⟩
  refine (eqnFind_sound h hp _).bind fun o ho => ?_
  cases o with
  | none => exact Guarantees.pure_iff.mpr ⟨hp, hk⟩
  | some cur =>
    obtain ⟨hcur, hscript⟩ := ho cur rfl
    -- The root has no position.
    have h0 : cur ≠ 0 := by
      rintro rfl
      simp [EqnBox.script, h.built.rootBox.2.2] at hscript
    obtain ⟨q, hq, hqn, hmem⟩ := h.built.parent hcur h0
    exact Guarantees.of_eq hq ⟨hqn, List.ne_nil_of_mem hmem⟩

theorem eqnScript_sound (tok : EqnTok) :
    Guarantees allowed (eqnScript tok st) (Processed c st.ep) := by
  refine (eqnNobox_sound h).bind fun st₁ ⟨he₁, kids₁, h₁, hk₁⟩ => ?_
  refine (eqnClimb_sound h₁ h₁.root_single).bind fun p ⟨hp, hkp⟩ => ?_
  refine (eqnLeave_sound h₁ tok hp (hkp hk₁)).bind fun q ⟨hq, hkq⟩ => ?_
  have h₂ := h₁.move hq
  have h0 : ∀ pos, pos ≠ .NONE → (st₁.tree.box q).pos = pos → q ≠ 0 := by
    rintro pos hne hpos rfl
    exact hne (hpos.symm.trans h₁.built.rootBox.2.2)
  refine Guarantees.ite (fun hsup => Guarantees.pure_iff.mpr ?_) fun _ => ?_
  · have hpos : (st₁.tree.box q).pos = .SUB := by simpa using (Bool.and_eq_true_iff.mp hsup).2
    exact Processed.of_eq hclean he₁ (h₂.modify (h0 _ (by simp) hpos) _ fun _ => rfl)
  refine Guarantees.ite (fun hto => Guarantees.pure_iff.mpr ?_) fun _ => ?_
  · have hpos : (st₁.tree.box q).pos = .FROM := by simpa using (Bool.and_eq_true_iff.mp hto).2
    exact Processed.of_eq hclean he₁ (h₂.modify (h0 _ (by simp) hpos) _ fun _ => rfl)
  · refine (eqnPivot_sound h₂ hkq (by intro b; rfl)).mono fun st₃ ⟨he₃, _, kids₃, h₃⟩ => ?_
    exact Processed.of_eq hclean (he₃.trans he₁) h₃

/-! ## §4 Brackets -/

theorem eqnLeaveList_sound (tok : EqnTok) (h0 : st.parent ≠ 0) :
    Guarantees allowed (eqnLeaveList tok st) (Processed c st.ep) := by
  refine (eqnUp_sound h h0).bind fun st₁ ⟨he₁, ht₁, h₁, _⟩ => ?_
  have hup : Guarantees allowed (if tok = .BRACE_CLOSE &&
      ((st₁.tree.box st₁.parent).type = .PILE || (st₁.tree.box st₁.parent).type = .MATRIX)
      then eqnUp st₁ else pure st₁) fun st₂ => st₂.ep = st.ep ∧ Sound c st₂ kids := by
    refine Guarantees.ite (fun hpile => ?_) fun _ => Guarantees.pure_iff.mpr ⟨he₁, h₁⟩
    have h01 : st₁.parent ≠ 0 := by
      intro he
      simp [he, h₁.built.rootBox.1] at hpile
    exact (eqnUp_sound h₁ h01).mono fun st₂ ⟨he₂, _, h₂, _⟩ => ⟨he₂.trans he₁, h₂⟩
  refine hup.bind fun st₂ ⟨he₂, h₂⟩ => ?_
  refine (eqnClimb_sound h₂ (by simp [h₂.root_single])).bind fun q ⟨hq, _⟩ => ?_
  exact Guarantees.pure_iff.mpr (Processed.of_eq hclean he₂ (h₂.move hq))

theorem eqnClose_sound (tok : EqnTok) :
    Guarantees allowed (eqnClose tok st) (Processed c st.ep) := by
  refine (eqnFind_sound h h.parent _).bind fun o ho => ?_
  cases o with
  | none => exact Guarantees.pure_iff.mpr (Processed.of_eq hclean rfl h)
  | some cur =>
    obtain ⟨hcur, hbracket⟩ := ho cur rfl
    -- The root is not a list.
    have h0 : cur ≠ 0 := by
      rintro rfl
      simp [EqnBox.bracket, h.built.rootBox.1] at hbracket
    have h₁ := h.move hcur
    refine Guarantees.ite (fun _ => ?_) fun _ => eqnLeaveList_sound h₁ hclean tok h0
    refine (eqnNext_spec .SUB hclean).bind fun n ⟨hn, _, _⟩ => ?_
    refine Guarantees.ite (fun _ => Guarantees.pure_iff.mpr ⟨hn, kids, h₁.ep _⟩) fun _ => ?_
    have h₂ := (h₁.ep n.ep).modify h0 ({ · with right := some (eqnFence false n.text) })
      fun _ => rfl
    exact (eqnLeaveList_sound h₂ hn.clean tok h0).mono fun st₃ ⟨hadv, hs⟩ => ⟨hn.trans hadv, hs⟩

theorem eqnBracket_sound (tok : EqnTok) :
    Guarantees allowed (eqnBracket tok st) (Processed c st.ep) := by
  refine (eqnRewind_sound h).bind fun st₁ ⟨he₁, h₁, _⟩ => ?_
  refine Guarantees.ite (fun _ => ?_) fun _ => ?_
  · refine (eqnNext_spec .SUB (he₁ ▸ hclean)).bind fun n ⟨hn, _, _⟩ => ?_
    rw [he₁] at hn
    refine Guarantees.ite (fun _ => Guarantees.pure_iff.mpr ⟨hn, kids, h₁.ep _⟩) fun _ => ?_
    refine (eqnOpen_sound (h₁.ep n.ep) h₁.parent (by intro b; rfl)).mono fun st₂ ⟨he₂, kids₂, h₂⟩ => ?_
    exact ⟨he₂ ▸ hn, kids₂, h₂⟩
  · refine (eqnOpen_sound h₁ h₁.parent (by intro b; rfl)).mono fun st₂ ⟨he₂, kids₂, h₂⟩ => ?_
    exact Processed.of_eq hclean (he₂.trans he₁) h₂

/-! ## §5 Words -/

end Steps

/-- The number of boundaries in a word, at most as many as given. -/
def wordBoundaries : Nat → CStr → Nat
  | 0, _ => 0
  | steps + 1, p =>
    match wordPart p with
    | .error _ => 0
    | .ok part =>
      match part.boundary with
      | none => 0
      | some cpn => wordBoundaries steps (p.drop cpn) + 1

/-- Appending as many more boxes leaves no moment when the box is full. -/
def EqnBox.Room (b : EqnBox) (more : Nat) : Prop :=
  ∀ e, b.expectargs = some e → e < b.args ∨ b.args + more ≤ e

/-- From an index on, the characters of a word end with the word: at every backslash,
    `mandoc_escape()` returns to the parser with a position inside the word. -/
inductive CharsEnd (word : CStr) : Nat → Prop where
  | stop {i : Nat} (hc : charAt word i = NUL) : CharsEnd word i
  | char {i : Nat} (hc : charAt word i ≠ NUL) (hesc : charAt word i ≠ '\\')
      (h : CharsEnd word (i + 1)) : CharsEnd word i
  | escape {i : Nat} {res : EscResult} (hc : charAt word i = '\\')
      (hres : mandocEscape word i = .ok res) (hend : res.rend ≤ word.length)
      (h : CharsEnd word res.rend) : CharsEnd word i

/-- What a word is preceded by does not matter. -/
theorem charsEnd_append {l s : CStr} (hs : NUL ∉ s) (hl : NUL ∉ l) (i : Nat) :
    CharsEnd (l ++ s) (l.length + i) ↔ CharsEnd s i := by
  constructor
  · intro h
    generalize hj : l.length + i = j at h
    induction h generalizing i with
    | stop hc =>
      subst hj
      exact .stop (by rwa [charAt_append] at hc)
    | char hc hesc _ ih =>
      subst hj
      rw [charAt_append] at hc hesc
      exact .char hc hesc (ih (i + 1) (Nat.add_assoc ..).symm)
    | escape hc hres hend _ ih =>
      subst hj
      rw [charAt_append] at hc
      -- The escape sequence is read in the same way behind a prefix.
      rw [mandocEscape_append hs hl] at hres
      cases hr : mandocEscape s i with
      | error fault =>
        rw [hr] at hres
        cases hres
      | ok res =>
        rw [hr, Res.map_ok] at hres
        cases hres
        rw [EscResult.shift_rend, List.length_append] at hend
        exact .escape hc hr (Nat.le_of_add_le_add_left hend) (ih _ rfl)
  · intro h
    induction h with
    | stop hc => exact .stop (by rwa [charAt_append])
    | char hc hesc _ ih => exact .char (by rwa [charAt_append]) (by rwa [charAt_append]) ih
    | @escape i res hc hres hend _ ih =>
      have hshift : mandocEscape (l ++ s) (l.length + i) = .ok (res.shift l.length) := by
        rw [mandocEscape_append hs hl, hres]
        rfl
      refine .escape (by rwa [charAt_append]) hshift ?_ ih
      rw [List.length_append]
      exact Nat.add_le_add_left hend _

theorem charsEnd_drop {word : CStr} {k : Nat} (hword : NUL ∉ word) (hk : k ≤ word.length) :
    CharsEnd (word.drop k) 0 ↔ CharsEnd word k := by
  have h := charsEnd_append (l := word.take k) (s := word.drop k)
    (fun hm => hword (List.mem_of_mem_drop hm)) (fun hm => hword (List.mem_of_mem_take hm)) 0
  rw [List.take_append_drop, List.length_take_of_le hk, Nat.add_zero] at h
  exact h.symm

/-- The next character is further on in the word, and if it cannot be found, the characters do
    not end with the word. -/
theorem skipChar_spec {word : CStr} {i : Nat}
    (hesc : ¬ CharsEnd word i → ∀ w j f, allowed (.escape w j f))
    (hword : NUL ∉ word) : Guarantees allowed (skipChar word i) fun j =>
      i < j ∧ (CharsEnd word i ↔ CharsEnd word j) := by
  refine Guarantees.ite (fun hc => ?_) fun hc =>
    Guarantees.ok_iff.mpr ⟨Nat.lt_succ_self i, fun h => ?_, fun h => ?_⟩
  · -- A backslash starts an escape sequence.
    cases he : mandocEscape word i with
    | error fault =>
      refine Guarantees.error_iff.mpr (hesc ?_ _ _ _)
      rintro (hnul | ⟨-, hne, -⟩ | ⟨-, hres, -, -⟩)
      · simp [hc, NUL] at hnul
      · exact hne hc
      · simp [he] at hres
    | ok res =>
      refine Guarantees.ite (fun hend => Guarantees.ok_iff.mpr ⟨?_, fun h => ?_, fun h => ?_⟩)
        fun hlen => Guarantees.error_iff.mpr (hesc ?_ _ _ _)
      · obtain ⟨res', hres, hret⟩ := Res.bind_eq_ok.mp he
        have heq : res' = res := by
          by_cases hx : res'.rval = .EXPAND
          · simp [hx] at hret
          · simpa [hx] using hret
        have hb := escapeRec_bounded hword (by rw [hc]; decide) (heq ▸ hres)
        exact Nat.lt_of_le_of_lt hb.resc_ge hb.resc_lt
      · rcases h with hnul | ⟨-, hne, -⟩ | ⟨-, hres, -, hrest⟩
        · simp [hc, NUL] at hnul
        · exact absurd hc hne
        · rw [he] at hres
          cases hres
          exact hrest
      · exact .escape hc he hend h
      · rintro (hnul | ⟨-, hne, -⟩ | ⟨-, hres, hend, -⟩)
        · simp [hc, NUL] at hnul
        · exact hne hc
        · rw [he] at hres
          cases hres
          exact hlen hend
  · -- Other bytes are passed over one by one.
    rcases h with hnul | ⟨-, -, hrest⟩ | ⟨hbs, -⟩
    · have hlen : word.length ≤ i := Nat.le_of_not_lt fun hlt => charAt_ne_nul hword hlt hnul
      exact .stop (charAt_of_ge (Nat.le_succ_of_le hlen))
    · exact hrest
    · exact absurd hbs hc
  · by_cases hnul : charAt word i = NUL
    · exact .stop hnul
    · exact .char hnul hc h

/-- A boundary is inside the word. -/
theorem scanWord_spec {word : CStr} {steps cp : Nat} {ccl : CharClass}
    (hesc : ¬ CharsEnd word cp → ∀ w j f, allowed (.escape w j f))
    (hword : NUL ∉ word) (hcp : cp ≤ word.length) (hsteps : word.length < cp + steps) :
    Guarantees allowed (scanWord word steps cp ccl) fun part =>
      (part.boundary = none → CharsEnd word cp) ∧
      ∀ cpn, part.boundary = some cpn → cp < cpn ∧ cpn < word.length ∧
        (CharsEnd word cp ↔ CharsEnd word cpn) := by
  induction steps generalizing cp ccl with
  | zero => exact absurd hsteps (Nat.not_lt.mpr hcp)
  | succ steps ih =>
    refine (skipChar_spec hesc hword).bind fun cpn hskip => ?_
    obtain ⟨hcpn, hends⟩ := hskip
    refine Guarantees.ite (fun hnul => ?_) fun hnul => ?_
    · exact Guarantees.pure_iff.mpr ⟨fun _ => hends.mpr (.stop hnul), by simp⟩
    have hlt := lt_length_of_charAt_ne_nul hnul
    refine Guarantees.ite (fun _ => ?_) fun _ => Guarantees.pure_iff.mpr ⟨by simp, ?_⟩
    · have hesc' : ¬ CharsEnd word cpn → ∀ w j f, allowed (.escape w j f) := fun hn =>
        hesc fun h => hn (hends.mp h)
      refine (ih hesc' hlt.le (by omega)).mono fun part hpart =>
        ⟨fun hnone => hends.mpr (hpart.1 hnone), fun cpn' hcpn' => ?_⟩
      obtain ⟨h1, h2, h3⟩ := hpart.2 cpn' hcpn'
      exact ⟨Nat.lt_trans hcpn h1, h2, hends.trans h3⟩
    · rintro cpn' ⟨⟩
      exact ⟨hcpn, hlt, hends⟩

theorem wordPart_spec {word : CStr} (hesc : ¬ CharsEnd word 0 → ∀ w j f, allowed (.escape w j f))
    (hword : NUL ∉ word) : Guarantees allowed (wordPart word) fun part =>
      (part.boundary = none → CharsEnd word 0) ∧
      ∀ cpn, part.boundary = some cpn → 0 < cpn ∧ cpn < word.length ∧
        (CharsEnd word 0 ↔ CharsEnd word cpn) :=
  scanWord_spec hesc hword (Nat.zero_le _) (by omega)

/-- What allocation does to the data of the boxes. -/
theorem eqnBoxAlloc_box {t t' : EqnTree} {gsize : Int} (h : eqnBoxAlloc gsize t p = .ok t')
    (hp : p ≠ t.count) : (t'.box t.count).font = (t.box p).font ∧
      t'.box p = { t.box p with args := (t.box p).args + 1 } := by
  unfold eqnBoxAlloc at h
  split at h
  · cases h
  · cases h
    simp [EqnTree.modify, hp]

/-- Making room for a new box. -/
theorem eqnSplit_sound {cur : Nat} {l : List Nat} (h : Sound c st kids)
    (hlast : kids st.parent = l ++ [cur]) (hroom : c → (st.tree.box st.parent).full = false) :
    Guarantees allowed (eqnSplit st cur) fun r => r.1.ep = st.ep ∧
      (c → r.1 = st ∧ r.2 = none) ∧ ∃ kids', Sound c r.1 kids' ∧
        (∀ x ∈ Nodes kids {0}, x ∈ Nodes kids' {0}) ∧
        ∀ s, r.2 = some s → s ≠ 0 ∧ s ∈ Nodes kids' {0} := by
  refine Guarantees.ite (fun hfull => ?_) fun _ =>
    Guarantees.pure_iff.mpr ⟨rfl, fun _ => ⟨rfl, rfl⟩, kids, h, fun _ hx => hx, by simp⟩
  -- A list that replaces a word spoils the counters.
  have hc : ¬ c := fun hc => by simp [hroom hc] at hfull
  obtain ⟨t, ht, -, hb⟩ := eqnBoxEnlist_spec h.built h.parent hlast st.ep.gsize
  have hnew := h.built.count_notMem
  have hmem := mem_nodes_wrap_new h.parent hlast hnew
  refine Guarantees.bind_of_eq ht (Guarantees.pure_iff.mpr ⟨rfl, fun hcc => absurd hcc hc, _,
    ⟨hb, hmem, fun hcc => absurd hcc hc, fun hcc => absurd hcc hc⟩,
    fun x hx => mem_nodes_wrap h.parent hlast hnew hx, ?_⟩)
  rintro s ⟨⟩
  exact ⟨fun he => hnew (he ▸ mem_root kids), hmem⟩

/-- Splitting a word keeps the tree in order. It comes to an end if the characters end with the
    word, and only then. -/
theorem eqnWordLoop_sound {steps cur : Nat} {word : CStr} {split : Option Nat} {l : List Nat}
    (hesc : ¬ CharsEnd word 0 → ∀ w j f, allowed (.escape w j f))
    (hword : NUL ∉ word) (hsteps : word.length < steps) (h : Sound c st kids)
    (hlast : kids st.parent = l ++ [cur])
    (hsplit : ∀ s, split = some s → s ≠ 0 ∧ s ∈ Nodes kids {0})
    (hroom : c → (st.tree.box st.parent).Room (wordBoundaries steps word)) :
    Guarantees allowed (eqnWordLoop steps st cur word split) fun st' =>
      st'.ep = st.ep ∧ CharsEnd word 0 ∧ ∃ kids', Sound c st' kids' := by
  induction steps generalizing st cur word split kids l with
  | zero => exact absurd hsteps (Nat.not_lt_zero _)
  | succ steps ih =>
    have hcur : cur ∈ kids st.parent := by simp [hlast]
    have hcur0 : cur ≠ 0 := fun he =>
      h.built.linked.forest.roots st.parent h.parent 0 rfl (he ▸ hcur)
    have hcurp : st.parent ≠ cur := fun he =>
      h.built.linked.forest.acyclic h.parent hcur (he ▸ .refl)
    refine (Guarantees.with_eq (wordPart_spec hesc hword)).bind fun part hpart => ?_
    obtain ⟨heq, hrest, hboundary⟩ := hpart
    have h₁ : Sound c { st with tree := st.tree.modify cur ({ · with font := part.font }) } kids :=
      h.modify hcur0 _ fun _ => rfl
    have hbox : (st.tree.modify cur ({ · with font := part.font })).box st.parent =
        st.tree.box st.parent := by
      simp [EqnTree.modify, hcurp]
    cases hb : part.boundary with
    | none =>
      -- The rest of the word is in one font.
      cases split with
      | none => exact Guarantees.pure_iff.mpr ⟨rfl, hrest hb, kids, h₁⟩
      | some s =>
        obtain ⟨hs0, hs⟩ := hsplit s rfl
        exact (eqnUp_sound (h₁.move hs) hs0).mono fun st' hup => ⟨hup.1, hrest hb, kids, hup.2.2.1⟩
    | some cpn =>
      obtain ⟨hcpn, hlt, hends⟩ := hboundary cpn hb
      have hends : CharsEnd word 0 ↔ CharsEnd (word.drop cpn) 0 :=
        hends.trans (charsEnd_drop hword hlt.le).symm
      have hcount : wordBoundaries (steps + 1) word =
          wordBoundaries steps (word.drop cpn) + 1 := by
        have hw : wordPart word = .ok part := heq
        simp only [wordBoundaries, hw, hb]
      have hfull : c → ((st.tree.modify cur ({ · with font := part.font })).box
          st.parent).full = false := by
        intro hc
        rw [hbox]
        simp only [EqnBox.full, decide_eq_false_iff_not]
        intro he
        have := hroom hc _ he
        omega
      refine (eqnSplit_sound h₁ hlast hfull).bind fun r hr => ?_
      obtain ⟨st₂, list⟩ := r
      obtain ⟨he₂, hsame, kids₂, h₂, hsub, hlist⟩ := hr
      simp only at he₂ hsame h₂ hlist
      have hnew := h₂.built.count_notMem
      have hpn : st₂.parent ≠ st₂.tree.count := ne_of_mem_of_not_mem h₂.parent hnew
      have hmono : ∀ x ∈ Nodes kids₂ {0},
          x ∈ Nodes (appendKids kids₂ st₂.parent st₂.tree.count) {0} := fun x hx =>
        (mem_appendKids h₂.parent hnew).mpr (.inl hx)
      obtain ⟨t, ht, -, hs⟩ := h₂.alloc h₂.parent
        ({ · with type := .TEXT, text := some (word.drop cpn) }) fun _ => rfl
      have h₃ := (hs st₂.parent (hmono _ h₂.parent)).modify hcur0
        ({ · with text := some (word.take cpn) }) fun _ => rfl
      have hsplit' : ∀ s, list.or split = some s →
          s ≠ 0 ∧ s ∈ Nodes (appendKids kids₂ st₂.parent st₂.tree.count) {0} := by
        intro s hs
        cases list with
        | none => exact (hsplit s (by simpa using hs)).imp_right fun hm => hmono s (hsub s hm)
        | some s' =>
          obtain rfl : s' = s := by simpa using hs
          exact (hlist s' rfl).imp_right (hmono s')
      refine Guarantees.bind_of_eq ht ((ih (fun hn => hesc fun h => hn (hends.mp h)) ?_ ?_ h₃
        (l := kids₂ st₂.parent) appendKids_self hsplit' fun hc => ?_).mono fun st' hst =>
          ⟨hst.1.trans he₂, hends.mpr hst.2.1, hst.2.2⟩)
      · exact fun hm => hword (List.mem_of_mem_drop hm)
      · rw [List.length_drop]
        omega
      · -- As long as there is room, the counter of the parent grows with every part.
        obtain ⟨rfl, -⟩ := hsame hc
        have hargs : ((((t.modify st.tree.count
            ({ · with type := .TEXT, text := some (word.drop cpn) })).modify cur
            ({ · with text := some (word.take cpn) })).box st.parent)) =
            { st.tree.box st.parent with args := (st.tree.box st.parent).args + 1 } := by
          rw [← hbox, ← (eqnBoxAlloc_box ht hpn).2]
          simp only [EqnTree.modify] at hpn
          simp [EqnTree.modify, hcurp, hpn]
        intro e he
        have hroom' := hroom hc e
        simp only [EqnTree.modify] at hargs he ⊢
        rw [hargs] at he ⊢
        have := hroom' he
        simp only
        omega

/-- While that many more boxes are appended, there is a moment when the box is full. -/
def EqnBox.splits (b : EqnBox) (more : Nat) : Bool :=
  b.font = .NONE && b.expectargs.any fun e => b.args < e && e ≤ b.args + more

/-- A word in which the font changes is split into a list: outside the scope of a font
    keyword, the box it belongs to will be full before all its parts have been appended. -/
def splitsWord (st : EqnParse) (tok : EqnTok) (word : CStr) : Bool :=
  match eqnClimb st.tree EqnBox.full st.parent with
  | .error _ => false
  | .ok parent =>
    tok = .TOK__MAX && (st.tree.box parent).splits (wordBoundaries (word.length + 1) word)

/-- The font of a word is found out from its characters, outside the scope of a font keyword. -/
def scansWord (st : EqnParse) (tok : EqnTok) : Bool :=
  match eqnClimb st.tree EqnBox.full st.parent with
  | .error _ => false
  | .ok parent => tok = .TOK__MAX && (st.tree.box parent).font = .NONE

/-- Appending a word keeps the tree in order. -/
theorem eqnText_sound {tok : EqnTok} {word : CStr}
    (hesc : scansWord st tok = true → ¬ CharsEnd word 0 → ∀ w j f, allowed (.escape w j f))
    (h : Sound c st kids) (hclean : st.ep.Clean)
    (hword : tok = .TOK__MAX → NUL ∉ word)
    (hsplit : c → splitsWord st tok word = false) :
    Guarantees allowed (eqnText tok word st) fun st' =>
      Processed c st.ep st' ∧ (scansWord st tok = true → CharsEnd word 0) := by
  obtain ⟨q, hq, hqn, -⟩ := h.built.climb h.parent h.root_full
  have hnew := h.built.count_notMem
  have hqc : q ≠ st.tree.count := ne_of_mem_of_not_mem hqn hnew
  obtain ⟨t, ht, hmem, hs⟩ := h.alloc hqn
    (fun b => { b with type := .TEXT, text := some word, font := eqnTextFont tok b.font })
    fun _ => rfl
  obtain ⟨hfont, hbox⟩ := eqnBoxAlloc_box ht hqc
  have h₁ := hs q ((mem_appendKids hqn hnew).mpr (.inl hqn))
  have hrewind : eqnRewind st = .ok { st with parent := q } := by
    simp only [eqnRewind, hq]
    rfl
  refine Guarantees.bind_of_eq hrewind (Guarantees.bind_of_eq ht ?_)
  refine Guarantees.ite (fun hdone => Guarantees.pure_iff.mpr
    ⟨Processed.of_eq hclean rfl h₁, fun hscan => ?_⟩) fun hmore => ?_
  · -- The font is known, unless the word is empty.
    simp only [scansWord, hq, Bool.and_eq_true, decide_eq_true_eq] at hscan
    have hnone : ((t.modify st.tree.count fun b => { b with
        type := .TEXT, text := some word, font := eqnTextFont tok b.font }).box
        st.tree.count).font = .NONE := by
      simp [EqnTree.modify, hfont, hscan, eqnTextFont]
    simp only [Bool.or_eq_true, decide_eq_true_eq] at hdone
    rcases hdone with (hne | hne) | hempty
    · exact absurd hscan.1 hne
    · exact absurd hnone hne
    · exact .stop hempty
  have htok : tok = .TOK__MAX := by
    by_contra hne
    simp [hne] at hmore
  have hnone : (st.tree.box q).font = .NONE := by
    by_contra hne
    simp [htok, EqnTree.modify, hfont, hne, eqnTextFont] at hmore
  have hscan : scansWord st tok = true := by simp [scansWord, hq, htok, hnone]
  refine (eqnWordLoop_sound (hesc hscan) (hword htok) (Nat.lt_add_one _) h₁
    (l := kids q) appendKids_self (by simp) fun hc => ?_).mono fun st' hst => ?_
  swap
  · obtain ⟨he, hends, kids', h'⟩ := hst
    exact ⟨Processed.of_eq hclean he h', fun _ => hends⟩
  -- The box has not been full before.
  intro e he
  simp only [EqnTree.modify, Function.update_of_ne hqc, hbox] at he ⊢
  have hnot := hsplit hc
  simp only [splitsWord, hq, EqnBox.splits, htok, hnone, he, Option.any_some, decide_true,
    Bool.true_and, Bool.and_eq_false_iff, decide_eq_false_iff_not] at hnot
  omega

/-! ## §6 All tokens -/

/-- Control statements do not go back. -/
theorem eqnControl_spec (tok : EqnTok) {ep : EqnNode} (hc : ep.Clean) :
    Guarantees allowed (eqnControl tok ep) (Advance ep) := by
  unfold eqnControl
  split
  · exact eqnUndef_spec hc
  · exact eqnDef_spec hc
  · exact eqnDef_spec hc
  · refine (eqnNext_spec .NOSUB hc).bind fun n ⟨hn, _, _⟩ => ?_
    refine Guarantees.ite (fun _ => Guarantees.pure_iff.mpr hn) fun _ => ?_
    refine (eqnNext_spec .QUOTED hn.clean).bind fun n' ⟨hn', _, _⟩ => ?_
    exact Guarantees.pure_iff.mpr (hn.trans hn')
  · exact Guarantees.pure_iff.mpr (eqnDelim_advance hc)
  all_goals first
    | exact (eqnNext_spec .SUB hc).bind fun n ⟨hn, _, _⟩ => Guarantees.pure_iff.mpr hn
    | exact Guarantees.pure_iff.mpr (Advance.refl hc)

/-- **Processing one token** keeps the tree in order. -/
theorem eqnProcess_sound {tok : EqnTok} {word : CStr}
    (hesc : scansWord st tok = true → ¬ CharsEnd word 0 → ∀ w j f, allowed (.escape w j f))
    (h : Sound c st kids) (hclean : st.ep.Clean)
    (hword : tok = .TOK__MAX → NUL ∉ word)
    (hsplit : c → splitsWord st tok word = false) :
    Guarantees allowed (eqnProcess tok word st) (Processed c st.ep) := by
  have hcontrol : Guarantees allowed (do
      let ep ← eqnControl tok st.ep
      return { st with ep := ep }) (Processed c st.ep) :=
    (eqnControl_spec tok hclean).bind fun ep hep => Guarantees.pure_iff.mpr ⟨hep, kids, h.ep _⟩
  unfold eqnProcess
  split
  all_goals first
    | exact hcontrol
    | exact eqnDiacritic_sound h hclean _
    | exact eqnList_sound h hclean fun _ => rfl
    | exact eqnSize_sound h hclean _
    | exact eqnScript_sound h hclean _
    | exact eqnSqrt_sound h hclean
    | exact eqnOver_sound h hclean
    | exact eqnClose_sound h hclean _
    | exact eqnBracket_sound h hclean _
    | exact eqnPile_sound h hclean _
    | exact eqnAbove_sound h hclean
    | exact (eqnText_sound hesc h hclean hword hsplit).mono fun _ hst => hst.1

/-! ## §7 Whole runs -/

/-- A step of the parser that does not split a word into a list. -/
def Unsplit (st st' : EqnParse) : Prop :=
  Loop.Continues eqnToken st st' ∧
    ∀ n, eqnNext .TOK st.ep = .ok n → splitsWord st n.tok n.text = false

/-- The next token can be read and processed without reading anything else: `end` is where the
    equation is, and if the token is a word whose font is found out, the characters of the word
    end with the word. -/
def EqnParse.TokenSafe (st : EqnParse) : Prop :=
  st.ep.dangling = false ∧
    ∀ n, eqnNext .TOK st.ep = .ok n → scansWord st n.tok = true → CharsEnd n.text 0

/-- Reading one token and processing it keeps the tree in order, and makes progress. -/
theorem eqnToken_sound
    (hviolated : ¬ st.TokenSafe → allowed .dangling ∧ ∀ w j f, allowed (.escape w j f))
    (h : Sound c st kids) (hclean : st.ep.Clean)
    (hsplit : c → ∀ n, eqnNext .TOK st.ep = .ok n → splitsWord st n.tok n.text = false) :
    Guarantees allowed (eqnToken st) (Loop.Next.Sat
      (fun st' => (st'.ep.Clean ∧ ∃ kids', Sound c st' kids') ∧ st'.ep.left < st.ep.left)
      fun st' => ∃ kids', Sound c st' kids') := by
  unfold eqnToken
  refine Guarantees.ite (fun hd => ?_) fun _ => ?_
  · have hsafe : ¬ st.TokenSafe := fun hs => Bool.false_ne_true (hs.1.symm.trans hd)
    exact Guarantees.error_iff.mpr (hviolated hsafe).1
  refine (Guarantees.with_eq (eqnNext_spec .TOK hclean)).bind
    fun n ⟨heq, hadv, hless, hword⟩ => ?_
  refine Guarantees.ite (fun _ => Guarantees.pure_iff.mpr ⟨kids, h.ep _⟩) fun hne => ?_
  have hesc : scansWord { st with ep := n.ep } n.tok = true → ¬ CharsEnd n.text 0 →
      ∀ w j f, allowed (.escape w j f) := fun hscan hends =>
    (hviolated fun hs => hends (hs.2 n heq hscan)).2
  refine (eqnProcess_sound hesc (h.ep _) hadv.clean hword fun hc => hsplit hc n heq).bind
    fun st' ⟨hadv', hs⟩ => ?_
  exact Guarantees.pure_iff.mpr ⟨⟨hadv'.clean, hs⟩, hadv'.left.trans_lt (hless hne)⟩

/-- A token that has been processed was safe. -/
theorem tokenSafe_of_eqnToken {next : Loop.Next EqnParse EqnParse} (h : Sound c st kids)
    (hclean : st.ep.Clean) (hst : eqnToken st = .ok next) : st.TokenSafe := by
  unfold eqnToken at hst
  by_cases hd : st.ep.dangling = true
  · simp [hd, bind, Except.bind] at hst
  rw [if_neg hd] at hst
  refine ⟨Bool.eq_false_of_not_eq_true hd, fun n hn hscan => ?_⟩
  obtain ⟨kids', h'⟩ : ∃ kids', Sound False { st with ep := n.ep } kids' :=
    ⟨kids, h.built, h.parent, False.elim, False.elim⟩
  have hspec : Guarantees (fun _ => True) _ _ := eqnNext_spec .TOK hclean
  obtain ⟨hadv, -, hword⟩ := hspec.1 n hn
  have htok : n.tok = .TOK__MAX := by
    unfold scansWord at hscan
    split at hscan
    · cases hscan
    · simpa using (Bool.and_eq_true_iff.mp hscan).1
  have htext : Guarantees (fun _ => True) (eqnText n.tok n.text { st with ep := n.ep }) _ :=
    eqnText_sound (fun _ _ _ _ _ => trivial) h' hadv.clean hword False.elim
  cases hp : eqnText n.tok n.text { st with ep := n.ep } with
  | error e =>
    rw [htok] at hp
    simp [hn, htok, eqnProcess, hp, bind, Except.bind] at hst
  | ok st' => exact (htext.1 st' hp).2 hscan

theorem sound_eqnParseStart (c : Prop) (ep : EqnNode) (data : CStr) :
    Sound c (eqnParseStart ep data) fun _ => [] :=
  ⟨built_eqnBoxNew, mem_root _, fun _ => counted_eqnBoxNew, fun _ _ ht => by cases ht⟩

/-- **The box tree invariant.** In every run in which no step splits a word into a list,
    the boxes fit together in every state that is reached, in the state in which the run
    ends, and after each call of `eqn_box_makebinary()`. -/
theorem eqnParse_boxTree {ep : EqnNode} {data : CStr} (hdata : NUL ∉ data)
    (hdefs : ∀ d ∈ ep.defs, NUL ∉ d.val)
    (hrun : Relation.ReflTransGen Unsplit (eqnParseStart ep data) st) :
    BoxTree st.tree ∧ (∀ t ∈ st.binaries, BoxTree t) ∧
      ∀ st', eqnToken st = .ok (.done st') → BoxTree st'.tree := by
  have hinv : st.ep.Clean ∧ ∃ kids, Sound True st kids := by
    induction hrun with
    | refl => exact ⟨⟨hdata, hdefs⟩, _, sound_eqnParseStart True ep data⟩
    | tail _ hstep ih =>
      obtain ⟨hclean, kids, hs⟩ := ih
      have htok : Guarantees (fun _ => True) _ _ :=
        eqnToken_sound (fun _ => ⟨trivial, fun _ _ _ => trivial⟩) hs hclean fun _ => hstep.2
      exact (htok.1 _ hstep.1).1
  obtain ⟨hclean, kids, hs⟩ := hinv
  refine ⟨hs.built.boxTree (hs.counted trivial), hs.binaries trivial, fun st' hdone => ?_⟩
  -- The last token is the end of the equation, which changes nothing.
  have htree : st'.tree = st.tree := by
    unfold eqnToken at hdone
    split at hdone
    · cases hdone
    cases hn : eqnNext .TOK st.ep with
    | error e => simp [hn, bind, Except.bind] at hdone
    | ok n =>
      rw [hn] at hdone
      by_cases heof : n.tok = .EOF
      · simp [heof, bind, Except.bind, pure, Except.pure] at hdone
        simp [← hdone]
      · cases hp : eqnProcess n.tok n.text { st with ep := n.ep } <;>
          simp [heof, hp, bind, Except.bind, pure, Except.pure] at hdone
  rw [htree]
  exact hs.built.boxTree (hs.counted trivial)

/-- The state after a token, if there is another one. -/
def afterToken (st : EqnParse) : EqnParse :=
  match eqnToken st with
  | .ok (.again st') => st'
  | _ => st

/-- There is another token, and it is not a word to be split into a list. -/
def unsplitToken (st : EqnParse) : Bool :=
  match eqnToken st, eqnNext .TOK st.ep with
  | .ok (.again _), .ok n => !splitsWord st n.tok n.text
  | _, _ => false

/-- One step of a concrete run. -/
theorem unsplit_afterToken (h : unsplitToken st = true) : Unsplit st (afterToken st) := by
  unfold unsplitToken at h
  unfold Unsplit Loop.Continues afterToken
  split at h
  · rename_i st' n hst hn
    rw [hst, hn]
    refine ⟨rfl, ?_⟩
    rintro n' ⟨⟩
    simpa using h
  · cases h

/-- The pointers of the first boxes, and the number of arguments of the box numbered 2, if the
    equation ends here. -/
def finalLinks (st : EqnParse) : Option (List (Links Nat) × Nat) :=
  match eqnToken st with
  | .ok (.done st) => some ([0, 1, 2, 3].map st.tree.links, (st.tree.box 2).args)
  | _ => none

/-- In the equation `x sup a`, nothing is split: in the end, the root has got one child, the
    children of which are `x` and `a`. -/
theorem eqnParse_boxTree_sup : ∃ n st, eqnParse n {} (some "x sup a".toList) = .ok st ∧
    BoxTree st.tree ∧ Children st.tree.links 0 [2] ∧ Children st.tree.links 2 [1, 3] ∧
      (st.tree.box 2).args = 2 := by
  have h1 : Unsplit (eqnParseStart {} "x sup a".toList) _ :=
    unsplit_afterToken (by decide +kernel)
  have h2 : Unsplit (afterToken (eqnParseStart {} "x sup a".toList)) _ :=
    unsplit_afterToken (by decide +kernel)
  have h3 : Unsplit (afterToken (afterToken (eqnParseStart {} "x sup a".toList))) _ :=
    unsplit_afterToken (by decide +kernel)
  have hrun := ((Relation.ReflTransGen.single h1).tail h2).tail h3
  have hlinks : finalLinks (afterToken (afterToken (afterToken
      (eqnParseStart {} "x sup a".toList)))) = some ([{ child := some 2, last := some 2 },
        { parent := some 2, next := some 3 }, { parent := some 0, child := some 1, last := some 3 },
        { parent := some 2, prev := some 1 }], 2) := by
    decide +kernel
  unfold finalLinks at hlinks
  split at hlinks
  · rename_i st hdone
    simp only [List.map_cons, List.map_nil, Option.some.injEq, Prod.mk.injEq, List.cons.injEq,
      and_true] at hlinks
    obtain ⟨⟨h0, hx, hsup, ha⟩, hargs⟩ := hlinks
    have hcontinues : Unsplit ≤ Loop.Continues eqnToken := fun _ _ h => h.1
    have hreach : Loop.Reaches eqnToken (eqnParseStart {} "x sup a".toList) _ :=
      Relation.ReflTransGen.mono hcontinues _ _ hrun
    obtain ⟨n, hn⟩ : ∃ n, ∀ m, n ≤ m → eqnParse m {} (some "x sup a".toList) = .ok st :=
      Loop.run_of_reaches hreach hdone
    refine ⟨n, st, hn n le_rfl, (eqnParse_boxTree (by decide) (by simp) hrun).2.2 st hdone,
      ?_, ?_, hargs⟩
    · exact ⟨by rw [h0]; rfl, by rw [h0]; rfl, by simp [Segment, hsup]⟩
    · exact ⟨by rw [hsup]; rfl, by rw [hsup]; rfl, by simp [Segment, hx, ha]⟩
  · cases hlinks

/-- The pointers and counters in which a split word ends up, after the equation
    `x sup a1`. -/
def splitExample : Option (List (Option Nat) × Nat) :=
  (eqnParse 10 {} (some "x sup a1".toList)).toOption.map fun st =>
    ([(st.tree.links 0).child, (st.tree.links 2).child, (st.tree.links 1).next,
      (st.tree.links 4).child, (st.tree.links 4).last], (st.tree.box 4).args)

/-- The list that takes the place of the word `a1` has two members, but counts one. -/
theorem eqnParse_split_args : ¬ ∀ (data : CStr) (steps : Nat) (st : EqnParse), NUL ∉ data →
    eqnParse steps {} (some data) = .ok st → BoxTree st.tree := by
  intro h
  have hex : splitExample = some ([some 2, some 1, some 4, some 3, some 5], 1) := by
    decide +kernel
  unfold splitExample at hex
  cases hst : eqnParse 10 {} (some "x sup a1".toList) with
  | error e =>
    rw [hst] at hex
    simp [Except.toOption] at hex
  | ok st =>
    simp only [hst, Except.toOption, Option.map_some, Option.some.injEq, Prod.mk.injEq,
      List.cons.injEq, and_true] at hex
    obtain ⟨⟨h0, h2, h1, hfirst, hlast⟩, hargs⟩ := hex
    have hin : InTree st.tree.links {0} 4 :=
      ⟨0, rfl, (Relation.ReflTransGen.single ⟨2, h0, .refl⟩).tail ⟨1, h2, .single h1⟩⟩
    obtain ⟨l, hc, -, hlen⟩ := (h _ _ st (by decide) hst).args 4 hin
    rw [hargs] at hlen
    obtain ⟨x, rfl⟩ := List.length_eq_one_iff.mp hlen.symm
    have hx := hc.child.symm.trans hfirst
    have hy := hc.last.symm.trans hlast
    simp only [List.head?_cons, Option.some.injEq, List.getLast?_singleton] at hx hy
    exact absurd (hx.symm.trans hy) (by decide)

/-- The parser comes to an end, unless it reads anything else than the equation. -/
theorem eqnParse_guarantees {ep : EqnNode} {data : CStr} (hdata : NUL ∉ data)
    (hdefs : ∀ d ∈ ep.defs, NUL ∉ d.val) : ∃ n, ∀ steps, n ≤ steps →
      Guarantees (fun fault => (fault ≠ .null ∧ fault ≠ .makebinary ∧ fault ≠ .fuel) ∧
          ∃ st, Loop.Reaches eqnToken (eqnParseStart ep data) st ∧ ¬ st.TokenSafe)
        (eqnParse steps ep (some data)) fun _ => True := by
  set start := eqnParseStart ep data
  have hstep : ∀ st : EqnParse, (st.ep.Clean ∧ Loop.Reaches eqnToken start st ∧
      ∃ kids, Sound False st kids) →
      Guarantees (fun fault => (fault ≠ .null ∧ fault ≠ .makebinary ∧ fault ≠ .fuel) ∧
          ∃ st, Loop.Reaches eqnToken start st ∧ ¬ st.TokenSafe)
        (eqnToken st) (Loop.Next.Sat (fun st' => (st'.ep.Clean ∧
          Loop.Reaches eqnToken start st' ∧ ∃ kids, Sound False st' kids) ∧
          st'.ep.left < st.ep.left) fun _ => True) := by
    rintro st ⟨hclean, hreach, kids, hs⟩
    refine (Guarantees.with_eq (eqnToken_sound (fun hviolated =>
      ⟨⟨by simp, st, hreach, hviolated⟩, fun _ _ _ => ⟨by simp, st, hreach, hviolated⟩⟩)
        hs hclean False.elim)).mono fun next hnext => ?_
    obtain ⟨heq, hsat⟩ := hnext
    cases next with
    | done st' => trivial
    | again st' =>
      obtain ⟨⟨hclean', hs'⟩, hless⟩ := hsat
      exact ⟨⟨hclean', hreach.tail heq, hs'⟩, hless⟩
  exact Loop.run_guarantees wellFounded_lt (fun st => st.ep.left) (fun h => h.1.2.2 rfl) hstep
    ⟨⟨hdata, hdefs⟩, .refl, _, sound_eqnParseStart False ep data⟩

/-- **Robustness.** Whatever the equation and the definitions, the parser never loses its
    cursor, it never asks for a box above the last child of a box without children, and it does
    not go on forever. So it returns if all it reads is the equation, and only then. -/
theorem eqnParse_returns_iff (ep : EqnNode) (data : CStr) (hdata : NUL ∉ data)
    (hdefs : ∀ d ∈ ep.defs, NUL ∉ d.val) :
    (∃ n, ∀ steps, n ≤ steps → ∀ fault, eqnParse steps ep (some data) = .error fault →
      fault ≠ .null ∧ fault ≠ .makebinary ∧ fault ≠ .fuel) ∧
    ((∃ n, ∀ steps, n ≤ steps → ∃ st, eqnParse steps ep (some data) = .ok st) ↔
      ∀ st, Loop.Reaches eqnToken (eqnParseStart ep data) st → st.TokenSafe) := by
  obtain ⟨n, hn⟩ := eqnParse_guarantees hdata hdefs
  refine ⟨⟨n, fun steps hsteps fault hfault => ((hn steps hsteps).2 fault hfault).1⟩, ?_, ?_⟩
  · rintro ⟨k, hk⟩ st hreach
    obtain ⟨st', hst'⟩ := hk k le_rfl
    obtain ⟨m, hm⟩ := Loop.run_of_run_reaches hst' hreach
    have hinv : st.ep.Clean ∧ ∃ kids, Sound False st kids := by
      clear hm
      induction hreach with
      | refl => exact ⟨⟨hdata, hdefs⟩, _, sound_eqnParseStart False ep data⟩
      | tail _ hstep ih =>
        obtain ⟨hclean, kids, hs⟩ := ih
        have htok : Guarantees (fun _ => True) _ _ :=
          eqnToken_sound (fun _ => ⟨trivial, fun _ _ _ => trivial⟩) hs hclean False.elim
        exact (htok.1 _ hstep).1
    obtain ⟨hclean, kids, hs⟩ := hinv
    obtain ⟨next, hnext⟩ := Loop.step_of_run hm
    exact tokenSafe_of_eqnToken hs hclean hnext
  · refine fun hsafe => ⟨n, fun steps hsteps => ?_⟩
    rcases (hn steps hsteps).cases with ⟨st, hst, -⟩ | ⟨fault, -, -, st, hreach, hviolated⟩
    · exact ⟨st, hst⟩
    · exact absurd (hsafe st hreach) hviolated

/-- Two definitions that refer to each other. -/
def mutualEqn : EqnNode := { defs := [{ key := ['x'], val := ['y'] }, { key := ['y'], val := ['x'] }] }

/-- With these definitions, and with closing keywords at the top level, the parser returns, and
    what it has read is the equation. -/
theorem eqnParse_returns_iff_mutual :
    (eqnParse 6 mutualEqn (some "x over \x7d right x".toList)).map (·.tree.count) = .ok 4 ∧
      ∀ st, Loop.Reaches eqnToken (eqnParseStart mutualEqn "x over \x7d right x".toList) st →
        st.TokenSafe := by
  have hcount : (eqnParse 6 mutualEqn (some "x over \x7d right x".toList)).map (·.tree.count) =
      .ok 4 := by
    decide +kernel
  refine ⟨hcount, (eqnParse_returns_iff mutualEqn _ (by decide) (by decide)).2.mp
    ⟨6, fun steps hsteps => ?_⟩⟩
  cases hst : eqnParse 6 mutualEqn (some "x over \x7d right x".toList) with
  | error fault =>
    rw [hst] at hcount
    cases hcount
  | ok st =>
    have hne : eqnParse 6 mutualEqn (some "x over \x7d right x".toList) ≠ .error .fuel := by
      intro he
      rw [hst] at he
      cases he
    exact ⟨st, (Loop.run_stable hne hsteps).trans hst⟩

/-- A fault stays the same if the parser may take more steps. -/
theorem eqnParse_fault {n steps : Nat} {ep : EqnNode} {data : CStr} {fault : EqnFault}
    (h : (eqnParse n ep (some data)).map (fun _ => ()) = .error fault) (hne : fault ≠ .fuel)
    (hle : n ≤ steps) : eqnParse steps ep (some data) = .error fault := by
  have herr : eqnParse n ep (some data) = .error fault := by
    cases hst : eqnParse n ep (some data) with
    | error e =>
      rw [hst] at h
      cases h
      rfl
    | ok st =>
      rw [hst] at h
      cases h
  have hlimit : eqnParse n ep (some data) ≠ .error .fuel := fun he =>
    hne (Except.error.inj (herr.symm.trans he))
  exact (Loop.run_stable hlimit hle).trans herr

/-- The parser does not return if a long definition made of blanks comes last, nor from a
    word that ends in the middle of an escape sequence. -/
theorem eqnParse_reads_behind :
    (∀ steps, 5 ≤ steps →
      eqnParse steps {} (some "define x \"   \" size x".toList) = .error .dangling) ∧
    ∀ steps, 5 ≤ steps →
      eqnParse steps {} (some "\\h\\".toList) = .error (.escape "\\h\\".toList 0 .overrun) :=
  ⟨fun _ hsteps => eqnParse_fault (by decide +kernel) (by decide) hsteps,
    fun _ hsteps => eqnParse_fault (by decide +kernel) (by decide) hsteps⟩

end Mandoc
