import Mandoc.Man.Parser

/-!
# Next-line Scopes of the man(7) Parser

Two flags say that a macro waits for the next line: one for elements, and one for the heads of
blocks. What is open in the syntax tree always agrees with them: first the elements, then at most
one head with its block, and then the bodies of blocks up to the root.

- `exists_manDescope` is about the line that completes what is in next-line scope.
- `exists_manBreakscope` is about lines that break it.
-/

namespace Mandoc

/-! ## §1 The open nodes -/

/-- The nodes that are open, from the innermost one to the root, with all their children. -/
def ManParser.spine (man : ManParser) : List ManTree :=
  match man.next, man.parents with
  | .CHILD, ps => man.last :: ps
  | .SIBLING, p :: ps => p.add man.last :: ps
  | .SIBLING, [] => []

/-- Steps from the last node to the innermost open node. -/
def ManParser.steps (man : ManParser) : Nat :=
  match man.next with
  | .CHILD => 0
  | .SIBLING => 1

/-- The innermost open node, where the last node has been completed. -/
def ManParser.top (man : ManParser) : ManTree :=
  match man.next, man.parents with
  | .SIBLING, p :: _ => p.add man.last.complete
  | _, _ => man.last

@[simp] theorem ManTree.add_tok (p n : ManTree) : (p.add n).tok = p.tok := rfl
@[simp] theorem ManTree.add_type (p n : ManTree) : (p.add n).type = p.type := rfl
@[simp] theorem ManTree.add_valid (p n : ManTree) : (p.add n).valid = p.valid := rfl
@[simp] theorem ManTree.add_aux (p n : ManTree) : (p.add n).aux = p.aux := rfl
@[simp] theorem ManTree.add_child (p n : ManTree) : (p.add n).child = n :: p.child := rfl
@[simp] theorem ManTree.complete_tok (n : ManTree) : n.complete.tok = n.tok := rfl
@[simp] theorem ManTree.complete_type (n : ManTree) : n.complete.type = n.type := rfl
@[simp] theorem ManTree.complete_valid (n : ManTree) : n.complete.valid = true := rfl
@[simp] theorem ManTree.complete_aux (n : ManTree) : n.complete.aux = n.aux := rfl
@[simp] theorem ManTree.complete_child (n : ManTree) : n.complete.child = n.child := rfl

section

variable {man : ManParser} {s p : ManTree} {ss : List ManTree}

/-- There are two ways to represent the open nodes. -/
theorem spine_cases (h : man.spine = s :: ss) :
    (man.next = .CHILD ∧ man.last = s ∧ man.parents = ss) ∨
      (man.next = .SIBLING ∧ ∃ q, man.parents = q :: ss ∧ s = q.add man.last) := by
  unfold ManParser.spine at h
  split at h
  · next hnext =>
    obtain ⟨rfl, rfl⟩ := List.cons.inj h
    exact .inl ⟨hnext, rfl, rfl⟩
  · next q ps hnext hparents =>
    obtain ⟨rfl, rfl⟩ := List.cons.inj h
    exact .inr ⟨hnext, q, hparents, rfl⟩
  · cases h

theorem append_eq (h : man.spine = s :: ss) (n : ManTree) :
    man.append n = .ok { man with last := n, parents := s :: ss } := by
  rcases spine_cases h with ⟨hnext, rfl, rfl⟩ | ⟨hnext, q, hparents, rfl⟩
  · simp only [ManParser.append, hnext]
  · simp only [ManParser.append, hnext, hparents]

theorem alloc_eq (h : man.spine = s :: ss) (type : RoffType) (tok : ManNodeTok) :
    man.alloc type tok =
      .ok { man with last := { tok := tok, type := type }, parents := s :: ss, next := .CHILD } := by
  rw [ManParser.alloc, append_eq h]
  rfl

theorem appendLeaf_eq (h : man.spine = s :: ss) (n : ManTree) :
    man.appendLeaf n = .ok { man with last := n, parents := s :: ss, next := .SIBLING } := by
  rw [ManParser.appendLeaf, append_eq h]
  rfl

/-- The innermost open node is closed. -/
theorem unscope_eq (h : man.spine = s :: p :: ss) :
    manUnscope man man.steps =
      .ok { man with last := man.top.complete, parents := p :: ss, next := .SIBLING } := by
  rcases spine_cases h with ⟨hnext, -, hparents⟩ | ⟨hnext, q, hparents, -⟩
  · rw [manUnscope, ManParser.steps, ManParser.top, hnext, hparents, rewind]
    rfl
  · rw [manUnscope, ManParser.steps, ManParser.top, hnext, hparents, rewind, rewind]
    rfl

/-- Completing the last node does not change what is known about the innermost open node. -/
theorem top_eq (h : man.spine = s :: ss) :
    man.top.tok = s.tok ∧ man.top.type = s.type ∧ man.top.aux = s.aux := by
  rcases spine_cases h with ⟨hnext, rfl, -⟩ | ⟨hnext, q, hparents, rfl⟩
  · rw [ManParser.top, hnext]
    exact ⟨rfl, rfl, rfl⟩
  · rw [ManParser.top, hnext, hparents]
    exact ⟨rfl, rfl, rfl⟩

end

/-! ## §2 What is open, and what is in it -/

/-- A node that is complete, or need not be. -/
def ManTree.Done (n : ManTree) : Prop := n.type ≠ .ROOT ∧ (n.type = .BLOCK → n.valid = true)

/-- A child of the head of a block in next-line scope: text, or an element that does not end the
    scope. -/
structure ManTree.InHead (n : ManTree) : Prop where
  valid : n.valid = true
  kind : n.type = .TEXT ∧ n.tok = .TOKEN_NONE ∨
    n.type = .ELEM ∧ n.tok.orMacro (!·.xscope) = true

/-- A child of an element in next-line scope. -/
structure ManTree.InElem (n : ManTree) : Prop where
  valid : n.valid = true
  type : n.type = .ELEM
  allowed : n.tok.orMacro (fun m => m.nscoped && !m.escoped) = true

/-- An element in next-line scope. -/
structure IsElem (e : ManTree) : Prop where
  type : e.type = .ELEM
  valid : e.valid = false
  tok : ∃ t, e.tok = .MAN t ∧ (manMacros t).escoped = true

/-- The head of a block in next-line scope. -/
structure IsHead (h B : ManTree) : Prop where
  type : h.type = .HEAD
  valid : h.valid = false
  blockType : B.type = .BLOCK
  blockValid : B.valid = false
  tok : ∃ t, h.tok = .MAN t ∧ B.tok = .MAN t ∧ (manMacros t).bscoped = true
  kids : ∀ c ∈ h.child, c.InHead

/-- The body of a block that is open. -/
structure IsBody (b B : ManTree) : Prop where
  type : b.type = .BODY
  valid : b.valid = false
  blockType : B.type = .BLOCK
  blockValid : B.valid = false
  tok : ∃ t, b.tok = .MAN t ∧ B.tok = .MAN t ∧ (manMacros t).escoped = false
  head : B.head.isSome = true
  kids : ∀ c ∈ b.child, c.Done

/-- The root of the tree. -/
structure IsRoot (r : ManTree) : Prop where
  type : r.type = .ROOT
  valid : r.valid = false
  kids : ∀ c ∈ r.child, c.Done

/-- Bodies of blocks up to the root. -/
inductive Sections : List ManTree → Prop
  | root {r : ManTree} (h : IsRoot r) : Sections [r]
  | block {b B : ManTree} {l : List ManTree} (h : IsBody b B) (hl : Sections l) :
      Sections (b :: B :: l)

/-- What is open between the elements in next-line scope and the bodies of blocks, where `depth`
    is the number of nodes in the latter: the head of a block in next-line scope, or an element
    that centers text. -/
inductive ScopeAt (man : ManParser) (depth : Nat) : List ManTree → Prop
  | none (hbline : man.bline = false) (hce : man.ce = .none) : ScopeAt man depth []
  | head {h B : ManTree} (hbline : man.bline = true) (hce : man.ce = .none) (hhead : IsHead h B) :
      ScopeAt man depth [h, B]
  | ce {c : ManTree} {lines : Int} (hbline : man.bline = false) (heline : man.eline = false)
      (hce : man.ce = some (depth, lines)) (htype : c.type = .ELEM) (hne : c.child ≠ [])
      (hkids : ∀ k ∈ c.child, k.Done) : ScopeAt man depth [c]

/-- What is open agrees with the flags. -/
structure Scoped (man : ManParser) (elems scope outer : List ManTree) : Prop where
  spine_eq : man.spine = elems ++ (scope ++ outer)
  eline_iff : man.eline = true ↔ elems ≠ []
  isElem : ∀ e ∈ elems, IsElem e
  scopeAt : ScopeAt man outer.length scope
  sections : Sections outer

/-- What is open agrees with the flags, and every child of an element in next-line scope is
    allowed there. -/
structure BetweenLines (man : ManParser) (elems scope outer : List ManTree) : Prop extends
    Scoped man elems scope outer where
  inElem : ∀ e ∈ elems.head?, ∀ c ∈ e.child, c.InElem

/-- The state while the innermost open node gets a child. -/
def Loose (man : ManParser) : Prop := ∃ elems scope outer, Scoped man elems scope outer

/-- The state between two lines. -/
def Good (man : ManParser) : Prop := ∃ elems scope outer, BetweenLines man elems scope outer

/-- No next-line scope is open. -/
structure Unscoped (man : ManParser) : Prop where
  sections : Sections man.spine
  eline : man.eline = false
  bline : man.bline = false
  ce : man.ce = none

/-! ## §3 Simple facts -/

section

variable {man man' : ManParser} {s n : ManTree} {ss elems scope outer : List ManTree}

theorem Sections.exists_cons (h : Sections ss) : ∃ s l, ss = s :: l := by
  cases h with
  | root h => exact ⟨_, _, rfl⟩
  | block h hl => exact ⟨_, _, rfl⟩

/-- The innermost of the bodies is a body or the root. -/
theorem Sections.type_ne (h : Sections (s :: ss)) {type : RoffType} (hroot : type ≠ .ROOT)
    (hbody : type ≠ .BODY) : s.type ≠ type := by
  cases h with
  | root h =>
    rw [h.type]
    exact hroot.symm
  | block h hl =>
    rw [h.type]
    exact hbody.symm

/-- The innermost of the bodies does not belong to an element in next-line scope. -/
theorem Sections.not_elem (h : Sections (s :: ss)) :
    s.type = .ROOT ∨ ∃ t, s.tok = .MAN t ∧ (manMacros t).escoped = false := by
  cases h with
  | root h => exact .inl h.type
  | block h hl =>
    obtain ⟨t, htok, -, hescoped⟩ := h.tok
    exact .inr ⟨t, htok, hescoped⟩

theorem Sections.kids (h : Sections (s :: ss)) : ∀ c ∈ s.child, c.Done := by
  cases h with
  | root h => exact h.kids
  | block h hl => exact h.kids

theorem Sections.withKids (h : Sections (s :: ss)) {kids : List ManTree}
    (hkids : ∀ c ∈ kids, c.Done) : Sections ({ s with child := kids } :: ss) := by
  cases h with
  | root h => exact .root ⟨h.type, h.valid, hkids⟩
  | block h hl =>
    exact .block ⟨h.type, h.valid, h.blockType, h.blockValid, h.tok, h.head, hkids⟩ hl

theorem Sections.add (h : Sections (s :: ss)) (hn : n.Done) : Sections (s.add n :: ss) :=
  h.withKids (List.forall_mem_cons.mpr ⟨hn, h.kids⟩)

theorem IsHead.add {B : ManTree} (h : IsHead s B) (hn : n.InHead) : IsHead (s.add n) B :=
  ⟨h.type, h.valid, h.blockType, h.blockValid, h.tok, List.forall_mem_cons.mpr ⟨hn, h.kids⟩⟩

theorem IsElem.add (h : IsElem s) : IsElem (s.add n) := ⟨h.type, h.valid, h.tok⟩

theorem Scoped.elems_eq_nil (h : Scoped man elems scope outer) (heline : man.eline = false) :
    elems = [] := by
  by_contra hne
  rw [h.eline_iff.mpr hne] at heline
  cases heline

theorem eline_iff_nil (heline : man.eline = false) :
    man.eline = true ↔ ([] : List ManTree) ≠ [] := by
  rw [heline]
  exact ⟨fun h => (by cases h), fun h => absurd rfl h⟩

/-- Without next-line scopes, the open nodes are bodies. -/
theorem Loose.plain (h : Loose man) (heline : man.eline = false) (hbline : man.bline = false)
    (hce : man.ce = none) : Unscoped man := by
  obtain ⟨elems, scope, outer, h⟩ := h
  have helems := h.elems_eq_nil heline
  have hspine := h.spine_eq
  cases h.scopeAt with
  | none hb hc =>
    rw [helems, List.nil_append, List.nil_append] at hspine
    exact ⟨hspine ▸ h.sections, heline, hbline, hce⟩
  | head hb hc hhead =>
    rw [hbline] at hb
    cases hb
  | ce hb he hc htype hne hkids =>
    rw [hce] at hc
    cases hc

theorem Unscoped.good (h : Unscoped man) : Good man := by
  exact ⟨[], [], man.spine, ⟨rfl, eline_iff_nil h.eline, fun e he => (by cases he),
    .none h.bline h.ce, h.sections⟩, fun e he => (by cases he)⟩

theorem Good.loose (h : Good man) : Loose man := by
  obtain ⟨elems, scope, outer, h⟩ := h
  exact ⟨elems, scope, outer, h.toScoped⟩

theorem Loose.good (h : Loose man) (heline : man.eline = false) : Good man := by
  obtain ⟨elems, scope, outer, h⟩ := h
  have helems := h.elems_eq_nil heline
  refine ⟨elems, scope, outer, h, ?_⟩
  rw [helems]
  exact fun e he => (by cases he)

/-- There is always an open node. -/
theorem Loose.exists_spine (h : Loose man) : ∃ s ss, man.spine = s :: ss ∧ s.type ≠ .BLOCK := by
  obtain ⟨elems, scope, outer, h⟩ := h
  rw [h.spine_eq]
  cases elems with
  | cons e elems =>
    refine ⟨e, _, rfl, ?_⟩
    rw [(h.isElem e (List.mem_cons_self ..)).type]
    decide
  | nil =>
    obtain ⟨b, l, houter⟩ := h.sections.exists_cons
    have hsections := h.sections
    rw [houter] at hsections
    cases h.scopeAt with
    | none hb hc => exact ⟨b, l, houter, hsections.type_ne (by decide) (by decide)⟩
    | head hb hc hhead =>
      refine ⟨_, _, rfl, ?_⟩
      rw [hhead.type]
      decide
    | ce hb he hc htype hne hkids =>
      refine ⟨_, _, rfl, ?_⟩
      rw [htype]
      decide

end

/-! ## §4 The blocks that stay open -/

/-- The blocks among some nodes, except those whose heads can have next-line scope. -/
def openBlocks (l : List ManTree) : List ManTree :=
  l.filter fun n => n.type = .BLOCK && n.tok.orMacro (!·.bscoped)

/-- Neither the blocks that are open nor the registers change, except that a block whose head can
    have next-line scope may come or go. -/
structure Kept (man man' : ManParser) : Prop where
  blocks : openBlocks man'.spine = openBlocks man.spine
  regtab : man'.regtab = man.regtab

theorem Kept.refl (man : ManParser) : Kept man man := ⟨rfl, rfl⟩

theorem Kept.trans {man₁ man₂ man₃ : ManParser} (h : Kept man₁ man₂) (h' : Kept man₂ man₃) :
    Kept man₁ man₃ :=
  ⟨h'.blocks.trans h.blocks, h'.regtab.trans h.regtab⟩

theorem openBlocks_cons_of_ne {s : ManTree} (h : s.type ≠ .BLOCK) (ss : List ManTree) :
    openBlocks (s :: ss) = openBlocks ss := by
  rw [openBlocks, List.filter_cons_of_neg]
  · rfl
  · rw [Bool.and_eq_true, not_and, decide_eq_true_eq]
    exact fun hs => absurd hs h

/-- Blocks whose heads can have next-line scope do not count. -/
theorem openBlocks_cons_of_bscoped {s : ManTree} {t : ManTok} (htok : s.tok = .MAN t)
    (h : (manMacros t).bscoped = true) (ss : List ManTree) :
    openBlocks (s :: ss) = openBlocks ss := by
  rw [openBlocks, List.filter_cons_of_neg]
  · rfl
  · rw [Bool.and_eq_true, not_and, htok, ManNodeTok.orMacro, h]
    exact fun _ hb => (by cases hb)

/-! ## §5 Another child -/

/-- The flags and the centering request do not change. -/
structure SameFlags (man man' : ManParser) : Prop where
  eline : man'.eline = man.eline
  bline : man'.bline = man.bline
  ce : man'.ce = man.ce

/-- The node may become a child of the innermost open node. -/
structure FitsInto (man : ManParser) (n : ManTree) : Prop where
  inElem : man.eline = true → n.InElem
  inHead : man.eline = false → man.bline = true → n.InHead
  done : man.eline = false → man.bline = false → n.Done

/-- The innermost open node gets another child. -/
structure Gets (man : ManParser) (n : ManTree) (man' : ManParser) : Prop extends
    SameFlags man man' where
  spine : ∃ s ss, man.spine = s :: ss ∧ man'.spine = s.add n :: ss
  regtab : man'.regtab = man.regtab

section

variable {man man' : ManParser} {s n : ManTree} {ss elems scope outer : List ManTree}

/-- What is open in front of the bodies, with the same flags. -/
theorem ScopeAt.congr {depth : Nat} (h : ScopeAt man depth scope) (hflags : SameFlags man man') :
    ScopeAt man' depth scope := by
  cases h with
  | none hb hc => exact .none (hflags.bline.trans hb) (hflags.ce.trans hc)
  | head hb hc hhead => exact .head (hflags.bline.trans hb) (hflags.ce.trans hc) hhead
  | ce hb he hc htype hne hkids =>
    exact .ce (hflags.bline.trans hb) (hflags.eline.trans he) (hflags.ce.trans hc) htype hne hkids

/-- If an element is innermost, it gets the child, and otherwise a head, an element that centers
    text, or a body. -/
theorem Scoped.gets (h : Scoped man elems scope outer) (hgets : Gets man n man')
    (hhead : man.eline = false → man.bline = true → n.InHead)
    (hdone : man.eline = false → man.bline = false → n.Done) :
    ∃ elems' scope' outer', Scoped man' elems' scope' outer' ∧
      ((∀ e ∈ elems.head?, ∀ c ∈ e.child, c.InElem) → (man.eline = true → n.InElem) →
        ∀ e ∈ elems'.head?, ∀ c ∈ e.child, c.InElem) := by
  obtain ⟨s, ss, hspine, hspine'⟩ := hgets.spine
  have hflags := hgets.toSameFlags
  rw [h.spine_eq] at hspine
  cases elems with
  | cons e elems =>
    -- The node becomes a child of the innermost open element.
    obtain ⟨rfl, rfl⟩ := List.cons.inj hspine
    refine ⟨e.add n :: elems, scope, outer, ⟨hspine', ?_, ?_, h.scopeAt.congr hflags, h.sections⟩,
      ?_⟩
    · rw [hflags.eline]
      exact ⟨fun _ => List.cons_ne_nil _ _, fun _ => h.eline_iff.mpr (List.cons_ne_nil _ _)⟩
    · obtain ⟨he, helems⟩ := List.forall_mem_cons.mp h.isElem
      exact List.forall_mem_cons.mpr ⟨he.add, helems⟩
    · intro hkids hn e' he'
      cases he'
      exact List.forall_mem_cons.mpr
        ⟨hn (h.eline_iff.mpr (List.cons_ne_nil _ _)), hkids e rfl⟩
  | nil =>
    -- Without open elements, it becomes a child of the scope or of a section.
    have heline : man.eline = false := by
      rw [← Bool.not_eq_true, h.eline_iff]
      exact fun hne => hne rfl
    rw [List.nil_append] at hspine
    suffices hsuff : ∃ scope' outer', man'.spine = scope' ++ outer' ∧
        ScopeAt man' outer'.length scope' ∧ Sections outer' by
      obtain ⟨scope', outer', hspine', hscope, hsections⟩ := hsuff
      refine ⟨[], scope', outer', ⟨hspine', ?_, fun e he => (by cases he), hscope, hsections⟩,
        fun _ _ e he => (by cases he)⟩
      rw [hflags.eline]
      exact h.eline_iff
    cases h.scopeAt with
    | none hb hc =>
      rw [List.nil_append] at hspine
      subst hspine
      exact ⟨[], s.add n :: ss, hspine', .none (hflags.bline.trans hb) (hflags.ce.trans hc),
        h.sections.add (hdone heline hb)⟩
    | head hb hc hs =>
      obtain ⟨rfl, rfl⟩ := List.cons.inj hspine
      exact ⟨_, outer, hspine', .head (hflags.bline.trans hb) (hflags.ce.trans hc)
        (hs.add (hhead heline hb)), h.sections⟩
    | ce hb he hc htype hne hkids =>
      obtain ⟨rfl, rfl⟩ := List.cons.inj hspine
      exact ⟨[_], outer, hspine', .ce (hflags.bline.trans hb) (hflags.eline.trans he)
        (hflags.ce.trans hc) htype (List.cons_ne_nil _ _)
        (List.forall_mem_cons.mpr ⟨hdone heline hb, hkids⟩), h.sections⟩

theorem Good.gets (h : Good man) (hgets : Gets man n man') (hfits : FitsInto man n) :
    Good man' := by
  obtain ⟨elems, scope, outer, h⟩ := h
  obtain ⟨elems', scope', outer', h', hkids⟩ :=
    Scoped.gets h.toScoped hgets hfits.inHead hfits.done
  exact ⟨elems', scope', outer', h', hkids h.inElem hfits.inElem⟩

theorem Loose.gets (h : Loose man) (hgets : Gets man n man')
    (hhead : man.eline = false → man.bline = true → n.InHead)
    (hdone : man.eline = false → man.bline = false → n.Done) : Loose man' := by
  obtain ⟨elems, scope, outer, h⟩ := h
  obtain ⟨elems', scope', outer', h', -⟩ := Scoped.gets h hgets hhead hdone
  exact ⟨elems', scope', outer', h'⟩

/-- Getting a child has no effect on the blocks that stay open. -/
theorem Gets.kept (h : Gets man n man') (hloose : Loose man) : Kept man man' := by
  obtain ⟨s, ss, hspine, hspine'⟩ := h.spine
  obtain ⟨s', ss', hspine'', htype⟩ := hloose.exists_spine
  rw [hspine] at hspine''
  obtain ⟨rfl, rfl⟩ := List.cons.inj hspine''
  refine ⟨?_, h.regtab⟩
  rw [hspine, hspine', openBlocks_cons_of_ne htype,
    openBlocks_cons_of_ne (by rw [ManTree.add_type]; exact htype)]

theorem exists_appendLeaf (h : Loose man) (n : ManTree) :
    ∃ man', man.appendLeaf n = .ok man' ∧ Gets man n man' ∧ man'.next = .SIBLING ∧
      man'.last = n := by
  obtain ⟨s, ss, hspine, -⟩ := h.exists_spine
  exact ⟨_, appendLeaf_eq hspine n, ⟨⟨rfl, rfl, rfl⟩, ⟨s, ss, hspine, rfl⟩, rfl⟩, rfl, rfl⟩

theorem word_inHead (word : CStr) :
    ({ type := .TEXT, string := word, valid := true } : ManTree).InHead := ⟨rfl, .inl ⟨rfl, rfl⟩⟩

theorem done_of_type {n : ManTree} (hroot : n.type ≠ .ROOT) (hblock : n.type ≠ .BLOCK) : n.Done :=
  ⟨hroot, fun h => absurd h hblock⟩

/-- A word is appended. -/
theorem exists_wordAlloc (h : Loose man) (word : CStr) :
    ∃ man', man.wordAlloc word = .ok man' ∧ Loose man' ∧ SameFlags man man' ∧ Kept man man' ∧
      man'.next = .SIBLING := by
  obtain ⟨man', hword, hgets, hnext, -⟩ :=
    exists_appendLeaf h { type := .TEXT, string := word, valid := true }
  refine ⟨man', hword, ?_, hgets.toSameFlags, hgets.kept h, hnext⟩
  exact h.gets hgets (fun _ _ => word_inHead word)
    fun _ _ => done_of_type (by simp) (by simp)

end

/-! ## §6 Closing elements and heads -/

/-- An element of a macro that can have next-line scope, after it has been closed. -/
structure ClosedElem (n : ManTree) : Prop where
  type : n.type = .ELEM
  valid : n.valid = true
  tok : ∃ t, n.tok = .MAN t ∧ (manMacros t).escoped = true

theorem flags_of_escoped {t : ManTok} (h : (manMacros t).escoped = true) :
    (manMacros t).xscope = false ∧ (manMacros t).nscoped = true ∧
      (manMacros t).bscoped = false := by
  revert h
  cases t <;> decide

theorem flags_of_bscoped {t : ManTok} (h : (manMacros t).bscoped = true) :
    (manMacros t).xscope = true ∧ (manMacros t).escoped = false := by
  revert h
  cases t <;> decide

theorem ClosedElem.inHead {n : ManTree} (h : ClosedElem n) : n.InHead := by
  obtain ⟨t, htok, hescoped⟩ := h.tok
  refine ⟨h.valid, .inr ⟨h.type, ?_⟩⟩
  rw [htok, ManNodeTok.orMacro, (flags_of_escoped hescoped).1]
  rfl

theorem ClosedElem.done {n : ManTree} (h : ClosedElem n) : n.Done := by
  refine done_of_type ?_ ?_ <;>
  · rw [h.type]
    decide

section

variable {man man' : ManParser} {s n : ManTree} {ss elems scope outer : List ManTree}

/-- Closing elements in next-line scope stops at what is not one. -/
theorem descopeLoop_stop (hspine : man.spine = s :: ss) (hnext : man.next = .SIBLING)
    (hs : s.type = .ROOT ∨ ∃ t, s.tok = .MAN t ∧ (manMacros t).escoped = false) (fuel : Nat) :
    descopeLoop (fuel + 1) man = .ok man := by
  rcases spine_cases hspine with ⟨hchild, -, -⟩ | ⟨-, q, hparents, rfl⟩
  · rw [hnext] at hchild
    cases hchild
  rw [descopeLoop, hparents]
  dsimp only
  by_cases hroot : q.type = .ROOT
  · rw [if_pos hroot]
  · obtain ⟨t, htok, hescoped⟩ := hs.resolve_left hroot
    have htok' : q.tok = .MAN t := htok
    rw [if_neg hroot, htok', manMacro, Res.ok_bind, hescoped]
    rfl

/-- Closing one element in next-line scope. -/
theorem descopeLoop_step {e : ManTree} (hspine : man.spine = e :: s :: ss)
    (hnext : man.next = .SIBLING) (he : IsElem e) (fuel : Nat) :
    descopeLoop (fuel + 1) man = descopeLoop fuel
      { man with last := man.top.complete, parents := s :: ss, next := .SIBLING } := by
  obtain ⟨t, htok, hescoped⟩ := he.tok
  have hclose := unscope_eq hspine
  have hsteps : man.steps = 1 := by rw [ManParser.steps, hnext]
  rw [hsteps] at hclose
  rcases spine_cases hspine with ⟨hchild, -, -⟩ | ⟨-, q, hparents, rfl⟩
  · rw [hnext] at hchild
    cases hchild
  have hqtype : q.type ≠ .ROOT := by
    rw [show q.type = .ELEM from he.type]
    decide
  have hqtok : q.tok = .MAN t := htok
  rw [descopeLoop, hparents]
  dsimp only
  rw [if_neg hqtype, hqtok, manMacro, Res.ok_bind, if_pos hescoped, hclose]
  rfl

theorem closedElem_top {e : ManTree} (hspine : man.spine = e :: ss) (he : IsElem e) :
    ClosedElem man.top.complete := by
  obtain ⟨t, htok, hescoped⟩ := he.tok
  obtain ⟨htoptok, htoptype, -⟩ := top_eq hspine
  exact ⟨htoptype.trans he.type, rfl, t, htoptok.trans htok, hescoped⟩

/-- Closing the elements in next-line scope: what is below them gets the outermost one as a child.
    By induction on the number of elements. -/
theorem descopeLoop_elems {e : ManTree} (hspine : man.spine = e :: elems ++ s :: ss)
    (hnext : man.next = .SIBLING) (he : IsElem e) (helems : ∀ e' ∈ elems, IsElem e')
    (hs : s.type = .ROOT ∨ ∃ t, s.tok = .MAN t ∧ (manMacros t).escoped = false) {fuel : Nat}
    (hfuel : elems.length < fuel) :
    ∃ n, ClosedElem n ∧ descopeLoop (fuel + 1) man =
      .ok { man with last := n, parents := s :: ss, next := .SIBLING } := by
  induction hlen : elems.length generalizing man e elems fuel with
  | zero =>
    obtain rfl := List.length_eq_zero_iff.mp hlen
    obtain ⟨fuel, rfl⟩ := Nat.exists_eq_add_one.mpr hfuel
    refine ⟨man.top.complete, closedElem_top hspine he, ?_⟩
    rw [descopeLoop_step hspine hnext he]
    refine @descopeLoop_stop _ (s.add man.top.complete) ss rfl rfl ?_ fuel
    exact hs
  | succ k ih =>
    obtain ⟨e', elems, rfl⟩ := List.exists_cons_of_length_eq_add_one hlen
    obtain ⟨he', helems'⟩ := List.forall_mem_cons.mp helems
    obtain ⟨fuel, rfl⟩ := Nat.exists_eq_add_one.mpr (Nat.zero_lt_of_lt hfuel)
    have hspine' : ({ man with
        last := man.top.complete, parents := e' :: (elems ++ s :: ss),
        next := .SIBLING } : ManParser).spine =
          e'.add man.top.complete :: elems ++ s :: ss := rfl
    rw [descopeLoop_step hspine hnext he]
    exact ih hspine' rfl he'.add helems' (Nat.lt_of_succ_lt_succ hfuel) (Nat.succ.inj hlen)

/-- Elements do not count as blocks. -/
theorem openBlocks_elems (h : ∀ e ∈ elems, IsElem e) (l : List ManTree) :
    openBlocks (elems ++ l) = openBlocks l := by
  induction elems with
  | nil => rfl
  | cons e elems ih =>
    obtain ⟨he, helems⟩ := List.forall_mem_cons.mp h
    rw [List.cons_append, openBlocks_cons_of_ne (by rw [he.type]; decide), ih helems]

/-- The innermost node below the elements in next-line scope, if there are such elements. -/
theorem ScopeAt.not_elem (h : ScopeAt man outer.length scope) (heline : man.eline = true)
    (houter : Sections outer) :
    ∃ s ss, scope ++ outer = s :: ss ∧ s.type ≠ .BLOCK ∧ s.type ≠ .ELEM ∧
      (s.type = .ROOT ∨ ∃ t, s.tok = .MAN t ∧ (manMacros t).escoped = false) := by
  cases h with
  | none hb hc =>
    obtain ⟨b, l, rfl⟩ := houter.exists_cons
    exact ⟨b, l, rfl, houter.type_ne (by decide) (by decide),
      houter.type_ne (by decide) (by decide), houter.not_elem⟩
  | head hb hc hhead =>
    obtain ⟨t, htok, -, hbscoped⟩ := hhead.tok
    refine ⟨_, _, rfl, ?_, ?_, .inr ⟨t, htok, (flags_of_bscoped hbscoped).2⟩⟩ <;>
    · rw [hhead.type]
      decide
  | ce hb he hc htype hne hkids =>
    rw [heline] at he
    cases he

/-- Without the elements in next-line scope, what is left agrees with the other flags. -/
theorem Scoped.withoutElems (h : Scoped man elems scope outer) (hs : scope ++ outer = s :: ss) :
    Scoped { man with last := s, parents := ss, next := .CHILD, eline := false } [] scope
      outer := by
  refine ⟨hs.symm, eline_iff_nil rfl, fun e he => (by cases he), ?_, h.sections⟩
  cases h.scopeAt with
  | none hb hc => exact .none hb hc
  | head hb hc hhead => exact .head hb hc hhead
  | ce hb he hc htype hne hkids => exact .ce hb rfl hc htype hne hkids

/-- What `man_descope()` does first. -/
theorem exists_descopeElems (h : Loose man) (hnext : man.next = .SIBLING) :
    ∃ man', descopeElems man = .ok man' ∧ Good man' ∧ man'.eline = false ∧
      man'.bline = man.bline ∧ man'.ce = man.ce ∧ man'.next = .SIBLING ∧ Kept man man' := by
  unfold descopeElems
  by_cases heline : man.eline = true
  · rw [if_pos heline]
    obtain ⟨elems, scope, outer, h⟩ := h
    obtain ⟨e, elems, rfl⟩ := List.exists_cons_of_ne_nil (h.eline_iff.mp heline)
    obtain ⟨s, ss, hs, htype, -, hselem⟩ := h.scopeAt.not_elem heline h.sections
    obtain ⟨he, helems⟩ := List.forall_mem_cons.mp h.isElem
    have hspine : man.spine = e :: elems ++ s :: ss := by rw [h.spine_eq, hs]
    -- There are more ancestors than open elements.
    have hfuel : elems.length < man.parents.length := by
      rcases spine_cases hspine with ⟨hchild, -, -⟩ | ⟨-, q, hparents, -⟩
      · rw [hnext] at hchild
        cases hchild
      · rw [hparents]
        change elems.length < (elems ++ s :: ss).length + 1
        rw [List.length_append]
        exact Nat.lt_succ_of_le (Nat.le_add_right _ _)
    obtain ⟨n, hn, hloop⟩ := descopeLoop_elems hspine hnext he helems hselem hfuel
    refine ⟨{ man with last := n, parents := s :: ss, next := .SIBLING, eline := false }, ?_, ?_,
      rfl, rfl, rfl, rfl, ?_, rfl⟩
    · rw [hloop]
      rfl
    · -- The innermost element is completed and becomes a child of what is below the elements.
      have hbase : Loose { man with last := s, parents := ss, next := .CHILD, eline := false } :=
        ⟨[], scope, outer, h.withoutElems hs⟩
      have hgets : Gets { man with last := s, parents := ss, next := .CHILD, eline := false } n
          { man with last := n, parents := s :: ss, next := .SIBLING, eline := false } :=
        ⟨⟨rfl, rfl, rfl⟩, ⟨s, ss, rfl, rfl⟩, rfl⟩
      exact (hbase.gets hgets (fun _ _ => hn.inHead) fun _ _ => hn.done).good rfl
    · have hadd : openBlocks (s.add n :: ss) = openBlocks ss :=
        @openBlocks_cons_of_ne (s.add n) htype ss
      rw [hspine, openBlocks_elems h.isElem, openBlocks_cons_of_ne htype]
      exact hadd
  · rw [if_neg heline]
    have heline' := Bool.eq_false_iff.mpr heline
    exact ⟨man, rfl, h.good heline', heline', rfl, rfl, hnext, .refl man⟩

/-- The head in next-line scope, if no elements are. -/
theorem Good.exists_head (h : Good man) (heline : man.eline = false) (hbline : man.bline = true) :
    ∃ hd B outer, man.spine = hd :: B :: outer ∧ IsHead hd B ∧ Sections outer ∧
      man.ce = none := by
  obtain ⟨elems, scope, outer, h⟩ := h
  have helems := h.elems_eq_nil heline
  subst helems
  have hspine := h.spine_eq
  cases h.scopeAt with
  | none hb hc =>
    rw [hbline] at hb
    cases hb
  | ce hb he hc htype hne hkids =>
    rw [hbline] at hb
    cases hb
  | head hb hc hhead => exact ⟨_, _, outer, hspine, hhead, h.sections, hc⟩

theorem IsHead.openBlocks {hd B : ManTree} (h : IsHead hd B) (l : List ManTree) :
    openBlocks (hd :: B :: l) = openBlocks l := by
  obtain ⟨t, -, hBtok, hbscoped⟩ := h.tok
  rw [openBlocks_cons_of_ne (by rw [h.type]; decide),
    openBlocks_cons_of_bscoped hBtok hbscoped]

/-- The head of a block is closed, and the body of the block is opened. -/
theorem exists_openBody {hd B : ManTree} {t : ManTok} (hspine : man.spine = hd :: B :: outer)
    (htype : hd.type = .HEAD) (htok : hd.tok = .MAN t) (hBtype : B.type = .BLOCK)
    (hBtok : B.tok = .MAN t) (hBvalid : B.valid = false)
    (hescoped : (manMacros t).escoped = false) :
    ∃ man₁ man₂ n b, manUnscope man man.steps = .ok man₁ ∧ man₁.last.tok = .MAN t ∧
      man₁.alloc .BODY (.MAN t) = .ok man₂ ∧ man₂.spine = b :: B.add n :: outer ∧
      IsBody b (B.add n) ∧ (B.add n).head = some n ∧ n.aux = hd.aux ∧ SameFlags man man₂ ∧
      man₂.regtab = man.regtab := by
  obtain ⟨htoptok, htoptype, htopaux⟩ := top_eq hspine
  have hunscope := unscope_eq hspine
  set n := man.top.complete with hn
  have halloc := @alloc_eq { man with last := n, parents := B :: outer, next := .SIBLING }
    (B.add n) outer rfl .BODY (.MAN t)
  have hhead : (B.add n).head = some n := by
    rw [ManTree.head, ManTree.add_child, List.find?_cons_of_pos]
    exact decide_eq_true (htoptype.trans htype)
  refine ⟨_, _, n, _, hunscope, htoptok.trans htok, halloc, rfl, ?_, hhead, htopaux,
    ⟨rfl, rfl, rfl⟩, rfl⟩
  refine ⟨rfl, rfl, hBtype, hBvalid, ⟨t, rfl, hBtok, hescoped⟩, ?_, fun c hc => (by cases hc)⟩
  rw [hhead]
  rfl

/-- The head of a block in next-line scope is closed, and its body is opened. -/
theorem exists_body (h : Good man) (heline : man.eline = false) (hbline : man.bline = true) :
    ∃ man', man.body man.steps = .ok man' ∧ Unscoped man' ∧ Kept man man' := by
  obtain ⟨hd, B, outer, hspine, hhead, hsections, hce⟩ := h.exists_head heline hbline
  obtain ⟨t, htok, hBtok, hbscoped⟩ := hhead.tok
  obtain ⟨-, hescoped⟩ := flags_of_bscoped hbscoped
  obtain ⟨man₁, man₂, n, b, hunscope, hlast, halloc, hspine₂, hb, -, -, hflags, hregtab⟩ :=
    exists_openBody hspine hhead.type htok hhead.blockType hBtok hhead.blockValid hescoped
  refine ⟨{ man₂ with bline := false }, ?_, ⟨?_, hflags.eline.trans heline, rfl,
    hflags.ce.trans hce⟩, ?_, hregtab⟩
  · rw [ManParser.body, hunscope, Res.ok_bind, hlast, halloc]
    rfl
  · exact hspine₂ ▸ Sections.block hb hsections
  · have hadd : openBlocks (B.add n :: outer) = openBlocks outer :=
      @openBlocks_cons_of_bscoped (B.add n) t hBtok hbscoped outer
    change openBlocks man₂.spine = openBlocks man.spine
    rw [hspine₂, openBlocks_cons_of_ne (by rw [hb.type]; decide), hadd, hspine, hhead.openBlocks]

/-- `man_descope()` -/
theorem exists_manDescope (h : Loose man) (hnext : man.next = .SIBLING) (start : Option CStr) :
    ∃ man', manDescope man start = .ok man' ∧ Good man' ∧ man'.eline = false ∧ Kept man man' := by
  obtain ⟨man₁, helems, hgood, heline, hbline, -, hnext₁, hkept⟩ := exists_descopeElems h hnext
  rw [manDescope, helems, Res.ok_bind]
  by_cases hstay : (start.any manHasc || !man₁.bline) = true
  · rw [if_pos hstay]
    exact ⟨man₁, rfl, hgood, heline, hkept⟩
  · rw [if_neg hstay]
    have hbline₁ : man₁.bline = true := by
      rw [Bool.not_eq_true, Bool.or_eq_false_iff] at hstay
      simpa using hstay.2
    obtain ⟨man₂, hbody, hplain, hkept₂⟩ := exists_body hgood heline hbline₁
    rw [ManParser.steps, hnext₁] at hbody
    exact ⟨man₂, hbody, hplain.good, hplain.eline, hkept.trans hkept₂⟩

/-! ## §7 Breaking next-line scopes -/

theorem add_withChild {c : ManTree} {cs : List ManTree} (h : s.child = c :: cs) :
    ManTree.add { s with child := cs } c = s := by
  cases s
  cases h
  rfl

/-- After the deletion of a node, its parent is innermost. -/
theorem exists_delete {k : Nat} (h : man.parents.drop k = s :: ss) :
    ∃ man', man.delete k = .ok man' ∧ man'.spine = s :: ss ∧ SameFlags man man' ∧
      man'.regtab = man.regtab := by
  rw [ManParser.delete, h]
  dsimp only
  cases hchild : s.child with
  | nil => exact ⟨_, rfl, rfl, ⟨rfl, rfl, rfl⟩, rfl⟩
  | cons c cs =>
    exact ⟨_, rfl, congrArg (· :: ss) (add_withChild hchild), ⟨rfl, rfl, rfl⟩, rfl⟩

/-- The elements in next-line scope end in front of what is not one. -/
theorem outerElem_eq (helems : ∀ e ∈ elems, IsElem e) (hs : s.type ≠ .ELEM) (k : Nat) :
    outerElem k (elems ++ s :: ss) = .ok (k + elems.length) := by
  induction elems generalizing k with
  | nil =>
    rw [List.nil_append, outerElem, if_pos hs]
    rfl
  | cons e elems ih =>
    obtain ⟨he, helems⟩ := List.forall_mem_cons.mp helems
    obtain ⟨t, htok, hescoped⟩ := he.tok
    rw [List.cons_append, outerElem, if_neg (not_not.mpr he.type), htok, manMacro, Res.ok_bind,
      if_pos hescoped, ih helems, List.length_cons, Nat.add_right_comm, Nat.add_assoc]

/-- What is found to be broken is the innermost open node, if it is not to be skipped, and its
    children are. -/
theorem brokenScope_eq {skip : ManMacro → Bool} (hspine : man.spine = s :: ss)
    (htype : s.type ≠ .TEXT) (hs : s.tok.orMacro skip = false)
    (hkids : ∀ c ∈ s.child, c.type = .TEXT ∨ c.tok.orMacro skip = true) :
    brokenScope man skip = .ok man.steps := by
  rcases spine_cases hspine with ⟨hchild, rfl, -⟩ | ⟨hnext, q, hparents, rfl⟩
  · simp only [brokenScope, ManParser.steps, hchild, if_neg htype, List.drop_zero, hs]
    rfl
  · simp only [brokenScope, ManParser.steps, hnext, hparents]
    have hq : q.tok.orMacro skip = false := hs
    by_cases htext : man.last.type = .TEXT
    · simp [htext, hq]
    · have hlast := (hkids man.last (List.mem_cons_self ..)).resolve_left htext
      simp [htext, hlast]

theorem drop_parents (hspine : man.spine = s :: ss) (k : Nat) :
    man.parents.drop (man.steps + k) = ss.drop k := by
  rcases spine_cases hspine with ⟨hchild, -, rfl⟩ | ⟨hnext, q, hparents, -⟩
  · rw [ManParser.steps, hchild, Nat.zero_add]
  · rw [ManParser.steps, hnext, hparents, Nat.add_comm, List.drop_succ_cons]

/-- Deleting the elements in next-line scope. -/
theorem exists_breakElem (h : Good man) (tok : ManNodeTok) :
    ∃ man', breakElem man tok = .ok man' ∧ Good man' ∧ Kept man man' ∧
      man'.bline = man.bline ∧ man'.ce = man.ce ∧
      (man'.eline = true → man.eline = true ∧ tok.orMacro (!·.nscoped) = false) := by
  unfold breakElem
  by_cases hbreak : (man.eline && tok.orMacro (!·.nscoped)) = true
  · rw [if_pos hbreak]
    -- All open elements are deleted, and the scope below them is kept.
    obtain ⟨elems, scope, outer, h⟩ := h
    have heline := (Bool.and_eq_true_iff.mp hbreak).1
    obtain ⟨e, elems, rfl⟩ := List.exists_cons_of_ne_nil (h.eline_iff.mp heline)
    obtain ⟨s, ss, hs, htype, htypeElem, -⟩ := h.scopeAt.not_elem heline h.sections
    obtain ⟨he, helems⟩ := List.forall_mem_cons.mp h.isElem
    obtain ⟨t, htok, hescoped⟩ := he.tok
    have hspine : man.spine = e :: (elems ++ s :: ss) := by
      rw [h.spine_eq, hs]
      rfl
    have hbroken : brokenScope man (fun m => m.nscoped && !m.escoped) = .ok man.steps := by
      refine brokenScope_eq hspine ?_ ?_ fun c hc => .inr (h.inElem e rfl c hc).allowed
      · rw [he.type]
        decide
      · rw [htok, ManNodeTok.orMacro, hescoped, Bool.not_true, Bool.and_false]
    have hdrop : man.parents.drop man.steps = elems ++ s :: ss := drop_parents hspine 0
    have hdrop' : man.parents.drop (man.steps + elems.length) = s :: ss := by
      rw [drop_parents hspine, List.drop_left]
    obtain ⟨man', hdelete, hspine', hflags, hregtab⟩ := exists_delete hdrop'
    refine ⟨{ man' with eline := false }, ?_, ?_, ⟨?_, hregtab⟩, hflags.bline, hflags.ce,
      fun h => (by cases h)⟩
    · rw [hbroken, Res.ok_bind, hdrop, outerElem_eq helems htypeElem, Res.ok_bind, hdelete]
      rfl
    · have hbase := h.withoutElems hs
      refine Loose.good ⟨[], scope, outer, ⟨hspine'.trans (hs.symm), ?_, fun e he => (by cases he),
        hbase.scopeAt.congr ⟨rfl, hflags.bline, hflags.ce⟩, h.sections⟩⟩ rfl
      exact ⟨fun h => (by cases h), fun h => absurd rfl h⟩
    · have hblocks := openBlocks_elems h.isElem (scope ++ outer)
      rw [← h.spine_eq, hs] at hblocks
      exact (congrArg openBlocks hspine').trans hblocks.symm
  · rw [if_neg hbreak]
    -- Nothing is broken.
    refine ⟨man, rfl, h, .refl man, rfl, rfl, fun heline => ⟨heline, ?_⟩⟩
    rw [heline, Bool.true_and, Bool.not_eq_true] at hbreak
    exact hbreak

/-- Switching fill mode closes the head of a section. -/
theorem exists_breakFill (h : Good man) (tok : ManNodeTok)
    (heline : tok.orMacro (!·.nscoped) = true → man.eline = false) :
    ∃ man', breakFill man tok = .ok man' ∧ Good man' ∧ Kept man man' ∧ man'.ce = man.ce ∧
      man'.eline = man.eline ∧ (man'.bline = true → man.bline = true) := by
  unfold breakFill
  split
  · next hbreak =>
    simp only [Bool.and_eq_true, Bool.or_eq_true, decide_eq_true_eq] at hbreak
    obtain ⟨⟨hbline, htok⟩, hlast⟩ := hbreak
    have heline' : man.eline = false := by
      apply heline
      rcases htok with rfl | rfl <;> rfl
    obtain ⟨hd, B, outer, hspine, hhead, -, hce⟩ := h.exists_head heline' hbline
    -- No child of the head has the macro of the head, so the head is the last node.
    have hsteps : man.steps = 0 := by
      rcases spine_cases hspine with ⟨hchild, -, -⟩ | ⟨-, q, -, rfl⟩
      · rw [ManParser.steps, hchild]
      · rcases (hhead.kids man.last (List.mem_cons_self ..)).kind with ⟨-, hnone⟩ | ⟨-, hflag⟩
        · rw [hnone] at hlast
          rcases hlast with hlast | hlast <;> cases hlast
        · rcases hlast with hlast | hlast <;>
          · rw [hlast] at hflag
            cases hflag
    obtain ⟨man', hbody, hplain, hkept⟩ := exists_body h heline' hbline
    rw [hsteps] at hbody
    refine ⟨man', hbody, hplain.good, hkept, hplain.ce.trans hce.symm,
      hplain.eline.trans heline'.symm, fun hb => ?_⟩
    rw [hplain.bline] at hb
    cases hb
  · exact ⟨man, rfl, h, .refl man, rfl, rfl, id⟩

/-- Deleting the block whose head is in next-line scope. -/
theorem exists_breakBlock (h : Good man) (tok : ManNodeTok)
    (heline : tok.orMacro (·.xscope) = true → man.eline = false) :
    ∃ man', breakBlock man tok = .ok man' ∧ Good man' ∧ Kept man man' ∧ man'.ce = man.ce ∧
      man'.eline = man.eline ∧ (man'.bline = true → man.bline = true ∧
        (tok = .ROFF_nf ∨ tok = .ROFF_fi ∨ tok.orMacro (·.xscope) = false)) := by
  unfold breakBlock
  split
  · -- The scope is broken, so the head that was open is deleted.
    next hbreak =>
    simp only [Bool.and_eq_true, decide_eq_true_eq] at hbreak
    obtain ⟨⟨⟨hbline, -⟩, -⟩, hxscope⟩ := hbreak
    have heline' := heline hxscope
    obtain ⟨hd, B, outer, hspine, hhead, hsections, hce⟩ := h.exists_head heline' hbline
    obtain ⟨t, htok, hBtok, hbscoped⟩ := hhead.tok
    have hbroken : brokenScope man (!·.xscope) = .ok man.steps := by
      refine brokenScope_eq hspine ?_ ?_ fun c hc => ?_
      · rw [hhead.type]
        decide
      · rw [htok, ManNodeTok.orMacro, (flags_of_bscoped hbscoped).1]
        rfl
      · exact (hhead.kids c hc).kind.imp And.left And.right
    -- The head is the last node or the parent of the last one.
    have hpath : ∃ n, (man.last :: man.parents).drop man.steps = n :: B :: outer ∧
        n.type = .HEAD := by
      rcases spine_cases hspine with ⟨hchild, hlast, hparents⟩ | ⟨hnext, q, hparents, rfl⟩
      · refine ⟨hd, ?_, hhead.type⟩
        rw [ManParser.steps, hchild, List.drop_zero, hlast, hparents]
      · refine ⟨q, ?_, hhead.type⟩
        rw [ManParser.steps, hnext, List.drop_one, List.tail_cons, hparents]
    obtain ⟨n, hn, hntype⟩ := hpath
    obtain ⟨b, l, hbl⟩ := hsections.exists_cons
    have hdrop : man.parents.drop (man.steps + 1) = b :: l := by
      rw [drop_parents hspine, List.drop_one, List.tail_cons, hbl]
    obtain ⟨man', hdelete, hspine', hflags, hregtab⟩ := exists_delete hdrop
    -- Only the sections stay open.
    refine ⟨{ man' with bline := false }, ?_, Unscoped.good ⟨?_, ?_, rfl, ?_⟩, ⟨?_, hregtab⟩,
      hflags.ce, hflags.eline, fun hb => (by cases hb)⟩
    · rw [hbroken, Res.ok_bind, hn]
      dsimp only
      rw [if_neg (not_or.mpr ⟨not_not.mpr hntype, not_not.mpr hhead.blockType⟩), hBtok, manMacro,
        Res.ok_bind, if_pos hbscoped, hdelete]
      rfl
    · rw [hbl] at hsections
      exact hspine' ▸ hsections
    · exact hflags.eline.trans heline'
    · exact hflags.ce.trans hce
    · rw [hspine, hhead.openBlocks, hbl]
      exact congrArg openBlocks hspine'
  · next hbreak =>
    -- Nothing is broken if there is no scope or the request does not end it.
    refine ⟨man, rfl, h, .refl man, rfl, rfl, fun hb => ⟨hb, ?_⟩⟩
    simp only [Bool.and_eq_true, decide_eq_true_eq, hb, true_and] at hbreak
    by_cases hnf : tok = .ROFF_nf
    · exact .inl hnf
    by_cases hfi : tok = .ROFF_fi
    · exact .inr (.inl hfi)
    · exact .inr (.inr (Bool.eq_false_iff.mpr fun hx => hbreak ⟨⟨hnf, hfi⟩, hx⟩))

/-- Macros that end next-line scopes for heads do not go into elements in next-line scope. -/
theorem nscoped_of_xscope {tok : ManNodeTok} (h : tok.orMacro (·.xscope) = true) :
    tok.orMacro (!·.nscoped) = true := by
  cases tok with
  | MAN t =>
    revert h
    cases t <;> decide
  | _ => rfl

/-- `man_breakscope()`: what is still in next-line scope had been there before, and is not ended by
    the macro or request. -/
theorem exists_manBreakscope (h : Good man) (tok : ManNodeTok) :
    ∃ man', manBreakscope man tok = .ok man' ∧ Good man' ∧ Kept man man' ∧ man'.ce = man.ce ∧
      (man'.eline = true → man.eline = true ∧ tok.orMacro (!·.nscoped) = false) ∧
      (man'.bline = true → man.bline = true ∧
        (tok = .ROFF_nf ∨ tok = .ROFF_fi ∨ tok.orMacro (·.xscope) = false)) := by
  obtain ⟨man₁, h₁, hgood₁, hkept₁, hbline₁, hce₁, heline₁⟩ := exists_breakElem h tok
  have hclosed : tok.orMacro (!·.nscoped) = true → man₁.eline = false := by
    intro hn
    by_contra hne
    rw [Bool.not_eq_false] at hne
    rw [(heline₁ hne).2] at hn
    cases hn
  obtain ⟨man₂, h₂, hgood₂, hkept₂, hce₂, heline₂, hbline₂⟩ := exists_breakFill hgood₁ tok hclosed
  obtain ⟨man₃, h₃, hgood₃, hkept₃, hce₃, heline₃, hbline₃⟩ := exists_breakBlock hgood₂ tok
    fun hx => heline₂.trans (hclosed (nscoped_of_xscope hx))
  refine ⟨man₃, ?_, hgood₃, (hkept₁.trans hkept₂).trans hkept₃, hce₃.trans (hce₂.trans hce₁), ?_,
    ?_⟩
  · rw [manBreakscope, h₁, Res.ok_bind, h₂, Res.ok_bind, h₃]
  · intro he
    exact heline₁ (by rw [← heline₂, ← heline₃]; exact he)
  · intro hb
    obtain ⟨hb₂, htok⟩ := hbline₃ hb
    exact ⟨hbline₁ ▸ hbline₂ hb₂, htok⟩

end

end Mandoc
