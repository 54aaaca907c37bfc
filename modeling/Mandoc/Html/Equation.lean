import Mandoc.Eqn.BoxShape
import Mandoc.Html.TagDiscipline
import Mandoc.Html.TextFaults
import Mandoc.Lib.ForestTrees

/-!
# Equations in HTML

Model of `eqn_html.c`: a box is printed together with its children and with the boxes after it.
A matrix is presented in column order, but must be printed in row order.

The function asserts several times that no element has been opened for the box yet, and its tags
are subject to the assertions about phrasing content. It follows the pointers of the boxes, which
the equation parser has set.

## Main results

- `htmlEqnBox_keeps`: boxes that are in shape are printed without failing an assertion, and the
  stack of open elements is the same afterwards.
- `printEqn_keeps`: that is the case for every equation.
-/

namespace Mandoc

open OrderedForest

/-! ## §1 The elements of a box -/

/-- The element for a position. -/
def eqnPostTag : EqnPost → Option HtmlTag
  | .TO => some .MOVER
  | .SUP => some .MSUP
  | .FROM => some .MUNDER
  | .SUB => some .MSUB
  | .OVER => some .MFRAC
  | .FROMTO => some .MUNDEROVER
  | .SUBSUP => some .MSUBSUP
  | .SQRT => some .MSQRT
  | .NONE => none

/-- The element for symbols above and below. -/
def eqnMarkTag (b : EqnBox) : Option HtmlTag :=
  match b.top, b.bottom with
  | some _, none => some .MOVER
  | some _, some _ => some .MUNDEROVER
  | none, some _ => some .MUNDER
  | none, none => none

/-- Does the text of an operator, from an index on, consist of punctuation and escape sequences? -/
def eqnOperator (p : CStr) : Nat → Nat → Res HtmlTag
  | 0, _ => .error .fuel
  | steps + 1, i => do
    let c ← rd p i
    if c = NUL then return .MO
    else if c = '\\' && charAt p (i + 1) ≠ NUL then
      eqnOperator p steps (← mandocEscape p i).rend
    else if isalnum c then return .MI
    else eqnOperator p steps (i + 1)

/-- The element for a text: a number, an operator, or an identifier. -/
def eqnTextTag (p : CStr) : Res HtmlTag :=
  let c := charAt p 0
  if isdigit c || (c = '.' && isdigit (charAt p 1)) then
    .ok (if (p.drop 1).all fun c => c = '.' || isdigit c then .MN else .MI)
  else if c ≠ NUL && !isalpha c then eqnOperator p (p.length + 1) 0
  else .ok .MI

/-- The font of a text, unless the element has that font anyway. -/
def eqnTextFontt (p : CStr) (tag : HtmlTag) (font : EqnFontt) : EqnFontt :=
  if charAt p 0 ≠ NUL ∧ (((tag = .MN ∨ tag = .MO) ∧ font = .ROMAN) ∨
      (tag = .MI ∧ font = if charAt p 1 = NUL then .ITALIC else .ROMAN)) then .NONE
  else font

/-- The attribute for a font. -/
def eqnFontAttrs : EqnFontt → List Attr
  | .NONE => []
  | .ROMAN => [⟨"fontstyle", some (.text "normal".toList)⟩]
  | .BOLD | .FAT => [⟨"fontweight", some (.text "bold".toList)⟩]
  | .ITALIC => [⟨"fontstyle", some (.text "italic".toList)⟩]

/-- The attributes for fences. -/
def eqnFenceAttrs (b : EqnBox) : List Attr :=
  [⟨"open", some (.text (b.left.getD []))⟩, ⟨"close", some (.text (b.right.getD []))⟩]

section

variable (env : HtmlEnv) (t : EqnTree)

/-- Open an element and remember it, where `post` must not be in use. -/
def openPost (d : HtmlDoc) (post : Option Nat) (tag : HtmlTag) (attrs : List Attr) :
    Res (HtmlDoc × Option Nat) :=
  if post = none then printOtag env d tag attrs [] else .error .abort

/-- The elements that depend on the position and on the type of a box. -/
def htmlEqnPost (d : HtmlDoc) (bp : Nat) : Res (HtmlDoc × Option Nat) := do
  let b := t.box bp
  let (d, post) ← (match eqnPostTag b.pos with
    | some tag => printOtag env d tag [] []
    | none => .ok (d, none) : Res (HtmlDoc × Option Nat))
  let (d, post) ← (match eqnMarkTag b with
    | some tag => openPost env d post tag []
    | none => .ok (d, post) : Res (HtmlDoc × Option Nat))
  if b.type = .PILE then
    if post = none then
      match (t.links bp).child with
      | some first =>
        if (t.box first).type = .LIST ∧ (t.box first).several then printOtag env d .MTABLE [] []
        else return (d, post)
      | none => return (d, post)
    else .error .abort
  else if b.type = .LIST ∧ b.several ∧
      (t.links bp).parent.any fun p => (t.box p).type = .PILE then do
    let (d, post) ← openPost env d post .MTR []
    return (← printTag env d .MTD [] [], post)
  else return (d, post)

/-- The text of a box, or an element for its children. -/
def htmlEqnText (d : HtmlDoc) (post : Option Nat) (b : EqnBox) : Res (HtmlDoc × Option Nat) :=
  match b.text, post with
  | some _, some _ => .error .abort
  | some p, none => do
    let tag ← eqnTextTag p
    let (d, post) ← printOtag env d tag (eqnFontAttrs (eqnTextFontt p tag b.font)) []
    return (← printText env d p, post)
  | none, some post => .ok (d, some post)
  | none, none =>
    if b.left ≠ none ∨ b.right ≠ none then do
      let (d, post) ← printOtag env d .MFENCED (eqnFenceAttrs b) []
      return (← printTag env d .MROW [] [], post)
    else printOtag env d .MROW [] []

/-- A symbol above or below. -/
def htmlEqnMark (d : HtmlDoc) (mark : Option CStr) : Res HtmlDoc :=
  match mark with
  | none => .ok d
  | some w => do
    let (d, t) ← printOtag env d .MO [] []
    return printTagq (← printText env d w) t

/-- `if (NULL != post) print_tagq(p, post);` -/
def closePost (d : HtmlDoc) (post : Option Nat) : HtmlDoc :=
  match post with
  | none => d
  | some a => printTagq d (some a)

/-! ## §2 Matrices -/

variable (steps : Nat) (box : HtmlDoc → Option Nat → Res HtmlDoc)

/-- A cell: what the child of a column at the index of the row contains. If there is no data for
    this particular cell, then print a placeholder. -/
def htmlEqnCell (i : Nat) (d : HtmlDoc) (parent : Nat) : Res HtmlDoc := do
  let children ← eqnSiblings t steps (t.links parent).child
  let (d, cell) ← printOtag env d .MTD [] []
  let d ← (match children[i]? with
    | some child => box d (t.links child).child
    | none => .ok d : Res HtmlDoc)
  return printTagq d cell

/-- A row. -/
def htmlEqnRow (columns : List Nat) (d : HtmlDoc) (i : Nat) : Res HtmlDoc := do
  let (d, row) ← printOtag env d .MTR [] []
  return printTagq (← columns.foldlM (htmlEqnCell env t steps box i) d) row

/-- A matrix, which is presented to us in column order. -/
def htmlEqnMatrix (d : HtmlDoc) (bp : Nat) : Res (HtmlDoc × Option Nat) :=
  match (t.links bp).child with
  | none => .ok (d, none)
  | some first =>
    if (t.box first).type ≠ .LIST ∨ (t.box first).expectargs = some 1 then do
      return (← box d (some first), none)
    else
      match (t.links first).child with
      | none => .ok (d, none)
      | some parent => do
        -- Estimate the number of rows.
        let rows := (← eqnSiblings t steps (t.links parent).child).length
        if rows = 0 then return (d, none)
        else
          let columns ← eqnSiblings t steps (some parent)
          let (d, post) ← printOtag env d .MTABLE [] []
          return (← (List.range rows).foldlM (htmlEqnRow env t steps box columns) d, post)

end

/-! ## §3 Boxes -/

/-- `eqn_box()`, where the number of steps bounds the depth of the recursion. -/
def htmlEqnBox (env : HtmlEnv) (t : EqnTree) : Nat → HtmlDoc → Option Nat → Res HtmlDoc
  | 0, _, _ => .error .fuel
  | _ + 1, d, none => .ok d
  | steps + 1, d, some bp => do
    let b := t.box bp
    let box := htmlEqnBox env t steps
    let (d, post) ← (if b.type = .MATRIX then htmlEqnMatrix env t steps box d bp
      else do
        let (d, post) ← htmlEqnPost env t d bp
        let (d, post) ← htmlEqnText env d post b
        return (← box d (t.links bp).child, post) : Res (HtmlDoc × Option Nat))
    let d ← htmlEqnMark env d b.bottom
    let d ← htmlEqnMark env d b.top
    box (closePost d post) (t.links bp).next

/-- Set or clear the flag `HTML_NONOSPACE`. -/
def HtmlDoc.setNonospace (d : HtmlDoc) (b : Bool) : HtmlDoc :=
  { d with h := { d.h with flags := { d.h.flags with nonospace := b } } }

/-- `print_eqn()` -/
def printEqn (env : HtmlEnv) (t : EqnTree) (steps : Nat) (d : HtmlDoc) (bp : Nat) : Res HtmlDoc :=
  if (t.links bp).child = none then .ok d
  else do
    let (d, math) ← printOtag env d .MATH [.cls "eqn"] []
    let d ← htmlEqnBox env t steps (d.setNonospace true) (some bp)
    return printTagq (d.setNonospace false) math

/-! ## §4 The stack of elements -/

variable {allowed : Fault → Prop} {env : HtmlEnv} {t : EqnTree} {d₀ d d' : HtmlDoc}
variable {post : Option Nat} {tag : HtmlTag} {attrs : List Attr} {b : EqnBox}

/-- The innermost element is open, can contain any element of an equation, and no font scope is
    open. -/
structure EqnContext (d : HtmlDoc) : Prop where
  here : DocOpened d d []
  metaf : d.metaf = none
  top : ∃ u rest, d.scopes.tags = u :: rest ∧ u.closed = false ∧
    (htmltags u.tag).tophrase = false ∧ u.tag ≠ .SECTION

/-- The elements for boxes. -/
def HtmlTag.isEqn (tag : HtmlTag) : Bool :=
  !(htmltags tag).nostack && !(htmltags tag).tophrase && tag ≠ .SECTION

/-- Since the state `d₀`, elements have been opened for a box, and `post` is the outer one. -/
structure EqnOpened (d₀ d : HtmlDoc) (post : Option Nat) : Prop where
  exists_opened : ∃ ts, DocOpened d₀ d ts ∧ ts.getLast?.map OpenScopes.Scope.addr = post ∧
    ∀ u ∈ ts, u.tag.isEqn = true
  metaf : d.metaf = none

/-- A function leaves the stack of elements as it was. -/
structure EqnKeeps (d d' : HtmlDoc) : Prop where
  opened : DocOpened d d' []
  metaf : d'.metaf = none

theorem EqnContext.inElement (h : EqnContext d) : d.InElement := by
  obtain ⟨u, rest, htags, -, -, hne⟩ := h.top
  exact ⟨u, rest, htags, hne⟩

theorem EqnContext.flowAllowed (h : EqnContext d) : flowAllowed d.scopes.tags = true := by
  obtain ⟨u, rest, htags, hopen, hphrase, -⟩ := h.top
  rw [Mandoc.flowAllowed, htags, List.find?_cons_of_pos (by rw [hopen]; rfl)]
  simp only [hphrase, Bool.not_false]

theorem EqnContext.refl (h : EqnContext d) : EqnKeeps d d := ⟨h.here, h.metaf⟩

theorem EqnContext.start (h : EqnContext d) : EqnOpened d d none :=
  ⟨⟨[], h.here, rfl, fun u hu => by cases hu⟩, h.metaf⟩

theorem EqnKeeps.trans {d'' : HtmlDoc} (h : EqnKeeps d d') (h' : EqnKeeps d' d'') :
    EqnKeeps d d'' :=
  ⟨h.opened.trans h'.opened, h'.metaf⟩

/-- Once an element has been opened for a box, it can contain the parts of the box. -/
theorem EqnOpened.within {addr : Nat} (h : EqnOpened d₀ d (some addr)) : EqnContext d := by
  obtain ⟨ts, hopen, hpost, htags⟩ := h.exists_opened
  refine ⟨hopen.here h.metaf, h.metaf, ?_⟩
  cases ts with
  | nil => cases hpost
  | cons u ts =>
    have hu := htags u List.mem_cons_self
    simp only [HtmlTag.isEqn, Bool.and_eq_true, Bool.not_eq_true', decide_eq_true_eq] at hu
    have hfree := hopen.added.free u List.mem_cons_self
    exact ⟨u, ts ++ d₀.scopes.tags, hopen.added.tags, hfree.2.1, hu.1.2, hu.2⟩

/-- The elements that have been opened for a box can contain its parts. -/
theorem EqnOpened.context (h : EqnOpened d₀ d post) (h₀ : EqnContext d₀) : EqnContext d := by
  cases post with
  | some addr => exact h.within
  | none =>
    obtain ⟨ts, hopen, hpost, -⟩ := h.exists_opened
    rw [Option.map_eq_none_iff, List.getLast?_eq_none_iff] at hpost
    subst hpost
    obtain ⟨u, rest, htop, hu⟩ := h₀.top
    exact ⟨hopen.here h.metaf, h.metaf, u, rest, hopen.added.tags.trans htop, hu⟩

theorem EqnKeeps.context (h : EqnKeeps d d') (hd : EqnContext d) : EqnContext d' :=
  @EqnOpened.context _ _ none ⟨⟨[], h.opened, rfl, fun u hu => by cases hu⟩, h.metaf⟩ hd

theorem EqnOpened.keeps (h : EqnOpened d₀ d post) (hk : EqnKeeps d d') : EqnOpened d₀ d' post := by
  obtain ⟨ts, hopen, hpost, htags⟩ := h.exists_opened
  exact ⟨⟨ts, hopen.trans hk.opened, hpost, htags⟩, hk.metaf⟩

/-- **Another element is opened for a box.** -/
theorem EqnOpened.otag (h : EqnOpened d₀ d post) (h₀ : EqnContext d₀) (htag : tag.isEqn = true)
    (hattrs : AttrsAllowed allowed attrs) :
    Guarantees allowed (printOtag env d tag attrs []) fun r =>
      ∃ addr, r.2 = some addr ∧ EqnOpened d₀ r.1 (post.or (some addr)) := by
  have hctx := h.context h₀
  refine (Guarantees.with_eq (printOtag_faults hattrs (fun _ => hctx.flowAllowed)
    fun _ => hctx.inElement)).mono fun r hres => ?_
  obtain ⟨heq, _⟩ := hres
  obtain ⟨ts, hopen, hpost, htags⟩ := h.exists_opened
  obtain ⟨ws, addr, hd₁, hmetaf, -, ht, hws⟩ := printOtag_opens hopen heq
  have hisEqn := htag
  simp only [HtmlTag.isEqn, Bool.and_eq_true, Bool.not_eq_true'] at htag
  rw [elementTags, if_neg (by rw [htag.1.1]; decide),
    hws (.inr (.inr hctx.inElement.not_inSection))] at hd₁
  rw [if_neg (by rw [htag.1.1]; decide)] at ht
  refine ⟨addr, ht, ⟨_, hd₁, ?_, ?_⟩, hmetaf.trans h.metaf⟩
  · cases ts with
    | nil =>
      cases hpost
      rfl
    | cons u ts =>
      rw [← hpost, List.nil_append, List.singleton_append, List.getLast?_cons_cons,
        List.getLast?_eq_some_getLast (List.cons_ne_nil u ts)]
      rfl
  · intro u hu
    rcases List.mem_cons.mp hu with rfl | hu
    · exact hisEqn
    · exact htags u hu

/-- Closing the outer one of the elements of a box closes all of them. -/
theorem EqnOpened.close (h : EqnOpened d₀ d post) : EqnKeeps d₀ (closePost d post) := by
  obtain ⟨ts, hopen, hpost, -⟩ := h.exists_opened
  cases post with
  | none =>
    rw [Option.map_eq_none_iff, List.getLast?_eq_none_iff] at hpost
    exact ⟨hpost ▸ hopen, h.metaf⟩
  | some a =>
    have hsorted : OpenScopes.Sorted ts := by
      have hall := hopen.added.sorted
      rw [hopen.added.tags] at hall
      exact (List.pairwise_append.mp hall).1
    have hmem : a ∈ OpenScopes.addrs ts := by
      obtain ⟨u, hu, rfl⟩ := Option.map_eq_some_iff.mp hpost
      exact OpenScopes.mem_addrs.mpr ⟨u, List.mem_of_getLast? hu, rfl⟩
    obtain ⟨us, hus, hclosed⟩ := hopen.tagq hmem
    rw [OpenScopes.throughTag_getLast hsorted hpost] at hus
    rw [List.self_eq_append_right.mp hus] at hclosed
    refine ⟨hclosed, ?_⟩
    change (printCtags d _).metaf = none
    rw [printCtags_metaf, h.metaf, resetPointer]
    split <;> rfl

/-- **An element of an equation**: what is printed within it is closed together with it. -/
theorem EqnContext.element (h : EqnContext d) (tag : HtmlTag) (htag : tag.isEqn = true)
    (hattrs : AttrsAllowed allowed attrs) (body : HtmlDoc → Res HtmlDoc)
    (hbody : ∀ d, EqnContext d → Guarantees allowed (body d) (EqnKeeps d)) :
    Guarantees allowed (do
      let (d, t) ← printOtag env d tag attrs []
      return printTagq (← body d) t) (EqnKeeps d) := by
  refine (h.start.otag h htag hattrs).bind fun r hres => ?_
  obtain ⟨d₁, t⟩ := r
  obtain ⟨addr, ht, hopen⟩ := hres
  simp only at ht hopen
  subst ht
  refine (hbody d₁ (hopen.context h)).bind fun d₂ hkeeps => Guarantees.pure_iff.mpr ?_
  exact (hopen.keeps hkeeps).close

/-- Several elements one after another. -/
theorem EqnContext.foldlM {α : Type} {l : List α} {f : HtmlDoc → α → Res HtmlDoc}
    (hf : ∀ a ∈ l, ∀ d, EqnContext d → Guarantees allowed (f d a) (EqnKeeps d))
    (h : EqnContext d) : Guarantees allowed (l.foldlM f d) (EqnKeeps d) := by
  induction l generalizing d with
  | nil => exact Guarantees.ok_iff.mpr h.refl
  | cons a l ih =>
    rw [List.foldlM_cons]
    refine (hf a List.mem_cons_self d h).bind fun d₁ hd₁ => ?_
    refine (ih (fun c hc => hf c (List.mem_cons_of_mem _ hc)) (hd₁.context h)).mono fun d₂ hd₂ => ?_
    exact hd₁.trans hd₂

/-! ## §5 The text of a box -/

/-- What `mandoc_escape()` does when it is called on a word and does not return to the
    caller with a position inside the word. -/
def EscapeFails (word : CStr) (i : Nat) (fault : Fault) : Prop :=
  mandocEscape word i = .error fault ∨
    ∃ res, mandocEscape word i = .ok res ∧ word.length < res.rend ∧ fault = .overrun

/-- The parser for escape sequences is to blame for a fault only in an allowed way. -/
def WordAllowed (allowed : Fault → Prop) (word : CStr) : Prop :=
  NUL ∉ word ∧ ∀ j fault, charAt word j = '\\' → EscapeFails word j fault → allowed fault

theorem WordAllowed.escapes {word : CStr} (h : WordAllowed allowed word) :
    EscapesAllowed allowed word :=
  ⟨h.1, fun j hj => ⟨fun _ _ => trivial, fun fault he => h.2 j fault hj (.inl he)⟩⟩

theorem attrsAllowed_nil : AttrsAllowed allowed [] := fun a ha => by cases ha

/-- The loop over the characters of an operator ends. -/
theorem eqnOperator_faults {word : CStr} (hw : WordAllowed allowed word) {steps i : Nat}
    (hi : i ≤ word.length) (hsteps : word.length < i + steps) :
    Guarantees allowed (eqnOperator word steps i) fun tag => tag.isEqn = true := by
  induction steps generalizing i with
  | zero => exact absurd hsteps (Nat.not_lt.mpr hi)
  | succ steps ih =>
    rw [eqnOperator, rd_of_le hi, Res.ok_bind]
    refine Guarantees.ite (fun _ => Guarantees.pure_iff.mpr rfl) fun hnul => ?_
    have hlt := lt_length_of_charAt_ne_nul hnul
    refine Guarantees.ite (fun hesc => ?_) fun _ => ?_
    · have hc : charAt word i = '\\' := of_decide_eq_true (Bool.and_eq_true_iff.mp hesc).1
      refine (Guarantees.with_eq (hw.escapes.2 i hc)).bind fun r hres => ?_
      obtain ⟨hr, _⟩ := hres
      have hbounded := (mandocEscape_bounded hw.1 hnul).of_eq_ok hr
      have hprogress := Nat.lt_of_le_of_lt hbounded.2.resc_ge hbounded.2.resc_lt
      rcases Nat.lt_or_ge word.length r.rend with hover | hle
      · -- The text is read behind its end.
        obtain ⟨steps, rfl⟩ : ∃ k, steps = k + 1 := Nat.exists_eq_succ_of_ne_zero (by omega)
        have hrd : rd word r.rend = .error .overrun := if_neg (Nat.not_le.mpr hover)
        rw [eqnOperator, hrd]
        exact Guarantees.error_iff.mpr (hw.2 i _ hc (.inr ⟨r, hr, hover, rfl⟩))
      · exact ih hle (by omega)
    · refine Guarantees.ite (fun _ => Guarantees.pure_iff.mpr rfl) fun _ => ?_
      exact ih hlt (by omega)

theorem eqnTextTag_faults {word : CStr} (hw : WordAllowed allowed word) :
    Guarantees allowed (eqnTextTag word) fun tag => tag.isEqn = true := by
  refine Guarantees.ite (fun _ => Guarantees.ok_iff.mpr ?_) fun _ => ?_
  · split <;> rfl
  · refine Guarantees.ite (fun _ => ?_) fun _ => Guarantees.ok_iff.mpr rfl
    exact eqnOperator_faults hw (Nat.zero_le _) (by omega)

theorem eqnFontAttrs_allowed (font : EqnFontt) : AttrsAllowed allowed (eqnFontAttrs font) := by
  intro a ha v hv
  cases font with
  | NONE => cases ha
  | ROMAN | BOLD | FAT | ITALIC =>
    cases List.mem_singleton.mp ha
    cases hv
    exact ⟨_, rfl, escapesAllowed_plain (by decide) (by decide)⟩

/-- The strings of a box can be printed. -/
def EqnBox.WordsAllowed (allowed : Fault → Prop) (b : EqnBox) : Prop :=
  ∀ w ∈ b.words, WordAllowed allowed w

theorem eqnFenceAttrs_allowed (hw : b.WordsAllowed allowed) :
    AttrsAllowed allowed (eqnFenceAttrs b) := by
  have hone : ∀ o : Option CStr, (∀ w, o = some w → w ∈ b.words) →
      EscapesAllowed allowed (o.getD []) := by
    intro o ho
    cases o with
    | none => exact escapesAllowed_plain List.not_mem_nil List.not_mem_nil
    | some w => exact (hw w (ho w rfl)).escapes
  intro a ha v hv
  rcases List.mem_cons.mp ha with rfl | ha
  · cases hv
    exact ⟨_, rfl, hone b.left fun w hleft => by simp [EqnBox.words, hleft]⟩
  · cases List.mem_singleton.mp ha
    cases hv
    exact ⟨_, rfl, hone b.right fun w hright => by simp [EqnBox.words, hright]⟩

/-- A symbol above or below a box. -/
theorem htmlEqnMark_keeps {mark : Option CStr} (hw : ∀ w, mark = some w → WordAllowed allowed w)
    (h : EqnContext d) : Guarantees allowed (htmlEqnMark env d mark) (EqnKeeps d) := by
  cases mark with
  | none => exact Guarantees.ok_iff.mpr h.refl
  | some w =>
    refine h.element .MO rfl attrsAllowed_nil (printText env · w) fun d₁ h₁ => ?_
    exact (printText_faults (hw w rfl).escapes h₁.here h₁.metaf h₁.inElement).mono
      fun d₂ hd₂ => ⟨hd₂.1, hd₂.2⟩

/-- The elements that depend on the position and on the type: **no assertion fails**, and a box with
    text does not get any of them. -/
theorem htmlEqnPost_opens {bp n : Nat} (hshape : (t.box bp).InShape n) (h : EqnContext d) :
    Guarantees allowed (htmlEqnPost env t d bp) fun r =>
      EqnOpened d r.1 r.2 ∧ ((t.box bp).text ≠ none → r.2 = none) := by
  have hstart := h.start
  have hopen : ∀ tag : HtmlTag, tag.isEqn = true →
      Guarantees allowed (printOtag env d tag [] []) fun r =>
        EqnOpened d r.1 r.2 ∧ ∃ addr, r.2 = some addr := by
    intro tag htag
    refine (hstart.otag h htag attrsAllowed_nil).mono fun r hres => ?_
    obtain ⟨addr, hr, hopened⟩ := hres
    rw [hr]
    exact ⟨hopened, addr, rfl⟩
  have hnotext : (t.box bp).type ≠ .TEXT → (t.box bp).text = none := fun hne =>
    not_not.mp fun htext => hne (hshape.text htext)
  unfold htmlEqnPost
  dsimp only
  by_cases hpos : (t.box bp).pos = .NONE
  · rw [hpos]
    refine Guarantees.bind_of_eq (a := (d, none)) rfl ?_
    dsimp only
    cases hmark : eqnMarkTag (t.box bp) with
    | some tag =>
      -- A box with a symbol above or below is a list with one element.
      have hsymbol : (t.box bp).top ≠ none ∨ (t.box bp).bottom ≠ none := by
        by_contra hnone
        simp only [not_or, not_not] at hnone
        simp [eqnMarkTag, hnone] at hmark
      obtain ⟨hlist, hsingle⟩ := hshape.mark hsymbol
      have htag : tag.isEqn = true := by
        unfold eqnMarkTag at hmark
        split at hmark <;> cases hmark <;> rfl
      refine Guarantees.bind (P := fun r => EqnOpened d r.1 r.2) ?_ fun r hopened => ?_
      · exact (hopen tag htag).mono fun r hr => hr.1
      · obtain ⟨d₁, post₁⟩ := r
        rw [if_neg (by rw [hlist]; decide), if_neg (by simp [EqnBox.several, hsingle])]
        refine Guarantees.pure_iff.mpr ⟨hopened, fun htext => ?_⟩
        exact absurd (hnotext (by rw [hlist]; decide)) htext
    | none =>
      refine Guarantees.bind_of_eq (a := (d, none)) rfl ?_
      dsimp only
      refine Guarantees.ite (fun hpile => ?_) fun _ => ?_
      · rw [if_pos rfl]
        have htext : (t.box bp).text = none := hnotext (by rw [hpile]; decide)
        have hdone : Guarantees allowed (pure (d, none) : Res (HtmlDoc × Option Nat)) fun r =>
            EqnOpened d r.1 r.2 ∧ ((t.box bp).text ≠ none → r.2 = none) :=
          Guarantees.pure_iff.mpr ⟨hstart, fun _ => rfl⟩
        split
        · refine Guarantees.ite (fun _ => ?_) fun _ => hdone
          exact (hopen .MTABLE rfl).mono fun r hr => ⟨hr.1, fun hne => absurd htext hne⟩
        · exact hdone
      · refine Guarantees.ite (fun hlist => ?_) fun _ =>
          Guarantees.pure_iff.mpr ⟨hstart, fun _ => rfl⟩
        have htext : (t.box bp).text = none := hnotext (by rw [hlist.1]; decide)
        refine (hopen .MTR rfl).bind fun r hres => ?_
        obtain ⟨d₁, post₁⟩ := r
        obtain ⟨hopened, addr, hr⟩ := hres
        simp only at hopened hr
        subst hr
        have hcell : Guarantees allowed (printTag env d₁ .MTD [] []) fun d₂ =>
            EqnOpened d d₂ (some addr) := by
          refine (hopened.otag h rfl attrsAllowed_nil).bind fun r hr => ?_
          obtain ⟨_, _, hr⟩ := hr
          exact Guarantees.pure_iff.mpr hr
        exact hcell.bind fun d₂ hd₂ =>
          Guarantees.pure_iff.mpr ⟨hd₂, fun hne => absurd htext hne⟩
  · -- An operator has neither a symbol above nor below, and it is not a pile or a list.
    have htype : (t.box bp).type = .SUBEXPR := hshape.pos.mp hpos
    obtain ⟨tag, htag, hisEqn⟩ :
        ∃ tag, eqnPostTag (t.box bp).pos = some tag ∧ tag.isEqn = true := by
      cases hp : (t.box bp).pos with
      | NONE => exact absurd hp hpos
      | SUP | SUBSUP | SUB | TO | FROM | FROMTO | OVER | SQRT => exact ⟨_, rfl, rfl⟩
    have hmark : eqnMarkTag (t.box bp) = none := by
      cases hm : eqnMarkTag (t.box bp) with
      | none => rfl
      | some tag =>
        have hsymbol : (t.box bp).top ≠ none ∨ (t.box bp).bottom ≠ none := by
          by_contra hnone
          simp only [not_or, not_not] at hnone
          simp [eqnMarkTag, hnone] at hm
        exact absurd ((hshape.mark hsymbol).1.symm.trans htype) (by decide)
    rw [htag, hmark]
    refine (hopen tag hisEqn).bind fun r hres => ?_
    obtain ⟨d₁, post₁⟩ := r
    obtain ⟨hopened, _⟩ := hres
    refine Guarantees.bind_of_eq (a := (d₁, post₁)) rfl ?_
    dsimp only
    rw [if_neg (by rw [htype]; decide), if_neg (by rw [htype]; simp)]
    exact Guarantees.pure_iff.mpr ⟨hopened, fun htext =>
      absurd (hnotext (by rw [htype]; decide)) htext⟩

/-- The text of a box, or the element for its children. -/
theorem htmlEqnText_opens (hw : b.WordsAllowed allowed) (h₀ : EqnContext d₀)
    (h : EqnOpened d₀ d post) (hpost : b.text ≠ none → post = none) :
    Guarantees allowed (htmlEqnText env d post b) fun r => EqnOpened d₀ r.1 r.2 := by
  -- A row is opened at most once.
  have hrow : ∀ (d : HtmlDoc) (post : Option Nat), EqnOpened d₀ d post →
      Guarantees allowed (printOtag env d .MROW [] []) fun r =>
        EqnOpened d₀ r.1 (post.or r.2) := by
    intro d post hd
    refine (hd.otag h₀ rfl attrsAllowed_nil).mono fun r hres => ?_
    obtain ⟨addr, hr, hopened⟩ := hres
    rw [hr]
    exact hopened
  unfold htmlEqnText
  split
  · rename_i w _ htext
    cases hpost (by rw [htext]; exact Option.some_ne_none _)
  · rename_i w htext
    have hword : WordAllowed allowed w := hw w (by simp [EqnBox.words, htext])
    -- A box with a text.
    refine (eqnTextTag_faults hword).bind fun tag htag => ?_
    refine (h.otag h₀ htag (eqnFontAttrs_allowed _)).bind fun r hres => ?_
    obtain ⟨d₁, post₁⟩ := r
    obtain ⟨addr, hr, hd₁⟩ := hres
    simp only at hr hd₁
    subst hr
    have hctx := hd₁.context h₀
    refine (printText_faults hword.escapes hctx.here hctx.metaf hctx.inElement).bind
      fun d₂ hd₂ => Guarantees.pure_iff.mpr ?_
    exact hd₁.keeps ⟨hd₂.1, hd₂.2⟩
  · exact Guarantees.ok_iff.mpr h
  · -- A box with fences, or a list of more than one box.
    refine Guarantees.ite (fun _ => ?_) fun _ => hrow d none h
    refine (h.otag h₀ rfl (eqnFenceAttrs_allowed hw)).bind fun r hres => ?_
    obtain ⟨d₁, post₁⟩ := r
    obtain ⟨addr, hr, hd₁⟩ := hres
    simp only at hr hd₁
    subst hr
    exact ((hrow d₁ (some addr) hd₁).bind fun r hr => Guarantees.pure_iff.mpr hr).bind
      fun d₂ hd₂ => Guarantees.pure_iff.mpr hd₂

/-! ## §6 Matrices -/

/-- A box in shape, the strings of which can be printed. -/
def EqnBox.Printable (allowed : Fault → Prop) (b : EqnBox) (n : Nat) : Prop :=
  b.InShape n ∧ b.WordsAllowed allowed

/-- The function prints trees of less than a number of boxes, and leaves the stack alone. -/
def BoxKeeps (allowed : Fault → Prop) (t : EqnTree) (kids : Nat → List Nat) (steps : Nat)
    (box : HtmlDoc → Option Nat → Res HtmlDoc) : Prop :=
  ∀ ⦃p a : Option Nat⦄ ⦃ts : List (OrderedTree Nat)⦄, Laid t.links kids p a ts →
    (OrderedTree.nodesAll ts).length < steps →
      (∀ x ∈ OrderedTree.nodesAll ts, (t.box x).Printable allowed (kids x).length) →
        ∀ ⦃d : HtmlDoc⦄, EqnContext d →
          Guarantees allowed (box d (ts.head?.map OrderedTree.root)) (EqnKeeps d)

variable {kids : Nat → List Nat} {p a : Option Nat} {ts : List (OrderedTree Nat)} {steps : Nat}
variable {box : HtmlDoc → Option Nat → Res HtmlDoc}

/-- A cell of a column, or the placeholder for it. -/
theorem htmlEqnCell_keeps {T : OrderedTree Nat} {i : Nat} (hbox : BoxKeeps allowed t kids steps box)
    (hl : Laid t.links kids p a ts) (hT : T ∈ ts)
    (hsteps : (OrderedTree.nodesAll ts).length < steps)
    (hgood : ∀ x ∈ OrderedTree.nodesAll ts, (t.box x).Printable allowed (kids x).length)
    (h : EqnContext d) :
    Guarantees allowed (htmlEqnCell env t steps box i d T.root) (EqnKeeps d) := by
  obtain ⟨hchild, -, hsub⟩ := hl.of_mem hT
  have hlen := OrderedTree.length_nodesAll_sub hT
  unfold htmlEqnCell
  rw [hchild, eqnSiblings_laid hsub
    ((OrderedTree.length_le_nodesAll T.sub).trans (hlen.trans hsteps).le), Res.ok_bind]
  refine h.element .MTD rfl attrsAllowed_nil (fun d =>
    match (T.sub.map OrderedTree.root)[i]? with
    | some child => box d (t.links child).child
    | none => .ok d) fun d₁ h₁ => ?_
  rw [List.getElem?_map]
  cases hcell : T.sub[i]? with
  | none => exact Guarantees.ok_iff.mpr h₁.refl
  | some R =>
    have hR : R ∈ T.sub := List.mem_of_getElem? hcell
    obtain ⟨hfirst, -, hcells⟩ := hsub.of_mem hR
    rw [Option.map_some]
    dsimp only
    rw [hfirst]
    refine hbox hcells (((OrderedTree.length_nodesAll_sub hR).trans hlen).trans hsteps)
      (fun x hx => hgood x ?_) h₁
    exact OrderedTree.mem_nodesAll hT (OrderedTree.mem_nodesAll hR hx)

/-- A matrix, printed row by row. -/
theorem htmlEqnMatrix_opens {x : Nat} {sub : List (OrderedTree Nat)}
    (hbox : BoxKeeps allowed t kids steps box)
    (hchild : (t.links x).child = sub.head?.map OrderedTree.root)
    (hl : Laid t.links kids (some x) none sub)
    (hsteps : (OrderedTree.nodesAll sub).length < steps)
    (hgood : ∀ x ∈ OrderedTree.nodesAll sub, (t.box x).Printable allowed (kids x).length)
    (h : EqnContext d) : Guarantees allowed (htmlEqnMatrix env t steps box d x) fun r =>
      EqnOpened d r.1 r.2 := by
  have hdone : Guarantees allowed (.ok (d, none) : Res (HtmlDoc × Option Nat)) fun r =>
      EqnOpened d r.1 r.2 := Guarantees.ok_iff.mpr h.start
  unfold htmlEqnMatrix
  rw [hchild]
  cases sub with
  | nil => exact hdone
  | cons T sub =>
    rw [List.head?_cons, Option.map_some]
    refine Guarantees.ite (fun _ => ?_) fun _ => ?_
    · -- Not a list of columns.
      refine (hbox hl hsteps hgood h).bind fun d₁ hd₁ => Guarantees.pure_iff.mpr ?_
      exact h.start.keeps hd₁
    · obtain ⟨hcolumn, -, hcolumns⟩ := hl.of_mem (List.mem_cons_self : T ∈ T :: sub)
      have hlen := (OrderedTree.length_nodesAll_sub List.mem_cons_self).trans hsteps
      have hbelow := fun y hy => hgood y (OrderedTree.mem_nodesAll List.mem_cons_self hy)
      have hsiblings := eqnSiblings_laid hcolumns
        ((OrderedTree.length_le_nodesAll T.sub).trans hlen.le)
      rw [hcolumn]
      cases hsub : T.sub with
      | nil => exact hdone
      | cons C cs =>
        rw [hsub, List.head?_cons, Option.map_some] at hsiblings
        obtain ⟨hrow, -, hrows⟩ := hcolumns.of_mem (hsub ▸ List.mem_cons_self : C ∈ T.sub)
        have hrowlen := OrderedTree.length_nodesAll_sub (hsub ▸ List.mem_cons_self : C ∈ T.sub)
        rw [List.head?_cons, Option.map_some]
        dsimp only
        rw [hrow, eqnSiblings_laid hrows
          ((OrderedTree.length_le_nodesAll C.sub).trans (hrowlen.trans hlen).le), Res.ok_bind]
        refine Guarantees.ite (fun _ => hdone) fun _ => ?_
        rw [hsiblings, Res.ok_bind]
        refine (h.start.otag h rfl attrsAllowed_nil).bind fun r hres => ?_
        obtain ⟨d₁, post₁⟩ := r
        obtain ⟨addr, hr, hd₁⟩ := hres
        simp only at hr hd₁
        subst hr
        refine (EqnContext.foldlM (fun i _ d h => ?_) (hd₁.context h)).bind fun d₂ hd₂ =>
          Guarantees.pure_iff.mpr (hd₁.keeps hd₂)
        unfold htmlEqnRow
        refine h.element .MTR rfl attrsAllowed_nil
          (List.foldlM (htmlEqnCell env t steps box i) · ((C :: cs).map OrderedTree.root))
          fun d h => ?_
        refine h.foldlM fun column hcolumn d h => ?_
        obtain ⟨S, hS, rfl⟩ := List.mem_map.mp (hcolumn : column ∈ (C :: cs).map _)
        exact htmlEqnCell_keeps hbox hcolumns (hsub ▸ hS) hlen hbelow h

/-! ## §7 Whole equations -/

/-- **Boxes are printed without failing an assertion**, and the stack of open elements is the same
    afterwards. -/
theorem htmlEqnBox_keeps : BoxKeeps allowed t kids steps (htmlEqnBox env t steps) := by
  -- By induction on the number of steps; children and siblings need fewer.
  induction steps with
  | zero => exact fun _ _ _ _ hsteps => absurd hsteps (Nat.not_lt_zero _)
  | succ steps ih =>
    intro p a ts hl hsteps hgood d h
    cases hl with
    | nil => exact Guarantees.ok_iff.mpr h.refl
    | @cons _ _ x sub ts _ _ hchild hnext _ hsub hrest =>
      rw [OrderedTree.nodesAll_cons, List.length_cons, List.length_append] at hsteps
      rw [OrderedTree.nodesAll_cons, List.forall_mem_cons, List.forall_mem_append] at hgood
      obtain ⟨⟨hshape, hwords⟩, hgoodsub, hgoodrest⟩ := hgood
      have hsublen : (OrderedTree.nodesAll sub).length < steps := by omega
      have hmark : ∀ mark : Option CStr, (∀ w, mark = some w → w ∈ (t.box x).words) →
          ∀ {d : HtmlDoc}, EqnContext d →
            Guarantees allowed (htmlEqnMark env d mark) (EqnKeeps d) :=
        fun mark hmem d hd => htmlEqnMark_keeps (fun w hw => hwords w (hmem w hw)) hd
      rw [List.head?_cons, Option.map_some, OrderedTree.root_node, htmlEqnBox]
      dsimp only
      refine Guarantees.bind (P := fun r => EqnOpened d r.1 r.2) ?_ fun r hd₁ => ?_
      · -- The box itself: a matrix, or the element for its position, its text, and its children.
        refine Guarantees.ite (fun _ => ?_) fun _ => ?_
        · exact htmlEqnMatrix_opens ih hchild hsub hsublen hgoodsub h
        · refine (htmlEqnPost_opens hshape h).bind fun r hres => ?_
          obtain ⟨d₁, post⟩ := r
          obtain ⟨hd₁, htext⟩ := hres
          refine (htmlEqnText_opens hwords h hd₁ htext).bind fun r hd₂ => ?_
          obtain ⟨d₂, post⟩ := r
          dsimp only
          rw [hchild]
          refine (ih hsub hsublen hgoodsub (hd₂.context h)).bind fun d₃ hd₃ => ?_
          exact Guarantees.pure_iff.mpr (hd₂.keeps hd₃)
      · obtain ⟨d₁, post⟩ := r
        -- The marks below and above follow, then the element is closed, and the siblings come.
        refine (hmark (t.box x).bottom (fun w hw => ?_) (hd₁.context h)).bind fun d₂ hd₂ => ?_
        · simp [EqnBox.words, hw]
        have hopen₂ := hd₁.keeps hd₂
        refine (hmark (t.box x).top (fun w hw => ?_) (hopen₂.context h)).bind fun d₃ hd₃ => ?_
        · simp [EqnBox.words, hw]
        have hclosed := (hopen₂.keeps hd₃).close
        rw [hnext]
        exact (ih hrest (by omega) hgoodrest (hclosed.context h)).mono fun d₄ => hclosed.trans

theorem EqnContext.setNonospace (h : EqnContext d) (b : Bool) : EqnKeeps d (d.setNonospace b) :=
  ⟨h.here.same ⟨rfl, rfl, rfl⟩, h.metaf⟩

/-- The parser for escape sequences fails on a string of one of the boxes. -/
def EqnTree.EscapeFails (t : EqnTree) (fault : Fault) : Prop :=
  ∃ x w i, x < t.count ∧ w ∈ (t.box x).words ∧ charAt w i = '\\' ∧ Mandoc.EscapeFails w i fault

/-- **Every equation that the parser delivers is printed**, wherever the stack of elements fits the
    visits of the nodes: the function ends, none of its assertions fails, and all elements that it
    has opened are closed again, unless parsing an escape sequence fails. -/
theorem printEqn_keeps {st : EqnParse} {n : Nat} {ep : EqnNode} {data : Option CStr}
    (hdata : ∀ c, data = some c → NUL ∉ c) (hdefs : ∀ d ∈ ep.defs, NUL ∉ d.val)
    (hparse : eqnParse n ep data = .ok st) {s : HtmlRun} (hs : s.Disciplined) :
    ∃ bound, ∀ k, bound ≤ k → Guarantees st.tree.EscapeFails (printEqn env st.tree k s.d 0)
      fun d => DocOpened s.d d [] ∧ HtmlRun.Disciplined ⟨d, s.visits⟩ := by
  obtain ⟨kids, hformed⟩ := eqnParse_forms hdata hdefs hparse
  obtain ⟨sub, hl, hnodes⟩ := hformed.exists_tree
  refine ⟨(OrderedTree.nodesAll [.node 0 sub]).length + 1, fun k hk => ?_⟩
  have hgood : ∀ x ∈ OrderedTree.nodesAll [.node 0 sub],
      (st.tree.box x).Printable st.tree.EscapeFails (kids x).length := by
    intro x hx
    have hshape := hformed.shape x (hnodes x hx)
    refine ⟨hshape, fun w hw => ⟨hshape.clean w hw, fun i fault hi hfails => ?_⟩⟩
    exact ⟨x, w, i, hformed.built.count x (hnodes x hx), hw, hi, hfails⟩
  refine Guarantees.ite (fun _ => Guarantees.ok_iff.mpr ⟨hs.here, hs⟩) fun _ => ?_
  -- The element for the equation is within a block or within a line of text.
  have hmath : Guarantees st.tree.EscapeFails (printOtag env s.d .MATH [.cls "eqn"] []) fun r =>
      ∃ addr, r.2 = some addr ∧ EqnOpened s.d r.1 (some addr) := by
    have hattrs : AttrsAllowed st.tree.EscapeFails [.cls "eqn"] := by
      intro a ha v hv
      cases List.mem_singleton.mp ha
      cases hv
      exact ⟨_, rfl, escapesAllowed_plain (by decide) (by decide)⟩
    refine (Guarantees.with_eq (printOtag_faults hattrs (fun h => by cases h)
      fun h => by cases h)).mono fun r hres => ?_
    obtain ⟨heq, _⟩ := hres
    obtain ⟨ws, addr, hd₁, hmetaf, -, ht, hws⟩ := printOtag_opens hs.here heq
    rw [hws (.inr (.inl rfl))] at hd₁
    refine ⟨addr, ht, ⟨_, hd₁, rfl, fun u hu => ?_⟩, hmetaf.trans hs.metaf⟩
    cases List.mem_singleton.mp hu
    rfl
  refine hmath.bind fun r hres => ?_
  obtain ⟨d₁, math⟩ := r
  obtain ⟨addr, hr, hd₁⟩ := hres
  simp only at hr hd₁
  subst hr
  have hflag := hd₁.within.setNonospace true
  refine (htmlEqnBox_keeps hl hk hgood (hflag.context hd₁.within)).bind fun d₂ hd₂ => ?_
  have hopen₂ := hd₁.keeps (hflag.trans hd₂)
  have hclosed := (hopen₂.keeps (hopen₂.within.setNonospace false)).close
  exact Guarantees.pure_iff.mpr ⟨hclosed.opened, hs.opened hclosed.opened hclosed.metaf⟩

/-- A matrix with two columns, in which one of the elements is a fraction. -/
def sampleMatrix : CStr := "matrix { ccol { a above b } ccol { x above 1 over y } }".toList

theorem printEqn_keeps_sample : ∃ st, eqnParse 40 {} (some sampleMatrix) = .ok st ∧
    st.tree.count = 15 ∧ ∃ bound, ∀ k, bound ≤ k → Guarantees st.tree.EscapeFails
      (printEqn sampleHtmlEnv st.tree k {} 0) fun d =>
        DocOpened {} d [] ∧ HtmlRun.Disciplined ⟨d, []⟩ := by
  have hcount : (eqnParse 40 {} (some sampleMatrix)).toOption.map (·.tree.count) = some 15 := by
    decide +kernel
  have hclean : NUL ∉ sampleMatrix := by decide +kernel
  cases hst : eqnParse 40 {} (some sampleMatrix) with
  | error e =>
    rw [hst] at hcount
    cases hcount
  | ok st =>
    rw [hst] at hcount
    have hdefs : ∀ d ∈ ({} : EqnNode).defs, NUL ∉ d.val := fun d hd => by cases hd
    exact ⟨st, rfl, Option.some.inj hcount, printEqn_keeps (s := {})
      (fun c hc => Option.some.inj hc ▸ hclean) hdefs hst HtmlRun.disciplined_initial⟩

end Mandoc
