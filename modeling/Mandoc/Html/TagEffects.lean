import Mandoc.Html.Tags

/-!
# What the Functions Do to the Stack of Elements

Whatever is written, the functions of `html.c` open elements, and they close elements from the top
of the stack on. `DocOpened` says which elements have been opened on top of the stack of an
earlier state. The text functions close all elements that they open, apart from a paragraph
around the text and from the permalink.

## Main results

- `printOtag_opens`: a start tag opens an element, maybe within a new paragraph.
- `writeText_opens`: text leaves only a paragraph open, or a permalink, unless it has lost the
  permalink.
- `printCtags_scopes`, `printCtags_metaf`, `printCtags_tblt`: closing several elements.
-/

namespace Mandoc

/-! ## §1 Functions that neither open nor close elements -/

/-- The elements are the same, and so are the pointers to them. -/
structure SameTags (d d' : HtmlDoc) : Prop where
  scopes : d'.scopes = d.scopes
  metaf : d'.metaf = d.metaf
  tblt : d'.tblt = d.tblt

theorem SameTags.refl (d : HtmlDoc) : SameTags d d := ⟨rfl, rfl, rfl⟩

theorem SameTags.trans {d d' d'' : HtmlDoc} (h : SameTags d d') (h' : SameTags d' d'') :
    SameTags d d'' :=
  ⟨h'.scopes.trans h.scopes, h'.metaf.trans h.metaf, h'.tblt.trans h.tblt⟩

theorem sameTags_setNospace (d : HtmlDoc) (b : Bool) : SameTags d (d.setNospace b) :=
  ⟨rfl, rfl, rfl⟩

theorem sameTags_spaceBeforeTag (d : HtmlDoc) (data : HtmlData) :
    SameTags d (spaceBeforeTag d data) := by
  rw [spaceBeforeTag]
  constructor <;> (dsimp only [HtmlDoc.setNospace]; repeat' split) <;> rfl

theorem spaceBeforeTag_metac (d : HtmlDoc) (data : HtmlData) :
    (spaceBeforeTag d data).metac = d.metac := by
  rw [spaceBeforeTag]
  dsimp only [HtmlDoc.setNospace]
  repeat' split
  all_goals rfl

theorem sameTags_spaceBeforeText (d : HtmlDoc) : SameTags d (spaceBeforeText d) := by
  rw [spaceBeforeText]
  split
  · split
    · exact ⟨rfl, rfl, rfl⟩
    · exact ⟨rfl, rfl, rfl⟩
  · exact SameTags.refl d

theorem sameTags_flagsAfterText (d : HtmlDoc) (nospace : Bool) :
    SameTags d (flagsAfterText d nospace) := by
  rw [flagsAfterText]
  split
  · exact ⟨rfl, rfl, rfl⟩
  · constructor <;> (dsimp only; split) <;> rfl

theorem sameTags_htmlSetfont {d d' : HtmlDoc} {font : Esc} (h : htmlSetfont d font = some d') :
    SameTags d d' := by
  unfold htmlSetfont at h
  split at h
  · cases h
    exact ⟨rfl, rfl, rfl⟩
  · cases h

theorem sameTags_makeId (d : HtmlDoc) (n : SynTree) (unique : Int) :
    SameTags d (d.makeId n unique).2 := ⟨rfl, rfl, rfl⟩

theorem sameTags_nodeIds (d : HtmlDoc) (n : SynTree) (nodeId nodeHref : Bool) :
    SameTags d (d.nodeIds n nodeId nodeHref).2.2 := by
  cases nodeId
  · cases nodeHref
    · exact SameTags.refl d
    · exact sameTags_makeId d n 2
  · cases nodeHref
    · exact sameTags_makeId d n 1
    · have hid := sameTags_makeId d n 1
      simp only [HtmlDoc.nodeIds, if_true]
      split
      · exact hid.trans (sameTags_makeId _ n 2)
      · exact hid

/-! ## §2 Closing several elements -/

theorem printCtag_scopes (d : HtmlDoc) (t : OpenTag) :
    (printCtag d t).scopes = d.scopes.close t := by
  rw [printCtag]
  split <;> rfl

theorem printCtags_scopes (d : HtmlDoc) (ts : List OpenTag) :
    (printCtags d ts).scopes = d.scopes.closeAll ts := by
  induction ts generalizing d with
  | nil => rfl
  | cons t ts ih =>
    have hstep := ih (printCtag d t)
    rw [printCtag_scopes] at hstep
    exact hstep

/-- A pointer is reset when its element is closed. -/
def resetPointer (p : Option Nat) (ts : List OpenTag) : Option Nat :=
  if ∃ t ∈ ts, t.closed = false ∧ p = some t.addr then none else p

theorem resetPointer_cons (p : Option Nat) (t : OpenTag) (ts : List OpenTag) :
    resetPointer (if t.closed then p else if p = some t.addr then none else p) ts =
      resetPointer p (t :: ts) := by
  simp only [resetPointer, List.mem_cons, exists_eq_or_imp]
  cases hclosed : t.closed
  · by_cases hp : p = some t.addr
    · simp [hp]
    · simp [hp]
  · simp

theorem printCtags_metaf (d : HtmlDoc) (ts : List OpenTag) :
    (printCtags d ts).metaf = resetPointer d.metaf ts := by
  induction ts generalizing d with
  | nil => simp [resetPointer, printCtags]
  | cons t ts ih =>
    rw [← resetPointer_cons]
    have hstep := ih (printCtag d t)
    rw [printCtags] at hstep ⊢
    rw [List.foldl_cons, hstep, printCtag]
    cases t.closed <;> rfl

theorem printCtags_tblt (d : HtmlDoc) (ts : List OpenTag) :
    (printCtags d ts).tblt = resetPointer d.tblt ts := by
  induction ts generalizing d with
  | nil => simp [resetPointer, printCtags]
  | cons t ts ih =>
    rw [← resetPointer_cons]
    have hstep := ih (printCtag d t)
    rw [printCtags] at hstep ⊢
    rw [List.foldl_cons, hstep, printCtag]
    cases t.closed <;> rfl

theorem printCtags_metac (d : HtmlDoc) (ts : List OpenTag) : (printCtags d ts).metac = d.metac := by
  induction ts generalizing d with
  | nil => rfl
  | cons t ts ih =>
    refine (ih (printCtag d t)).trans ?_
    rw [printCtag]
    split <;> rfl

/-! ## §3 Elements opened on top of the stack -/

/-- On top of the elements of the state `b`, the elements `ts` have been opened. If a font scope is
    open, it is one of them. -/
structure DocOpened (b d : HtmlDoc) (ts : List OpenTag) : Prop where
  added : OpenScopes.Added b.scopes d.scopes ts
  tblt : d.tblt = b.tblt
  /-- The table has been there before. -/
  table : ∀ a, b.tblt = some a → a < b.scopes.next
  font : ∀ a, d.metaf = some a → a ∈ OpenScopes.addrs ts

variable {b d d' : HtmlDoc} {ts us : List OpenTag}

theorem DocOpened.same (h : DocOpened b d ts) (hs : SameTags d d') : DocOpened b d' ts where
  added := hs.scopes ▸ h.added
  tblt := hs.tblt.trans h.tblt
  table := h.table
  font a ha := h.font a (hs.metaf.symm.trans ha)

/-- The innermost ones of the elements that have been opened are closed again. -/
theorem DocOpened.closeAll (h : DocOpened b d (ts ++ us)) : DocOpened b (printCtags d ts) us where
  added := by
    rw [printCtags_scopes]
    exact h.added.closeAll
  tblt := by
    rw [printCtags_tblt, h.tblt, resetPointer]
    apply if_neg
    rintro ⟨t, ht, -, ha⟩
    -- The table is not one of the new elements.
    have hle := (h.added.free t (List.mem_append_left us ht)).2.2
    exact absurd (h.table _ ha) (Nat.not_lt_of_le hle)
  table := h.table
  font a ha := by
    rw [printCtags_metaf, resetPointer] at ha
    split at ha
    · cases ha
    · rename_i hnone
      have hmem := h.font a ha
      rw [OpenScopes.addrs_append] at hmem
      rcases List.mem_append.mp hmem with htop | hrest
      · obtain ⟨t, ht, hta⟩ := OpenScopes.mem_addrs.mp htop
        have hopen := (h.added.free t (List.mem_append_left us ht)).2.1
        exact absurd ⟨t, ht, hopen, by rw [ha, hta]⟩ hnone
      · exact hrest

theorem DocOpened.tagq (h : DocOpened b d ts) {a : Nat} (ha : a ∈ OpenScopes.addrs ts) :
    ∃ us, ts = OpenScopes.throughTag ts (some a) ++ us ∧ DocOpened b (printTagq d (some a)) us := by
  obtain ⟨us, hus⟩ := OpenScopes.exists_throughTag_append ts (some a)
  refine ⟨us, hus, ?_⟩
  rw [printTagq, h.added.tags, OpenScopes.throughTag_append ha]
  exact (hus ▸ h : DocOpened b d (OpenScopes.throughTag ts (some a) ++ us)).closeAll

theorem DocOpened.trans (h : DocOpened b d ts) (h' : DocOpened d d' us) :
    DocOpened b d' (us ++ ts) where
  added := h.added.trans h'.added
  tblt := h'.tblt.trans h.tblt
  table := h.table
  font a ha := by
    rw [OpenScopes.addrs_append]
    exact List.mem_append_left _ (h'.font a ha)

/-- Nothing has been opened yet on top of the current stack. -/
theorem DocOpened.here (h : DocOpened b d ts) (hmetaf : d.metaf = none) : DocOpened d d [] where
  added := .refl h.added.sorted h.added.fresh
  tblt := rfl
  table a ha := Nat.lt_of_lt_of_le (h.table a (h.tblt.symm.trans ha)) h.added.next
  font a ha := by
    rw [hmetaf] at ha
    cases ha

/-! ## §4 Start tags -/

section

variable {env : HtmlEnv} {tag : HtmlTag} {attrs : List Attr} {styles : List Style}
variable {t : Option Nat}

/-- What is put onto the stack for an element. -/
def elementTags (tag : HtmlTag) (addr : Nat) : List OpenTag :=
  if (htmltags tag).nostack then [] else [{ addr, tag }]

/-- The main part of `print_otag()` puts the element onto the stack. -/
theorem openTag_eq_ok (h : openTag env d tag attrs styles = .ok (d', t)) :
    d'.scopes = (if (htmltags tag).nostack then d.scopes.mark tag else d.scopes.push tag) ∧
      d'.metaf = d.metaf ∧ d'.tblt = d.tblt ∧
      t = if (htmltags tag).nostack then none else some d.scopes.next := by
  unfold openTag at h
  simp only [Res.bind_eq_ok] at h
  obtain ⟨h₁, -, h⟩ := h
  have hs := sameTags_spaceBeforeTag
    { d with scopes := if (htmltags tag).nostack then d.scopes.mark tag else d.scopes.push tag }
    (htmltags tag)
  cases h
  refine ⟨?_, ?_, ?_, rfl⟩
  · refine Eq.trans ?_ hs.scopes
    split <;> split <;> split <;> rfl
  · refine Eq.trans ?_ hs.metaf
    split <;> split <;> split <;> rfl
  · refine Eq.trans ?_ hs.tblt
    split <;> split <;> split <;> rfl

/-- The main part of `print_otag()` opens the element. -/
theorem DocOpened.openTag (hd : DocOpened b d ts)
    (h : openTag env d tag attrs styles = .ok (d', t)) :
    DocOpened b d' (elementTags tag d.scopes.next ++ ts) := by
  obtain ⟨hscopes, hmetaf, htblt, -⟩ := openTag_eq_ok h
  constructor
  · rw [hscopes, elementTags]
    split
    · exact hd.added.mark tag
    · exact hd.added.push tag
  · exact htblt.trans hd.tblt
  · exact hd.table
  · intro a ha
    rw [OpenScopes.addrs_append]
    exact List.mem_append_right _ (hd.font a (hmetaf.symm.trans ha))

/-- A start tag does not change the font. -/
theorem openTag_metac (h : openTag env d tag attrs styles = .ok (d', t)) : d'.metac = d.metac := by
  unfold openTag at h
  simp only [Res.bind_eq_ok] at h
  obtain ⟨h₁, -, h⟩ := h
  have hs := spaceBeforeTag_metac
    { d with scopes := if (htmltags tag).nostack then d.scopes.mark tag else d.scopes.push tag }
    (htmltags tag)
  cases h
  refine Eq.trans ?_ hs
  split <;> split <;> split <;> rfl

theorem printFlowTag_eq_ok (h : printFlowTag env d tag attrs styles = .ok (d', t)) :
    openTag env d tag attrs styles = .ok (d', t) := by
  rw [printFlowTag] at h
  split at h
  · exact h
  · cases h

/-- The innermost element is a section. -/
def HtmlDoc.InSection (d : HtmlDoc) : Prop := ∃ t rest, d.scopes.tags = t :: rest ∧ t.tag = .SECTION

/-- If need be, a paragraph is opened. Within it, no other one is. -/
theorem wrapInParagraph_opens (hd : DocOpened b d ts) (h : wrapInParagraph env d = .ok d') :
    ∃ ws, DocOpened b d' (ws ++ ts) ∧ ¬ d'.InSection ∧ d'.metaf = d.metaf ∧
      d'.metac = d.metac ∧ (¬ d.InSection → d' = d ∧ ws = []) := by
  rw [wrapInParagraph] at h
  split at h
  · cases h
  · rename_i u rest htags
    split at h
    · rename_i hsection
      simp only [Res.bind_eq_ok] at h
      obtain ⟨⟨d₁, t₁⟩, hflow, hd₁⟩ := h
      cases hd₁
      have hopen := printFlowTag_eq_ok hflow
      obtain ⟨hscopes, hmetaf, -, -⟩ := openTag_eq_ok hopen
      refine ⟨_, hd.openTag hopen, ?_, hmetaf, openTag_metac hopen,
        fun hno => absurd ⟨u, rest, htags, hsection⟩ hno⟩
      rintro ⟨u', rest', htags', hsection'⟩
      rw [hscopes] at htags'
      cases htags'
      cases hsection'
    · rename_i hother
      cases h
      refine ⟨[], hd, ?_, rfl, rfl, fun _ => ⟨rfl, rfl⟩⟩
      rintro ⟨u', rest', htags', hsection'⟩
      rw [htags] at htags'
      cases htags'
      exact hother hsection'

/-- **A start tag opens the element, maybe within a new paragraph.** -/
theorem printOtag_opens (hd : DocOpened b d ts)
    (h : printOtag env d tag attrs styles = .ok (d', t)) :
    ∃ ws addr, DocOpened b d' (elementTags tag addr ++ (ws ++ ts)) ∧ d'.metaf = d.metaf ∧
      d'.metac = d.metac ∧ (t = if (htmltags tag).nostack then none else some addr) ∧
      ((htmltags tag).inphrase = false ∨ (htmltags tag).tophrase = false ∨ ¬ d.InSection →
        ws = []) := by
  rw [printOtag] at h
  split at h
  · have hopen := printFlowTag_eq_ok h
    obtain ⟨-, hmetaf, -, ht⟩ := openTag_eq_ok hopen
    exact ⟨[], _, hd.openTag hopen, hmetaf, openTag_metac hopen, ht, fun _ => rfl⟩
  · rename_i hphrase
    simp only [Res.bind_eq_ok] at h
    obtain ⟨d₁, hwrap, hopen⟩ := h
    obtain ⟨-, hmetaf, -, ht⟩ := openTag_eq_ok hopen
    split at hwrap
    · rename_i htophrase
      obtain ⟨ws, hd₁, -, hmetaf₁, hmetac₁, hno⟩ := wrapInParagraph_opens hd hwrap
      refine ⟨ws, _, hd₁.openTag hopen, hmetaf.trans hmetaf₁, (openTag_metac hopen).trans hmetac₁, ht, ?_⟩
      rintro (hflow | htop | hsection)
      · exact absurd hflow hphrase
      · rw [htop] at htophrase
        cases htophrase
      · exact (hno hsection).2
    · cases hwrap
      exact ⟨[], _, hd.openTag hopen, hmetaf, openTag_metac hopen, ht, fun _ => rfl⟩

theorem printTag_opens (hd : DocOpened b d ts) (h : printTag env d tag attrs styles = .ok d') :
    ∃ ws addr, DocOpened b d' (elementTags tag addr ++ (ws ++ ts)) ∧ d'.metaf = d.metaf ∧
      d'.metac = d.metac ∧
      ((htmltags tag).inphrase = false ∨ (htmltags tag).tophrase = false ∨ ¬ d.InSection →
        ws = []) := by
  rw [printTag, Res.bind_eq_ok] at h
  obtain ⟨⟨d₁, t₁⟩, hotag, hd₁⟩ := h
  cases hd₁
  obtain ⟨ws, addr, hopen, hmetaf, hmetac, -, hws⟩ := printOtag_opens hd hotag
  exact ⟨ws, addr, hopen, hmetaf, hmetac, hws⟩

/-- An element with an identifier may come with a permalink. -/
theorem printOtagId_opens {cattr : Option String} {n : SynTree} {nodeId nodeHref : Bool}
    (hd : DocOpened b d ts) (h : printOtagId env d tag cattr n nodeId nodeHref = .ok (d', t)) :
    ∃ us, DocOpened b d' (us ++ ts) ∧ d'.metaf = d.metaf := by
  have hone : ∀ {d d' : HtmlDoc} {ts tag attrs}, DocOpened b d ts →
      printTag env d tag attrs [] = .ok d' → ∃ us, DocOpened b d' (us ++ ts) ∧ d'.metaf = d.metaf := by
    intro d d' ts tag attrs hd h
    obtain ⟨ws, addr, hd', hmetaf, -, -⟩ := printTag_opens hd h
    exact ⟨elementTags tag addr ++ ws, by rwa [List.append_assoc], hmetaf⟩
  have hone' : ∀ {d d' : HtmlDoc} {ts tag attrs t}, DocOpened b d ts →
      printOtag env d tag attrs [] = .ok (d', t) →
        ∃ us, DocOpened b d' (us ++ ts) ∧ d'.metaf = d.metaf := by
    intro d d' ts tag attrs t hd h
    exact hone hd (by rw [printTag, h]; rfl)
  -- The attributes that are computed first do not open tags.
  have hsame := sameTags_nodeIds d n nodeId nodeHref
  simp only [printOtagId] at h
  generalize d.nodeIds n nodeId nodeHref = ids at h hsame
  obtain ⟨id, href, d₁⟩ := ids
  have hd₁ := hd.same hsame
  cases href with
  | none =>
    obtain ⟨us, hd', hmetaf⟩ := hone' hd₁ h
    exact ⟨us, hd', hmetaf.trans hsame.metaf⟩
  | some href =>
    simp only at h
    split at h
    · -- The link is printed around the element that follows it.
      simp only [Res.bind_eq_ok] at h
      obtain ⟨⟨d₂, ret⟩, hlink, d₃, helem, h⟩ := h
      cases h
      obtain ⟨us, hd₂, hmetaf₂⟩ := hone' hd₁ hlink
      obtain ⟨vs, hd₃, hmetaf₃⟩ := hone hd₂ helem
      exact ⟨vs ++ us, by rwa [List.append_assoc], hmetaf₃.trans (hmetaf₂.trans hsame.metaf)⟩
    · -- The element is printed first, and the link may go inside.
      simp only [Res.bind_eq_ok] at h
      obtain ⟨⟨d₂, ret⟩, helem, h⟩ := h
      obtain ⟨us, hd₂, hmetaf₂⟩ := hone' hd₁ helem
      split at h
      · cases h
        exact ⟨us, hd₂, hmetaf₂.trans hsame.metaf⟩
      · split at h
        · simp only [Res.bind_eq_ok] at h
          obtain ⟨d₃, hlink, h⟩ := h
          cases h
          obtain ⟨vs, hd₃, hmetaf₃⟩ := hone hd₂ hlink
          exact ⟨vs ++ us, by rwa [List.append_assoc], hmetaf₃.trans (hmetaf₂.trans hsame.metaf)⟩
        · cases h
          exact ⟨us, hd₂, hmetaf₂.trans hsame.metaf⟩

/-! ## §5 Fonts -/

/-- Since the state `b`, the elements of the current font have been opened, if there are any. -/
def FontScope (b d : HtmlDoc) : Prop :=
  ∃ ts, DocOpened b d ts ∧ ts.getLast?.map OpenScopes.Scope.addr = d.metaf

theorem FontScope.same (h : FontScope b d) (hs : SameTags d d') : FontScope b d' := by
  obtain ⟨ts, hopen, hlast⟩ := h
  exact ⟨ts, hopen.same hs, hlast.trans hs.metaf.symm⟩

/-- Closing the current font scope closes all that has been opened. -/
theorem FontScope.closeFont (h : FontScope b d) :
    DocOpened b (closeFont d) [] ∧ (closeFont d).metaf = none ∧ (closeFont d).metac = d.metac := by
  obtain ⟨ts, hopen, hlast⟩ := h
  rw [Mandoc.closeFont]
  split
  · rename_i hnone
    rw [hnone, Option.map_eq_none_iff, List.getLast?_eq_none_iff] at hlast
    exact ⟨hlast ▸ hopen, hnone, rfl⟩
  · rename_i metaf hsome
    rw [hsome] at hlast
    have hsorted : OpenScopes.Sorted ts := by
      have hall := hopen.added.sorted
      rw [hopen.added.tags] at hall
      exact (List.pairwise_append.mp hall).1
    obtain ⟨us, hus, hclosed⟩ := hopen.tagq (hopen.font metaf hsome)
    rw [OpenScopes.throughTag_getLast hsorted hlast] at hus
    rw [List.self_eq_append_right.mp hus] at hclosed
    refine ⟨⟨hclosed.added, hclosed.tblt, hclosed.table, fun a ha => ?_⟩, rfl, ?_⟩
    · cases ha
    · exact printCtags_metac d _

/-- The elements for fonts have end tags, and none of them is a section. -/
theorem mem_fontTags {font : Esc} {e : HtmlTag × List Attr} (h : e ∈ fontTags font) :
    (htmltags e.1).nostack = false ∧ e.1 ≠ .SECTION := by
  cases font <;> simp only [fontTags, List.mem_cons, List.not_mem_nil, or_false] at h
  case FONTBOLD | FONTITALIC | FONTCR =>
    rw [h]
    exact ⟨rfl, by decide⟩
  case FONTBI | FONTCB | FONTCI =>
    rcases h with rfl | rfl
    · exact ⟨rfl, by decide⟩
    · exact ⟨rfl, by decide⟩

theorem DocOpened.notInSection {u : OpenTag} (h : DocOpened b d (u :: ts)) (hu : u.tag ≠ .SECTION) :
    ¬ d.InSection := by
  rintro ⟨t, rest, htags, hsection⟩
  rw [h.added.tags] at htags
  cases htags
  exact hu hsection

/-- The inner elements of a font are opened within the outer one. -/
theorem fontInner_opens {inner : List (HtmlTag × List Attr)} {l : List OpenTag} {u : OpenTag}
    (hinner : ∀ e ∈ inner, (htmltags e.1).nostack = false ∧ e.1 ≠ .SECTION)
    (hd : DocOpened b d (l ++ [u])) (hmetaf : d.metaf = some u.addr) (hno : ¬ d.InSection)
    (h : inner.foldlM (fun d t => printTag env d t.1 t.2 []) d = .ok d') : FontScope b d' := by
  induction inner generalizing d l with
  | nil =>
    cases h
    exact ⟨l ++ [u], hd, by rw [List.getLast?_concat, hmetaf]; rfl⟩
  | cons e inner ih =>
    rw [List.foldlM_cons, Res.bind_eq_ok] at h
    obtain ⟨d₁, htag, h⟩ := h
    obtain ⟨hstack, hsection⟩ := hinner e List.mem_cons_self
    obtain ⟨ws, addr, hd₁, hmetaf₁, -, hws⟩ := printTag_opens hd htag
    rw [elementTags, if_neg (by rw [hstack]; decide), hws (.inr (.inr hno))] at hd₁
    exact ih (fun e he => hinner e (List.mem_cons_of_mem _ he)) (l := _ :: l) hd₁
      (hmetaf₁.trans hmetaf) (hd₁.notInSection hsection) h

/-- Switching the font closes the elements of the old one, and opens those of the new one. -/
theorem FontScope.printMetaf (h : FontScope b d) (hno : ¬ b.InSection)
    (hm : printMetaf env d = .ok d') : FontScope b d' := by
  obtain ⟨hclosed, hnone, -⟩ := h.closeFont
  have hno₁ : ¬ (Mandoc.closeFont d).InSection := by
    rintro ⟨t, rest, htags, hsection⟩
    rw [hclosed.added.tags] at htags
    exact hno ⟨t, rest, htags, hsection⟩
  rw [Mandoc.printMetaf] at hm
  split at hm
  · cases hm
    exact ⟨[], hclosed, hnone.symm⟩
  · rename_i tag attrs inner hfont
    have hall : ∀ e ∈ (tag, attrs) :: inner, (htmltags e.1).nostack = false ∧ e.1 ≠ .SECTION :=
      fun e he => mem_fontTags (hfont ▸ he)
    obtain ⟨hstack, hsection⟩ := hall _ List.mem_cons_self
    rw [Res.bind_eq_ok] at hm
    obtain ⟨⟨d₁, metaf⟩, hotag, hm⟩ := hm
    obtain ⟨ws, addr, hd₁, -, -, ht, hws⟩ := printOtag_opens hclosed hotag
    rw [elementTags, if_neg (by rw [hstack]; decide), hws (.inr (.inr hno₁))] at hd₁
    rw [if_neg (by rw [hstack]; decide)] at ht
    have hd₂ : DocOpened b { d₁ with metaf := metaf } [⟨addr, tag, 0, false⟩] := by
      refine ⟨hd₁.added, hd₁.tblt, hd₁.table, fun a ha => ?_⟩
      cases ht.symm.trans ha
      exact List.mem_singleton.mpr rfl
    exact fontInner_opens (l := []) (fun e he => hall e (List.mem_cons_of_mem _ he)) hd₂ ht
      (hd₂.notInSection hsection) hm

/-! ## §6 Text -/

variable {buf : CStr} {pend : Nat} {st st' : TextState}

theorem FontScope.doc (h : FontScope b st.d) : FontScope b st.doc := h.same ⟨rfl, rfl, rfl⟩

/-- An escape sequence can only switch the font. -/
theorem FontScope.textEscape {r : EscResult} (h : FontScope b st.d) (hno : ¬ b.InSection)
    (he : textEscape env buf st r = .ok st') : FontScope b st'.d := by
  rw [Mandoc.textEscape] at he
  split at he
  · simp only [Res.bind_eq_ok] at he
    obtain ⟨d₁, hfont, hst⟩ := he
    cases hst
    have hstart : FontScope b ((TextState.mk st.d { st.e with p := r.rend }).doc.setNospace true) :=
      h.same ⟨rfl, rfl, rfl⟩
    have hend : FontScope b d₁ := by
      split at hfont
      · rename_i d₂ hset
        exact (hstart.same (sameTags_htmlSetfont hset)).printMetaf hno hfont
      · cases hfont
        exact hstart
    exact hend.same (sameTags_setNospace d₁ false)
  · simp only [Res.bind_eq_ok] at he
    obtain ⟨e, -, hst⟩ := he
    cases hst
    exact h

/-- Every iteration of the main loop keeps the elements of the font together. -/
theorem FontScope.textStep (h : FontScope b st.d) (hno : ¬ b.InSection) :
    Ensures (textStep env buf pend st)
      (Loop.Next.Sat (fun st => FontScope b st.d) fun res => FontScope b res.1) := by
  have hspecial : ∀ st : TextState, FontScope b st.d → Ensures (textSpecial env buf pend st)
      (Loop.Next.Sat (fun st => FontScope b st.d) fun res => FontScope b res.1) := by
    intro st h
    apply Ensures.of_imp
    intro res hres
    rw [textSpecial] at hres
    split at hres
    · -- A line break does not stay open.
      simp only [Res.bind_eq_ok] at hres
      obtain ⟨d₁, hbr, hres⟩ := hres
      cases hres
      obtain ⟨ts, hopen, hlast⟩ := h.doc
      obtain ⟨ws, addr, hd₁, hmetaf, -, hws⟩ := printTag_opens hopen hbr
      rw [hws (.inr (.inl rfl))] at hd₁
      exact ⟨ts, hd₁, hlast.trans hmetaf.symm⟩
    · split at hres
      · cases hres
        exact h.doc
      · simp only [Res.bind_eq_ok] at hres
        obtain ⟨c, -, hres⟩ := hres
        split at hres
        · cases hres
          exact h
        · split at hres
          · cases hres
            exact h
          · simp only [Res.bind_eq_ok] at hres
            obtain ⟨r, -, st', hesc, hres⟩ := hres
            cases hres
            exact h.textEscape hno hesc
  apply Ensures.of_imp
  intro res hres
  rw [Mandoc.textStep] at hres
  split at hres
  · cases hres
    exact h.doc
  · simp only [Res.bind_eq_ok] at hres
    obtain ⟨c, -, hres⟩ := hres
    split at hres
    · cases hres
      exact h
    · exact (hspecial ⟨st.d, encodeRun buf pend st.e⟩ h).of_eq_ok hres

theorem FontScope.printEncodeText {word : CStr} {nospace : Bool} (h : FontScope b d)
    (hno : ¬ b.InSection) (he : printEncodeText env d word = .ok (d', nospace)) : FontScope b d' :=
  (Loop.run_invariant (fun _ hst => FontScope.textStep hst hno) h).of_eq_ok he

/-- At the end of text, all that has been opened since the permalink is closed. -/
theorem FontScope.closeText (h : FontScope b d) : DocOpened b (closeText d none) [] ∧
    (Mandoc.closeText d none).metaf = none := by
  obtain ⟨hclosed, hnone, -⟩ := h.closeFont
  unfold Mandoc.closeText
  split
  · exact ⟨hclosed, hnone⟩
  · rename_i heq
    cases heq
  · rename_i hmetaf _
    rw [Mandoc.closeFont, hmetaf] at hclosed
    exact ⟨hclosed, hmetaf⟩

theorem FontScope.opened_of_none (h : FontScope b d) (hnone : d.metaf = none) :
    DocOpened b d [] := by
  obtain ⟨ts, hopen, hlast⟩ := h
  rw [hnone, Option.map_eq_none_iff, List.getLast?_eq_none_iff] at hlast
  exact hlast ▸ hopen

/-- A permalink that is not within a font scope is found. It is closed unless a font scope is
    closed instead. -/
theorem FontScope.closePermalink {c : HtmlDoc} {addr : Nat} (h : FontScope c d)
    (hlink : DocOpened b c [⟨addr, .A, 0, false⟩]) :
    ¬ LinkLost d (some addr) ∧ ∃ us, DocOpened b (Mandoc.closeText d (some addr)) us ∧
      (Mandoc.closeText d (some addr)).metaf = none := by
  obtain ⟨hclosed, hnone, -⟩ := h.closeFont
  constructor
  · rintro ⟨hmetaf, a, ha, hlost⟩
    cases ha
    rw [(h.opened_of_none hmetaf).added.tags, hlink.added.tags] at hlost
    exact hlost List.mem_cons_self
  · unfold Mandoc.closeText
    split
    · exact ⟨_, hlink.trans hclosed, hnone⟩
    · rename_i t hmetaf heq
      cases heq
      rw [Mandoc.closeFont, hmetaf] at hclosed
      obtain ⟨us, -, hd⟩ := (hlink.trans hclosed).tagq (List.mem_singleton.mpr rfl)
      refine ⟨us, hd, ?_⟩
      rw [printTagq, printCtags_metaf, hmetaf, resetPointer]
      split <;> rfl
    · rename_i heq
      cases heq

/-- A permalink within a font scope is closed together with that scope, either at the end of the
    text, or before: then it is lost. -/
theorem FontScope.closeWithin {addr : Nat} (h : FontScope b d) (hnew : b.scopes.next ≤ addr)
    (hfresh : ∀ t ∈ b.scopes.tags, t.addr < b.scopes.next) :
    if LinkLost d (some addr) then DocOpened b d []
    else DocOpened b (Mandoc.closeText d (some addr)) [] ∧
      (Mandoc.closeText d (some addr)).metaf = none := by
  cases hmetaf : d.metaf with
  | none =>
    have hopen := h.opened_of_none hmetaf
    have hlost : LinkLost d (some addr) := by
      refine ⟨hmetaf, addr, rfl, fun hmem => ?_⟩
      rw [hopen.added.tags] at hmem
      obtain ⟨t, ht, hta⟩ := OpenScopes.mem_addrs.mp hmem
      exact absurd (hfresh t ht) (hta ▸ Nat.not_lt_of_le hnew)
    rw [if_pos hlost]
    exact hopen
  | some metaf =>
    have hfound : ¬ LinkLost d (some addr) := by
      rintro ⟨hnone, -⟩
      rw [hmetaf] at hnone
      cases hnone
    obtain ⟨hclosed, hnone, -⟩ := h.closeFont
    rw [if_neg hfound]
    simp only [Mandoc.closeText, hmetaf]
    exact ⟨hclosed, hnone⟩

/-- A permalink is only opened for a node. -/
theorem openPermalink_cases {n : Option SynTree} (h : openPermalink env d n = .ok (d', t)) :
    (t = none ∧ SameTags d d') ∨ ∃ d₁ href, n ≠ none ∧ SameTags d d₁ ∧
      printOtag env d₁ .A (permalink href) [] = .ok (d', t) := by
  cases n with
  | none =>
    cases h
    exact .inl ⟨rfl, SameTags.refl d⟩
  | some n =>
    have hsame := sameTags_makeId d n 2
    simp only [openPermalink] at h
    generalize d.makeId n 2 = made at h hsame
    obtain ⟨href, d₁⟩ := made
    cases href with
    | none =>
      cases h
      exact .inl ⟨rfl, hsame⟩
    | some href => exact .inr ⟨d₁, href, Option.some_ne_none n, hsame, h⟩

/-- Without a node, there is no permalink. -/
theorem writeText_none {word : CStr} (h : writeText env d word none = .ok (d', t)) : t = none := by
  rw [writeText] at h
  simp only [Res.bind_eq_ok] at h
  obtain ⟨d₁, -, h⟩ := h
  split at h
  · simp only [Res.bind_eq_ok] at h
    obtain ⟨d₂, -, ⟨d₃, t⟩, hlink, res, -, h⟩ := h
    cases hlink
    cases h
    rfl
  · cases h

/-- **What text leaves open**: a paragraph around the text, or the permalink, unless that is lost.
    In that case, nothing else is open when everything is going to be closed. -/
theorem writeText_opens {word : CStr} {n : Option SynTree} (hd : DocOpened b d ts)
    (h : writeText env d word n = .ok (d', t)) :
    ∃ ws, (n = none → ¬ d.InSection → ws = []) ∧
      if LinkLost d' t then DocOpened b d' (ws ++ ts)
      else DocOpened b (closeText d' t) (ws ++ ts) ∧ (closeText d' t).metaf = none := by
  rw [writeText] at h
  simp only [Res.bind_eq_ok] at h
  obtain ⟨d₁, hwrap, h⟩ := h
  obtain ⟨ws, hd₁, hno, hmetaf₁, hmetac₁, hws⟩ := wrapInParagraph_opens hd hwrap
  have hspace := sameTags_spaceBeforeText d₁
  have hd₂ := hd₁.same hspace
  have hno₂ : ¬ (spaceBeforeText d₁).InSection := by
    rintro ⟨t, rest, htags, hsection⟩
    rw [hspace.scopes] at htags
    exact hno ⟨t, rest, htags, hsection⟩
  split at h
  case isFalse => cases h
  rename_i hnone
  simp only [Res.bind_eq_ok] at h
  obtain ⟨d₃, hmetaf, ⟨d₄, t⟩, hlink, ⟨d₅, nospace⟩, htext, h⟩ := h
  cases h
  have hhere := hd₂.here hnone
  have hfont : FontScope (spaceBeforeText d₁) { d₃ with h := printIndent d₃.h } :=
    (FontScope.printMetaf ⟨[], hhere, hnone.symm⟩ hno₂ hmetaf).same ⟨rfl, rfl, rfl⟩
  rcases openPermalink_cases hlink with ⟨rfl, hsame⟩ | ⟨d₆, href, hn, hsame, hotag⟩
  · -- Without a permalink, everything but the paragraph is closed.
    have hfont₅ := ((hfont.same hsame).printEncodeText hno₂ htext).same
      (sameTags_flagsAfterText d₅ nospace)
    refine ⟨ws, fun _ hsec => (hws hsec).2, ?_⟩
    rw [if_neg (by rintro ⟨-, a, ha, -⟩; cases ha)]
    exact ⟨hd₂.trans hfont₅.closeText.1, hfont₅.closeText.2⟩
  · obtain ⟨fs, hd₆, hlast⟩ := hfont.same hsame
    obtain ⟨ws', addr, hd₄, hmetaf₄, -, ht, hws'⟩ := printOtag_opens hd₆ hotag
    have ht' : t = some addr := ht
    rw [ht']
    cases fs with
    | nil =>
      -- No font scope is open outside of the permalink.
      have hno₆ : ¬ d₆.InSection := by
        rintro ⟨u, rest, htags, hsection⟩
        rw [hd₆.added.tags] at htags
        exact hno₂ ⟨u, rest, htags, hsection⟩
      rw [hws' (.inr (.inr hno₆))] at hd₄
      have hlink₄ : DocOpened (spaceBeforeText d₁) d₄ [⟨addr, .A, 0, false⟩] := hd₄
      have hnone₄ : d₄.metaf = none := hmetaf₄.trans hlast.symm
      have hfont₄ : FontScope d₄ d₄ := ⟨[], hlink₄.here hnone₄, hnone₄.symm⟩
      have hfont₅ := (hfont₄.printEncodeText (hlink₄.notInSection HtmlTag.noConfusion) htext).same
        (sameTags_flagsAfterText d₅ nospace)
      obtain ⟨hfound, us, hus, hm⟩ := hfont₅.closePermalink hlink₄
      refine ⟨us ++ ws, fun hnone => absurd hnone hn, ?_⟩
      rw [if_neg hfound, List.append_assoc]
      exact ⟨hd₂.trans hus, hm⟩
    | cons f fs =>
      -- The permalink belongs to the font scope around it.
      have hfont₄ : FontScope (spaceBeforeText d₁) d₄ := by
        refine ⟨_, hd₄, ?_⟩
        rw [hmetaf₄, ← hlast, ← List.append_assoc, List.getLast?_append_cons]
      have hfont₅ := (hfont₄.printEncodeText hno₂ htext).same (sameTags_flagsAfterText d₅ nospace)
      have hnew := (hd₄.added.free ⟨addr, .A, 0, false⟩ List.mem_cons_self).2.2
      have hend := hfont₅.closeWithin hnew hhere.added.fresh
      refine ⟨ws, fun hnone => absurd hnone hn, ?_⟩
      split at hend
      · rename_i hlost
        rw [if_pos hlost]
        exact hd₂.trans hend
      · rename_i hfound
        rw [if_neg hfound]
        exact ⟨hd₂.trans hend.1, hend.2⟩

/-- Text without a permalink leaves only a paragraph open. -/
theorem printText_opens {word : CStr} (hd : DocOpened b d ts)
    (h : printText env d word = .ok d') :
    ∃ ws, DocOpened b d' (ws ++ ts) ∧ d'.metaf = none ∧ (¬ d.InSection → ws = []) := by
  rw [printText, printTaggedText] at h
  simp only [Res.bind_eq_ok] at h
  obtain ⟨⟨d₁, t⟩, htext, h⟩ := h
  cases h
  obtain ⟨ws, hws, hopen⟩ := writeText_opens hd htext
  cases writeText_none htext
  rw [if_neg (by rintro ⟨-, a, ha, -⟩; cases ha)] at hopen
  exact ⟨ws, hopen.1.same ⟨rfl, rfl, rfl⟩, hopen.2, hws rfl⟩

end

end Mandoc
