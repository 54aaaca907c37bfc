import Mandoc.Html.TagEffects

/-!
# Text is Always Printed

Within an element other than a section, the functions of `html.c` that print start tags and text
can fail for one reason only: the parser for escape sequences fails on an escape sequence of the
text or of an attribute. In particular, no assertion fails, and no start tag has to be wrapped.

## Main results

- `printOtag_faults`: start tags.
- `printText_faults`: text, where escape sequences open and close elements for fonts.
-/

namespace Mandoc

variable {allowed : Fault → Prop} {env : HtmlEnv} {b d d' : HtmlDoc} {tag : HtmlTag}
variable {attrs : List Attr} {styles : List Style} {word : CStr} {ts : List OpenTag}

/-! ## §1 Start tags -/

/-- The parser fails in an allowed way only on the escape sequences of a string. -/
def EscapesAllowed (allowed : Fault → Prop) (word : CStr) : Prop :=
  NUL ∉ word ∧ ∀ j, charAt word j = '\\' → Guarantees allowed (mandocEscape word j) fun _ => True

/-- The attributes with a value have a string that can be printed. -/
def AttrsAllowed (allowed : Fault → Prop) (attrs : List Attr) : Prop :=
  ∀ a ∈ attrs, ∀ v, a.value = some v → ∃ s, v = .text s ∧ EscapesAllowed allowed s

theorem escapesAllowed_plain (hnul : NUL ∉ word) (hplain : '\\' ∉ word) :
    EscapesAllowed allowed word := by
  refine ⟨hnul, fun j hj => absurd ?_ hplain⟩
  have hlt : j < word.length := lt_length_of_charAt_ne_nul (by rw [hj]; decide)
  rw [← hj, charAt_eq_getElem hlt]
  exact List.getElem_mem hlt

theorem printAttrs_faults (hattrs : AttrsAllowed allowed attrs) (out : Html) :
    Guarantees allowed (printAttrs env out attrs) fun _ => True := by
  induction attrs generalizing out with
  | nil => exact Guarantees.ok_iff.mpr trivial
  | cons a attrs ih =>
    have hone : Guarantees allowed (printAttr env out a) fun _ => True := by
      unfold printAttr
      split
      · exact Guarantees.ok_iff.mpr trivial
      · rename_i value hvalue
        obtain ⟨s, rfl, hnul, hesc⟩ := hattrs a List.mem_cons_self value hvalue
        have hencode : ∀ out : Html,
            Guarantees allowed (printEncode env.spec2cp out s) fun _ => True := fun out =>
          (printEncodeTo_guarantees_iff env.spec2cp hnul le_rfl out 0).mpr
            fun j _ _ hj => hesc j hj
        refine Guarantees.bind (P := fun _ => True) ?_ fun _ _ => Guarantees.pure_iff.mpr trivial
        exact (hencode _).bind fun _ _ => Guarantees.pure_iff.mpr trivial
    exact hone.bind fun out _ => ih (fun a ha => hattrs a (List.mem_cons_of_mem _ ha)) out

theorem openTag_faults (hattrs : AttrsAllowed allowed attrs) :
    Guarantees allowed (openTag env d tag attrs styles) fun _ => True := by
  unfold openTag
  exact (printAttrs_faults hattrs _).bind fun _ _ => Guarantees.pure_iff.mpr trivial

/-- The innermost element is not a section. -/
def HtmlDoc.InElement (d : HtmlDoc) : Prop :=
  ∃ t rest, d.scopes.tags = t :: rest ∧ t.tag ≠ .SECTION

theorem HtmlDoc.InElement.not_inSection (h : d.InElement) : ¬ d.InSection := by
  obtain ⟨t, rest, htags, hne⟩ := h
  rintro ⟨t', rest', htags', hsection⟩
  cases htags.symm.trans htags'
  exact hne hsection

/-- **A start tag is printed**, unless it is that of flow content within phrasing content, or an
    escape sequence in an attribute is to blame. -/
theorem printOtag_faults (hattrs : AttrsAllowed allowed attrs)
    (hflow : (htmltags tag).inphrase = false → flowAllowed d.scopes.tags = true)
    (hphrase : (htmltags tag).tophrase = true → d.InElement) :
    Guarantees allowed (printOtag env d tag attrs styles) fun _ => True := by
  refine Guarantees.ite (fun hnot => ?_) fun _ => ?_
  · exact Guarantees.ite (fun _ => openTag_faults hattrs) fun hno => absurd (hflow hnot) hno
  · refine Guarantees.bind (P := fun _ => True) ?_ fun _ _ => openTag_faults hattrs
    refine Guarantees.ite (fun htop => ?_) fun _ => Guarantees.ok_iff.mpr trivial
    obtain ⟨t, rest, htags, hne⟩ := hphrase htop
    unfold wrapInParagraph
    rw [htags]
    simp only [if_neg hne]
    exact Guarantees.ok_iff.mpr trivial

/-! ## §2 Fonts -/

/-- The attributes of the elements for fonts can be printed. -/
theorem fontTags_allowed {font : Esc} {e : HtmlTag × List Attr} (he : e ∈ fontTags font) :
    AttrsAllowed allowed e.2 := by
  have hcls : AttrsAllowed allowed [.cls "Li"] := by
    intro a ha v hv
    cases List.mem_singleton.mp ha
    cases hv
    exact ⟨_, rfl, escapesAllowed_plain (by decide) (by decide)⟩
  have hnil : AttrsAllowed allowed [] := fun a ha => by cases ha
  cases font <;> simp only [fontTags, List.mem_cons, List.not_mem_nil, or_false] at he
  case FONTBOLD | FONTITALIC => exact he ▸ hnil
  case FONTCR => exact he ▸ hcls
  case FONTBI =>
    rcases he with rfl | rfl
    · exact hnil
    · exact hnil
  case FONTCB | FONTCI =>
    rcases he with rfl | rfl
    · exact hcls
    · exact hnil

/-- The elements for fonts are phrasing content. -/
theorem fontTags_inphrase {font : Esc} {e : HtmlTag × List Attr} (he : e ∈ fontTags font) :
    (htmltags e.1).inphrase = true := by
  cases font <;> simp only [fontTags, List.mem_cons, List.not_mem_nil, or_false] at he
  case FONTBOLD | FONTITALIC | FONTCR => exact he ▸ rfl
  case FONTBI | FONTCB | FONTCI =>
    rcases he with rfl | rfl
    · rfl
    · rfl

/-- The start tag of an element for a font is printed within any element but a section, and then
    that element is the innermost one. -/
theorem printOtag_font {font : Esc} {e : HtmlTag × List Attr} (he : e ∈ fontTags font)
    (hin : d.InElement) (hd : DocOpened b d ts) :
    Guarantees allowed (printOtag env d e.1 e.2 []) fun r =>
      r.1.InElement ∧ ∃ us, DocOpened b r.1 us := by
  have hfaults := @printOtag_faults allowed env d e.1 e.2 [] (fontTags_allowed he)
    (fun hnot => by rw [fontTags_inphrase he] at hnot; cases hnot) fun _ => hin
  refine (Guarantees.with_eq hfaults).mono fun r hres => ?_
  obtain ⟨heq, _⟩ := hres
  obtain ⟨ws, addr, hopen, -, -, -, -⟩ := printOtag_opens hd heq
  rw [elementTags, if_neg (by rw [(mem_fontTags he).1]; decide)] at hopen
  exact ⟨⟨_, _, hopen.added.tags, (mem_fontTags he).2⟩, _, hopen⟩

/-- Switching the font always works. -/
theorem printMetaf_faults (h : FontScope b d) (hin : b.InElement) :
    Guarantees allowed (printMetaf env d) fun _ => True := by
  obtain ⟨hclosed, -, -⟩ := h.closeFont
  have hin₁ : (closeFont d).InElement := by
    obtain ⟨t, rest, htags, hne⟩ := hin
    exact ⟨t, rest, by rw [hclosed.added.tags, htags]; rfl, hne⟩
  -- By induction on the inner tags of a font; none of them closes anything.
  have hinner : ∀ (font : Esc) (inner : List (HtmlTag × List Attr)) (d : HtmlDoc)
      (ts : List OpenTag), (∀ e ∈ inner, e ∈ fontTags font) → d.InElement → DocOpened b d ts →
      Guarantees allowed (inner.foldlM (fun d t => printTag env d t.1 t.2 []) d) fun _ => True := by
    intro font inner
    induction inner with
    | nil => exact fun _ _ _ _ _ => Guarantees.ok_iff.mpr trivial
    | cons e inner ih =>
      intro d ts hall hin hd
      rw [List.foldlM_cons]
      refine Guarantees.bind (P := fun d => d.InElement ∧ ∃ us, DocOpened b d us) ?_
        fun d₁ hopened => ?_
      · exact (printOtag_font (hall e List.mem_cons_self) hin hd).bind fun _ hr =>
          Guarantees.pure_iff.mpr hr
      · obtain ⟨hin₁, us, hd₁⟩ := hopened
        exact ih d₁ us (fun e he => hall e (List.mem_cons_of_mem _ he)) hin₁ hd₁
  unfold printMetaf
  dsimp only
  split
  · exact Guarantees.pure_iff.mpr trivial
  · rename_i tag attrs inner hfont
    -- The outer tag becomes the tag of the font, and the inner ones are opened inside.
    have hall : ∀ e ∈ (tag, attrs) :: inner, e ∈ fontTags (closeFont d).metac := fun e he =>
      hfont ▸ he
    have hfirst := @printOtag_font allowed env b (closeFont d) [] _ _
      (hall _ List.mem_cons_self) hin₁ hclosed
    refine (Guarantees.with_eq hfirst).bind fun r hres => ?_
    obtain ⟨heq, hin₂, us, hd₂⟩ := hres
    obtain ⟨ws, addr, hopen, -, -, ht, -⟩ := printOtag_opens hclosed heq
    have hstack := (mem_fontTags (hall _ List.mem_cons_self)).1
    rw [if_neg (by rw [hstack]; decide)] at ht
    rw [elementTags, if_neg (by rw [hstack]; decide)] at hopen
    have hrest := fun e he => hall e (List.mem_cons_of_mem _ he)
    refine hinner _ inner _ (_ ++ (ws ++ [])) hrest hin₂
      ⟨hopen.added, hopen.tblt, hopen.table, ?_⟩
    intro a ha
    cases ht.symm.trans ha
    exact List.mem_cons_self

/-! ## §3 Text -/

section

variable {buf : CStr} {pend : Nat} {st : TextState}

/-- An escape sequence that can be parsed can be interpreted. -/
theorem textEscape_faults {r : EscResult} (h : FontScope b st.d) (hin : b.InElement)
    (harg : ArgInside buf r) (hne : r.rval ≠ .EXPAND) :
    Guarantees allowed (textEscape env buf st r) fun st' => st'.e.p = r.rend := by
  refine Guarantees.ite (fun _ => ?_) fun _ => ?_
  · have hstart : FontScope b
        ((TextState.mk st.d { st.e with p := r.rend }).doc.setNospace true) :=
      h.same ⟨rfl, rfl, rfl⟩
    refine Guarantees.bind (P := fun _ => True) ?_ fun _ _ => Guarantees.pure_iff.mpr rfl
    split
    · rename_i hset
      exact printMetaf_faults (hstart.same (sameTags_htmlSetfont hset)) hin
    · exact Guarantees.ok_iff.mpr trivial
  · obtain ⟨e, he, hdone⟩ := @encodeEscape_ok env.spec2cp buf st.e r harg hne
    exact Guarantees.bind_of_eq he (Guarantees.pure_iff.mpr hdone.p)

/-- What an iteration that begins at the index `i` delivers. -/
def TextProgress (b : HtmlDoc) (i : Nat) : Loop.Next TextState (HtmlDoc × Bool) → Prop :=
  Loop.Next.Sat (fun st => FontScope b st.d ∧ i < st.e.p) fun r => FontScope b r.1

/-- The second part of an iteration makes progress. -/
theorem textSpecial_faults {i : Nat} (hword : EscapesAllowed allowed buf)
    (hpend : pend ≤ buf.length) (h : FontScope b st.d) (hin : b.InElement) (hi : i < pend)
    (hle : i ≤ st.e.p)
    (hstop : st.e.p < pend → charAt buf st.e.p ∈ encodeRejs) :
    Guarantees allowed (textSpecial env buf pend st) fun next =>
      ∀ st', next = .again st' → i < st'.e.p := by
  unfold textSpecial
  refine Guarantees.ite (fun hbr => ?_) fun _ => ?_
  · -- The blanks behind the word are skipped.
    have hbreak : Guarantees allowed (printTag env st.doc .BR [] []) fun _ => True :=
      (printOtag_faults (fun a ha => by cases ha) (fun hnot => by cases hnot)
        fun hnot => by cases hnot).bind fun _ _ => Guarantees.pure_iff.mpr trivial
    refine hbreak.bind fun d' _ => Guarantees.pure_iff.mpr fun st' hst' => ?_
    cases hst'
    change i < st.e.p + ((slice buf st.e.p pend).takeWhile isWordEnd).length
    rcases Nat.lt_or_ge st.e.p pend with hlt | hge
    · have hblank := hbr.2.resolve_left (Nat.not_le.mpr hlt)
      have hslice : ∃ c rest, slice buf st.e.p pend = c :: rest ∧ c = charAt buf st.e.p := by
        have hlen : st.e.p < buf.length := Nat.lt_of_lt_of_le hlt hpend
        refine ⟨_, ((buf.drop (st.e.p + 1)).take (pend - st.e.p - 1)), ?_, rfl⟩
        obtain ⟨k, hk⟩ := Nat.exists_eq_add_of_lt hlt
        rw [slice, List.drop_eq_getElem_cons hlen, charAt_eq_getElem hlen, hk,
          show st.e.p + k + 1 - st.e.p = k + 1 by omega, List.take_succ_cons]
        rfl
      obtain ⟨c, rest, hs, rfl⟩ := hslice
      rw [hs, List.takeWhile_cons_of_pos hblank, List.length_cons]
      exact Nat.lt_of_le_of_lt hle (Nat.lt_add_of_pos_right (Nat.succ_pos _))
    · exact Nat.lt_of_lt_of_le hi (hge.trans (Nat.le_add_right _ _))
  refine Guarantees.ite (fun _ => Guarantees.pure_iff.mpr fun st' hst' => by cases hst')
    fun hend => ?_
  have hlt := Nat.lt_of_not_le hend
  rw [rd_of_le (hlt.le.trans hpend), Res.ok_bind]
  refine Guarantees.ite (fun _ => Guarantees.pure_iff.mpr fun st' hst' => ?_) fun _ => ?_
  · cases hst'
    exact Nat.lt_succ_of_le hle
  split
  · refine Guarantees.pure_iff.mpr fun st' hst' => ?_
    cases hst'
    exact Nat.lt_succ_of_le hle
  · rename_i hnone
    -- The bytes that are neither ordinary nor printed as references begin an escape sequence.
    have hc : charAt buf st.e.p = '\\' := by
      have hmem := hstop hlt
      have hbyte := (printEscape_eq_none_iff _ _).mp hnone
      simp only [encodeRejs, List.mem_cons, List.not_mem_nil, or_false] at hmem
      unfold IsAttrByte at hbyte
      grind
    have hnul : charAt buf st.e.p ≠ NUL := by
      rw [hc]
      decide
    refine (Guarantees.with_eq (hword.2 _ hc)).bind fun r hres => ?_
    obtain ⟨hr, _⟩ := hres
    have hbounded := (mandocEscape_bounded hword.1 hnul).of_eq_ok hr
    have harg := (mandocEscape_argInside hword.1 hnul).of_eq_ok hr
    refine (textEscape_faults h hin harg hbounded.1).bind fun st₁ hp =>
      Guarantees.pure_iff.mpr fun st' hst' => ?_
    cases hst'
    rw [hp]
    exact Nat.lt_of_le_of_lt hle (Nat.lt_of_le_of_lt hbounded.2.resc_ge hbounded.2.resc_lt)

/-- An iteration makes progress, and keeps the elements for the font together. -/
theorem textStep_faults (hword : EscapesAllowed allowed buf) (hpend : pend ≤ buf.length)
    (h : FontScope b st.d) (hin : b.InElement) :
    Guarantees allowed (textStep env buf pend st) fun next =>
      TextProgress b st.e.p next ∧ ((∃ st', next = .again st') → st.e.p < pend) := by
  -- Each step moves the position, and only the end of the text stops the loop.
  have hprogress : Guarantees allowed (textStep env buf pend st) fun next =>
      (∀ st', next = .again st' → st.e.p < st'.e.p) ∧
        ((∃ st', next = .again st') → st.e.p < pend) := by
    unfold textStep
    refine Guarantees.ite (fun _ => Guarantees.pure_iff.mpr ⟨?_, ?_⟩) fun hend => ?_
    · intro st' hst'
      cases hst'
    · rintro ⟨st', hst'⟩
      cases hst'
    have hlt := Nat.lt_of_not_le hend
    rw [rd_of_le (hlt.le.trans hpend), Res.ok_bind]
    refine Guarantees.ite (fun _ => Guarantees.pure_iff.mpr ⟨?_, fun _ => hlt⟩) fun _ => ?_
    · intro st' hst'
      cases hst'
      exact Nat.lt_succ_self _
    · obtain ⟨n, hrun, -, -, hrej⟩ := encodeRun_spec buf pend st.e
      have hle : st.e.p ≤ (encodeRun buf pend st.e).p := by
        rw [hrun]
        exact Nat.le_add_right _ _
      have hstop : (encodeRun buf pend st.e).p < pend →
          charAt buf (encodeRun buf pend st.e).p ∈ encodeRejs := by
        intro hlt'
        rw [hrun] at hlt' ⊢
        exact hrej hlt' (Nat.lt_of_lt_of_le hlt' hpend)
      have hspecial : Guarantees allowed
          (textSpecial env buf pend ⟨st.d, encodeRun buf pend st.e⟩) _ :=
        textSpecial_faults hword hpend h hin hlt hle hstop
      exact hspecial.mono fun next hnext => ⟨hnext, fun _ => hlt⟩
  -- What a step does to the open elements was shown before.
  refine (Guarantees.with_eq hprogress).mono fun next hnext => ?_
  obtain ⟨heq, hp, hend⟩ := hnext
  refine ⟨?_, hend⟩
  have hscope := (FontScope.textStep h hin.not_inSection).of_eq_ok heq
  cases next with
  | again st' => exact ⟨hscope, hp st' rfl⟩
  | done r => exact hscope

/-- The main loop ends. By induction on the bound, which decreases with every iteration. -/
theorem textLoop_faults {n : Nat} (hword : EscapesAllowed allowed buf) (hpend : pend ≤ buf.length)
    (h : FontScope b st.d) (hin : b.InElement) (hn : pend - st.e.p < n) :
    Guarantees allowed (Loop.run (textStep env buf pend) .fuel n st) fun r => FontScope b r.1 := by
  induction n generalizing st with
  | zero => exact absurd hn (Nat.not_lt_zero _)
  | succ n ih =>
    have hstep := @textStep_faults allowed env b buf pend st hword hpend h hin
    unfold Loop.run
    rcases hstep.cases with ⟨next, hnext, hsat, hend⟩ | ⟨e, he, hallowed⟩
    · rw [hnext]
      cases next with
      | done r => exact Guarantees.ok_iff.mpr hsat
      | again st' =>
        have hlt := hend ⟨st', rfl⟩
        exact ih hsat.1 (by have := hsat.2; omega)
    · rw [he]
      exact Guarantees.error_iff.mpr hallowed

end

/-- **Text is printed within every element but a section**, and leaves no element open, unless the
    parser for escape sequences fails. -/
theorem printText_faults (hword : EscapesAllowed allowed word) (hd : DocOpened b d ts)
    (hmetaf : d.metaf = none) (hin : d.InElement) :
    Guarantees allowed (printText env d word) fun d' => DocOpened b d' ts ∧ d'.metaf = none := by
  -- First, only the faults; the state afterwards is known from another lemma.
  have hprints : Guarantees allowed (printText env d word) fun _ => True := by
    obtain ⟨t, rest, htags, hne⟩ := id hin
    have hwrap : wrapInParagraph env d = .ok d := by
      unfold wrapInParagraph
      rw [htags]
      exact if_neg hne
    have hspace := sameTags_spaceBeforeText d
    have hnone : (spaceBeforeText d).metaf = none := hspace.metaf.trans hmetaf
    have hin₁ : (spaceBeforeText d).InElement := ⟨t, rest, by rw [hspace.scopes, htags], hne⟩
    have hfont : FontScope (spaceBeforeText d) (spaceBeforeText d) :=
      ⟨[], (hd.same hspace).here hnone, hnone.symm⟩
    unfold printText printTaggedText
    refine Guarantees.bind (P := fun _ => True) ?_ fun _ _ => Guarantees.pure_iff.mpr trivial
    unfold writeText
    rw [hwrap, Res.ok_bind, if_pos hnone]
    -- In front of the text, at most the font of the next word is opened.
    refine (Guarantees.with_eq (printMetaf_faults hfont hin₁)).bind fun d₁ hres => ?_
    obtain ⟨heq, _⟩ := hres
    have hfont₁ := hfont.printMetaf hin₁.not_inSection heq
    refine Guarantees.bind_of_eq (a := ({ d₁ with h := printIndent d₁.h }, none)) rfl ?_
    have hfont₂ : FontScope (spaceBeforeText d) { d₁ with h := printIndent d₁.h } :=
      hfont₁.same ⟨rfl, rfl, rfl⟩
    refine Guarantees.bind (textLoop_faults hword le_rfl hfont₂ hin₁ (Nat.lt_succ_self _))
      fun _ _ => ?_
    exact Guarantees.pure_iff.mpr trivial
  refine (Guarantees.with_eq hprints).mono fun d' hres => ?_
  obtain ⟨heq, _⟩ := hres
  obtain ⟨ws, hopen, hclosed, hws⟩ := printText_opens hd heq
  rw [hws hin.not_inSection] at hopen
  exact ⟨hopen, hclosed⟩

end Mandoc
