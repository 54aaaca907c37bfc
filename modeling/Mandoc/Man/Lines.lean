import Mandoc.Man.Blocks

/-!
# Lines of man(7) Documents

Every line finds the parser in a state in which what is open agrees with the flags, and leaves it
in such a state.

- `exists_manLine` says this about one line, and what the line does to the open `RS` blocks.
- `exists_manLines` is the consequence for a whole document.
-/

namespace Mandoc

/-! ## §1 Elements -/

section

variable {man : ManParser} {s : ManTree} {ss : List ManTree}

/-- What is open depends on the flags, the centering request, and the tree. -/
theorem Good.congr {man' : ManParser} (h : Good man) (hflags : SameFlags man man')
    (hspine : man'.spine = man.spine) : Good man' := by
  obtain ⟨elems, scope, outer, h⟩ := h
  refine ⟨elems, scope, outer, ⟨hspine.trans h.spine_eq, ?_, h.isElem, h.scopeAt.congr hflags,
    h.sections⟩, h.inElem⟩
  rw [hflags.eline]
  exact h.eline_iff

/-- One more argument of an element, which goes into the text before it or becomes text of its
    own. -/
theorem exists_elemWord (hspine : man.spine = s :: ss) (hs : s.type ≠ .TEXT) (tok : ManTok)
    (a : ManArg) :
    ∃ man' e, (if (manMacros tok).join && man.last.type = .TEXT then .ok (man.wordAppend a.p)
        else man.wordAlloc a.p : Res ManParser) = .ok man' ∧ man'.spine = e :: ss ∧
      e.tok = s.tok ∧ e.type = s.type ∧ SameFlags man man' ∧ man'.regtab = man.regtab ∧
      man'.next = .SIBLING := by
  split
  · next hjoin =>
    have hlast : man.last.type = .TEXT := of_decide_eq_true (Bool.and_eq_true_iff.mp hjoin).2
    rcases spine_cases hspine with ⟨-, rfl, -⟩ | ⟨-, q, hparents, rfl⟩
    · exact absurd hlast hs
    · refine ⟨man.wordAppend a.p, q.add (man.wordAppend a.p).last, rfl, ?_, rfl, rfl,
        ⟨rfl, rfl, rfl⟩, rfl, rfl⟩
      rw [ManParser.spine, ManParser.wordAppend, hparents]
  · rw [ManParser.wordAlloc, appendLeaf_eq hspine]
    exact ⟨_, s.add { type := .TEXT, string := a.p, valid := true }, rfl, rfl, rfl, rfl,
      ⟨rfl, rfl, rfl⟩, rfl, rfl⟩

/-- The arguments of an element. By induction on the arguments. -/
theorem exists_elemWords (tok : ManTok) (args : List ManArg) (hspine : man.spine = s :: ss)
    (hs : s.type ≠ .TEXT) :
    ∃ man' e, elemWords tok args man = .ok man' ∧ man'.spine = e :: ss ∧ e.tok = s.tok ∧
      e.type = s.type ∧ SameFlags man man' ∧ man'.regtab = man.regtab ∧
      man'.steps = if args.isEmpty then man.steps else 1 := by
  induction args generalizing man s with
  | nil => exact ⟨man, s, rfl, hspine, rfl, rfl, ⟨rfl, rfl, rfl⟩, rfl, rfl⟩
  | cons a args ih =>
    obtain ⟨man₁, e₁, hword, hspine₁, htok₁, htype₁, hflags₁, hregtab₁, hnext₁⟩ :=
      exists_elemWord hspine hs tok a
    have hsteps₁ : man₁.steps = 1 := by rw [ManParser.steps, hnext₁]
    rw [elemWords, hword, Res.ok_bind]
    by_cases hPD : tok = .PD
    · rw [if_pos hPD]
      exact ⟨man₁, e₁, rfl, hspine₁, htok₁, htype₁, hflags₁, hregtab₁, hsteps₁⟩
    · rw [if_neg hPD]
      obtain ⟨man', e, hwords, hspine', htok, htype, hflags, hregtab, hsteps⟩ :=
        ih hspine₁ (htype₁ ▸ hs)
      refine ⟨man', e, hwords, hspine', htok.trans htok₁, htype.trans htype₁,
        ⟨hflags.eline.trans hflags₁.eline, hflags.bline.trans hflags₁.bline,
          hflags.ce.trans hflags₁.ce⟩, hregtab.trans hregtab₁, ?_⟩
      rw [hsteps, hsteps₁, ite_self]
      rfl

/-- A node that has been opened is closed, and becomes a child of what had been open before. -/
theorem exists_close {man₁ : ManParser} {e : ManTree} (hspine : man.spine = s :: ss)
    (hspine₁ : man₁.spine = e :: s :: ss) (hflags : SameFlags man man₁)
    (hregtab : man₁.regtab = man.regtab) :
    ∃ man' n, manUnscope man₁ man₁.steps = .ok man' ∧ Gets man n man' ∧ n.tok = e.tok ∧
      n.type = e.type ∧ n.valid = true ∧ man'.next = .SIBLING := by
  obtain ⟨htok, htype, -⟩ := top_eq hspine₁
  exact ⟨_, man₁.top.complete, unscope_eq hspine₁,
    ⟨⟨hflags.eline, hflags.bline, hflags.ce⟩, ⟨s, ss, hspine, rfl⟩, hregtab⟩, htok, htype, rfl, rfl⟩

theorem flags_of_inLine {t : ManTok} (h : (manMacros t).escoped = true) :
    (manMacros t).nscoped = true := by
  revert h
  cases t <;> decide

/-- `in_line_eoln()` -/
theorem exists_inLineEoln (h : Good man) {tok : ManTok} (hce : man.ce = none)
    (hnscoped : man.eline = true → (manMacros tok).nscoped = true)
    (hxscope : man.bline = true → (manMacros tok).xscope = false) (args : List ManArg) :
    ∃ man', inLineEoln tok args man = .ok man' ∧ Good man' ∧ Kept man man' ∧
      ((manMacros tok).nscoped = false → man'.next = .SIBLING) := by
  -- The element is put below the innermost open block, and its arguments below the element.
  obtain ⟨s, ss, hspine, hs⟩ := h.loose.exists_spine
  set e : ManTree := { tok := .MAN tok, type := .ELEM } with he
  set man₁ : ManParser := { man with
    last := e, parents := s :: ss, next := .CHILD
    nofill := (man.nofill || tok = .EX) && !(tok = .EE) } with hman₁
  have hetext : e.type ≠ .TEXT := fun htext => (by cases htext)
  obtain ⟨man₂, e₂, hwords, hspine₂, htok₂, htype₂, hflags₂, hregtab₂, hsteps₂⟩ :=
    @exists_elemWords man₁ e (s :: ss) tok args rfl hetext
  -- What remains is to close the element, or to leave it open for the next line.
  have hstart : inLineEoln tok args man = (
      if args.isEmpty && (manMacros tok).escoped then .ok { man₂ with eline := true }
      else do
        let man ← manUnscope man₂ (ownerOf args)
        if (manMacros tok).escoped then manDescope man none else .ok man : Res ManParser) := by
    rw [inLineEoln, alloc_eq hspine, Res.ok_bind]
    dsimp only
    rw [hwords, Res.ok_bind]
    rfl
  rw [hstart]
  by_cases hwait : (args.isEmpty && (manMacros tok).escoped) = true
  · -- Another element gets next-line scope.
    rw [if_pos hwait]
    have hescoped := (Bool.and_eq_true_iff.mp hwait).2
    obtain rfl : args = [] := List.isEmpty_iff.mp (Bool.and_eq_true_iff.mp hwait).1
    obtain rfl : man₁ = man₂ := Except.ok.inj hwords
    obtain ⟨elems, scope, outer, h⟩ := h
    have hspine' : s :: ss = elems ++ (scope ++ outer) := hspine.symm.trans h.spine_eq
    have hisElem : IsElem e := ⟨rfl, rfl, tok, rfl, hescoped⟩
    refine ⟨{ man₁ with eline := true }, rfl, ⟨e :: elems, scope, outer, ⟨?_, ?_, ?_, ?_,
      h.sections⟩, ?_⟩, ⟨?_, rfl⟩, fun hn => ?_⟩
    · exact congrArg (e :: ·) hspine'
    · exact ⟨fun _ => List.cons_ne_nil _ _, fun _ => rfl⟩
    · exact List.forall_mem_cons.mpr ⟨hisElem, h.isElem⟩
    · -- What was in next-line scope before remains so.
      cases h.scopeAt with
      | none hb hc => exact .none hb hc
      | head hb hc hhead => exact .head hb hc hhead
      | ce hb hel hc htype hne hkids =>
        rw [hce] at hc
        cases hc
    · intro e' he' c hc
      cases he'
      cases hc
    · rw [hspine]
      exact openBlocks_cons_of_ne (fun htype => (by cases htype)) _
    · rw [flags_of_inLine hescoped] at hn
      cases hn
  · -- The element is closed, and validated at once.
    rw [if_neg hwait]
    have howner : ownerOf args = man₂.steps := hsteps₂.symm
    obtain ⟨man₃, n, hclose, hgets, hntok, hntype, hnvalid, hnext⟩ :=
      exists_close hspine hspine₂ ⟨hflags₂.eline, hflags₂.bline, hflags₂.ce⟩ hregtab₂
    have hntok' : n.tok = .MAN tok := hntok.trans htok₂
    have hntype' : n.type = .ELEM := hntype.trans htype₂
    have hdone : n.Done := by
      apply done_of_type <;>
      · rw [hntype']
        decide
    have hinHead : man.bline = true → n.InHead := by
      intro hb
      refine ⟨hnvalid, .inr ⟨hntype', ?_⟩⟩
      rw [hntok', ManNodeTok.orMacro, hxscope hb]
      rfl
    have hkept := hgets.kept h.loose
    rw [howner, hclose, Res.ok_bind]
    -- It may have been the argument of other elements in next-line scope, which are then closed,
    -- too.
    by_cases hescoped : (manMacros tok).escoped = true
    · have hloose : Loose man₃ := h.loose.gets hgets (fun _ => hinHead) fun _ _ => hdone
      obtain ⟨man', hdescope, hgood, -, hkept'⟩ := exists_manDescope hloose hnext none
      rw [if_pos hescoped]
      refine ⟨man', hdescope, hgood, hkept.trans hkept', fun hn => ?_⟩
      rw [flags_of_inLine hescoped] at hn
      cases hn
    · rw [if_neg hescoped]
      refine ⟨man₃, rfl, h.gets hgets ⟨fun hel => ⟨hnvalid, hntype', ?_⟩, fun _ => hinHead,
        fun _ _ => hdone⟩, hkept, fun _ => hnext⟩
      rw [hntok', ManNodeTok.orMacro, hnscoped hel, Bool.eq_false_iff.mpr hescoped]
      rfl

end

/-! ## §2 Centering -/

section

variable {man : ManParser} {s c : ManTree} {ss outer : List ManTree}

/-- The element that centers text becomes the last node. -/
theorem leaveCe_eq (hspine : man.spine = c :: outer) (houter : outer ≠ []) :
    man.leaveCe outer.length = { man with last := c, parents := outer, next := .SIBLING } := by
  obtain ⟨o, os, rfl⟩ := List.exists_cons_of_ne_nil houter
  have hstop : popTo (o :: os).length c (o :: os) = (c, o :: os) := by
    rw [popTo, if_pos rfl]
  rcases spine_cases hspine with ⟨-, rfl, hparents⟩ | ⟨-, q, hparents, rfl⟩
  · rw [ManParser.leaveCe, hparents, hstop]
  · have hlen : (q :: o :: os).length ≠ (o :: os).length := Nat.succ_ne_self _
    have hpop : popTo (o :: os).length man.last (q :: o :: os) = (q.add man.last, o :: os) := by
      rw [popTo, if_neg hlen, hstop]
    rw [ManParser.leaveCe, hparents, hpop]

/-- Centering ends: only bodies are open. -/
theorem exists_leaveCe (h : Good man) {depth : Nat} {lines : Int}
    (hce : man.ce = some (depth, lines)) :
    Unscoped { man.leaveCe depth with ce := none } ∧ Kept man { man.leaveCe depth with ce := none } ∧
      man.eline = false ∧ man.bline = false := by
  obtain ⟨elems, scope, outer, h⟩ := h
  have hspine := h.spine_eq
  cases h.scopeAt with
  -- Text is centered only in the last of these states.
  | none hb hc =>
    rw [hce] at hc
    cases hc
  | head hb hc hhead =>
    rw [hce] at hc
    cases hc
  | @ce c lines' hb hel hc htype hne hkids =>
    obtain ⟨rfl, -⟩ := Prod.mk.inj (Option.some.inj (hce.symm.trans hc))
    rw [h.elems_eq_nil hel] at hspine
    obtain ⟨o, os, rfl⟩ := h.sections.exists_cons
    have hdone : c.Done := by
      apply done_of_type <;>
      · rw [htype]
        decide
    have hspine' : man.spine = c :: o :: os := hspine
    rw [leaveCe_eq hspine' (List.cons_ne_nil _ _)]
    refine ⟨⟨h.sections.add hdone, hel, hb, rfl⟩, ⟨?_, rfl⟩, hel, hb⟩
    -- Neither the element nor its parent is an open block.
    have ho : o.type ≠ .BLOCK := h.sections.type_ne (by decide) (by decide)
    have hadd : openBlocks (o.add c :: os) = openBlocks os := @openBlocks_cons_of_ne (o.add c) ho os
    have hc : c.type ≠ .BLOCK := by
      rw [htype]
      decide
    rw [hspine', openBlocks_cons_of_ne hc, openBlocks_cons_of_ne ho]
    exact hadd

/-- Macros abort centering. -/
theorem abortCentering_good (h : Good man) :
    Good (abortCentering man) ∧ (abortCentering man).ce = none ∧ Kept man (abortCentering man) ∧
      (abortCentering man).eline = man.eline ∧ (abortCentering man).bline = man.bline := by
  unfold abortCentering
  cases hce : man.ce with
  | none => exact ⟨h, hce, .refl man, rfl, rfl⟩
  | some ce =>
    obtain ⟨hplain, hkept, -, -⟩ := @exists_leaveCe man h ce.1 ce.2 hce
    exact ⟨hplain.good, rfl, hkept, rfl, rfl⟩

/-- Another line of text is centered, or no more. -/
theorem countCentered_good (h : Good man) (buf : CStr) :
    Good (countCentered buf man) ∧ Kept man (countCentered buf man) := by
  unfold countCentered
  cases hce : man.ce with
  | none => exact ⟨h, .refl man⟩
  | some ce =>
    dsimp only
    by_cases hbuf : buf = []
    · rw [if_pos hbuf]
      exact ⟨h, .refl man⟩
    · rw [if_neg hbuf]
      by_cases hlines : ce.2 < 1
      · rw [if_pos hlines]
        obtain ⟨hplain, hkept, -, -⟩ := @exists_leaveCe man h ce.1 ce.2 hce
        exact ⟨hplain.good, hkept⟩
      · rw [if_neg hlines]
        refine ⟨?_, ⟨rfl, rfl⟩⟩
        obtain ⟨elems, scope, outer, h⟩ := h
        refine ⟨elems, scope, outer, ⟨h.spine_eq, h.eline_iff, h.isElem, ?_, h.sections⟩, h.inElem⟩
        cases h.scopeAt with
        | none hb hc =>
          rw [hce] at hc
          cases hc
        | head hb hc hhead =>
          rw [hce] at hc
          cases hc
        | ce hb hel hc htype hne hkids =>
          obtain rfl := Option.some.inj (hce.symm.trans hc)
          exact .ce hb hel rfl htype hne hkids

end

/-! ## §3 Requests -/

section

variable {man : ManParser} {s : ManTree} {ss : List ManTree} {tok : ManNodeTok}

/-- After a request has broken next-line scopes, only a head can be left, and only if the request
    switches fill mode. -/
theorem exists_requestBreak (h : Good man) (hreq : ∀ p, tok.orMacro p = true) :
    ∃ man', requestBreak tok man = .ok man' ∧ Good man' ∧ Kept man man' ∧ man'.ce = man.ce ∧
      man'.eline = false ∧ (man'.bline = true → tok = .ROFF_nf ∨ tok = .ROFF_fi) := by
  unfold requestBreak
  by_cases hscope : (man.bline || man.eline) = true
  · obtain ⟨man', hbreak, hgood, hkept, hce, heline, hbline⟩ := exists_manBreakscope h tok
    rw [if_pos hscope]
    refine ⟨man', hbreak, hgood, hkept, hce, Bool.eq_false_iff.mpr fun hel => ?_, fun hb => ?_⟩
    · have hnscoped := (heline hel).2
      rw [hreq] at hnscoped
      cases hnscoped
    · rcases (hbline hb).2 with hnf | hfi | hxscope
      · exact .inl hnf
      · exact .inr hfi
      · rw [hreq] at hxscope
        cases hxscope
  · rw [if_neg hscope]
    rw [Bool.not_eq_true, Bool.or_eq_false_iff] at hscope
    refine ⟨man, rfl, h, .refl man, rfl, hscope.2, fun hb => ?_⟩
    rw [hscope.1] at hb
    cases hb

/-- The element of a request fits everywhere except into elements in next-line scope. -/
theorem request_fits {n : ManTree} (hreq : ∀ p, tok.orMacro p = true) (heline : man.eline = false)
    (htok : n.tok = tok) (htype : n.type = .ELEM) (hvalid : n.valid = true) : FitsInto man n := by
  refine ⟨fun hel => ?_, fun _ _ => ⟨hvalid, .inr ⟨htype, ?_⟩⟩, fun _ _ => ?_⟩
  · rw [heline] at hel
    cases hel
  · rw [htok]
    exact hreq _
  · apply done_of_type <;>
    · rw [htype]
      decide

/-- `roff_noarg()` -/
theorem exists_manNoarg (h : Good man) (hreq : ∀ p, tok.orMacro p = true) :
    ∃ man', manNoarg tok man = .ok man' ∧ Good man' ∧ Kept man man' := by
  obtain ⟨man₁, hbreak, hgood, hkept, -, heline, -⟩ := exists_requestBreak h hreq
  obtain ⟨man₂, hleaf, hgets, -, -⟩ :=
    exists_appendLeaf hgood.loose { tok := tok, type := .ELEM, valid := true }
  have hgood₂ := hgood.gets hgets (request_fits hreq heline rfl rfl rfl)
  have hkept₂ := hkept.trans (hgets.kept hgood.loose)
  refine ⟨{ man₂ with nofill := (man₂.nofill || tok = .ROFF_nf) && !(tok = .ROFF_fi) }, ?_,
    hgood₂.congr ⟨rfl, rfl, rfl⟩ rfl, ⟨hkept₂.blocks, hkept₂.regtab⟩⟩
  rw [manNoarg, hbreak, Res.ok_bind, ManParser.emptyElem, hleaf]
  rfl

/-- `roff_onearg()` for requests that do not center text. -/
theorem exists_manOnearg (h : Good man) (hreq : ∀ p, tok.orMacro p = true) (word : CStr) :
    ∃ man', manOnearg tok word man = .ok man' ∧ Good man' ∧ Kept man man' := by
  obtain ⟨man₁, hbreak, hgood, hkept, -, heline, -⟩ := exists_requestBreak h hreq
  obtain ⟨s, ss, hspine, -⟩ := hgood.loose.exists_spine
  set e : ManTree := { tok := tok, type := .ELEM } with he
  set man₂ : ManParser := { man₁ with last := e, parents := s :: ss, next := .CHILD } with hman₂
  -- The element with its argument, if any, is closed.
  obtain ⟨man₃, n, hclose, hgets, hntok, hntype, hnvalid⟩ : ∃ man₃ n,
      (if word = [] then manUnscope man₂ 0
        else do
          let man ← man₂.wordAlloc word
          manUnscope man 1 : Res ManParser) = .ok man₃ ∧ Gets man₁ n man₃ ∧ n.tok = tok ∧
        n.type = .ELEM ∧ n.valid = true := by
    by_cases hword : word = []
    · obtain ⟨man₃, n, hclose, hgets, hntok, hntype, hnvalid, -⟩ :=
        @exists_close man₁ s ss man₂ e hspine rfl ⟨rfl, rfl, rfl⟩ rfl
      rw [if_pos hword]
      exact ⟨man₃, n, hclose, hgets, hntok, hntype, hnvalid⟩
    · set man₃ : ManParser := { man₂ with
        last := { type := .TEXT, string := word, valid := true }, parents := e :: s :: ss
        next := .SIBLING } with hman₃
      have halloc : man₂.wordAlloc word = .ok man₃ := @appendLeaf_eq man₂ e (s :: ss) rfl _
      obtain ⟨man₄, n, hclose, hgets, hntok, hntype, hnvalid, -⟩ :=
        @exists_close man₁ s ss man₃ (e.add man₃.last) hspine rfl ⟨rfl, rfl, rfl⟩ rfl
      rw [if_neg hword, halloc, Res.ok_bind]
      exact ⟨man₄, n, hclose, hgets, hntok, hntype, hnvalid⟩
  refine ⟨man₃, ?_, hgood.gets hgets (request_fits hreq heline hntok hntype hnvalid),
    hkept.trans (hgets.kept hgood.loose)⟩
  rw [manOnearg, hbreak, Res.ok_bind, alloc_eq hspine, Res.ok_bind]
  exact hclose

/-- Centering is aborted, and next-line scopes are broken. -/
theorem exists_abortBreak (h : Good man) (tok : ManNodeTok) :
    ∃ man', manBreakscope (abortCentering man) tok = .ok man' ∧ Good man' ∧ Kept man man' ∧
      man'.ce = none ∧ (man'.eline = true → tok.orMacro (!·.nscoped) = false) ∧
      (man'.bline = true → tok = .ROFF_nf ∨ tok = .ROFF_fi ∨ tok.orMacro (·.xscope) = false) := by
  obtain ⟨hgood₁, hce₁, hkept₁, -, -⟩ := abortCentering_good h
  obtain ⟨man', hbreak, hgood, hkept, hce, heline, hbline⟩ := exists_manBreakscope hgood₁ tok
  exact ⟨man', hbreak, hgood, hkept₁.trans hkept, hce.trans hce₁, fun hel => (heline hel).2,
    fun hb => (hbline hb).2⟩

/-- What does not go into a head in next-line scope leaves only bodies open. -/
theorem exists_abortBreak_plain (h : Good man) (hnf : tok ≠ .ROFF_nf) (hfi : tok ≠ .ROFF_fi)
    (hxscope : tok.orMacro (·.xscope) = true) :
    ∃ man', manBreakscope (abortCentering man) tok = .ok man' ∧ Unscoped man' ∧ Kept man man' := by
  obtain ⟨man', hbreak, hgood, hkept, hce, heline, hbline⟩ := exists_abortBreak h tok
  refine ⟨man', hbreak, hgood.loose.plain (Bool.eq_false_iff.mpr fun hel => ?_)
    (Bool.eq_false_iff.mpr fun hb => ?_) hce, hkept⟩
  · have hnscoped := heline hel
    rw [nscoped_of_xscope hxscope] at hnscoped
    cases hnscoped
  · rcases hbline hb with hnf' | hfi' | hx
    · exact hnf hnf'
    · exact hfi hfi'
    · rw [hxscope] at hx
      cases hx

/-- `roff_onearg()` for requests that center text. -/
theorem exists_manCentering (h : Good man) (hreq : ∀ p, tok.orMacro p = true)
    (hnf : tok ≠ .ROFF_nf) (hfi : tok ≠ .ROFF_fi) (word : CStr) (lines : Int) :
    ∃ man', manCentering tok word lines man = .ok man' ∧ Good man' ∧ Kept man man' := by
  obtain ⟨man₁, hbreak, hgood₁, hkept₁, -, heline₁, hbline₁⟩ := exists_requestBreak h hreq
  obtain ⟨hgood₂, hce₂, hkept₂, heline₂, hbline₂⟩ := abortCentering_good hgood₁
  have hb : man₁.bline = false := Bool.eq_false_iff.mpr fun hb => (hbline₁ hb).elim hnf hfi
  have hplain := hgood₂.loose.plain (heline₂.trans heline₁) (hbline₂.trans hb) hce₂
  have hkept := hkept₁.trans hkept₂
  -- After the break no scope is open, so the request becomes a child of a section.
  set man₂ := abortCentering man₁ with hman₂
  obtain ⟨s, ss, hspine⟩ := hplain.sections.exists_cons
  have hsections : Sections (s :: ss) := hspine ▸ hplain.sections
  have hs : s.type ≠ .BLOCK := hsections.type_ne (by decide) (by decide)
  set e : ManTree := { tok := tok, type := .ELEM } with he
  set n : ManTree :=
    { type := .TEXT, string := if word = [] then ['1'] else word, valid := true } with hn
  set man₃ : ManParser := { man₂ with last := e, parents := s :: ss, next := .CHILD } with hman₃
  set man₄ : ManParser := { man₃ with last := n, parents := e :: s :: ss, next := .SIBLING }
    with hman₄
  have hword : man₃.wordAlloc (if word = [] then ['1'] else word) = .ok man₄ :=
    @appendLeaf_eq man₃ e (s :: ss) rfl _
  have hstart : manCentering tok word lines man =
      if lines < 1 then .ok (man₄.leaveCe (s :: ss).length)
      else .ok { man₄ with ce := some ((s :: ss).length, lines) } := by
    rw [manCentering, hbreak, Res.ok_bind]
    dsimp only
    rw [← hman₂, alloc_eq hspine, Res.ok_bind, hword]
    rfl
  have hedone : (e.add n).Done := done_of_type (fun h => (by cases h)) (fun h => (by cases h))
  -- A count of zero lines closes the element at once.
  have he' : (e.add n).type ≠ .BLOCK := fun h => (by cases h)
  rw [hstart]
  by_cases hlines : lines < 1
  · rw [if_pos hlines, @leaveCe_eq man₄ (e.add n) (s :: ss) rfl (List.cons_ne_nil _ _)]
    refine ⟨_, rfl, Unscoped.good ⟨hsections.add hedone, hplain.eline, hplain.bline, hplain.ce⟩,
      hkept.trans ⟨?_, rfl⟩⟩
    have hadd : openBlocks (s.add (e.add n) :: ss) = openBlocks ss :=
      @openBlocks_cons_of_ne (s.add (e.add n)) hs ss
    rw [hspine, openBlocks_cons_of_ne hs]
    exact hadd
  · rw [if_neg hlines]
    -- Otherwise, it stays open, and only the blocks below it count.
    refine ⟨_, rfl, Loose.good ⟨[], [e.add n], s :: ss, ⟨rfl, eline_iff_nil hplain.eline,
      fun e he => (by cases he), .ce hplain.bline hplain.eline rfl rfl (List.cons_ne_nil _ _)
        fun k hk => ?_, hsections⟩⟩ hplain.eline, hkept.trans ⟨?_, rfl⟩⟩
    · rw [List.mem_singleton.mp hk]
      exact done_of_type (fun h => (by cases h)) (fun h => (by cases h))
    · rw [hspine]
      exact openBlocks_cons_of_ne he' _

/-- The rows of a table. -/
theorem exists_appendSpans (h : Unscoped man) (spans : Nat) :
    ∃ man', appendSpans spans man = .ok man' ∧ Unscoped man' ∧ Kept man man' := by
  induction spans generalizing man with
  | zero => exact ⟨man, rfl, h, .refl man⟩
  | succ spans ih =>
    obtain ⟨man₁, hleaf, hgets, -, -⟩ :=
      exists_appendLeaf h.good.loose { type := .TBL, valid := true }
    have hplain := h.gets hgets (done_of_type (fun h => (by cases h)) (fun h => (by cases h)))
    obtain ⟨man', hspans, hplain', hkept⟩ := ih hplain
    refine ⟨man', ?_, hplain', (hgets.kept h.good.loose).trans hkept⟩
    rw [appendSpans, hleaf, Res.ok_bind, hspans]

/-- `roff_addtbl()` -/
theorem exists_manAddtbl (h : Good man) (spans : Nat) :
    ∃ man', manAddtbl spans man = .ok man' ∧ Good man' ∧ Kept man man' := by
  obtain ⟨man₁, hbreak, hplain₁, hkept₁⟩ :=
    @exists_abortBreak_plain man .ROFF_TS h (by decide) (by decide) rfl
  obtain ⟨man', hspans, hplain, hkept⟩ := exists_appendSpans hplain₁ spans
  refine ⟨man', ?_, hplain.good, hkept₁.trans hkept⟩
  rw [manAddtbl, hbreak, Res.ok_bind, hspans]

/-- `roff_EQ()` -/
theorem exists_manEQ (h : Good man) :
    ∃ man', manEQ man = .ok man' ∧ Good man' ∧ Kept man man' := by
  obtain ⟨man₁, hbreak, hplain₁, hkept₁⟩ :=
    @exists_abortBreak_plain man .ROFF_EQ h (by decide) (by decide) rfl
  obtain ⟨man', hleaf, hgets, -, -⟩ := exists_appendLeaf hplain₁.good.loose { type := .EQN }
  refine ⟨man', ?_, (hplain₁.gets hgets ?_).good, hkept₁.trans (hgets.kept hplain₁.good.loose)⟩
  · rw [manEQ, hbreak, Res.ok_bind, hleaf]
  · exact done_of_type (fun h => (by cases h)) (fun h => (by cases h))

/-! ## §4 Text -/

/-- Another text in place of the last one is still a child of the innermost open node. -/
theorem good_of_text (h : Good man) (heline : man.eline = false) (hbline : man.bline = false)
    (hlast : man.last.type = .TEXT) {n : ManTree} (hn : n.type = .TEXT) :
    Good { man with last := n } ∧ Kept man { man with last := n } := by
  have hdone : n.Done := by
    apply done_of_type <;>
    · rw [hn]
      decide
  -- The last node is complete, because what is open is not text.
  have hsplit : ∀ {s : ManTree} {ss : List ManTree}, man.spine = s :: ss → s.type ≠ .TEXT →
      ∃ q : ManTree, s = q.add man.last ∧ ({ man with last := n } : ManParser).spine = q.add n :: ss := by
    intro s ss hspine hs
    rcases spine_cases hspine with ⟨-, rfl, -⟩ | ⟨hnext, q, hparents, rfl⟩
    · exact absurd hlast hs
    · refine ⟨q, rfl, ?_⟩
      simp only [ManParser.spine, hnext, hparents]
  obtain ⟨elems, scope, outer, h⟩ := h
  have hspine := h.spine_eq
  rw [h.elems_eq_nil heline] at hspine
  cases h.scopeAt with
  | none hb hc =>
    obtain ⟨o, os, rfl⟩ := h.sections.exists_cons
    have ho : ∀ type : RoffType, type ≠ .ROOT → type ≠ .BODY → o.type ≠ type :=
      fun _ hroot hbody => h.sections.type_ne hroot hbody
    obtain ⟨q, rfl, hspine'⟩ := hsplit hspine (ho _ (by decide) (by decide))
    have hkids := h.sections.kids
    have hsections : Sections (q.add n :: os) :=
      h.sections.withKids (List.forall_mem_cons.mpr ⟨hdone, (List.forall_mem_cons.mp hkids).2⟩)
    have hq : q.type ≠ .BLOCK := ho _ (by decide) (by decide)
    refine ⟨Unscoped.good ⟨hspine' ▸ hsections, heline, hbline, hc⟩, ⟨?_, rfl⟩⟩
    rw [hspine, hspine']
    exact (@openBlocks_cons_of_ne (q.add n) hq os).trans
      (@openBlocks_cons_of_ne (q.add man.last) hq os).symm
  | head hb hc hhead =>
    rw [hbline] at hb
    cases hb
  | @ce c lines hb hel hc htype hne hkids =>
    have hspine₁ : man.spine = c :: outer := hspine
    obtain ⟨q, rfl, hspine'⟩ := hsplit hspine₁ (fun htext => by rw [htype] at htext; cases htext)
    have hq : q.type = .ELEM := htype
    have hq' : q.type ≠ .BLOCK := fun hblock => by
      rw [hq] at hblock
      cases hblock
    refine ⟨Loose.good ⟨[], [q.add n], outer, ⟨hspine', eline_iff_nil heline,
      fun e he => (by cases he), .ce hb hel hc hq (List.cons_ne_nil _ _)
        (List.forall_mem_cons.mpr ⟨hdone, (List.forall_mem_cons.mp hkids).2⟩), h.sections⟩⟩ heline,
      ⟨?_, rfl⟩⟩
    rw [hspine₁, hspine']
    exact (@openBlocks_cons_of_ne (q.add n) hq' outer).trans
      (@openBlocks_cons_of_ne (q.add man.last) hq' outer).symm

/-- A blank line changes at most the text before it, if that ends in `\c`. -/
theorem exists_blankLine (h : Good man) :
    ∃ man', blankLine man = .ok man' ∧ Good man' ∧ Kept man man' := by
  unfold blankLine
  by_cases hscope : (man.eline || man.bline) = true
  · rw [if_pos hscope]
    exact ⟨man, rfl, h, .refl man⟩
  rw [if_neg hscope]
  rw [Bool.not_eq_true, Bool.or_eq_false_iff] at hscope
  obtain ⟨heline, hbline⟩ := hscope
  split
  · exact ⟨man, rfl, h, .refl man⟩
  split
  · next htext =>
    have hlast : man.last.type = .TEXT := of_decide_eq_true (Bool.and_eq_true_iff.mp htext).1
    exact ⟨_, rfl, good_of_text h heline hbline hlast hlast⟩
  · obtain ⟨man', hleaf, hgets, -, -⟩ := exists_appendLeaf h.loose { tok := .ROFF_sp, type := .ELEM }
    refine ⟨man', hleaf, h.gets hgets ⟨fun hel => ?_, fun _ hb => ?_, fun _ _ => ?_⟩,
      hgets.kept h.loose⟩
    · rw [heline] at hel
      cases hel
    · rw [hbline] at hb
      cases hb
    · exact done_of_type (fun h => (by cases h)) (fun h => (by cases h))

/-- `man_ptext()` -/
theorem exists_manPtext (h : Good man) (buf : CStr) :
    ∃ man', manPtext buf man = .ok man' ∧ Good man' ∧ Kept man man' := by
  have hword : ∀ word : CStr, ∃ man', (do
      let man ← man.wordAlloc word
      manDescope man (some word) : Res ManParser) = .ok man' ∧ Good man' ∧ Kept man man' := by
    intro word
    obtain ⟨man₁, halloc, hloose, -, hkept₁, hnext⟩ := exists_wordAlloc h.loose word
    obtain ⟨man', hdescope, hgood, -, hkept⟩ := exists_manDescope hloose hnext (some word)
    refine ⟨man', ?_, hgood, hkept₁.trans hkept⟩
    rw [halloc, Res.ok_bind, hdescope]
  unfold manPtext
  split
  · exact hword buf
  split
  · exact exists_blankLine h
  · exact hword (stripEnd buf)

end

/-! ## §5 Lines -/

/-- What a line does to the open `RS` blocks and to the registers. -/
inductive MovesMargin (width : WidthOf) (man : ManParser) : ManLine → ManParser → Prop
  /-- Nothing. -/
  | keeps {line : ManLine} {man' : ManParser} (hline : ∀ args, line ≠ .mac .RS args)
      (h : KeepsRS man man') : MovesMargin width man line man'
  /-- Another `RS` block is opened. -/
  | opens {args : List ManArg} {man' : ManParser} {B hd : ManTree}
      (hregtab : man'.regtab = markRegs width args man.regtab)
      (hblocks : openRS man'.spine = B :: openRS man.spine) (hhead : B.head = some hd)
      (haux : hd.aux = markWidth width args) : MovesMargin width man (.mac .RS args) man'
  /-- A section macro closes blocks implicitly. -/
  | heading {tok : ManTok} {args : List ManArg} {man' : ManParser} {closed : List ManTree}
      (htok : tok.isHeading = true) (hblocks : openRS man.spine = closed ++ openRS man'.spine)
      (hregtab : man'.regtab = man.regtab) : MovesMargin width man (.mac tok args) man'
  /-- A block is closed explicitly, together with the blocks inside it. -/
  | closes {tok ntok : ManTok} {args : List ManArg} {man' : ManParser} {below outer : List ManTree}
      {B hd : ManTree} (hntok : tok.ntok = some ntok)
      (hfound : Found tok ntok args (openBlocks man.spine) below B hd outer)
      (hblocks : openRS man'.spine = openRS outer)
      (hregtab : man'.regtab = if tok = .RE then closeMargin hd.aux man.regtab else man.regtab) :
      MovesMargin width man (.mac tok args) man'

/-- What is done before a line does not matter if that does not change the blocks that stay
    open. -/
theorem MovesMargin.of_kept {width : WidthOf} {man man₁ man' : ManParser} {line : ManLine}
    (h : MovesMargin width man₁ line man') (hkept : Kept man man₁) :
    MovesMargin width man line man' := by
  have hkeeps := hkept.keepsRS
  cases h with
  | keeps hline h => exact .keeps hline (hkeeps.trans h)
  | opens hregtab hblocks hhead haux =>
    rw [hkeeps.regtab] at hregtab
    rw [hkeeps.blocks] at hblocks
    exact .opens hregtab hblocks hhead haux
  | heading htok hblocks hregtab =>
    rw [hkeeps.blocks] at hblocks
    exact .heading htok hblocks (hregtab.trans hkeeps.regtab)
  | closes hntok hfound hblocks hregtab =>
    rw [hkept.blocks] at hfound
    rw [hkept.regtab] at hregtab
    exact .closes hntok hfound hblocks hregtab

/-- The macros that close blocks. -/
theorem exists_ntok {t : ManTok} (h : (manMacros t).fp = .blkClose) :
    ∃ ntok, t.ntok = some ntok ∧ (manMacros t).xscope = true ∧ t ≠ .RS := by
  cases t
  case RE => exact ⟨.RS, rfl, rfl, by decide⟩
  case YS => exact ⟨.SY, rfl, rfl, by decide⟩
  case UE => exact ⟨.UR, rfl, rfl, by decide⟩
  case ME => exact ⟨.MT, rfl, rfl, by decide⟩
  all_goals cases h

theorem mac_ne {t u : ManTok} (h : t ≠ u) (args : List ManArg) :
    ∀ args', ManLine.mac t args ≠ .mac u args' := by
  intro args' heq
  exact h (ManLine.mac.inj heq).1

section

variable {man : ManParser}

/-- The handlers of macros that open or close blocks find only bodies open. -/
theorem exists_manHandler (h : Unscoped man) (width : WidthOf) {tok : ManTok}
    (hfp : (manMacros tok).fp ≠ .inLineEoln) (args : List ManArg) :
    ∃ man', manHandler width tok args man = .ok man' ∧ Good man' ∧
      MovesMargin width man (.mac tok args) man' := by
  unfold manHandler
  cases hcase : (manMacros tok).fp with
  | inLineEoln => exact absurd hcase hfp
  | blkClose =>
    obtain ⟨ntok, hntok, -, hRS⟩ := exists_ntok hcase
    obtain ⟨s, ss, hspine⟩ := h.sections.exists_cons
    obtain ⟨man', hclose, hplain, hcases⟩ := exists_blkClose h hntok args hspine
    refine ⟨man', hclose, hplain.good, ?_⟩
    -- The request may have found no block to close.
    rcases hcases with hkeeps | ⟨below, B, hd, outer, hfound, hblocks, hregtab⟩
    · exact .keeps (mac_ne hRS args) hkeeps
    · have hsections := h.sections
      rw [hspine] at hsections
      have hs : s.type ≠ .BLOCK := hsections.type_ne (by decide) (by decide)
      have hfound' : Found tok ntok args (openBlocks man.spine) (openBlocks below) B hd
          (openBlocks outer) := by
        rw [hspine, openBlocks_cons_of_ne hs]
        exact hfound.openBlocks hntok
      refine .closes hntok hfound' ?_ hregtab
      rw [openRS_openBlocks, hblocks]
  | blkExp =>
    obtain ⟨man', hexp, hplain, hother, hRS⟩ := exists_blkExp h width hcase args
    refine ⟨man', hexp, hplain.good, ?_⟩
    -- Only .RS changes the margin.
    by_cases htok : tok = .RS
    · obtain ⟨hregtab, B, hd, hblocks, hhead, haux⟩ := hRS htok
      rw [htok]
      exact .opens hregtab hblocks hhead haux
    · exact .keeps (mac_ne htok args) (hother htok)
  | blkImp =>
    obtain ⟨-, -, -, hRS⟩ := flags_of_blkImp hcase
    obtain ⟨man₁, man', himp, hrewinds, hkeeps, hgood, -⟩ := exists_blkImp h hcase args
    refine ⟨man', himp, hgood, ?_⟩
    -- Section headers close the blocks that are open.
    by_cases hheading : tok.isHeading = true
    · obtain ⟨closed, hclosed, -⟩ := hrewinds.blocks
      have hblocks : openRS man.spine = closed ++ openRS man'.spine := by
        rw [hclosed, hkeeps.blocks]
      exact .heading hheading hblocks (hkeeps.regtab.trans hrewinds.regtab)
    · exact .keeps (mac_ne hRS args)
        (.trans ⟨hrewinds.openRS (Bool.eq_false_iff.mpr hheading), hrewinds.regtab⟩ hkeeps)

theorem xscope_of_fp {t : ManTok} (h : (manMacros t).fp ≠ .inLineEoln) :
    (manMacros t).xscope = true := by
  revert h
  cases t <;> decide

/-- `man_pmacro()` -/
theorem exists_manPmacro (h : Good man) (width : WidthOf) (tok : ManTok) (args : List ManArg) :
    ∃ man', manPmacro width tok args (abortCentering man) = .ok man' ∧ Good man' ∧
      MovesMargin width man (.mac tok args) man' := by
  unfold manPmacro
  by_cases hfp : (manMacros tok).fp = .inLineEoln
  · -- A macro that takes its text from this line or the next one; it may have broken a scope.
    obtain ⟨man₁, hbreak, hgood₁, hkept₁, hce₁, heline₁, hbline₁⟩ := exists_abortBreak h (.MAN tok)
    have hnscoped : man₁.eline = true → (manMacros tok).nscoped = true := fun hel =>
      Bool.eq_true_of_not_eq_false fun hn => by
        have hel' := heline₁ hel
        rw [ManNodeTok.orMacro, hn] at hel'
        cases hel'
    have hxscope : man₁.bline = true → (manMacros tok).xscope = false := fun hb => by
      rcases hbline₁ hb with hnf | hfi | hx
      · cases hnf
      · cases hfi
      · exact hx
    obtain ⟨man₂, hline, hgood₂, hkept₂, hnext₂⟩ :=
      exists_inLineEoln hgood₁ hce₁ hnscoped hxscope args
    have hRS : tok ≠ .RS := by
      rintro rfl
      cases hfp
    have hhandler : manHandler width tok args man₁ = .ok man₂ := by
      rw [manHandler, hfp]
      exact hline
    rw [hbreak, Res.ok_bind]
    dsimp only
    rw [hhandler, Res.ok_bind]
    have hmoves : ∀ man', KeepsRS man₂ man' → MovesMargin width man (.mac tok args) man' :=
      fun man' hkeeps => .keeps (mac_ne hRS args) ((hkept₁.trans hkept₂).keepsRS.trans hkeeps)
    split
    · -- Inside a scope the line is done; otherwise, the block is moved to its body.
      exact ⟨man₂, rfl, hgood₂, hmoves man₂ (.refl man₂)⟩
    · next hclose =>
      simp only [Bool.or_eq_true, Bool.not_eq_true', not_or, Bool.not_eq_true,
        Bool.not_eq_false] at hclose
      obtain ⟨⟨⟨-, hbline₂⟩, heline₂⟩, hn⟩ := hclose
      obtain ⟨man', hbody, hplain, hkept⟩ := exists_body hgood₂ heline₂ hbline₂
      rw [ManParser.steps, hnext₂ hn] at hbody
      exact ⟨man', hbody, hplain.good, hmoves man' hkept.keepsRS⟩
  · -- A macro for blocks: all scopes are closed before.
    obtain ⟨man₁, hbreak, hplain₁, hkept₁⟩ := @exists_abortBreak_plain man (.MAN tok) h
      (fun h => (by cases h)) (fun h => (by cases h)) (xscope_of_fp hfp)
    obtain ⟨man', hhandler, hgood, hmoves⟩ := exists_manHandler hplain₁ width hfp args
    refine ⟨man', ?_, hgood, hmoves.of_kept hkept₁⟩
    rw [hbreak, Res.ok_bind]
    dsimp only
    rw [hhandler, Res.ok_bind, hplain₁.bline]
    rfl

/-- Every line leaves the parser in a state in which what is open agrees with the flags. -/
theorem exists_manLine (h : Good man) (width : WidthOf) (line : ManLine) :
    ∃ man', manLine width man line = .ok man' ∧ Good man' ∧ MovesMargin width man line man' := by
  -- Everything but macros leaves the blocks alone.
  have hother : (∀ args, line ≠ .mac .RS args) →
      (∃ man', manLine width man line = .ok man' ∧ Good man' ∧ Kept man man') →
      ∃ man', manLine width man line = .ok man' ∧ Good man' ∧ MovesMargin width man line man' := by
    rintro hline ⟨man', hman', hgood, hkept⟩
    exact ⟨man', hman', hgood, .keeps hline hkept.keepsRS⟩
  cases line with
  | mac tok args => exact exists_manPmacro h width tok args
  | text buf =>
    obtain ⟨hgood, hkept⟩ := countCentered_good h buf
    obtain ⟨man', htext, hgood', hkept'⟩ := exists_manPtext hgood buf
    exact hother (fun _ h => (by cases h)) ⟨man', htext, hgood', hkept.trans hkept'⟩
  | br => exact hother (fun _ h => (by cases h)) (exists_manNoarg h fun _ => rfl)
  | nf => exact hother (fun _ h => (by cases h)) (exists_manNoarg h fun _ => rfl)
  | fi => exact hother (fun _ h => (by cases h)) (exists_manNoarg h fun _ => rfl)
  | sp word => exact hother (fun _ h => (by cases h)) (exists_manOnearg h (fun _ => rfl) word)
  | ti word => exact hother (fun _ h => (by cases h)) (exists_manOnearg h (fun _ => rfl) word)
  | ce word lines =>
    exact hother (fun _ h => (by cases h))
      (exists_manCentering h (fun _ => rfl) (by decide) (by decide) word lines)
  | rj word lines =>
    exact hother (fun _ h => (by cases h))
      (exists_manCentering h (fun _ => rfl) (by decide) (by decide) word lines)
  | tbl spans => exact hother (fun _ h => (by cases h)) (exists_manAddtbl h spans)
  | eqn => exact hother (fun _ h => (by cases h)) (exists_manEQ h)

theorem init_plain : Unscoped ManParser.init :=
  ⟨.root ⟨rfl, rfl, fun c hc => (by cases hc)⟩, rfl, rfl, rfl⟩

/-- So does a document. -/
theorem exists_manLines (width : WidthOf) (lines : List ManLine) :
    ∃ man, manLines width lines = .ok man ∧ Good man := by
  suffices h : ∀ man, Good man → ∃ man', lines.foldlM (manLine width) man = .ok man' ∧ Good man' by
    exact h _ init_plain.good
  induction lines with
  | nil => exact fun man h => ⟨man, rfl, h⟩
  | cons line lines ih =>
    intro man h
    obtain ⟨man₁, hline, hgood₁, -⟩ := exists_manLine h width line
    obtain ⟨man', hlines, hgood⟩ := ih man₁ hgood₁
    refine ⟨man', ?_, hgood⟩
    rw [List.foldlM_cons, hline]
    exact hlines

end

end Mandoc
