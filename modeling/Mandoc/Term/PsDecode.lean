import Mandoc.Term.Field
import Mandoc.Term.Ps

/-!
# Decoding Letters in the PostScript Device

The function `ps_letter()` in `term_ps.c` delays each character until the next one is known. Here
that part of the state is separated from the rest of the device: the delayed character, whether a
backspace is pending, and whether the delayed character overstrikes another one.

- `psCalls_decodes` says that requests are carried out if and only if they can be decoded, and how
  the state of the decoder changes.
- `psDocument_ok_iff` says when a whole document is printed without a failure.
-/

namespace Mandoc

/-! ## §1 The decoder -/

/-- The state of the decoder. -/
structure Decode where
  /-- The character that is delayed. -/
  last : Option Char
  /-- A backspace is pending. -/
  back : Bool
  /-- The delayed character was not the first one at its position. -/
  struck : Bool
deriving DecidableEq

/-- The part of the state of the device that is about decoding. -/
def PsState.decode (st : PsState) : Decode := ⟨st.last, st.backsp, decide (st.pscolnext ≠ 0)⟩

/-- The character is in the glyph tables. -/
def inGlyphs (c : Char) : Bool := 32 ≤ c.toNat && c.toNat < 32 + MAXCHAR

/-- The delayed character can be printed: if it has to be centered, its width is known. -/
def Decode.prints (k : Decode) : Bool := !k.struck || k.last.all inGlyphs

/-- Print the delayed character. -/
def Decode.flush (k : Decode) : Option Decode := if k.prints then some { k with last := none } else none

/-- Print the delayed character, and delay another one. -/
def Decode.remember (c : Char) (strike : Bool) (k : Decode) : Option Decode :=
  k.flush.map fun _ => ⟨some c, false, strike⟩

/-- A letter. -/
def Decode.letter (arg : Char) (k : Decode) : Option Decode :=
  let c := psChar arg
  if c = BS then if k.last = none ∨ k.back then none else some { k with back := true }
  else if k.back then
    if k.last = some '_' then some { k with last := some c, back := false }
    else if k.last = some c then some { k with back := false }
    else k.remember c true
  else k.remember c false

/-- A request. -/
def Decode.call : PsCall → Decode → Option Decode
  | .letter c, k => k.letter c
  | .advance _, k => k.flush
  | .endline, k => k.flush

/-- One request after the other. -/
def Decode.calls : List PsCall → Decode → Option Decode
  | [], k => some k
  | c :: l, k => (k.call c).bind (Decode.calls l)

/-- The decoder at the beginning. -/
def Decode.start : Decode := ⟨none, false, false⟩

theorem Decode.calls_append (l l' : List PsCall) (k : Decode) :
    Decode.calls (l ++ l') k = (Decode.calls l k).bind (Decode.calls l') := by
  induction l generalizing k with
  | nil => rfl
  | cons c l ih =>
    simp only [List.cons_append, Decode.calls, Option.bind_assoc]
    exact congrArg _ (funext ih)

/-! ## §2 Printing leaves the decoder alone -/

variable {d : PsDevice} {st st' : PsState}

/-- What the rest of the device needs, such that nothing else can fail. -/
structure PsReady (st : PsState) : Prop where
  col : 0 < st.pscol
  body : 0 < st.pdfbody ∨ st.margins = true
  page : st.margins = true → st.newpage = false
  marg : st.psmarg ≠ []

/-- A step that only prints. -/
structure Printed (st st' : PsState) : Prop where
  decode : st'.decode = st.decode
  pscol : st'.pscol = st.pscol
  pdfbody : st'.pdfbody = st.pdfbody
  newpage : st'.newpage = st.newpage
  psrow : st'.psrow = st.psrow
  margins : st'.margins = st.margins
  psmarg : st.psmarg ≠ [] → st'.psmarg ≠ []

theorem Printed.refl (st : PsState) : Printed st st := ⟨rfl, rfl, rfl, rfl, rfl, rfl, id⟩

theorem Printed.trans {st'' : PsState} (h : Printed st st') (h' : Printed st' st'') :
    Printed st st'' :=
  ⟨h'.decode.trans h.decode, h'.pscol.trans h.pscol, h'.pdfbody.trans h.pdfbody,
    h'.newpage.trans h.newpage, h'.psrow.trans h.psrow, h'.margins.trans h.margins,
    fun hne => h'.psmarg (h.psmarg hne)⟩

theorem Printed.ready (h : Printed st st') (hst : PsReady st) : PsReady st' where
  col := h.pscol ▸ hst.col
  body := by
    rw [h.pdfbody, h.margins]
    exact hst.body
  page := by
    rw [h.newpage, h.margins]
    exact hst.page
  marg := h.psmarg hst.marg

theorem psPrintf_printed (s : CStr) (st : PsState) : Printed st (psPrintf s st) := by
  unfold psPrintf
  split
  · exact ⟨rfl, rfl, rfl, rfl, rfl, rfl, fun hne h => hne (List.append_eq_nil_iff.mp h).1⟩
  · exact ⟨rfl, rfl, rfl, rfl, rfl, rfl, id⟩

theorem psPutchar_printed (c : Char) (st : PsState) : Printed st (psPutchar c st) := by
  unfold psPutchar
  split
  · exact ⟨rfl, rfl, rfl, rfl, rfl, rfl, fun hne h => hne (List.append_eq_nil_iff.mp h).1⟩
  · exact ⟨rfl, rfl, rfl, rfl, rfl, rfl, id⟩

theorem psSetfont_printed (f : TermFont) (st : PsState) : Printed st (psSetfont d f st) := by
  have hset : Printed st { st with lastf := f } := ⟨rfl, rfl, rfl, rfl, rfl, rfl, id⟩
  unfold psSetfont
  simp only
  split_ifs
  · exact hset
  · exact hset.trans (psPrintf_printed _ _)
  · exact hset.trans (psPrintf_printed _ _)

theorem psPclose_printed (st : PsState) : Printed st (psPclose d st) := by
  have hclose : ∀ (s : CStr) (lastrow : Nat),
      Printed st { psPrintf s st with inline := false, lastrow := lastrow } := fun s _ =>
    ⟨(psPrintf_printed s st).decode, (psPrintf_printed s st).pscol, (psPrintf_printed s st).pdfbody,
      (psPrintf_printed s st).newpage, (psPrintf_printed s st).psrow,
      (psPrintf_printed s st).margins, (psPrintf_printed s st).psmarg⟩
  unfold psPclose
  split_ifs
  · exact hclose _ _
  · exact hclose _ _
  · exact hclose _ _
  · exact Printed.refl st

theorem psOpenWord_printed (st : PsState) : Printed st (psOpenWord d st) := by
  have hopen : ∀ s : CStr, Printed st { psPrintf s st with inline := true } := fun s =>
    ⟨(psPrintf_printed s st).decode, (psPrintf_printed s st).pscol, (psPrintf_printed s st).pdfbody,
      (psPrintf_printed s st).newpage, (psPrintf_printed s st).psrow,
      (psPrintf_printed s st).margins, (psPrintf_printed s st).psmarg⟩
  unfold psOpenWord
  split_ifs
  · exact Printed.refl st
  · exact hopen _
  · exact hopen _
  · exact hopen _

theorem psSetNextfont_printed (st : PsState) : Printed st (psSetNextfont d st) := by
  have hnext : ∀ st : PsState, Printed st { st with nextf := .NONE } := fun _ =>
    ⟨rfl, rfl, rfl, rfl, rfl, rfl, id⟩
  unfold psSetNextfont
  simp only
  split_ifs
  · exact ((psPclose_printed st).trans (psSetfont_printed _ _)).trans (hnext _)
  · exact hnext st

/-! ## §3 Printing a character -/

/-- A step that may also open a page and move to the right. -/
structure PsShown (st st' : PsState) : Prop where
  decode : st'.decode = st.decode
  ready : PsReady st'
  margins : st'.margins = st.margins
  psrow : st'.psrow = st.psrow

theorem Printed.shown (h : Printed st st') (hst : PsReady st) : PsShown st st' :=
  ⟨h.decode, h.ready hst, h.margins, h.psrow⟩

theorem PsShown.trans {st'' : PsState} (h : PsShown st st') (h' : PsShown st' st'') : PsShown st st'' :=
  ⟨h'.decode.trans h.decode, h'.ready, h'.margins.trans h.margins, h'.psrow.trans h.psrow⟩

theorem pdfObj_printed {obj : Nat} (h : obj ≠ 0) (st : PsState) :
    ∃ st', pdfObj obj st = .ok st' ∧ Printed st st' := by
  refine ⟨_, if_neg h, ?_⟩
  have hdef : Printed st
      { st with
        pdfobjs := Function.update st.pdfobjs (obj - 1) st.pdfbytes
        objs := st.objs ++ [obj] } := ⟨rfl, rfl, rfl, rfl, rfl, rfl, id⟩
  exact hdef.trans (psPrintf_printed _ _)

theorem pdfObject_printed {obj : Nat} (h : obj ≠ 0) (s : CStr) (st : PsState) :
    ∃ st', pdfObject obj s st = .ok st' ∧ Printed st st' := by
  obtain ⟨st₁, hst₁, hprint⟩ := pdfObj_printed h st
  exact ⟨psPrintf s st₁, by rw [pdfObject, hst₁]; rfl, hprint.trans (psPrintf_printed s st₁)⟩

theorem PsReady.pdfbody_pos (hst : PsReady st) (hnew : st.newpage = true) : 0 < st.pdfbody :=
  hst.body.resolve_right fun h => Bool.noConfusion (hnew.symm.trans (hst.page h))

theorem psPageHead_printed (hst : PsReady st) (hnew : st.newpage = true) :
    ∃ st', psPageHead d st = .ok st' ∧ Printed st st' := by
  unfold psPageHead
  split_ifs
  · exact ⟨_, rfl, psPrintf_printed _ _⟩
  · have hbody := hst.pdfbody_pos hnew
    exact pdfObject_printed (Nat.ne_of_gt (Nat.add_pos_left hbody _)) _ st

/-- Opening a page always works. -/
theorem psOpenPage_ok (hst : PsReady st) :
    ∃ st', psOpenPage d st = .ok st' ∧ st'.newpage = false ∧ PsShown st st' := by
  unfold psOpenPage
  cases hnew : st.newpage with
  | false => exact ⟨st, rfl, hnew, (Printed.refl st).shown hst⟩
  | true =>
    obtain ⟨st₁, hst₁, hprint⟩ := psPageHead_printed (d := d) hst hnew
    have hready := hprint.ready hst
    refine ⟨{ st₁ with pdflastpg := st₁.pdfbytes, newpage := false }, ?_, rfl, hprint.decode,
      ⟨hready.col, hready.body, fun _ => rfl, hready.marg⟩, hprint.margins, hprint.psrow⟩
    rw [if_pos rfl, hst₁]
    rfl

/-- Printing a character always works. -/
theorem psPletter_ok (c : Char) (hst : PsReady st) :
    ∃ st', psPletter d c st = .ok st' ∧ st'.newpage = false ∧ PsShown st st' := by
  obtain ⟨st₁, hst₁, hnew, hshown⟩ := psOpenPage_ok (d := d) hst
  have hword := psOpenWord_printed (d := d) st₁
  have hescape : Printed (psOpenWord d st₁)
      (if c = '(' ∨ c = ')' ∨ c = '\\' then psPutchar '\\' (psOpenWord d st₁)
        else psOpenWord d st₁) := by
    split_ifs
    · exact psPutchar_printed _ _
    · exact Printed.refl _
  have hall := (hword.trans hescape).trans (psPutchar_printed (psGlyph c) _)
  refine ⟨psShow d c (psOpenWord d st₁), ?_, hall.newpage.trans hnew,
    hshown.trans ⟨hall.decode, ?_, hall.margins, hall.psrow⟩⟩
  · rw [psPletter, hst₁, Res.ok_bind]
    simp only
    rw [if_neg (by rw [hword.newpage, hnew]; exact Bool.false_ne_true)]
  · have hready := hall.ready hshown.ready
    exact ⟨Nat.lt_of_lt_of_le hready.col (Nat.le_add_right _ _), hready.body, hready.page,
      hready.marg⟩

theorem glyphIndex_ok {c : Char} (h : inGlyphs c) : ∃ i, glyphIndex c = .ok i := by
  have hrange : 32 ≤ c.toNat ∧ c.toNat < 32 + MAXCHAR := by simpa [inGlyphs] using h
  exact ⟨_, if_pos hrange⟩

theorem glyphIndex_error {c : Char} (h : inGlyphs c = false) :
    glyphIndex c = .error .overrun := by
  have hrange : ¬ (32 ≤ c.toNat ∧ c.toNat < 32 + MAXCHAR) := by
    intro hr
    rw [inGlyphs, decide_eq_true hr.1, decide_eq_true hr.2] at h
    exact absurd h (by decide)
  exact if_neg hrange

theorem psCenter_ok {c : Char} (hst : PsReady st) (h : st.pscolnext ≠ 0 → inGlyphs c) :
    ∃ st', psCenter d c st = .ok st' ∧ PsShown st st' := by
  unfold psCenter
  split_ifs with hzero
  · exact ⟨st, rfl, (Printed.refl st).shown hst⟩
  · obtain ⟨i, hi⟩ := glyphIndex_ok (h hzero)
    rw [hi]
    refine ⟨_, rfl, ?_⟩
    simp only
    split_ifs with hwide
    · refine ⟨rfl, ⟨?_, hst.body, hst.page, hst.marg⟩, rfl, rfl⟩
      have hcol := hst.col
      have hwx := d.wx_pos st.lastf i
      show 0 < (st.pscol + st.pscolnext - d.wx st.lastf i) / 2
      omega
    · exact (Printed.refl st).shown hst

/-- The delayed character is printed if its width is known in case it is needed. Then a page is
    open. -/
theorem psPlast_ok (hst : PsReady st) (hprints : st.decode.prints) :
    ∃ st', psPlast d st = .ok st' ∧ st'.decode = { st.decode with last := none } ∧
      PsReady st' ∧ st'.margins = st.margins ∧ st'.psrow = st.psrow ∧
      (st'.newpage = true ↔ st.last = none ∧ st.newpage = true) := by
  unfold psPlast
  cases hlast : st.last with
  | none =>
    refine ⟨st, rfl, ?_, hst, rfl, rfl, (and_iff_right rfl).symm⟩
    rw [← hlast]
    rfl
  | some c =>
    -- The font is set before the letter, because it decides about the width.
    have hfont := psSetNextfont_printed (d := d) st
    have hglyph : (psSetNextfont d st).pscolnext ≠ 0 → inGlyphs c := by
      intro hne
      have hstruck : st.decode.struck = true := by
        rw [← hfont.decode]
        exact decide_eq_true hne
      have hlast' : st.decode.last = some c := hlast
      rw [Decode.prints, hstruck, hlast'] at hprints
      exact hprints
    -- The letter is printed, possibly in the middle of the one below it.
    obtain ⟨st₁, hst₁, hcenter⟩ := psCenter_ok (d := d) (hfont.ready hst) hglyph
    obtain ⟨st₂, hst₂, hnew, hletter⟩ := psPletter_ok (d := d) c hcenter.ready
    have hopen : st₂.newpage = true ↔ False ∧ st.newpage = true :=
      iff_of_false (by rw [hnew]; exact Bool.false_ne_true) And.left
    have hshown := ((hfont.shown hst).trans hcenter).trans hletter
    have hdecode : ({ st₂ with last := none } : PsState).decode =
        { st.decode with last := none } := by
      rw [← hshown.decode]
      rfl
    have hready : PsReady { st₂ with last := none } :=
      ⟨hshown.ready.col, hshown.ready.body, hshown.ready.page, hshown.ready.marg⟩
    simp only [hst₁, hst₂, Res.ok_bind]
    split_ifs with hwide
    · -- If the letter overstrikes another one, the text object is closed.
      have hclose := psPclose_printed (d := d) { st₂ with last := none }
      have hready' := hclose.ready hready
      refine ⟨_, rfl, hclose.decode.trans hdecode, ⟨?_, hready'.body, hready'.page, hready'.marg⟩,
        hclose.margins.trans hshown.margins, hclose.psrow.trans hshown.psrow, ?_⟩
      · exact Nat.lt_of_le_of_lt (Nat.zero_le _) hwide
      · exact (Iff.of_eq (congrArg (· = true) hclose.newpage)).trans hopen
    · exact ⟨_, rfl, hdecode, hready, hshown.margins, hshown.psrow, hopen⟩

/-- Otherwise, the tables are indexed outside of their bounds. -/
theorem psPlast_error (hprints : st.decode.prints = false) :
    ∃ e, psPlast d st = .error e := by
  have hstruck : st.pscolnext ≠ 0 := by
    intro hzero
    rw [Decode.prints, PsState.decode, hzero] at hprints
    exact absurd hprints (by simp)
  have hall : st.last.all inGlyphs = false := by
    cases hall : st.last.all inGlyphs with
    | false => rfl
    | true =>
      rw [Decode.prints, PsState.decode, hall, Bool.or_true] at hprints
      exact absurd hprints (by decide)
  unfold psPlast
  cases hlast : st.last with
  | none =>
    rw [hlast] at hall
    exact absurd hall (by decide)
  | some c =>
    rw [hlast] at hall
    have hfont := (psSetNextfont_printed (d := d) st).decode
    have hne : (psSetNextfont d st).pscolnext ≠ 0 := by
      have h := congrArg Decode.struck hfont
      simpa [PsState.decode, hstruck] using h
    refine ⟨.overrun, ?_⟩
    simp only [psCenter, if_neg hne, glyphIndex_error hall]
    rfl

/-! ## §4 Requests -/

/-- The request was carried out, and the decoder is in the state `k`. -/
structure Decoded (k : Decode) (st st' : PsState) : Prop where
  decode : st'.decode = k
  ready : PsReady st'
  margins : st'.margins = st.margins

/-- A request succeeds if and only if it can be decoded. -/
structure PsDecodes (k : Option Decode) (st : PsState) (r : Res PsState) : Prop where
  ok : ∀ k' ∈ k, ∃ st', r = .ok st' ∧ Decoded k' st st'
  error : k = none → ∃ e, r = .error e

theorem PsDecodes.of_ok {k : Decode} (h : Decoded k st st') : PsDecodes (some k) st (.ok st') where
  ok k' hk' := ⟨st', rfl, Option.mem_some.mp hk' ▸ h⟩
  error h := by cases h

theorem PsDecodes.of_error (e : Fault) : PsDecodes none st (.error e) where
  ok k' hk' := by cases hk'
  error _ := ⟨e, rfl⟩

/-- What was carried out was decoded. -/
theorem PsDecodes.decoded {k : Option Decode} (h : PsDecodes k st (.ok st')) :
    ∃ k', k = some k' ∧ Decoded k' st st' := by
  cases k with
  | none =>
    obtain ⟨e, he⟩ := h.error rfl
    cases he
  | some k' =>
    obtain ⟨st₁, hst₁, hdec⟩ := h.ok k' rfl
    exact ⟨k', rfl, Except.ok.inj hst₁ ▸ hdec⟩

/-- A second step behind the first one. -/
theorem PsDecodes.bind {k : Option Decode} {r : Res PsState} {f : Decode → Option Decode}
    {g : PsState → Res PsState} (h : PsDecodes k st r)
    (hg : ∀ k' ∈ k, ∀ st', Decoded k' st st' → PsDecodes (f k') st' (g st')) :
    PsDecodes (k.bind f) st (r >>= g) := by
  cases k with
  | none =>
    obtain ⟨e, rfl⟩ := h.error rfl
    exact PsDecodes.of_error e
  | some k' =>
    obtain ⟨st₁, rfl, hst₁⟩ := h.ok k' rfl
    have hnext := hg k' rfl st₁ hst₁
    refine ⟨fun k'' hk'' => ?_, hnext.error⟩
    obtain ⟨st₂, hst₂, hdec⟩ := hnext.ok k'' hk''
    exact ⟨st₂, hst₂, hdec.decode, hdec.ready, hdec.margins.trans hst₁.margins⟩

theorem psPlast_decodes (hst : PsReady st) : PsDecodes st.decode.flush st (psPlast d st) := by
  unfold Decode.flush
  cases hprints : st.decode.prints with
  | true =>
    obtain ⟨st', hst', hdecode, hready, hmargins, -, -⟩ := psPlast_ok (d := d) hst hprints
    rw [hst', if_pos rfl]
    exact PsDecodes.of_ok ⟨hdecode, hready, hmargins⟩
  | false =>
    obtain ⟨e, he⟩ := psPlast_error (d := d) hprints
    rw [he, if_neg Bool.false_ne_true]
    exact PsDecodes.of_error e

theorem Decode.mem_flush {k k' : Decode} (h : k' ∈ k.flush) : k' = { k with last := none } := by
  unfold Decode.flush at h
  split_ifs at h
  · exact (Option.mem_some.mp h).symm
  · cases h

/-- A step that always works, behind the printing of the delayed character. -/
theorem psPlast_then {g : PsState → Res PsState} {k : Decode} (hst : PsReady st)
    (hg : ∀ st', Decoded { st.decode with last := none } st st' →
      ∃ st'', g st' = .ok st'' ∧ Decoded k st' st'') :
    PsDecodes (st.decode.flush.map fun _ => k) st (psPlast d st >>= g) := by
  have hmap : st.decode.flush.map (fun _ => k) = st.decode.flush.bind fun _ => some k := by
    cases st.decode.flush <;> rfl
  rw [hmap]
  refine (psPlast_decodes (d := d) hst).bind fun k' hk' st' hdec => ?_
  rw [Decode.mem_flush hk'] at hdec
  obtain ⟨st'', hst'', hdec''⟩ := hg st' hdec
  rw [hst'']
  exact PsDecodes.of_ok hdec''

/-- Delaying another character. -/
theorem psRemember_decodes (hst : PsReady st) (c : Char) :
    PsDecodes (st.decode.remember c true) st (psRemember d c (some st.pscol) st) ∧
      (st.backsp = false → PsDecodes (st.decode.remember c false) st (psRemember d c none st)) := by
  constructor
  · refine psPlast_then hst fun st' hdec => ?_
    have hclose := psPclose_printed (d := d)
      { st' with last := some c, pscolnext := max st'.pscolnext st'.pscol }
    have hready : PsReady { st' with last := some c, pscolnext := max st'.pscolnext st'.pscol } :=
      ⟨hdec.ready.col, hdec.ready.body, hdec.ready.page, hdec.ready.marg⟩
    have hready' := hclose.ready hready
    have hdecode := hclose.decode
    have hpos : max st'.pscolnext st'.pscol ≠ 0 :=
      Nat.ne_of_gt (lt_of_lt_of_le hdec.ready.col (le_max_right _ _))
    refine ⟨_, rfl, ?_, ⟨hst.col, hready'.body, hready'.page, hready'.marg⟩, hclose.margins⟩
    simp only [PsState.decode, Decode.mk.injEq, true_and] at hdecode ⊢
    rw [hdecode.1, hdecode.2.2]
    exact ⟨rfl, decide_eq_true hpos⟩
  · intro hback
    refine psPlast_then hst fun st' hdec => ?_
    have hback' : st'.backsp = false := by
      rw [← hback]
      exact congrArg Decode.back hdec.decode
    refine ⟨_, rfl, ?_, ⟨hdec.ready.col, hdec.ready.body, hdec.ready.page, hdec.ready.marg⟩, rfl⟩
    simp only [PsState.decode, hback']
    rfl

/-- A letter. -/
theorem psLetter_decodes (hst : PsReady st) (arg : Char) :
    PsDecodes (st.decode.letter arg) st (psLetter d arg st) := by
  -- Changing the remembered letter and the font does not affect the output.
  have hdec : ∀ st' : PsState, st'.pscol = st.pscol → st'.pdfbody = st.pdfbody →
      st'.newpage = st.newpage → st'.margins = st.margins → st'.psmarg = st.psmarg →
      PsDecodes (some st'.decode) st (.ok st') := fun st' hcol hbody hnew hmargins hmarg =>
    PsDecodes.of_ok ⟨rfl, ⟨hcol ▸ hst.col, by rw [hbody, hmargins]; exact hst.body,
      by rw [hnew, hmargins]; exact hst.page, hmarg ▸ hst.marg⟩, hmargins⟩
  unfold Decode.letter psLetter
  -- The cases are those of the code: a backspace, a letter behind one, and any other letter.
  by_cases hbs : psChar arg = BS
  · simp only [if_pos hbs]
    by_cases hbad : st.last = none ∨ st.backsp
    · rw [if_pos hbad, if_pos (show st.decode.last = none ∨ st.decode.back from hbad)]
      exact PsDecodes.of_error _
    · rw [if_neg hbad, if_neg (show ¬ (st.decode.last = none ∨ st.decode.back) from hbad)]
      exact hdec { st with backsp := true } rfl rfl rfl rfl rfl
  · simp only [if_neg hbs]
    by_cases hback : st.backsp
    · rw [if_pos hback, if_pos (show st.decode.back from hback)]
      by_cases hunder : st.last = some '_'
      · rw [if_pos hunder, if_pos (show st.decode.last = _ from hunder)]
        exact hdec
          { st with nextf := st.nextf.underline, last := some (psChar arg), backsp := false }
          rfl rfl rfl rfl rfl
      · rw [if_neg hunder, if_neg (show ¬ st.decode.last = _ from hunder)]
        by_cases hbold : st.last = some (psChar arg)
        · rw [if_pos hbold, if_pos (show st.decode.last = _ from hbold)]
          exact hdec { st with nextf := st.nextf.embolden, backsp := false } rfl rfl rfl rfl rfl
        · rw [if_neg hbold, if_neg (show ¬ st.decode.last = _ from hbold)]
          exact (psRemember_decodes hst _).1
    · rw [if_neg hback, if_neg (show ¬ st.decode.back from hback)]
      exact (psRemember_decodes hst _).2 (Bool.eq_false_iff.mpr hback)

/-- The objects behind a page can always be printed. -/
theorem psClosing_ok (len base : Nat) (st : PsState) :
    ∃ st', psClosing len base st = .ok st' ∧ Printed st st' := by
  obtain ⟨st₁, hst₁, h₁⟩ := pdfObject_printed (Nat.add_one_ne_zero base) (lengthObject len)
    (psPrintf "endstream\nendobj\n".toList st)
  obtain ⟨st₂, hst₂, h₂⟩ := pdfObject_printed (Nat.add_one_ne_zero (base + 1)) resourceObject st₁
  obtain ⟨st₃, hst₃, h₃⟩ := pdfObject_printed (Nat.add_one_ne_zero (base + 2)) (pageObject base) st₂
  refine ⟨st₃, ?_, (((psPrintf_printed _ st).trans h₁).trans h₂).trans h₃⟩
  rw [psClosing, hst₁, Res.ok_bind, hst₂, Res.ok_bind, hst₃]

theorem psPageTail_ok (st : PsState) : ∃ st', psPageTail d st = .ok st' ∧ Printed st st' := by
  unfold psPageTail
  split_ifs
  · exact ⟨_, rfl, psPrintf_printed _ _⟩
  · exact psClosing_ok _ _ _

/-- Closing a page that is open. -/
theorem psClosepage_ok (hst : PsReady st) (hmargins : st.margins = false)
    (hnew : st.newpage = false) : ∃ st', psClosepage d st = .ok st' ∧ Decoded st.decode st st' := by
  obtain ⟨st₁, hst₁, htail⟩ := psPageTail_ok (d := d) (psPrintf st.psmarg st)
  have hprint := (psPrintf_printed st.psmarg st).trans htail
  have hnew₁ : ¬ st₁.newpage := by
    rw [hprint.newpage, hnew]
    exact Bool.false_ne_true
  have hready := hprint.ready hst
  refine ⟨{ st₁ with pages := st₁.pages + 1, psrow := d.top, newpage := true }, ?_, hprint.decode,
    ⟨hready.col, hready.body, fun h => ?_, hready.marg⟩, hprint.margins⟩
  · rw [psClosepage, if_neg hst.marg, hst₁, Res.ok_bind, if_neg hnew₁]
  · exact Bool.noConfusion (hmargins.symm.trans (hprint.margins.symm.trans h))

/-- The end of a line. -/
theorem psEndline_decodes (hst : PsReady st) : PsDecodes st.decode.flush st (psEndline d st) := by
  have hflush : st.decode.flush = st.decode.flush.map fun _ => { st.decode with last := none } := by
    unfold Decode.flush
    split_ifs <;> rfl
  rw [hflush]
  refine psPlast_then hst fun st₁ hdec => ?_
  have hclose := psPclose_printed (d := d) st₁
  have hready := hclose.ready hdec.ready
  have hdecode := hclose.decode.trans hdec.decode
  simp only
  split_ifs with hmargins hnew hrow
  · exact ⟨_, rfl, hdecode, hready, hclose.margins⟩
  · exact ⟨_, rfl, hdecode, ⟨d.left_pos, hready.body, hready.page, hready.marg⟩, hclose.margins⟩
  · exact ⟨_, rfl, hdecode, ⟨d.left_pos, hready.body, hready.page, hready.marg⟩, hclose.margins⟩
  · have hready' : PsReady { psPclose d st₁ with pscol := d.left } :=
      ⟨d.left_pos, hready.body, hready.page, hready.marg⟩
    obtain ⟨st₂, hst₂, hdec₂⟩ := psClosepage_ok (d := d) hready' (Bool.eq_false_iff.mpr hmargins)
      (Bool.eq_false_iff.mpr hnew)
    exact ⟨st₂, hst₂, hdec₂.decode.trans hdecode, hdec₂.ready, hdec₂.margins.trans hclose.margins⟩

/-- One list of requests behind another one. -/
theorem psCalls_append (d : PsDevice) (l l' : List PsCall) (st : PsState) :
    psCalls d (l ++ l') st = psCalls d l st >>= psCalls d l' := by
  induction l generalizing st with
  | nil => rfl
  | cons c l ih =>
    simp only [List.cons_append, psCalls, bind_assoc]
    exact congrArg _ (funext ih)

/-- Advancing to the right. -/
theorem psAdvance_decodes (hst : PsReady st) (len : Nat) :
    PsDecodes st.decode.flush st (psAdvance d len st) := by
  have hflush : st.decode.flush = st.decode.flush.map fun _ => { st.decode with last := none } := by
    unfold Decode.flush
    split_ifs <;> rfl
  rw [hflush]
  refine psPlast_then hst fun st₁ hdec => ?_
  have hclose := psPclose_printed (d := d) st₁
  have hready := hclose.ready hdec.ready
  exact ⟨_, rfl, hclose.decode.trans hdec.decode,
    ⟨Nat.lt_of_lt_of_le hready.col (Nat.le_add_right _ _), hready.body, hready.page, hready.marg⟩,
    hclose.margins⟩

theorem psCall_decodes (hst : PsReady st) (c : PsCall) :
    PsDecodes (Decode.call c st.decode) st (psCall d c st) := by
  cases c with
  | letter c => exact psLetter_decodes hst c
  | advance len => exact psAdvance_decodes hst len
  | endline => exact psEndline_decodes hst

/-- The same for a list of requests. -/
theorem psCalls_decodes (l : List PsCall) (hst : PsReady st) :
    PsDecodes (Decode.calls l st.decode) st (psCalls d l st) := by
  induction l generalizing st with
  | nil => exact PsDecodes.of_ok ⟨rfl, hst, rfl⟩
  | cons c l ih =>
    exact (psCall_decodes hst c).bind fun k' _ st' hdec => hdec.decode ▸ ih hdec.ready

/-! ## §5 Documents -/

/-- What is asked for while the margins are printed. -/
def marginCalls (head foot : List PsCall) : List PsCall := head ++ [.endline] ++ (foot ++ [.endline])

theorem psPclose_inline (st : PsState) : (psPclose d st).inline = false := by
  unfold psPclose
  split_ifs with hinline
  · rfl
  · rfl
  · rfl
  · exact Bool.eq_false_iff.mpr hinline

/-- The end of a line in the margins closes the word. -/
theorem psEndline_inline (hmargins : st.margins = true) (hst : PsReady st)
    (h : psEndline d st = .ok st') : st'.inline = false := by
  unfold psEndline at h
  obtain ⟨st₁, hst₁, h⟩ := Res.bind_eq_ok.mp h
  have hplast := psPlast_decodes (d := d) hst
  rw [hst₁] at hplast
  obtain ⟨_, _, hdec⟩ := hplast.decoded
  have hm : (psPclose d st₁).margins = true :=
    (psPclose_printed st₁).margins.trans (hdec.margins.trans hmargins)
  simp only [hm, if_true] at h
  rw [← Except.ok.inj h]
  exact psPclose_inline st₁

/-- The same for a list of requests with the end of a line behind it. -/
theorem psCalls_inline {l : List PsCall} (hmargins : st.margins = true) (hst : PsReady st)
    (h : psCalls d (l ++ [.endline]) st = .ok st') : st'.inline = false := by
  rw [psCalls_append] at h
  obtain ⟨st₁, hst₁, h⟩ := Res.bind_eq_ok.mp h
  have hcalls := psCalls_decodes (d := d) l hst
  rw [hst₁] at hcalls
  obtain ⟨_, _, hdec⟩ := hcalls.decoded
  obtain ⟨st₂, hst₂, h⟩ := Res.bind_eq_ok.mp h
  obtain rfl := Except.ok.inj h
  exact psEndline_inline (hdec.margins.trans hmargins) hdec.ready hst₂

/-- What `ps_begin()` sets up for the margins. -/
theorem psMargins_ready (d : PsDevice) :
    ∃ st, psSetfont d .NONE
        { PsState.alloc with
          psmarg := [], inline := false, margins := true, newpage := false, backsp := false
          pscol := d.left, psrow := d.header, lastrow := 0 } = st ∧
      PsReady st ∧ st.decode = .start ∧ st.margins = true := by
  refine ⟨_, rfl, ?_⟩
  have hset := psSetfont_printed (d := d) .NONE
    { PsState.alloc with
      psmarg := [], inline := false, margins := true, newpage := false, backsp := false
      pscol := d.left, psrow := d.header, lastrow := 0 }
  refine ⟨⟨?_, Or.inr hset.margins, fun _ => hset.newpage, ?_⟩, hset.decode.trans rfl, hset.margins⟩
  · rw [hset.pscol]
    exact d.left_pos
  · -- The font is the first text in the margin buffer.
    unfold psSetfont psPrintf
    simp only [Bool.false_eq_true, if_false, if_true]
    split_ifs
    · exact List.cons_ne_nil _ _
    · exact List.cons_ne_nil _ _

/-- The margins are printed if and only if they can be decoded. The last word is closed. -/
theorem psMargins_decodes (d : PsDevice) (head foot : List PsCall) :
    (∀ k ∈ Decode.calls (marginCalls head foot) .start, ∃ st, psMargins d head foot .alloc = .ok st ∧
      st.decode = k ∧ PsReady st ∧ st.margins = true ∧ st.inline = false) ∧
    (Decode.calls (marginCalls head foot) .start = none →
      ∃ e, psMargins d head foot .alloc = .error e) := by
  obtain ⟨st₀, hst₀, hready, hdecode, hmargins⟩ := psMargins_ready d
  have hrun : psMargins d head foot .alloc = psCalls d (head ++ [.endline]) st₀ >>= fun st =>
      psCalls d (foot ++ [.endline]) { st with pscol := d.left, psrow := d.footer } := by
    rw [← hst₀]
    rfl
  have hhead := psCalls_decodes (d := d) (head ++ [.endline]) hready
  -- The footer starts at another row, which the decoder does not see.
  have hfoot : ∀ k st, Decoded k st₀ st → PsDecodes (Decode.calls (foot ++ [.endline]) k) st
      (psCalls d (foot ++ [.endline]) { st with pscol := d.left, psrow := d.footer }) := by
    intro k st hdec
    have hready' : PsReady { st with pscol := d.left, psrow := d.footer } :=
      ⟨d.left_pos, hdec.ready.body, hdec.ready.page, hdec.ready.marg⟩
    have hcalls := psCalls_decodes (d := d) (foot ++ [.endline]) hready'
    have hk : ({ st with pscol := d.left, psrow := d.footer } : PsState).decode = k := hdec.decode
    rw [hk] at hcalls
    exact ⟨fun k' hk' => by
      obtain ⟨st', hst', hdec'⟩ := hcalls.ok k' hk'
      exact ⟨st', hst', hdec'.decode, hdec'.ready, hdec'.margins⟩, hcalls.error⟩
  have hall := hhead.bind fun k _ st hdec => hfoot k st hdec
  rw [hdecode, ← Decode.calls_append] at hall
  rw [hrun]
  refine ⟨fun k hk => ?_, hall.error⟩
  obtain ⟨st, hst, hdec⟩ := hall.ok k hk
  have hm := hdec.margins.trans hmargins
  refine ⟨st, hst, hdec.decode, hdec.ready, hm, ?_⟩
  -- After the last call, no text object is open.
  obtain ⟨st₁, hst₁, hlast⟩ := Res.bind_eq_ok.mp hst
  rw [hst₁] at hhead
  obtain ⟨_, _, hdec₁⟩ := hhead.decoded
  have hready₁ : PsReady { st₁ with pscol := d.left, psrow := d.footer } :=
    ⟨d.left_pos, hdec₁.ready.body, hdec₁.ready.page, hdec₁.ready.marg⟩
  have hmargins₁ : ({ st₁ with pscol := d.left, psrow := d.footer } : PsState).margins = true :=
    hdec₁.margins.trans hmargins
  exact psCalls_inline hmargins₁ hready₁ hlast

/-! ## §6 The beginning of a document -/

theorem pdfFonts_printed (l : List TermFont) (st : PsState) :
    ∃ st', pdfFonts d l st = .ok st' ∧ Printed st st' := by
  induction l generalizing st with
  | nil => exact ⟨st, rfl, Printed.refl st⟩
  | cons f l ih =>
    obtain ⟨st₁, hst₁, h₁⟩ := pdfObject_printed (Nat.add_one_ne_zero (f.num + 2)) (fontObject d f) st
    obtain ⟨st₂, hst₂, h₂⟩ := ih st₁
    exact ⟨st₂, by rw [pdfFonts, hst₁, Res.ok_bind, hst₂], h₁.trans h₂⟩

theorem psPrologues_printed (st : PsState) : ∃ st', psPrologues d st = .ok st' ∧ Printed st st' := by
  unfold psPrologues pdfPrologue
  split_ifs
  · exact ⟨_, rfl, psPrintf_printed _ _⟩
  · obtain ⟨st₁, hst₁, h₁⟩ := pdfObject_printed Nat.one_ne_zero "<<\n>>\nendobj\n".toList
      (psPrintf "%PDF-1.1\n".toList st)
    obtain ⟨st₂, hst₂, h₂⟩ := pdfFonts_printed (d := d) allFonts st₁
    exact ⟨st₂, by rw [hst₁, Res.ok_bind, hst₂], ((psPrintf_printed _ _).trans h₁).trans h₂⟩

/-- What holds when the first page begins. -/
structure Begun (d : PsDevice) (st : PsState) : Prop where
  ready : PsReady st
  margins : st.margins = false
  newpage : st.newpage = true
  psrow : st.psrow = d.top
  pdfbody : st.pdfbody = TERMFONT_MAX + 3

/-- The beginning of a document fails if a backspace is pending behind the margins. -/
theorem psBegin_decodes (d : PsDevice) (head foot : List PsCall) :
    (∀ k ∈ Decode.calls (marginCalls head foot) .start, k.back = false →
      ∃ st, psBegin d head foot .alloc = .ok st ∧ st.decode = k ∧ Begun d st) ∧
    ((∀ k ∈ Decode.calls (marginCalls head foot) .start, k.back = true) →
      ∃ e, psBegin d head foot .alloc = .error e) := by
  obtain ⟨hok, herror⟩ := psMargins_decodes d head foot
  constructor
  · -- The margins are printed without a pending backspace, so the assertion holds.
    intro k hk hback
    obtain ⟨st, hst, hdecode, hready, hmargins, hinline⟩ := hok k hk
    have hnot : ¬ (st.inline ∨ st.newpage ∨ st.backsp ∨ st.psmarg = []) := by
      have hbacksp : st.backsp = false := (congrArg Decode.back hdecode).trans hback
      have hnew : st.newpage = false := hready.page hmargins
      simp only [hinline, hbacksp, hnew, hready.marg, Bool.false_eq_true, or_self, not_false_iff]
    -- Then come the prologue, the font, and the first row of the page.
    obtain ⟨st₁, hst₁, hprint⟩ := psPrologues_printed (d := d) { st with margins := false }
    have hset := psSetfont_printed (d := d) .NONE
      { st₁ with pdfbody := TERMFONT_MAX + 3, pscol := d.left, psrow := d.top, newpage := true }
    have hm : st₁.margins = false := hprint.margins
    refine ⟨_, ?_, hset.decode.trans (hprint.decode.trans hdecode), ⟨?_, ?_, ?_, ?_, ?_⟩⟩
    · rw [psBegin, hst, Res.ok_bind]
      simp only
      rw [if_neg hnot, hst₁]
      rfl
    · refine hset.ready ⟨d.left_pos, Or.inl (Nat.succ_pos _), fun h => ?_, hprint.psmarg hready.marg⟩
      exact Bool.noConfusion (hm.symm.trans h)
    · exact hset.margins.trans hm
    · exact hset.newpage
    · exact hset.psrow
    · exact hset.pdfbody
  · intro hback
    -- Either printing the margins fails, or the assertion does.
    cases hk : Decode.calls (marginCalls head foot) .start with
    | none =>
      obtain ⟨e, he⟩ := herror hk
      exact ⟨e, by rw [psBegin, he]; rfl⟩
    | some k =>
      obtain ⟨st, hst, hdecode, -, -, -⟩ := hok k hk
      have hbacksp : st.backsp = true := (congrArg Decode.back hdecode).trans (hback k hk)
      refine ⟨.abort, ?_⟩
      rw [psBegin, hst, Res.ok_bind]
      exact if_pos (Or.inr (Or.inr (Or.inl hbacksp)))

/-! ## §7 The end of a document -/

/-- Whether something was printed on the page, or is about to be, and the row. -/
def PsState.ink (st : PsState) : Bool × Nat :=
  (!(st.last.isNone && st.newpage), st.psrow)

/-- What a request does to the page. At the bottom of a page with something on it, the end of a
    line closes the page. -/
def PsDevice.ink (d : PsDevice) : Bool × Nat → PsCall → Bool × Nat
  | (_, row), .letter _ => (true, row)
  | page, .advance _ => page
  | (false, row), .endline => (false, row)
  | (true, row), .endline =>
    if d.lineheight + d.bottom ≤ row then (true, row - d.lineheight) else (false, d.top)

/-- The delayed character is printed on the page. -/
theorem psPlast_ink (hst : PsReady st) (h : psPlast d st = .ok st') : st'.ink = st.ink := by
  cases hprints : st.decode.prints with
  | false =>
    obtain ⟨e, he⟩ := psPlast_error (d := d) hprints
    rw [he] at h
    cases h
  | true =>
    obtain ⟨st₁, hst₁, hdecode, -, -, hrow, hnew⟩ := psPlast_ok (d := d) hst hprints
    obtain rfl := Except.ok.inj (hst₁.symm.trans h)
    have hlast : st₁.last = none := congrArg Decode.last hdecode
    have hpage : st₁.newpage = (st.last.isNone && st.newpage) := by
      rw [Bool.eq_iff_iff, hnew, Bool.and_eq_true, Option.isNone_iff_eq_none]
    rw [PsState.ink, PsState.ink, hrow, hlast, hpage]
    rfl

theorem psRemember_psrow {c : Char} {savecol : Option Nat} (hst : PsReady st)
    (h : psRemember d c savecol st = .ok st') : st'.psrow = st.psrow := by
  unfold psRemember at h
  obtain ⟨st₁, hst₁, h⟩ := Res.bind_eq_ok.mp h
  have hrow : st₁.psrow = st.psrow := congrArg Prod.snd (psPlast_ink hst hst₁)
  cases savecol with
  | none =>
    obtain rfl := Except.ok.inj h
    exact hrow
  | some savecol =>
    obtain rfl := Except.ok.inj h
    exact (psPclose_printed _).psrow.trans hrow

theorem psLetter_psrow {c : Char} (hst : PsReady st) (h : psLetter d c st = .ok st') :
    st'.psrow = st.psrow := by
  unfold psLetter at h
  simp only at h
  split_ifs at h
  · obtain rfl := Except.ok.inj h
    rfl
  · obtain rfl := Except.ok.inj h
    rfl
  · obtain rfl := Except.ok.inj h
    rfl
  · exact psRemember_psrow hst h
  · exact psRemember_psrow hst h

/-- Behind a letter, a character is delayed. -/
theorem Decode.letter_last {c : Char} {k k' : Decode} (h : k' ∈ k.letter c) : k'.last ≠ none := by
  have hremember : ∀ c strike, k' ∈ k.remember c strike → k'.last ≠ none := by
    intro c strike h hnone
    obtain ⟨-, -, rfl⟩ := Option.map_eq_some_iff.mp h
    cases hnone
  unfold Decode.letter at h
  simp only at h
  split_ifs at h with hbs hbad hback hunder hbold
  · cases h
  · rw [← Option.mem_some.mp h]
    exact fun hnone => hbad (Or.inl hnone)
  · rw [← Option.mem_some.mp h]
    exact Option.some_ne_none _
  · rw [← Option.mem_some.mp h, hbold]
    exact Option.some_ne_none _
  · exact hremember _ _ h
  · exact hremember _ _ h

theorem psLetter_ink {c : Char} (hst : PsReady st) (h : psLetter d c st = .ok st') :
    st'.ink = (true, st.psrow) := by
  have hletter := psLetter_decodes (d := d) hst c
  rw [h] at hletter
  obtain ⟨k, hk, hdec⟩ := hletter.decoded
  have hlast : st'.last ≠ none := by
    have hk' := Decode.letter_last hk
    rwa [← hdec.decode] at hk'
  rw [PsState.ink, psLetter_psrow hst h, Option.isNone_eq_false_iff.mpr (Option.isSome_iff_ne_none.mpr hlast)]
  rfl

theorem psClosepage_psrow (h : psClosepage d st = .ok st') :
    st'.psrow = d.top ∧ st'.newpage = true := by
  unfold psClosepage at h
  split_ifs at h
  obtain ⟨st₁, -, h⟩ := Res.bind_eq_ok.mp h
  split_ifs at h
  obtain rfl := Except.ok.inj h
  exact ⟨rfl, rfl⟩

theorem psEndline_ink (hst : PsReady st) (hmargins : st.margins = false)
    (h : psEndline d st = .ok st') : st'.ink = d.ink st.ink .endline := by
  have hend := psEndline_decodes (d := d) hst
  rw [h] at hend
  obtain ⟨k, hk, hdec⟩ := hend.decoded
  -- No letter is pending at the end of a line, neither before nor after the row is moved.
  have hlast : st'.last.isNone := by
    have hk' := congrArg Decode.last (Decode.mem_flush hk)
    rw [← hdec.decode] at hk'
    exact Option.isNone_iff_eq_none.mpr hk'
  unfold psEndline at h
  obtain ⟨st₁, hst₁, h⟩ := Res.bind_eq_ok.mp h
  rw [← psPlast_ink hst hst₁]
  have hplast := psPlast_decodes (d := d) hst
  rw [hst₁] at hplast
  obtain ⟨k₁, hk₁, hdec₁⟩ := hplast.decoded
  have hlast₁ : st₁.last.isNone := by
    have hk' := congrArg Decode.last (Decode.mem_flush hk₁)
    rw [← hdec₁.decode] at hk'
    exact Option.isNone_iff_eq_none.mpr hk'
  have hclose := psPclose_printed (d := d) st₁
  have hm : (psPclose d st₁).margins = false :=
    hclose.margins.trans (hdec₁.margins.trans hmargins)
  have hink : st₁.ink = (!st₁.newpage, st₁.psrow) := by rw [PsState.ink, hlast₁, Bool.true_and]
  have hink' : st'.ink = (!st'.newpage, st'.psrow) := by rw [PsState.ink, hlast, Bool.true_and]
  -- What is left is how the row moves.
  rw [hink, hink']
  simp only [hm, Bool.false_eq_true, if_false, hclose.newpage, hclose.psrow] at h
  cases hnew : st₁.newpage with
  | true =>
    rw [hnew, if_pos rfl] at h
    obtain rfl := Except.ok.inj h
    rfl
  | false =>
    rw [hnew, if_neg Bool.false_ne_true] at h
    simp only [Bool.not_false, PsDevice.ink]
    split_ifs at h with hrow
    · -- The row fits on the page, or a new page is needed.
      obtain rfl := Except.ok.inj h
      rw [if_pos hrow]
      rfl
    · obtain ⟨hrow', hnew'⟩ := psClosepage_psrow h
      rw [if_neg hrow, hrow', hnew']
      rfl

theorem psAdvance_ink {len : Nat} (hst : PsReady st) (h : psAdvance d len st = .ok st') :
    st'.ink = st.ink := by
  obtain ⟨st₁, hst₁, h⟩ := Res.bind_eq_ok.mp h
  obtain rfl := Except.ok.inj h
  have hclose := psPclose_printed (d := d) st₁
  have hlast : (psPclose d st₁).last = st₁.last := congrArg Decode.last hclose.decode
  rw [← psPlast_ink hst hst₁]
  simp only [PsState.ink, hlast, hclose.newpage, hclose.psrow]

theorem psCall_ink {c : PsCall} (hst : PsReady st) (hmargins : st.margins = false)
    (h : psCall d c st = .ok st') : st'.ink = d.ink st.ink c := by
  cases c with
  | letter c => exact psLetter_ink hst h
  | advance len => exact psAdvance_ink hst h
  | endline => exact psEndline_ink hst hmargins h

/-- The same for a list of requests. -/
theorem psCalls_ink {l : List PsCall} (hst : PsReady st) (hmargins : st.margins = false)
    (h : psCalls d l st = .ok st') : st'.ink = l.foldl d.ink st.ink := by
  induction l generalizing st with
  | nil => rw [← Except.ok.inj h]; rfl
  | cons c l ih =>
    obtain ⟨st₁, hst₁, h⟩ := Res.bind_eq_ok.mp h
    have hcall := psCall_decodes (d := d) hst c
    rw [hst₁] at hcall
    obtain ⟨_, _, hdec⟩ := hcall.decoded
    rw [ih hdec.ready (hdec.margins.trans hmargins) h, psCall_ink hst hmargins hst₁]
    rfl

theorem psFinish_ok (hbody : 0 < st.pdfbody) : ∃ st', psFinish d st = .ok st' := by
  unfold psFinish
  split_ifs
  · exact ⟨_, rfl⟩
  · obtain ⟨st₁, hst₁, -⟩ := pdfObject_printed (Nat.succ_ne_zero 1) (pagesObject d st) st
    have hcatalog : catalogObj st ≠ 0 := by
      unfold catalogObj
      omega
    obtain ⟨st₂, hst₂, -⟩ := pdfObject_printed hcatalog catalogObject st₁
    exact ⟨_, by rw [hst₁, Res.ok_bind, hst₂]; rfl⟩

/-- The end of a document fails if the page is open and a backspace is pending. -/
theorem psEnd_ok_iff (hst : PsReady st) (hmargins : st.margins = false) :
    (∃ st', psEnd d st = .ok st') ↔
      st.decode.prints ∧ (st.backsp = true → st.ink.1 = false) := by
  cases hprints : st.decode.prints with
  -- The last letter cannot be printed.
  | false =>
    obtain ⟨e, he⟩ := psPlast_error (d := d) hprints
    refine iff_of_false ?_ fun h => Bool.false_ne_true h.1
    rintro ⟨st', hst'⟩
    rw [psEnd, he] at hst'
    cases hst'
  | true =>
    rw [eq_self_iff_true, true_and]
    -- The last letter is printed, and the text object is closed, which keeps the state of the
    -- decoder.
    obtain ⟨st₁, hst₁, hdecode, hready, hm, -, hnew⟩ := psPlast_ok (d := d) hst hprints
    have hclose := psPclose_printed (d := d) st₁
    have hready' := hclose.ready hready
    have hm' := hclose.margins.trans (hm.trans hmargins)
    have hback : (psPclose d st₁).backsp = st.backsp :=
      (congrArg Decode.back hclose.decode).trans (congrArg Decode.back hdecode)
    have hlast : (psPclose d st₁).last = none :=
      (congrArg Decode.last hclose.decode).trans (congrArg Decode.last hdecode)
    -- Whether the page has ink now is what the pending letter adds.
    have hink : st.ink.1 = !st₁.newpage := by
      rw [← psPlast_ink hst hst₁, PsState.ink, show st₁.last = none from congrArg Decode.last hdecode]
      rfl
    rw [hink]
    have hbody : 0 < (psPclose d st₁).pdfbody :=
      hready'.body.resolve_right fun h => Bool.noConfusion (hm'.symm.trans h)
    rw [psEnd, hst₁, Res.ok_bind]
    simp only
    cases hpage : st₁.newpage with
    | true =>
      rw [hclose.newpage, hpage, if_pos rfl]
      exact iff_of_true (psFinish_ok hbody) fun _ => rfl
    | false =>
      rw [hclose.newpage, hpage, if_neg Bool.false_ne_true, hback, hm', hlast, psPclose_inline]
      cases hb : st.backsp with
      | true =>
        -- A pending backspace is an assertion failure while the page is open.
        refine iff_of_false ?_ fun h => Bool.noConfusion (h rfl)
        rintro ⟨st', hst'⟩
        rw [if_pos (Or.inr (Or.inr (Or.inl rfl)))] at hst'
        cases hst'
      | false =>
        refine iff_of_true ?_ fun h => Bool.noConfusion h
        -- Otherwise, the open page is closed first.
        obtain ⟨st₂, hst₂, hdec₂⟩ := psClosepage_ok (d := d) hready' hm' (hclose.newpage.trans hpage)
        have hbody₂ : 0 < st₂.pdfbody := hdec₂.ready.body.resolve_right fun h =>
          Bool.noConfusion ((hdec₂.margins.trans hm').symm.trans h)
        rw [if_neg (by simp), hst₂]
        exact psFinish_ok hbody₂

/-- When the first page begins, the margins were decoded, and no backspace is pending. -/
theorem psBegin_begun {head foot : List PsCall} (h : psBegin d head foot .alloc = .ok st) :
    Decode.calls (marginCalls head foot) .start = some st.decode ∧ st.decode.back = false ∧
      Begun d st := by
  obtain ⟨hok, herror⟩ := psBegin_decodes d head foot
  by_cases hgood : ∃ k ∈ Decode.calls (marginCalls head foot) .start, k.back = false
  · obtain ⟨k, hk, hback⟩ := hgood
    obtain ⟨st₁, hst₁, rfl, hbegun⟩ := hok k hk hback
    obtain rfl := Except.ok.inj (hst₁.symm.trans h)
    exact ⟨hk, hback, hbegun⟩
  · obtain ⟨e, he⟩ := herror fun k hk => by
      cases hback : k.back with
      | true => rfl
      | false => exact absurd ⟨k, hk, hback⟩ hgood
    rw [he] at h
    cases h

theorem Begun.ink (h : Begun d st) (hlast : st.last = none) : st.ink = (false, d.top) := by
  rw [PsState.ink, hlast, h.newpage, h.psrow]
  rfl

theorem Decode.calls_endline {l : List PsCall} {k k' : Decode}
    (h : k' ∈ Decode.calls (l ++ [.endline]) k) : k'.last = none := by
  rw [Decode.calls_append] at h
  obtain ⟨k₁, -, h⟩ := Option.bind_eq_some_iff.mp h
  obtain ⟨k₂, hk₂, h⟩ := Option.bind_eq_some_iff.mp h
  rw [← Option.some.inj h, Decode.mem_flush hk₂]

/-- A document is printed if and only if its requests can be decoded, and no backspace is pending
    behind the margins or on a page that is open at the end. -/
theorem psDocument_ok_iff (d : PsDevice) (head foot calls : List PsCall) :
    (∃ st, psDocument d head foot calls = .ok st) ↔
      ∃ k ∈ Decode.calls (marginCalls head foot) .start, k.back = false ∧
        ∃ k' ∈ Decode.calls calls k, k'.prints ∧
          (k'.back = true → (calls.foldl d.ink (false, d.top)).1 = false) := by
  -- What holds before `ps_end()`.
  have hbody : ∀ st₁ st₂, Begun d st₁ → st₁.last = none → psCalls d calls st₁ = .ok st₂ →
      PsReady st₂ ∧ st₂.margins = false ∧ Decode.calls calls st₁.decode = some st₂.decode ∧
        st₂.ink = calls.foldl d.ink (false, d.top) := by
    intro st₁ st₂ hbegun hlast hst₂
    have hcalls := psCalls_decodes (d := d) calls hbegun.ready
    rw [hst₂] at hcalls
    obtain ⟨k', hk', hdec⟩ := hcalls.decoded
    refine ⟨hdec.ready, hdec.margins.trans hbegun.margins, hdec.decode ▸ hk', ?_⟩
    rw [psCalls_ink hbegun.ready hbegun.margins hst₂, hbegun.ink hlast]
  have hmargin : ∀ k ∈ Decode.calls (marginCalls head foot) .start, k.last = none := by
    intro k hk
    rw [marginCalls, ← List.append_assoc] at hk
    exact Decode.calls_endline hk
  constructor
  · rintro ⟨st, hst⟩
    obtain ⟨st₁, hst₁, hst⟩ := Res.bind_eq_ok.mp hst
    obtain ⟨st₂, hst₂, hst⟩ := Res.bind_eq_ok.mp hst
    obtain ⟨hk, hback, hbegun⟩ := psBegin_begun hst₁
    obtain ⟨hready, hm, hk', hink⟩ := hbody st₁ st₂ hbegun (hmargin _ hk) hst₂
    obtain ⟨hprints, hend⟩ := (psEnd_ok_iff hready hm).mp ⟨st, hst⟩
    exact ⟨_, hk, hback, _, hk', hprints, hink ▸ hend⟩
  · rintro ⟨k, hk, hback, k', hk', hprints, hend⟩
    obtain ⟨st₁, hst₁, rfl, hbegun⟩ := (psBegin_decodes d head foot).1 k hk hback
    obtain ⟨st₂, hst₂, rfl⟩ : ∃ st₂, psCalls d calls st₁ = .ok st₂ ∧ st₂.decode = k' := by
      obtain ⟨st₂, hst₂, hdec⟩ := (psCalls_decodes (d := d) calls hbegun.ready).ok k' hk'
      exact ⟨st₂, hst₂, hdec.decode⟩
    obtain ⟨hready, hm, -, hink⟩ := hbody st₁ st₂ hbegun (hmargin _ hk) hst₂
    obtain ⟨st, hst⟩ := (psEnd_ok_iff (d := d) hready hm).mpr ⟨hprints, hink ▸ hend⟩
    exact ⟨st, by rw [psDocument, hst₁, Res.ok_bind, hst₂, Res.ok_bind, hst]⟩

end Mandoc
