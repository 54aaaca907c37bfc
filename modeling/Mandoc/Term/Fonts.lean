import Mandoc.Lib.Ensures
import Mandoc.Lib.Guarantees
import Mandoc.Term.Word

/-!
# The Font Stack of a Terminal

The formatters save the current font with `term_fontpush()` and return to it with `term_fontpop()`,
which asserts that there is a font to return to. In between they print words, and the escape
sequences in a word can replace the current font, but they cannot reach the fonts below it.

## Main results

- `termWord_fonts`: printing a word does not change the saved fonts.
- `FontsKept.popped`: what happens between a push and its pop concerns the pushed font only.
-/

namespace Mandoc

/-! ## §1 The functions -/

/-- `term_fontpush()` -/
def termFontpush (p : Termp) (f : TermFont) : Termp :=
  termFontrepl { p with
    fonti := p.fonti + 1
    fontq := Function.update p.fontq (p.fonti + 1) p.font } f

/-- `term_fontpop()` -/
def termFontpop (p : Termp) : Res Termp :=
  if p.fonti = 0 then .error .abort else .ok { p with fonti := p.fonti - 1 }

/-! ## §2 Saved fonts -/

/-- The font stack is as high as before, and the fonts below the current one are the same ones. -/
structure FontsKept (p p' : Termp) : Prop where
  fonti : p'.fonti = p.fonti
  fontq : ∀ i, i < p.fonti → p'.fontq i = p.fontq i

/-- Not even the current font has changed. -/
structure SameFonts (p p' : Termp) : Prop where
  fonti : p'.fonti = p.fonti
  fontq : p'.fontq = p.fontq

variable {p p' p'' : Termp} {c : Char} {f : TermFont} {w : CStr} {r : EscResult}

theorem SameFonts.refl (p : Termp) : SameFonts p p := ⟨rfl, rfl⟩

theorem SameFonts.trans (h : SameFonts p p') (h' : SameFonts p' p'') : SameFonts p p'' :=
  ⟨h'.fonti.trans h.fonti, h'.fontq.trans h.fontq⟩

theorem SameFonts.kept (h : SameFonts p p') : FontsKept p p' :=
  ⟨h.fonti, fun i _ => congrFun h.fontq i⟩

theorem FontsKept.trans (h : FontsKept p p') (h' : FontsKept p' p'') : FontsKept p p'' :=
  ⟨h'.fonti.trans h.fonti, fun i hi =>
    (h'.fontq i (h.fonti ▸ hi)).trans (h.fontq i hi)⟩

theorem setFont_fonts (p : Termp) (f : TermFont) : FontsKept p (p.setFont f) := by
  refine ⟨rfl, fun i hi => ?_⟩
  rw [Termp.setFont]
  exact Function.update_of_ne (Nat.ne_of_lt hi) f p.fontq

theorem termFontrepl_fonts (p : Termp) (f : TermFont) : FontsKept p (termFontrepl p f) :=
  (setFont_fonts p _).trans ⟨rfl, fun _ _ => rfl⟩

theorem termFontlast_fonts (p : Termp) : FontsKept p (termFontlast p) :=
  (setFont_fonts p _).trans ⟨rfl, fun _ _ => rfl⟩

/-- **Between a push and its pop**, whatever keeps the fonts below the pushed one keeps all fonts
    that there have been before. -/
theorem FontsKept.popped (h : FontsKept (termFontpush p f) p') :
    ∃ p'', termFontpop p' = .ok p'' ∧ FontsKept p p'' := by
  have hfonti : p'.fonti = p.fonti + 1 := h.fonti
  refine ⟨_, if_neg (by rw [hfonti]; exact Nat.succ_ne_zero _), ?_, fun i hi => ?_⟩
  · exact congrArg (· - 1) hfonti
  · have hpushed := h.fontq i (Nat.lt_succ_of_lt hi)
    refine hpushed.trans ?_
    refine (termFontrepl_fonts _ f).fontq i (Nat.lt_succ_of_lt hi) |>.trans ?_
    exact Function.update_of_ne (Nat.ne_of_lt (Nat.lt_succ_of_lt hi)) p.font p.fontq

/-! ## §3 Writing to the buffer -/

@[simp] theorem letter_fonti : (p.letter c).fonti = p.fonti := rfl

@[simp] theorem letter_fontq : (p.letter c).fontq = p.fontq := rfl

@[simp] theorem pushCell_fonti : (p.pushCell c).fonti = p.fonti := rfl

@[simp] theorem pushCell_fontq : (p.pushCell c).fontq = p.fontq := rfl

@[simp] theorem setBackbefore_fonti (b : Bool) : (p.setBackbefore b).fonti = p.fonti := rfl

@[simp] theorem setBackbefore_fontq (b : Bool) : (p.setBackbefore b).fontq = p.fontq := rfl

@[simp] theorem setBackafter_fonti (b : Bool) : (p.setBackafter b).fonti = p.fonti := rfl

@[simp] theorem setBackafter_fontq (b : Bool) : (p.setBackafter b).fontq = p.fontq := rfl

@[simp] theorem storeCell_fonti : (p.storeCell c).fonti = p.fonti := by
  unfold Termp.storeCell
  split <;> rfl

@[simp] theorem storeCell_fontq : (p.storeCell c).fontq = p.fontq := by
  unfold Termp.storeCell
  split <;> rfl

@[simp] theorem raiseLastcol_fonti : p.raiseLastcol.fonti = p.fonti := by
  unfold Termp.raiseLastcol
  split <;> rfl

@[simp] theorem raiseLastcol_fontq : p.raiseLastcol.fontq = p.fontq := by
  unfold Termp.raiseLastcol
  split <;> rfl

@[simp] theorem decorate_fonti : (decorate p f c).fonti = p.fonti := by
  simp only [decorate, apply_ite Termp.fonti, pushCell_fonti, ite_self]

@[simp] theorem decorate_fontq : (decorate p f c).fontq = p.fontq := by
  simp only [decorate, apply_ite Termp.fontq, pushCell_fontq, ite_self]

theorem bufferc_fonts (p : Termp) (c : Char) : SameFonts p (bufferc p c) := by
  unfold bufferc
  split
  · exact ⟨rfl, rfl⟩
  · exact ⟨by simp, by simp⟩

theorem backBefore_fonts (p : Termp) : Ensures (backBefore p) (SameFonts p) := by
  unfold backBefore
  refine .ite (fun _ => .ite (fun _ => Ensures.error_iff.mpr trivial) fun _ => ?_) fun _ => ?_
  · refine Ensures.ok_iff.mpr ⟨?_, ?_⟩
    · simp [apply_ite Termp.fonti]
    · simp [apply_ite Termp.fontq]
  · exact Ensures.ok_iff.mpr (.refl p)

theorem encode1_fonts (p : Termp) (c : Char) : Ensures (encode1 p c) (SameFonts p) := by
  unfold encode1
  refine .ite (fun _ => Ensures.pure_iff.mpr ⟨rfl, rfl⟩) fun _ => ?_
  refine (backBefore_fonts p).bind fun p₁ h₁ => Ensures.pure_iff.mpr (h₁.trans ⟨?_, ?_⟩)
  · simp [apply_ite Termp.fonti]
  · simp [apply_ite Termp.fontq]

theorem encodeByte_fonts (p : Termp) (c : Char) : Ensures (encodeByte p c) (SameFonts p) := by
  unfold encodeByte
  refine .ite (fun _ => encode1_fonts p c) fun _ => Ensures.ok_iff.mpr ⟨?_, ?_⟩
  · simp [apply_ite Termp.fonti]
  · simp [apply_ite Termp.fontq]

theorem foldlM_fonts (word : CStr) (p : Termp) :
    Ensures (word.foldlM encodeByte p) (SameFonts p) := by
  induction word generalizing p with
  | nil => exact Ensures.pure_iff.mpr (.refl p)
  | cons c word ih =>
    rw [List.foldlM_cons]
    exact (encodeByte_fonts p c).bind fun p₁ h₁ => (ih p₁).mono fun _ h₂ => h₁.trans h₂

theorem foldl_letter_fonts (word : CStr) (p : Termp) :
    SameFonts p (word.foldl Termp.letter p) := by
  induction word generalizing p with
  | nil => exact .refl p
  | cons c word ih => exact (⟨rfl, rfl⟩ : SameFonts p (p.letter c)).trans (ih _)

theorem encode_fonts (p : Termp) (word : CStr) : Ensures (encode p word) (SameFonts p) := by
  unfold encode
  refine .ite (fun _ => Ensures.ok_iff.mpr (foldl_letter_fonts word p)) fun _ => ?_
  exact (foldlM_fonts word p).bind fun p₁ h₁ =>
    Ensures.pure_iff.mpr (h₁.trans ⟨raiseLastcol_fonti, raiseLastcol_fontq⟩)

theorem encodeUc_fonts (p : Termp) (uc : Int) : Ensures (encodeUc p uc) (SameFonts p) :=
  Ensures.call fun word => encode_fonts p word

/-! ## §4 The escape sequences that draw -/

theorem horizStep_fonts {st : Termp × Int} (h : SameFonts p st.1) :
    Ensures (horizStep st) (Loop.Next.Sat (fun st => SameFonts p st.1) (SameFonts p)) := by
  unfold horizStep
  refine .ite (fun _ => Ensures.ok_iff.mpr h) fun _ => Ensures.ok_iff.mpr ?_
  refine h.trans ?_
  split
  · exact ⟨rfl, rfl⟩
  · exact bufferc_fonts _ _

theorem horizBack_fonts (p : Termp) (bu : Int) : Ensures (horizBack p bu) (SameFonts p) := by
  unfold horizBack
  extract_lets move
  have hmove : ∀ p', SameFonts p p' → Ensures (move p') (SameFonts p) := by
    intro p' h
    refine .ite (fun _ => Ensures.pure_iff.mpr (h.trans ⟨rfl, rfl⟩)) fun _ => ?_
    exact .ite (fun _ => Ensures.pure_iff.mpr (h.trans ⟨rfl, rfl⟩))
      fun _ => Ensures.pure_iff.mpr (h.trans ⟨rfl, rfl⟩)
  refine .ite (fun _ => .ite (fun _ => Ensures.error_iff.mpr trivial) fun _ => ?_) fun _ => ?_
  · exact hmove _ ⟨rfl, rfl⟩
  · exact hmove p (.refl p)

theorem horizEscape_fonts (p : Termp) : Ensures (horizEscape w p r) (SameFonts p) := by
  unfold horizEscape
  refine .ite (fun _ => Ensures.pure_iff.mpr ⟨rfl, rfl⟩) fun _ => ?_
  refine Ensures.call fun c => ?_
  dsimp only
  split
  · exact Ensures.pure_iff.mpr (.refl p)
  · refine .ite (fun _ => ?_) fun _ => horizBack_fonts p _
    exact Loop.run_invariant (fun _ => horizStep_fonts) (.refl p)

theorem hlineEscape_fonts (p : Termp) : Ensures (hlineEscape w p r) (SameFonts p) := by
  unfold hlineEscape
  split
  · exact Ensures.pure_iff.mpr (.refl p)
  · refine .ite (fun _ => Ensures.pure_iff.mpr (.refl p)) fun _ => ?_
    dsimp only
    refine Ensures.call fun uc => Ensures.call fun cp => Ensures.call fun csz => ?_
    refine Loop.run_invariant (I := fun st => SameFonts p st.1) (fun st hst => ?_) (.refl p)
    unfold hlineStep
    refine .ite (fun _ => Ensures.pure_iff.mpr hst) fun _ => ?_
    exact (encode_fonts st.1 cp).bind fun p₁ h₁ => Ensures.pure_iff.mpr (hst.trans h₁)

theorem overstrikeEscape_fonts (p : Termp) : Ensures (overstrikeEscape w p r) (SameFonts p) := by
  unfold overstrikeEscape
  refine Ensures.bind (P := SameFonts p) ?_ fun p₁ h₁ => Ensures.pure_iff.mpr ?_
  · refine Loop.run_invariant (I := fun st => SameFonts p st.1) (fun st hst => ?_) (.refl p)
    unfold overstrikeStep
    refine .ite (fun _ => Ensures.pure_iff.mpr hst) fun _ => Ensures.call fun c => ?_
    refine .ite (fun _ => Ensures.call fun _ => Ensures.pure_iff.mpr hst) fun _ => ?_
    refine (encode1_fonts st.1 c).bind fun p₁ h₁ => ?_
    refine .ite (fun _ => Ensures.pure_iff.mpr (hst.trans h₁)) fun _ => ?_
    exact .ite (fun _ => Ensures.pure_iff.mpr ((hst.trans h₁).trans ⟨rfl, rfl⟩))
      fun _ => Ensures.pure_iff.mpr ((hst.trans h₁).trans ⟨rfl, rfl⟩)
  · unfold trimOverstrike
    dsimp only
    split <;> split <;> exact h₁.trans ⟨rfl, rfl⟩

/-! ## §5 Words -/

/-- An escape sequence can replace the current font. -/
theorem wordEscape_fonts (p : Termp) : Ensures (wordEscape w p r) (FontsKept p) := by
  have hsame : ∀ {x : Res Termp}, Ensures x (SameFonts p) → Ensures x (FontsKept p) :=
    fun h => h.mono fun _ => SameFonts.kept
  have hpure : ∀ {p' : Termp}, SameFonts p p' → Ensures (pure p' : Res Termp) (FontsKept p) :=
    fun h => Ensures.pure_iff.mpr h.kept
  have hskip : Ensures (pure (p.setBackafter true) : Res Termp) (FontsKept p) := hpure ⟨rfl, rfl⟩
  unfold wordEscape
  split
  case h_1 => exact hsame (Ensures.call fun _ => Ensures.call fun _ => encodeUc_fonts p _)
  case h_2 =>
    refine Ensures.call fun _ => ?_
    exact .ite (fun _ => hsame (encodeUc_fonts p _)) fun _ => hpure (bufferc_fonts p _)
  case h_3 =>
    refine Ensures.call fun _ => ?_
    split
    · exact hsame (encode_fonts p _)
    · exact hpure (bufferc_fonts p _)
  case h_4 => exact hsame (Ensures.call fun _ => encodeUc_fonts p _)
  -- Of the other sequences, only those that select a font change it.
  all_goals first
    | with_reducible exact Ensures.pure_iff.mpr (termFontrepl_fonts p _)
    | with_reducible exact Ensures.pure_iff.mpr (termFontlast_fonts p)
    | with_reducible exact hpure (bufferc_fonts p _)
    | with_reducible exact hsame (encode_fonts p _)
    | with_reducible exact hsame (horizEscape_fonts p)
    | with_reducible exact hsame (hlineEscape_fonts p)
    | with_reducible exact hsame (overstrikeEscape_fonts p)
    | with_reducible exact hpure (.refl p)
    | with_reducible exact hskip
    | skip
  refine .ite (fun _ => hpure ⟨rfl, rfl⟩) fun _ => Ensures.call fun c => ?_
  exact .ite (fun _ => hpure ⟨rfl, rfl⟩) fun _ => hpure (.refl p)

theorem wordStep_fonts {st : Termp × Nat} (h : FontsKept p st.1) :
    Ensures (wordStep w st) (Loop.Next.Sat (fun st => FontsKept p st.1) (FontsKept p)) := by
  unfold wordStep
  refine Ensures.call fun c => ?_
  refine .ite (fun _ => Ensures.pure_iff.mpr ?_) fun _ => ?_
  · exact h.trans (SameFonts.kept ⟨rfl, rfl⟩)
  refine .ite (fun _ => ?_) fun _ => Ensures.call fun r => ?_
  · refine .ite (fun _ => ?_) fun _ => ?_
    · exact (encode_fonts st.1 _).bind fun p₁ h₁ => Ensures.pure_iff.mpr (h.trans h₁.kept)
    · exact (encode_fonts st.1 _).bind fun p₁ h₁ => Ensures.pure_iff.mpr (h.trans h₁.kept)
  · exact (wordEscape_fonts st.1).bind fun p₁ h₁ => Ensures.pure_iff.mpr (h.trans h₁)

theorem termWordStart_fonts (p : Termp) : SameFonts p (termWordStart p) := by
  unfold termWordStart
  split
  · exact .refl p
  · have hspace : ∀ p' : Termp, SameFonts p p' → SameFonts p
        { p' with
          skipvsp := 0
          flags := { p'.flags with
            keep := p'.flags.keep || p'.flags.prekeep
            nospace := p'.flags.nonospace
            sentence := false
            nonewline := false } } := fun p' h => h.trans ⟨rfl, rfl⟩
    apply hspace
    split
    · exact .refl p
    split
    · exact bufferc_fonts p _
    · dsimp only
      split
      · exact (bufferc_fonts p _).trans (bufferc_fonts _ _)
      · exact bufferc_fonts p _

/-- **A word does not change the saved fonts.** -/
theorem termWord_fonts (p : Termp) (word : CStr) : Ensures (termWord p word) (FontsKept p) :=
  Loop.run_invariant (fun _ => wordStep_fonts) (termWordStart_fonts p).kept

end Mandoc
