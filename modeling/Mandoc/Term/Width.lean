import Mandoc.Term.Cells

/-!
# Measured and Printed Width

The function `term_strlen()` is to "calculate the width of produced strings", and it "follows the
logic in term_word()". This file compares the width it returns with the visual width that
`term_field()` computes for the cells appended by `term_word()`.

- `Ordinary` are the strings made of printable bytes, blanks, and the escape sequences that stand
  for a character or select a font. `Produces` is the text that such a string produces.
- `termStrlen_eq`: the sum of the widths of all bytes of the text is measured.
- `termWord_appends`: cells that show the text are appended.

The ASCII replacement of a character may contain a backspace. It is printed without moving to the
right, but measured like any other byte. A tab that is produced by an escape sequence is measured
like a character, but moves to a tab position.
-/

namespace Mandoc

/-! ## §1 What a string produces -/

/-- An ordinary printable byte or a blank, including those marked by the parsers. -/
def PlainByte (c : Char) : Prop :=
  c = '\t' ∨ c = ASCII_NBRSP ∨ c = ASCII_HYPH ∨ (' ' ≤ c ∧ c ≤ '~' ∧ c ≠ '\\')

instance : DecidablePred PlainByte := fun c => by
  unfold PlainByte
  infer_instance

/-- The types of the escape sequences that stand for a character. -/
def Esc.isGlyph : Esc → Bool
  | .UNICODE | .NUMBERED | .SPECIAL | .UNDEF | .IGNORE => true
  | _ => false

/-- From the index on, the string consists of plain bytes, escape sequences that stand for a
    character, and escape sequences that select a font. -/
inductive Ordinary (w : CStr) : Nat → Prop where
  | nil : Ordinary w w.length
  | byte {i : Nat} : PlainByte (charAt w i) → Ordinary w (i + 1) → Ordinary w i
  | font {i : Nat} {r : EscResult} : charAt w i = '\\' → mandocEscape w i = .ok r →
      r.rval.isFont → Ordinary w r.rend → Ordinary w i
  | glyph {i : Nat} {r : EscResult} : charAt w i = '\\' → mandocEscape w i = .ok r →
      r.rval.isGlyph → (r.rval = .UNDEF → (charAt w r.rarg).toNat < 128) → Ordinary w r.rend →
      Ordinary w i

/-- The text that is printed for an escape sequence. -/
def glyphText (w : CStr) (r : EscResult) : Res CStr := do
  match r.rval with
  | .UNICODE => asciiUc2str (← mcharsNum2uc (← readArg w (r.rarg + 1) r.rendarg))
  | .NUMBERED =>
    let uc := mcharsNum2char (← readArg w r.rarg r.rendarg)
    if 0 ≤ uc then asciiUc2str uc else return [ASCII_NBRZW]
  | .SPECIAL => return (mcharsSpec2str (← readArg w r.rarg r.rendarg)).getD [ASCII_NBRZW]
  | .UNDEF => asciiUc2str (signedByte (← rd w r.rarg))
  | _ => return [ASCII_NBRZW]

/-- The text that the rest of a string produces. -/
inductive Produces (w : CStr) : Nat → CStr → Prop where
  | nil : Produces w w.length []
  | byte {i : Nat} {text : CStr} : PlainByte (charAt w i) → Produces w (i + 1) text →
      Produces w i (charAt w i :: text)
  | font {i : Nat} {r : EscResult} {text : CStr} : charAt w i = '\\' → mandocEscape w i = .ok r →
      r.rval.isFont → Produces w r.rend text → Produces w i text
  | glyph {i : Nat} {r : EscResult} {s text : CStr} : charAt w i = '\\' →
      mandocEscape w i = .ok r → r.rval.isGlyph → glyphText w r = .ok s →
      Produces w r.rend text → Produces w i (s ++ text)

section

variable {w : CStr} {i : Nat} {text s : CStr} {r : EscResult}

theorem asciiUc2str_ok {uc : Int} (h : 0 ≤ uc) : ∃ s, asciiUc2str uc = .ok s := by
  unfold asciiUc2str
  rw [if_neg (Int.not_lt.mpr h)]
  split
  · exact ⟨_, rfl⟩
  · exact ⟨_, rfl⟩

/-- Every escape sequence that stands for a character has a text. -/
theorem glyphText_ok (harg : ArgInside w r) (hglyph : r.rval.isGlyph)
    (hundef : r.rval = .UNDEF → (charAt w r.rarg).toNat < 128) : ∃ s, glyphText w r = .ok s := by
  have herror : r.rval ≠ .ERROR := by
    rintro heq
    rw [heq] at hglyph
    cases hglyph
  have hexpand : r.rval ≠ .EXPAND := by
    rintro heq
    rw [heq] at hglyph
    cases hglyph
  have hread : readArg w r.rarg r.rendarg = .ok (slice w r.rarg r.rendarg) :=
    if_pos (harg.rendarg_le herror hexpand)
  unfold glyphText
  -- The cases are the kinds of sequences that print something.
  split
  · next heq =>
    obtain ⟨hs, hname⟩ := harg.unicode heq
    have hdigits : readArg w (r.rarg + 1) r.rendarg = .ok hs := by
      rw [readArg, if_pos (harg.rendarg_le herror hexpand), slice_tail, hname.name_eq]
      rfl
    rw [hdigits, Res.ok_bind, hname.num2uc, Res.ok_bind]
    exact asciiUc2str_ok (Int.natCast_nonneg _)
  · rw [hread, Res.ok_bind]
    dsimp only
    split
    · next h => exact asciiUc2str_ok h
    · exact ⟨_, rfl⟩
  · rw [hread]
    exact ⟨_, rfl⟩
  · next heq =>
    rw [rd_of_le (harg.rarg_le herror hexpand), Res.ok_bind]
    refine asciiUc2str_ok ?_
    rw [signedByte, if_pos (hundef heq)]
    exact Int.natCast_nonneg _
  · exact ⟨_, rfl⟩

/-- **Totality.** Every ordinary string produces a text. -/
theorem Ordinary.produces (hs : NUL ∉ w) (h : Ordinary w i) : ∃ text, Produces w i text := by
  induction h with
  | nil => exact ⟨[], .nil⟩
  | byte hc _ ih =>
    obtain ⟨text, htext⟩ := ih
    exact ⟨_, .byte hc htext⟩
  | font hc hr hfont _ ih =>
    obtain ⟨text, htext⟩ := ih
    exact ⟨text, .font hc hr hfont htext⟩
  | @glyph i r hc hr hglyph hundef _ ih =>
    obtain ⟨text, htext⟩ := ih
    have hesc : charAt w i ≠ NUL := by
      rw [hc]
      decide
    obtain ⟨s, hstr⟩ := glyphText_ok ((mandocEscape_argInside hs hesc).of_eq_ok hr) hglyph hundef
    exact ⟨s ++ text, .glyph hc hr hglyph hstr htext⟩

/-! ## §2 The tables -/

theorem lines_wellStruck : lines.all fun ln => wellStruck 0 ln.ascii.toList := by decide +kernel

theorem uc2strTab_wellStruck : uc2strTab.all fun s => wellStruck 0 s.toList := by decide +kernel

theorem asciiUc2str_wellStruck {uc : Int} (h : asciiUc2str uc = .ok s) : wellStruck 0 s := by
  unfold asciiUc2str at h
  split at h
  · cases h
  split at h
  · next hget =>
    cases h
    exact List.all_eq_true.mp uc2strTab_wellStruck _ (List.mem_of_getElem? hget)
  · cases h
    unfold mcharsUc2str
    split
    · next hfind => exact List.all_eq_true.mp lines_wellStruck _ (List.mem_of_find?_eq_some hfind)
    · decide

theorem glyphText_wellStruck (h : glyphText w r = .ok s) : wellStruck 0 s := by
  unfold glyphText at h
  split at h
  · simp only [Res.bind_eq_ok] at h
    obtain ⟨a, -, uc, -, h⟩ := h
    exact asciiUc2str_wellStruck h
  · obtain ⟨a, -, h⟩ := Res.bind_eq_ok.mp h
    dsimp only at h
    split at h
    · exact asciiUc2str_wellStruck h
    · cases h
      decide
  · obtain ⟨a, -, h⟩ := Res.bind_eq_ok.mp h
    cases h
    unfold mcharsSpec2str
    cases hfind : lines.find? fun ln => ln.roffcode.toList = a with
    | none => decide
    | some ln => exact List.all_eq_true.mp lines_wellStruck _ (List.mem_of_find?_eq_some hfind)
  · obtain ⟨c, -, h⟩ := Res.bind_eq_ok.mp h
    exact asciiUc2str_wellStruck h
  · cases h
    decide

/-- In the text, too. -/
theorem Produces.wellStruck (h : Produces w i text) (last : Nat) : wellStruck last text := by
  induction h generalizing last with
  | nil => rfl
  | byte hc _ ih =>
    have hne : ∀ c, ¬ PlainByte c → charAt w _ ≠ c := fun c hn heq => hn (heq ▸ hc)
    exact wellStruck_cons.mpr ⟨fun heq => absurd heq (hne BS (by decide)), hne '\n' (by decide),
      hne ASCII_TABREF (by decide), ih _⟩
  | font _ _ _ _ ih => exact ih last
  | glyph _ _ _ hstr _ ih => exact wellStruck_append (wellStruck_mono (glyphText_wellStruck hstr)) ih

/-! ## §3 Runs of bytes -/

theorem Produces.le_length (h : Produces w i text) : i ≤ w.length := by
  have hlt : ∀ {c : Char}, charAt w i = c → c ≠ NUL → i ≤ w.length := fun hc hne =>
    (lt_length_of_charAt_ne_nul (hc ▸ hne)).le
  cases h with
  | nil => exact Nat.le_refl _
  | byte hc => exact hlt rfl fun heq => absurd (heq ▸ hc) (by decide)
  | font hc => exact hlt hc (by decide)
  | glyph hc => exact hlt hc (by decide)

/-- Bytes that do not begin an escape sequence produce themselves. -/
theorem Produces.split {n : Nat} (h : Produces w i text) (hn : i + n ≤ w.length)
    (hesc : ∀ k, k < n → charAt w (i + k) ≠ '\\') :
    ∃ text', text = slice w i (i + n) ++ text' ∧ Produces w (i + n) text' := by
  induction n generalizing i text with
  | zero => exact ⟨text, by simp [slice], h⟩
  | succ n ih =>
    have hne : charAt w i ≠ '\\' := hesc 0 (Nat.zero_lt_succ n)
    have hassoc : i + (n + 1) = i + 1 + n := by rw [Nat.add_assoc, Nat.add_comm 1 n]
    cases h with
    | nil => exact absurd hn (Nat.not_le.mpr (Nat.lt_add_of_pos_right (Nat.zero_lt_succ n)))
    | @byte _ text hc h =>
      rw [hassoc] at hn ⊢
      obtain ⟨text', rfl, h'⟩ := ih h hn fun k hk => by
        rw [Nat.add_assoc, Nat.add_comm 1 k]
        exact hesc (k + 1) (Nat.succ_lt_succ hk)
      have hlt : i < w.length := Nat.lt_of_lt_of_le (by omega) hn
      refine ⟨text', ?_, h'⟩
      rw [slice_append w (Nat.le_succ i) (Nat.le_add_right _ n), slice_succ hlt]
      rfl
    | font hc => exact absurd hc hne
    | glyph hc => exact absurd hc hne

/-- An escape sequence ends behind its beginning. -/
theorem lt_rend_word (hs : NUL ∉ w) (hc : charAt w i = '\\') (hr : mandocEscape w i = .ok r) :
    i < r.rend := by
  have hne : charAt w i ≠ NUL := by
    rw [hc]
    decide
  have hb := ((mandocEscape_bounded hs hne).of_eq_ok hr).2
  exact Nat.lt_of_le_of_lt hb.resc_ge hb.resc_lt

/-! ## §4 The measured width -/

section

variable {p : Termp}

theorem foldl_condWidth (p : Termp) (s : CStr) (cp sz : Nat) :
    s.foldl (StrlenState.condWidth p) ⟨cp, sz, false⟩ = ⟨cp, sz + (s.map p.getwidth).sum, false⟩ := by
  induction s generalizing sz with
  | nil => rfl
  | cons c s ih =>
    rw [List.foldl_cons, StrlenState.condWidth, if_neg Bool.false_ne_true, ih, List.map_cons,
      List.sum_cons, Nat.add_assoc]

/-- An escape sequence that stands for a character is measured by its text. -/
theorem strlenEscape_glyph (hwidth : p.getwidth = asciiGetwidth) (hglyph : r.rval.isGlyph)
    (h : glyphText w r = .ok s) (cp sz : Nat) :
    strlenEscape p w ⟨cp, sz, false⟩ r = .ok ⟨r.rend, sz + textWidth s, false⟩ := by
  -- Every escape sequence that prints adds the width of its text.
  have hadd : ∀ s, StrlenState.addText p ⟨r.rend, sz, false⟩ s = ⟨r.rend, sz + textWidth s, false⟩ := by
    intro s
    rw [StrlenState.addText, hwidth]
    rfl
  have hzero : textWidth [ASCII_NBRZW] = 0 := by decide
  unfold glyphText at h
  unfold strlenEscape
  dsimp only
  cases hrval : r.rval <;> rw [hrval] at h hglyph <;> cases hglyph
  case IGNORE =>
    cases h
    rfl
  case UNDEF =>
    obtain ⟨c, hc, h⟩ := Res.bind_eq_ok.mp h
    simp only [hc, h, hadd, Res.ok_bind, Res.pure_eq_ok]
  case SPECIAL =>
    obtain ⟨a, ha, h⟩ := Res.bind_eq_ok.mp h
    cases h
    simp only [ha, Res.ok_bind, Res.pure_eq_ok]
    cases mcharsSpec2str a with
    | none => rfl
    | some s => exact congrArg Except.ok (hadd s)
  case NUMBERED =>
    obtain ⟨a, ha, h⟩ := Res.bind_eq_ok.mp h
    simp only [ha, Res.ok_bind, Res.pure_eq_ok] at h ⊢
    split at h
    · next hge =>
      -- A character that can be printed.
      rw [if_neg (Int.not_lt.mpr hge), h, Res.ok_bind, hadd]
    · next hlt =>
      -- Others become a zero-width space.
      cases h
      rw [if_pos (Int.not_le.mp hlt), hzero]
      rfl
  case UNICODE =>
    simp only [Res.bind_eq_ok] at h
    obtain ⟨a, ha, uc, huc, h⟩ := h
    simp only [ha, huc, h, hadd, Res.ok_bind, Res.pure_eq_ok]

theorem strlenEscape_font (hfont : r.rval.isFont) (cp sz : Nat) :
    strlenEscape p w ⟨cp, sz, false⟩ r = .ok ⟨r.rend, sz, false⟩ := by
  unfold strlenEscape
  cases hrval : r.rval <;> rw [hrval] at hfont <;> first | rfl | cases hfont

/-- One iteration measures the beginning of the text. -/
theorem strlenStep_spec (hs : NUL ∉ w) (hwidth : p.getwidth = asciiGetwidth) (h : Produces w i text)
    (hi : i < w.length) (sz : Nat) :
    ∃ j s text', strlenStep p w ⟨i, sz, false⟩ = .ok (.again ⟨j, sz + textWidth s, false⟩) ∧
      i < j ∧ text = s ++ text' ∧ Produces w j text' := by
  have hrun := strcspn_drop_spec w i strlenRejs
  have hle := strcspn_drop_le hi.le strlenRejs
  unfold strlenStep
  rw [rd_of_le hi.le, Res.ok_bind, if_neg (charAt_ne_nul hs hi)]
  generalize strcspn (w.drop i) strlenRejs = n at hrun hle ⊢
  obtain ⟨text', rfl, h'⟩ := h.split hle fun k hk heq => hrun.1 k hk (heq ▸ by decide)
  have hsum : ((slice w i (i + n)).map p.getwidth).sum = textWidth (slice w i (i + n)) := by
    rw [hwidth]
    rfl
  dsimp only
  rw [foldl_condWidth, hsum, rd_of_le hle, Res.ok_bind]
  generalize hj : i + n = j at h' hle hrun ⊢
  have hij : i ≤ j := hj ▸ Nat.le_add_right i n
  -- What ends the run: the end of the string, a special byte, or an escape sequence.
  cases h' with
  | nil =>
    have hnul : charAt w w.length = NUL := charAt_of_ge (Nat.le_refl _)
    refine ⟨w.length, slice w i w.length, [], ?_, hi, rfl, .nil⟩
    rw [hnul]
    rfl
  | @byte _ text' hc h' =>
    have hlt : j < w.length := lt_length_of_charAt_ne_nul fun heq => absurd (heq ▸ hc) (by decide)
    refine ⟨j + 1, slice w i j ++ [charAt w j], text', ?_, Nat.lt_succ_of_le hij, by simp, h'⟩
    have hspecial : charAt w j = ASCII_NBRSP ∨ charAt w j = ASCII_HYPH := by
      have hmem := hrun.2 hlt
      simp only [strlenRejs, List.mem_cons, List.not_mem_nil, or_false] at hmem
      obtain heq | heq | heq | heq | heq | heq := hmem
      · exact absurd (heq ▸ hc) (by decide)
      · exact .inl heq
      · exact absurd (heq ▸ hc) (by decide)
      · exact absurd (heq ▸ hc) (by decide)
      · exact .inr heq
      · exact absurd (heq ▸ hc) (by decide)
    rw [textWidth_append, ← Nat.add_assoc]
    obtain heq | heq := hspecial
    · rw [heq, if_neg (by decide), if_pos rfl, StrlenState.condWidth, hwidth]
      rfl
    · rw [heq, if_neg (by decide), if_neg (by decide), if_pos rfl, StrlenState.condWidth, hwidth]
      rfl
  | @font _ r _ hc hr hfont h' =>
    refine ⟨r.rend, slice w i j, text', ?_, Nat.lt_of_le_of_lt hij (lt_rend_word hs hc hr), rfl, h'⟩
    rw [if_pos hc, hr, Res.ok_bind, strlenEscape_font hfont]
    rfl
  | @glyph _ r s text' hc hr hglyph hstr h' =>
    refine ⟨r.rend, slice w i j ++ s, text', ?_, Nat.lt_of_le_of_lt hij (lt_rend_word hs hc hr), by simp, h'⟩
    rw [if_pos hc, hr, Res.ok_bind, strlenEscape_glyph hwidth hglyph hstr, textWidth_append,
      Nat.add_assoc]
    rfl

theorem Produces.eq_nil (h : Produces w w.length text) : text = [] := by
  have hnul : charAt w w.length = NUL := charAt_of_ge (Nat.le_refl _)
  generalize hi : w.length = i at h hnul
  cases h with
  | nil => rfl
  | byte hc => exact absurd (hnul ▸ hc) (by decide)
  | font hc => exact absurd (hnul.symm.trans hc) (by decide)
  | glyph hc => exact absurd (hnul.symm.trans hc) (by decide)

theorem strlenRun_eq (hs : NUL ∉ w) (hwidth : p.getwidth = asciiGetwidth) {n : Nat}
    (hn : w.length < i + n) (h : Produces w i text) (sz : Nat) :
    Loop.run (strlenStep p w) .fuel n ⟨i, sz, false⟩ = .ok (sz + textWidth text) := by
  induction n generalizing i text sz with
  | zero => exact absurd h.le_length (Nat.not_le.mpr hn)
  | succ n ih =>
    rw [Loop.run_succ]
    obtain hi | hi := Nat.lt_or_eq_of_le h.le_length
    · obtain ⟨j, s, text', hstep, hij, rfl, h'⟩ := strlenStep_spec hs hwidth h hi sz
      rw [hstep, textWidth_append, ← Nat.add_assoc]
      exact ih (by omega) h' _
    · subst hi
      have hdone : strlenStep p w ⟨w.length, sz, false⟩ = .ok (.done sz) := by
        unfold strlenStep
        rw [rd_of_le (Nat.le_refl _), charAt_of_ge (Nat.le_refl _)]
        rfl
      rw [hdone, h.eq_nil]
      rfl

/-- **The measured width** is the sum of the widths of all bytes of the text. -/
theorem termStrlen_eq (hs : NUL ∉ w) (hwidth : p.getwidth = asciiGetwidth)
    (h : Produces w 0 text) : termStrlen p w = .ok (textWidth text) := by
  rw [termStrlen, strlenRun_eq hs hwidth (by omega) h, Nat.zero_add]

end

/-! ## §5 The printed cells -/

section

variable {p : Termp}

theorem encodeUc_appends (hp : Appending p) {uc : Int} (h : asciiUc2str uc = .ok s) :
    ∃ p' cells, encodeUc p uc = .ok p' ∧ Appends p p' cells ∧ Typeset s cells := by
  unfold encodeUc
  rw [h, Res.ok_bind]
  exact encode_appends hp s

/-- The cells of an escape sequence that stands for a character show its text. -/
theorem wordEscape_glyph (hp : Appending p) (hglyph : r.rval.isGlyph) (h : glyphText w r = .ok s) :
    ∃ p' cells, wordEscape w p r = .ok p' ∧ Appends p p' cells ∧ Typeset s cells := by
  -- What cannot be printed becomes a zero-width space.
  have hzero : ∃ p' cells, (Except.ok (bufferc p ASCII_NBRZW) : Res Termp) = .ok p' ∧
      Appends p p' cells ∧ Typeset [ASCII_NBRZW] cells :=
    ⟨_, _, rfl, appends_bufferc hp ASCII_NBRZW, .char .nil⟩
  unfold glyphText at h
  unfold wordEscape
  cases hrval : r.rval <;> rw [hrval] at h hglyph <;> cases hglyph
  case IGNORE =>
    cases h
    exact hzero
  case UNDEF =>
    obtain ⟨c, hc, h⟩ := Res.bind_eq_ok.mp h
    simp only [hc, Res.ok_bind]
    exact encodeUc_appends hp h
  case SPECIAL =>
    obtain ⟨a, ha, h⟩ := Res.bind_eq_ok.mp h
    cases h
    simp only [ha, Res.ok_bind]
    cases mcharsSpec2str a with
    | none => exact hzero
    | some s => exact encode_appends hp s
  case NUMBERED =>
    obtain ⟨a, ha, h⟩ := Res.bind_eq_ok.mp h
    simp only [ha, Res.ok_bind] at h ⊢
    split at h
    · next hge =>
      rw [if_pos hge]
      exact encodeUc_appends hp h
    · next hlt =>
      cases h
      rw [if_neg hlt]
      exact hzero
  case UNICODE =>
    simp only [Res.bind_eq_ok] at h
    obtain ⟨a, ha, uc, huc, h⟩ := h
    simp only [ha, huc, Res.ok_bind]
    exact encodeUc_appends hp h

/-- Selecting a font appends nothing. -/
theorem wordEscape_font (p : Termp) (hfont : r.rval.isFont) :
    ∃ p', wordEscape w p r = .ok p' ∧ Appends p p' [] := by
  have hrepl : ∀ f, Appends p (termFontrepl p f) [] := fun f => appends_setFont p _ _
  unfold wordEscape
  cases hrval : r.rval <;> rw [hrval] at hfont
  case FONTPREV => exact ⟨_, rfl, appends_setFont p _ _⟩
  all_goals first | exact ⟨_, rfl, hrepl _⟩ | cases hfont

/-- One iteration appends cells for the beginning of the text. -/
theorem wordStep_appends (hs : NUL ∉ w) (hp : Appending p) (h : Produces w i text)
    (hi : i < w.length) :
    ∃ p' cells j s text', wordStep w (p, i) = .ok (.again (p', j)) ∧ Appends p p' cells ∧
      Typeset s cells ∧ i < j ∧ text = s ++ text' ∧ Produces w j text' := by
  unfold wordStep
  dsimp only
  rw [rd_of_le hi.le, Res.ok_bind, if_neg (charAt_ne_nul hs hi)]
  split
  · next hesc =>
    split
    · next hblank =>
      -- A non-breaking space is printed for a blank.
      obtain ⟨p', cells, heq, happ, htype⟩ := encode_appends hp [ASCII_NBRSP]
      have hsplit := h.split (Nat.succ_le_of_lt hi) fun k hk => by
        obtain rfl : k = 0 := Nat.lt_one_iff.mp hk
        exact hesc
      obtain ⟨text', rfl, h'⟩ := hsplit
      refine ⟨p', cells, i + 1, [' '], text', ?_, happ, htype.toBlank, Nat.lt_succ_self i, ?_, h'⟩
      · rw [heq]
        rfl
      · rw [slice_succ hi, hblank.2]
    · next hblank =>
      generalize hrej : (if p.flags.nbrword then ['\\', ' '] else ['\\']) = rej
      have hmem : '\\' ∈ rej := by
        rw [← hrej]
        split <;> decide
      have hnot : charAt w i ∉ rej := by
        rw [← hrej]
        split
        · next hnbr => simpa using ⟨hesc, fun hc => hblank ⟨hnbr, hc⟩⟩
        · simpa using hesc
      have hrun := strcspn_drop_spec w i rej
      have hle := strcspn_drop_le hi.le rej
      have hpos : 0 < strcspn (w.drop i) rej := by
        refine Nat.pos_of_ne_zero fun hzero => hnot ?_
        rw [hzero] at hrun
        exact hrun.2 hi
      generalize strcspn (w.drop i) rej = n at hrun hle hpos ⊢
      obtain ⟨text', rfl, h'⟩ := h.split hle fun k hk heq => hrun.1 k hk (heq ▸ hmem)
      obtain ⟨p', cells, heq, happ, htype⟩ := encode_appends hp (slice w i (i + n))
      refine ⟨p', cells, i + n, _, text', ?_, happ, htype, Nat.lt_add_of_pos_right hpos, rfl, h'⟩
      rw [heq]
      rfl
  · next hesc =>
    have hc : charAt w i = '\\' := not_not.mp hesc
    cases h with
    | nil => exact absurd hi (Nat.lt_irrefl _)
    | byte hplain => exact absurd (hc ▸ hplain) (by decide)
    | @font _ r _ _ hr hfont h' =>
      obtain ⟨p', heq, happ⟩ := wordEscape_font p hfont
      refine ⟨p', [], r.rend, [], text, ?_, happ, .nil, lt_rend_word hs hc hr, rfl, h'⟩
      rw [hr, Res.ok_bind, heq]
      rfl
    | @glyph _ r s text' _ hr hglyph hstr h' =>
      obtain ⟨p', cells, heq, happ, htype⟩ := wordEscape_glyph hp hglyph hstr
      refine ⟨p', cells, r.rend, s, text', ?_, happ, htype, lt_rend_word hs hc hr, rfl, h'⟩
      rw [hr, Res.ok_bind, heq]
      rfl

theorem wordRun_appends (hs : NUL ∉ w) (hp : Appending p) {n : Nat} (hn : w.length < i + n)
    (h : Produces w i text) :
    ∃ p' cells, Loop.run (wordStep w) .fuel n (p, i) = .ok p' ∧ Appends p p' cells ∧
      Typeset text cells := by
  induction n generalizing p i text with
  | zero => exact absurd h.le_length (Nat.not_le.mpr hn)
  | succ n ih =>
    rw [Loop.run_succ]
    obtain hi | hi := Nat.lt_or_eq_of_le h.le_length
    · obtain ⟨p₁, ds, j, s, text', hstep, happ, htype, hij, rfl, h'⟩ := wordStep_appends hs hp h hi
      obtain ⟨p₂, es, hrun, happ', htype'⟩ := ih (happ.appending hp) (by omega) h'
      refine ⟨p₂, ds ++ es, ?_, happ.trans happ', htype.append htype'⟩
      rw [hstep]
      exact hrun
    · subst hi
      have hdone : wordStep w (p, w.length) =
          .ok (.done { p with flags := { p.flags with nbrword := false } }) := by
        unfold wordStep
        dsimp only
        rw [rd_of_le (Nat.le_refl _), charAt_of_ge (Nat.le_refl _)]
        rfl
      rw [hdone, h.eq_nil]
      exact ⟨_, [], rfl, .nil (fun hp => ⟨hp.lastcol_le, hp.nobuf, hp.backbefore, hp.backafter⟩)
        rfl rfl rfl, .nil⟩

theorem termWordStart_appending (hp : Appending p) : Appending (termWordStart p) ∧
    (termWordStart p).getwidth = p.getwidth := by
  have hspace : ∃ p' cells, Appends p p' cells ∧
      p' = (if p.flags.nospace then p
        else if p.flags.keep then bufferc p ASCII_NBRSP
        else
          let p := bufferc p ' '
          if p.flags.sentence then bufferc p ' ' else p) := by
    split
    · exact ⟨p, [], .refl p, rfl⟩
    split
    · exact ⟨_, _, appends_bufferc hp _, rfl⟩
    · have hfirst := appends_bufferc hp ' '
      dsimp only
      split
      · exact ⟨_, _, hfirst.trans (appends_bufferc (hfirst.appending hp) ' '), rfl⟩
      · exact ⟨_, _, hfirst, rfl⟩
  obtain ⟨p', cells, happ, heq⟩ := hspace
  unfold termWordStart
  rw [if_neg (by simp [hp.nobuf]), ← heq]
  have hp' := happ.appending hp
  exact ⟨⟨hp'.lastcol_le, hp'.nobuf, hp'.backbefore, hp'.backafter⟩, happ.getwidth⟩

/-- **The printed cells** show the text. -/
theorem termWord_appends (hs : NUL ∉ w) (hp : Appending p) (h : Produces w 0 text) :
    ∃ p' cells, termWord p w = .ok p' ∧ Appends (termWordStart p) p' cells ∧ Typeset text cells :=
  wordRun_appends hs (termWordStart_appending hp).1 (by omega) h

end

/-! ## §6 Agreement -/

/-- The measured width of the string is the distance that the visual position moves when the cells
    of the string are printed from the given state on. -/
def WidthsAgree (p : Termp) (w : CStr) (st : FieldState) : Prop :=
  ∃ n p' st', termStrlen p w = .ok n ∧ termWord p w = .ok p' ∧
    fieldCells { st with p := p' } (termWordStart p).col (p'.col - (termWordStart p).col) = .ok st' ∧
    st'.vis = st.vis + n

/-- If there is no tab in the text, or there are no tab positions, then the widths differ by those
    of the backspaces and tabs. -/
theorem widthsAgree_iff_count {p : Termp} {st : FieldState} (hs : NUL ∉ w) (hp : Appending p)
    (hwidth : p.getwidth = asciiGetwidth) (h : Produces w 0 text)
    (htab : '\t' ∈ text → st.tabs = .none) :
    WidthsAgree p w st ↔ text.count BS = 0 ∧ text.count '\t' = 0 := by
  obtain ⟨p', cells, hword, happ, htype⟩ := termWord_appends hs hp h
  have hwidth' : p'.getwidth = asciiGetwidth :=
    happ.getwidth.trans ((termWordStart_appending hp).2.trans hwidth)
  obtain ⟨st', hfield, hmoves⟩ := @fieldCells_moves { st with p := p' } (termWordStart p).col 0 cells
    hwidth' happ.cells (htype.wellStruck (h.wellStruck 0)) (fun hzero => absurd hzero (by decide))
    (fun hmem => htab (htype.tab_mem hmem))
  have hlen : p'.col - (termWordStart p).col = cells.length := by
    rw [happ.col, Nat.add_sub_cancel_left]
  have hvis : st'.vis = st.vis + visualWidth cells := hmoves.vis
  rw [htype.visualWidth_eq, visualWidth_eq] at hvis
  have hiff : WidthsAgree p w st ↔ st'.vis = st.vis + textWidth text := by
    constructor
    · rintro ⟨n, p₁, st₁, hn, hp₁, hst₁, heq⟩
      rw [termStrlen_eq hs hwidth h] at hn
      rw [hword] at hp₁
      cases hn
      cases hp₁
      rw [hlen, hfield] at hst₁
      cases hst₁
      exact heq
    · intro heq
      exact ⟨_, p', st', termStrlen_eq hs hwidth h, hword, by rw [hlen, hfield], heq⟩
  rw [hiff]
  omega

theorem produces_acute : Produces "\\('a".toList 0 "'\x08a".toList := by
  have hesc : mandocEscape "\\('a".toList 0 = .ok ⟨.SPECIAL, 0, 1, 2, 4, 4⟩ := by decide +kernel
  have htext : glyphText "\\('a".toList ⟨.SPECIAL, 0, 1, 2, 4, 4⟩ = .ok "'\x08a".toList := by
    decide +kernel
  exact .glyph rfl hesc rfl htext .nil

/-- The width of the acute `a` is measured as that of three characters. -/
theorem widthsAgree_acute_false : Ordinary "\\('a".toList 0 ∧ Appending (asciiInit fun _ => none) ∧
    (asciiInit fun _ => none).getwidth = asciiGetwidth ∧
    termStrlen (asciiInit fun _ => none) "\\('a".toList = .ok 72 ∧
    ¬ WidthsAgree (asciiInit fun _ => none) "\\('a".toList
      ⟨asciiInit fun _ => none, .none, 0, 0, 0⟩ := by
  have hs : NUL ∉ "\\('a".toList := by decide
  have hp : Appending (asciiInit fun _ => none) := ⟨Nat.le_refl _, rfl, rfl, rfl⟩
  have hesc : mandocEscape "\\('a".toList 0 = .ok ⟨.SPECIAL, 0, 1, 2, 4, 4⟩ := by decide +kernel
  refine ⟨.glyph rfl hesc rfl (by decide) .nil, hp, rfl, ?_, ?_⟩
  · rw [termStrlen_eq hs rfl produces_acute]
    decide
  · rw [widthsAgree_iff_count hs hp rfl produces_acute fun _ => rfl]
    decide

/-- **Measured and printed width** agree, wherever a string is printed, if and only if no character
    in it has an ASCII replacement with an overstrike, and none is a tab. Strings without a tab
    agree or disagree independently of the place. -/
theorem termStrlen_agrees_iff {w : CStr} {p : Termp} (hs : NUL ∉ w) (hw : Ordinary w 0)
    (hp : Appending p) (hwidth : p.getwidth = asciiGetwidth) :
    (∃ text, Produces w 0 text) ∧ ∀ text, Produces w 0 text →
      ((∀ st, WidthsAgree p w st) ↔ BS ∉ text ∧ '\t' ∉ text) ∧
        ('\t' ∉ text → ∀ st, WidthsAgree p w st ↔ BS ∉ text) := by
  refine ⟨hw.produces hs, fun text h => ⟨⟨fun hall => ?_, fun hno st => ?_⟩, fun hno st => ?_⟩⟩
  · -- A place without tab positions is enough.
    have hagree := hall ⟨p, .none, 0, 0, 0⟩
    rw [widthsAgree_iff_count hs hp hwidth h fun _ => rfl] at hagree
    exact ⟨List.count_eq_zero.mp hagree.1, List.count_eq_zero.mp hagree.2⟩
  · rw [widthsAgree_iff_count hs hp hwidth h fun htab => absurd htab hno.2]
    exact ⟨List.count_eq_zero.mpr hno.1, List.count_eq_zero.mpr hno.2⟩
  · rw [widthsAgree_iff_count hs hp hwidth h fun htab => absurd htab hno, List.count_eq_zero,
      List.count_eq_zero]
    exact ⟨fun hc => hc.1, fun hbs => ⟨hbs, hno⟩⟩

/-- A letter in bold font and a dash. -/
theorem termStrlen_agrees_words :
    Produces "\\fBa\\(em".toList 0 "a--".toList ∧
      ∀ st, WidthsAgree (asciiInit fun _ => none) "\\fBa\\(em".toList st := by
  have hfont : mandocEscape "\\fBa\\(em".toList 0 = .ok ⟨.FONTBOLD, 0, 1, 2, 3, 3⟩ := by
    decide +kernel
  have hdash : mandocEscape "\\fBa\\(em".toList 4 = .ok ⟨.SPECIAL, 4, 5, 6, 8, 8⟩ := by
    decide +kernel
  have htext : glyphText "\\fBa\\(em".toList ⟨.SPECIAL, 4, 5, 6, 8, 8⟩ = .ok "--".toList := by
    decide +kernel
  have hword : Ordinary "\\fBa\\(em".toList 0 :=
    .font rfl hfont rfl (.byte (by decide) (.glyph rfl hdash rfl (by decide) .nil))
  have hproduces : Produces "\\fBa\\(em".toList 0 "a--".toList :=
    .font rfl hfont rfl (.byte (by decide) (.glyph rfl hdash rfl htext .nil))
  have hagrees := termStrlen_agrees_iff (by decide) hword
    (show Appending (asciiInit fun _ => none) from ⟨Nat.le_refl _, rfl, rfl, rfl⟩) rfl
  exact ⟨hproduces, (hagrees.2 _ hproduces).1.mpr (by decide)⟩

end

end Mandoc
