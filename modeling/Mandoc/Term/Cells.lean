import Mandoc.Term.Field

/-!
# Cells Appended to the Output Buffer

When text is appended to the column buffer, italic and bold characters take several cells: the
character itself is preceded by characters that are struck over, each of them followed by a
backspace. This file relates a text to the cells that show it.

- `Appends` says which cells a function appends to the buffer.
- `Typeset` relates a text to cells in any font. It is kept by all functions that append text.
- `visualWidth` is the width of cells as they are printed, as opposed to `textWidth`, the sum of
  the widths of the characters. `visualWidth_eq` compares the two.
-/

namespace Mandoc

/-! ## §1 Appending cells -/

/-- The next cell is written behind all others, and no overstrike is pending. -/
structure Appending (p : Termp) : Prop where
  lastcol_le : p.tcol.lastcol ≤ p.col
  nobuf : p.flags.nobuf = false
  backbefore : p.flags.backbefore = false
  backafter : p.flags.backafter = false

/-- From the first state to the second one, the cells are appended to the buffer. -/
structure Appends (p p' : Termp) (cells : CStr) : Prop where
  appending : Appending p → Appending p'
  col : p'.col = p.col + cells.length
  before : ∀ k, k < p.col → p'.tcol.buf k = p.tcol.buf k
  cells : ∀ k, k < cells.length → p'.tcol.buf (p.col + k) = charAt cells k
  getwidth : p'.getwidth = p.getwidth

section

variable {p p' p'' : Termp} {cells cells' : CStr} {c : Char}

/-- Nothing is appended if the buffer remains as it is. -/
theorem Appends.nil (happ : Appending p → Appending p') (hcol : p'.col = p.col)
    (hbuf : p'.tcol.buf = p.tcol.buf) (hwidth : p'.getwidth = p.getwidth) : Appends p p' [] where
  appending := happ
  col := hcol
  before k _ := by rw [hbuf]
  cells k hk := absurd hk (Nat.not_lt_zero k)
  getwidth := hwidth

theorem Appends.refl (p : Termp) : Appends p p [] := .nil id rfl rfl rfl

theorem Appends.trans (h : Appends p p' cells) (h' : Appends p' p'' cells') :
    Appends p p'' (cells ++ cells') where
  appending hp := h'.appending (h.appending hp)
  col := by rw [h'.col, h.col, List.length_append, Nat.add_assoc]
  before k hk := by
    rw [h'.before k (h.col ▸ Nat.lt_add_right _ hk)]
    exact h.before k hk
  cells k hk := by
    rw [List.length_append] at hk
    by_cases hlt : k < cells.length
    · -- The cell was there before the second step.
      have hcell : charAt (cells ++ cells') k = charAt cells k := by
        simp [charAt, List.getD_eq_getElem?_getD, List.getElem?_append_left hlt]
      rw [h'.before _ (h.col ▸ Nat.add_lt_add_left hlt _), h.cells k hlt, hcell]
    · obtain ⟨j, rfl⟩ := Nat.exists_eq_add_of_le (Nat.le_of_not_lt hlt)
      have hcell := h'.cells j (Nat.lt_of_add_lt_add_left hk)
      rw [h.col, Nat.add_assoc] at hcell
      rw [hcell, charAt_append]
  getwidth := h'.getwidth.trans h.getwidth

/-- Write a cell and go to the next one. -/
theorem appends_pushCell (p : Termp) (c : Char) : Appends p (p.pushCell c) [c] where
  appending hp := ⟨Nat.le_succ_of_le hp.lastcol_le, hp.nobuf, hp.backbefore, hp.backafter⟩
  col := rfl
  before k hk := Function.update_of_ne (Nat.ne_of_lt hk) ..
  cells k hk := by
    obtain rfl : k = 0 := Nat.lt_one_iff.mp hk
    exact Function.update_self ..
  getwidth := rfl

theorem appends_raiseLastcol (p : Termp) : Appends p p.raiseLastcol [] := by
  unfold Termp.raiseLastcol
  split
  · exact .nil (fun hp => ⟨Nat.le_refl _, hp.nobuf, hp.backbefore, hp.backafter⟩) rfl rfl rfl
  · exact .refl p

theorem storeCell_eq (hp : Appending p) (c : Char) : p.storeCell c = p.setCell c :=
  if_pos (.inl hp.lastcol_le)

theorem appends_bufferc (hp : Appending p) (c : Char) : Appends p (bufferc p c) [c] := by
  unfold bufferc
  rw [if_neg (by simp [hp.nobuf]), storeCell_eq hp]
  exact (appends_pushCell p c).trans (appends_raiseLastcol _)

theorem appends_setFont (p : Termp) (f g : TermFont) :
    Appends p { p.setFont f with fontl := g } [] :=
  .nil (fun hp => ⟨hp.lastcol_le, hp.nobuf, hp.backbefore, hp.backafter⟩) rfl rfl rfl

end

/-! ## §2 Text and cells -/

/-- The cells show the text. A blank may be non-breaking, and cells may be struck over. -/
inductive Typeset : CStr → CStr → Prop where
  | nil : Typeset [] []
  | char {c : Char} {text cells : CStr} : Typeset text cells → Typeset (c :: text) (c :: cells)
  | blank {text cells : CStr} : Typeset text cells → Typeset (' ' :: text) (ASCII_NBRSP :: cells)
  | struck {x : Char} {text cells : CStr} : isgraph x → Typeset text cells →
      Typeset text (x :: BS :: cells)

section

variable {text text' cells cells' : CStr}

theorem Typeset.append (h : Typeset text cells) (h' : Typeset text' cells') :
    Typeset (text ++ text') (cells ++ cells') := by
  induction h with
  | nil => exact h'
  | char _ ih => exact .char ih
  | blank _ ih => exact .blank ih
  | struck hx _ ih => exact .struck hx ih

/-- The cells of a non-breaking space show a space as well. -/
theorem Typeset.toBlank (h : Typeset (ASCII_NBRSP :: text) cells) : Typeset (' ' :: text) cells := by
  generalize heq : ASCII_NBRSP :: text = l at h
  induction h with
  | nil => cases heq
  | char h => cases heq; exact .blank h
  | blank => exact absurd (List.cons.inj heq).1 (by decide)
  | struck hx _ ih => exact .struck hx (ih heq)

/-- No tab is added. -/
theorem Typeset.tab_mem (h : Typeset text cells) (htab : '\t' ∈ cells) : '\t' ∈ text := by
  induction h with
  | nil => exact htab
  | char _ ih =>
    obtain rfl | hmem := List.mem_cons.mp htab
    · exact List.mem_cons_self ..
    · exact List.mem_cons_of_mem _ (ih hmem)
  | blank _ ih =>
    obtain heq | hmem := List.mem_cons.mp htab
    · exact absurd heq (by decide)
    · exact List.mem_cons_of_mem _ (ih hmem)
  | struck hx _ ih =>
    obtain rfl | hmem := List.mem_cons.mp htab
    · exact absurd hx (by decide)
    obtain heq | hmem := List.mem_cons.mp hmem
    · exact absurd heq (by decide)
    · exact ih hmem

end

/-! ## §3 Encoding text -/

section

variable {p : Termp}

/-- A decoration strikes characters over. -/
theorem appends_decorate (p : Termp) {c : Char} (hc : c = ASCII_HYPH ∨ isgraph c) (f : TermFont)
    {text cells : CStr} (h : Typeset text cells) :
    ∃ ds, Appends p (decorate p f c) ds ∧ Typeset text (ds ++ cells) := by
  have hgraph : isgraph (if c = ASCII_HYPH then '-' else c) := by
    split
    · decide
    · next hne => exact hc.resolve_left hne
  have hpair : ∀ (p : Termp) (x : Char), Appends p ((p.pushCell x).pushCell BS) [x, BS] := fun p x =>
    (appends_pushCell p x).trans (appends_pushCell _ BS)
  unfold decorate
  cases f with
  | NONE => exact ⟨[], .refl p, h⟩
  | BOLD => exact ⟨_, hpair p _, .struck hgraph h⟩
  | UNDER => exact ⟨_, hpair p '_', .struck (by decide) h⟩
  | BI => exact ⟨_, (hpair p '_').trans (hpair _ _), .struck (by decide) (.struck hgraph h)⟩

/-- A printable character, in any font. -/
theorem encode1_appends (hp : Appending p) {c : Char} (hc : c = ASCII_HYPH ∨ isgraph c) :
    ∃ p' cells, encode1 p c = .ok p' ∧ Appends p p' cells ∧ Typeset [c] cells := by
  have hback : backBefore p = .ok p := if_neg (by simp [hp.backbefore])
  obtain ⟨ds, hds, htype⟩ := appends_decorate p hc p.font (.char (c := c) .nil)
  have hd := hds.appending hp
  have hall := (hds.trans (appends_pushCell _ c)).trans (appends_raiseLastcol _)
  refine ⟨_, _, ?_, hall, by simpa using htype⟩
  unfold encode1
  rw [if_neg (by simp [hp.nobuf]), if_pos hc, hback, Res.ok_bind, storeCell_eq hd]
  have hafter := (hall.appending hp).backafter
  exact congrArg Except.ok (if_neg (Bool.eq_false_iff.mp hafter))

theorem encodeByte_appends (hp : Appending p) (c : Char) :
    ∃ p' cells, encodeByte p c = .ok p' ∧ Appends p p' cells ∧ Typeset [c] cells := by
  unfold encodeByte
  split
  · next hc => exact encode1_appends hp hc
  · refine ⟨_, _, ?_, appends_pushCell p c, .char .nil⟩
    rw [storeCell_eq hp]
    exact congrArg Except.ok (if_neg fun h => by simp [Termp.setCell, hp.backbefore] at h)

theorem encodeBytes_appends (hp : Appending p) (word : CStr) :
    ∃ p' cells, word.foldlM encodeByte p = .ok p' ∧ Appends p p' cells ∧ Typeset word cells := by
  induction word generalizing p with
  | nil => exact ⟨p, [], rfl, .refl p, .nil⟩
  | cons c word ih =>
    obtain ⟨p₁, ds, heq, happ, htype⟩ := encodeByte_appends hp c
    obtain ⟨p₂, es, heq', happ', htype'⟩ := ih (happ.appending hp)
    refine ⟨p₂, ds ++ es, ?_, happ.trans happ', htype.append htype'⟩
    rw [List.foldlM_cons, heq, Res.ok_bind, heq']

/-- The cells that `encode()` appends show the string. -/
theorem encode_appends (hp : Appending p) (word : CStr) :
    ∃ p' cells, encode p word = .ok p' ∧ Appends p p' cells ∧ Typeset word cells := by
  obtain ⟨p', cells, heq, happ, htype⟩ := encodeBytes_appends hp word
  have hall := happ.trans (appends_raiseLastcol p')
  rw [List.append_nil] at hall
  refine ⟨_, _, ?_, hall, htype⟩
  unfold encode
  rw [if_neg (by simp [hp.nobuf]), heq]
  rfl

end

/-! ## §4 Widths -/

/-- The sum of the widths of all characters. -/
def textWidth (text : CStr) : Nat := (text.map asciiGetwidth).sum

/-- How far a cell moves the visual position, unless a tab moves it to a tab position. -/
def cellWidth (c : Char) : Int := if c = BS then -24 else if c = '\t' then 0 else asciiGetwidth c

/-- The width of cells as they are printed. -/
def visualWidth (cells : CStr) : Int := (cells.map cellWidth).sum

/-- Every backspace follows a cell with the width of a character, beginning behind a cell of the
    given width. No cell requests a line break, or moves the reference position for tabs. -/
def wellStruck : Nat → CStr → Bool
  | _, [] => true
  | last, c :: cells =>
    (c ≠ BS || last = 24) && c ≠ '\n' && c ≠ ASCII_TABREF && wellStruck (asciiGetwidth c) cells

section

variable {text text' cells cells' : CStr} {last : Nat}

@[simp] theorem visualWidth_nil : visualWidth [] = 0 := rfl

@[simp] theorem visualWidth_cons (c : Char) (cells : CStr) :
    visualWidth (c :: cells) = cellWidth c + visualWidth cells := rfl

@[simp] theorem textWidth_append (text text' : CStr) :
    textWidth (text ++ text') = textWidth text + textWidth text' := by
  simp [textWidth]

/-- **Two widths.** Backspaces and tabs make the difference. -/
theorem visualWidth_eq (text : CStr) :
    visualWidth text = textWidth text - 48 * text.count BS - 24 * text.count '\t' := by
  induction text with
  | nil => rfl
  | cons c text ih =>
    have hcons : textWidth (c :: text) = asciiGetwidth c + textWidth text := rfl
    rw [visualWidth_cons, ih, hcons]
    by_cases hbs : c = BS
    · subst hbs
      have hcount : (BS :: text).count '\t' = text.count '\t' := List.count_cons_of_ne (by decide)
      have hwidth : cellWidth BS = -24 ∧ asciiGetwidth BS = 24 := by decide
      rw [List.count_cons_self, hcount, hwidth.1, hwidth.2]
      omega
    by_cases htab : c = '\t'
    · subst htab
      have hcount : ('\t' :: text).count BS = text.count BS := List.count_cons_of_ne (by decide)
      have hwidth : cellWidth '\t' = 0 ∧ asciiGetwidth '\t' = 24 := by decide
      rw [List.count_cons_self, hcount, hwidth.1, hwidth.2]
      omega
    · have hwidth : cellWidth c = asciiGetwidth c := by
        rw [cellWidth, if_neg hbs, if_neg htab]
      rw [List.count_cons_of_ne hbs, List.count_cons_of_ne htab, hwidth]
      omega

theorem wellStruck_cons {c : Char} : wellStruck last (c :: cells) ↔
    (c = BS → last = 24) ∧ c ≠ '\n' ∧ c ≠ ASCII_TABREF ∧ wellStruck (asciiGetwidth c) cells := by
  simp [wellStruck, and_assoc, imp_iff_not_or]

theorem wellStruck_mono (h : wellStruck 0 cells) : wellStruck last cells := by
  cases cells with
  | nil => rfl
  | cons c cells =>
    obtain ⟨hbs, hrest⟩ := wellStruck_cons.mp h
    exact wellStruck_cons.mpr ⟨fun hc => absurd (hbs hc) (by decide), hrest⟩

theorem wellStruck_wide (h : wellStruck last cells) : wellStruck 24 cells := by
  cases cells with
  | nil => rfl
  | cons c cells => exact wellStruck_cons.mpr ⟨fun _ => rfl, (wellStruck_cons.mp h).2⟩

theorem wellStruck_append (h : wellStruck last text) (h' : ∀ last, wellStruck last text') :
    wellStruck last (text ++ text') := by
  induction text generalizing last with
  | nil => exact h' last
  | cons c text ih =>
    obtain ⟨hbs, hnl, href, hrest⟩ := wellStruck_cons.mp h
    exact wellStruck_cons.mpr ⟨hbs, hnl, href, ih hrest⟩

theorem asciiGetwidth_graph {x : Char} (hx : isgraph x) : asciiGetwidth x = 24 :=
  if_neg <| by rintro (rfl | rfl | rfl) <;> exact absurd hx (by decide)

/-- Printable characters are as wide as a backspace. -/
theorem cellWidth_graph {x : Char} (hx : isgraph x) : cellWidth x = 24 := by
  have hbs : x ≠ BS := by
    rintro rfl
    exact absurd hx (by decide)
  have htab : x ≠ '\t' := by
    rintro rfl
    exact absurd hx (by decide)
  rw [cellWidth, if_neg hbs, if_neg htab, asciiGetwidth_graph hx]
  rfl

/-- A character that is struck over does not change the width. -/
theorem Typeset.visualWidth_eq (h : Typeset text cells) : visualWidth cells = visualWidth text := by
  induction h with
  | nil => rfl
  | char _ ih => rw [visualWidth_cons, visualWidth_cons, ih]
  | blank _ ih =>
    have hwidth : cellWidth ASCII_NBRSP = cellWidth ' ' := by decide
    rw [visualWidth_cons, visualWidth_cons, ih, hwidth]
  | @struck x _ _ hx _ ih =>
    have hback : cellWidth BS = -24 := by decide
    rw [visualWidth_cons, visualWidth_cons, ih, cellWidth_graph hx, hback]
    omega

/-- The cells of a text are as well-formed as the text. -/
theorem Typeset.wellStruck (h : Typeset text cells) (hs : wellStruck last text) :
    Mandoc.wellStruck last cells := by
  induction h generalizing last with
  | nil => exact hs
  | char _ ih =>
    obtain ⟨hbs, hnl, href, hrest⟩ := wellStruck_cons.mp hs
    exact wellStruck_cons.mpr ⟨hbs, hnl, href, ih hrest⟩
  | blank _ ih =>
    have hwidth : asciiGetwidth ' ' = asciiGetwidth ASCII_NBRSP := by decide
    obtain ⟨-, -, -, hrest⟩ := wellStruck_cons.mp hs
    exact wellStruck_cons.mpr ⟨fun hc => absurd hc (by decide), by decide, by decide,
      ih (hwidth ▸ hrest)⟩
  | @struck x _ _ hx _ ih =>
    have hne : x ≠ BS ∧ x ≠ '\n' ∧ x ≠ ASCII_TABREF := by
      refine ⟨?_, ?_, ?_⟩ <;> rintro rfl <;> exact absurd hx (by decide)
    have hback : asciiGetwidth BS = 24 := by decide
    refine wellStruck_cons.mpr ⟨fun hc => absurd hc hne.1, hne.2.1, hne.2.2, ?_⟩
    refine wellStruck_cons.mpr ⟨fun _ => asciiGetwidth_graph hx, by decide, by decide, ?_⟩
    rw [hback]
    exact ih (wellStruck_wide hs)

end

/-! ## §5 Printing cells -/

/-- From the first state to the second one, the visual position has moved. -/
structure VisMoves (st st' : FieldState) (dv : Int) : Prop where
  vis : st'.vis = st.vis + dv
  tabs : st'.tabs = st.tabs
  tcol : st'.p.tcol = st.p.tcol
  getwidth : st'.p.getwidth = st.p.getwidth

section

variable {st st' st'' : FieldState} {dv dv' : Int} {ic last : Nat}

theorem VisMoves.trans (h : VisMoves st st' dv) (h' : VisMoves st' st'' dv') : VisMoves st st'' (dv + dv') where
  vis := by rw [h'.vis, h.vis, Int.add_assoc]
  tabs := h'.tabs.trans h.tabs
  tcol := h'.tcol.trans h.tcol
  getwidth := h'.getwidth.trans h.getwidth

/-- What `term_field()` does with one cell. -/
theorem fieldStep_moves (hwidth : st.p.getwidth = asciiGetwidth)
    (hback : st.p.tcol.buf ic = BS → 0 < ic ∧ asciiGetwidth (st.p.tcol.buf (ic - 1)) = 24)
    (hnl : st.p.tcol.buf ic ≠ '\n') (href : st.p.tcol.buf ic ≠ ASCII_TABREF)
    (htab : st.p.tcol.buf ic = '\t' → st.tabs = .none) :
    ∃ st', fieldStep st ic = .ok st' ∧ VisMoves st st' (cellWidth (st.p.tcol.buf ic)) := by
  unfold fieldStep
  generalize hc : st.p.tcol.buf ic = c at hback hnl href htab ⊢
  dsimp only
  split
  · next hzero =>
    have hcell : cellWidth c = 0 := by
      obtain h | rfl | rfl := hzero
      · exact absurd h hnl
      · decide
      · decide
    exact ⟨st, rfl, by rw [hcell, Int.add_zero], rfl, rfl, rfl⟩
  next hzero =>
  split
  · next h =>
    -- There is no tab position to go to.
    subst h
    have hnext := htab rfl
    rw [hnext, termTabNext_none, Res.ok_bind]
    have hcell : cellWidth '\t' = 0 := by decide
    exact ⟨_, rfl, by simp [FieldState.addBlank, hcell], hnext.symm, rfl, rfl⟩
  next hnotab =>
  split
  · next hblank =>
    have hcell : cellWidth c = 24 := by
      obtain rfl | rfl := hblank <;> decide
    have hspace : asciiGetwidth ' ' = 24 := by decide
    refine ⟨_, rfl, ?_, rfl, rfl, rfl⟩
    rw [hcell, hwidth, hspace]
    rfl
  split
  · next h =>
    obtain ⟨hpos, hlast⟩ := hback h
    rw [if_neg (Nat.pos_iff_ne_zero.mp hpos)]
    refine ⟨_, rfl, ?_, rfl, st.print_tcol c, st.print_getwidth c⟩
    rw [FieldState.print_tcol, FieldState.print_getwidth, hwidth, hlast, cellWidth, if_pos h]
    rfl
  · next hbs =>
    refine ⟨_, rfl, ?_, rfl, st.print_tcol c, st.print_getwidth c⟩
    rw [FieldState.print_getwidth, hwidth, cellWidth, if_neg hbs, if_neg hnotab]
    rfl

/-- **Printing.** The visual position moves by the width of the cells, unless there are tabs. -/
theorem fieldCells_moves {cells : CStr} (hwidth : st.p.getwidth = asciiGetwidth)
    (hcells : ∀ k, k < cells.length → st.p.tcol.buf (ic + k) = charAt cells k)
    (hs : wellStruck last cells)
    (hlast : last = 24 → 0 < ic ∧ asciiGetwidth (st.p.tcol.buf (ic - 1)) = 24)
    (htab : '\t' ∈ cells → st.tabs = .none) :
    ∃ st', fieldCells st ic cells.length = .ok st' ∧ VisMoves st st' (visualWidth cells) := by
  induction cells generalizing st ic last with
  | nil => exact ⟨st, rfl, (Int.add_zero _).symm, rfl, rfl, rfl⟩
  | cons c cells ih =>
    obtain ⟨hbs, hnl, href, hs⟩ := wellStruck_cons.mp hs
    have hc : st.p.tcol.buf ic = c := hcells 0 (Nat.zero_lt_succ _)
    obtain ⟨st₁, heq, hmoves⟩ := @fieldStep_moves st ic hwidth
      (fun h => hlast (hbs (hc.symm.trans h))) (hc ▸ hnl) (hc ▸ href)
      (fun h => htab (List.mem_cons.mpr (.inl (h.symm.trans hc))))
    obtain ⟨st₂, heq', hmoves'⟩ := @ih st₁ (ic + 1) _ (hmoves.getwidth.trans hwidth)
      (fun k hk => by
        rw [hmoves.tcol, Nat.add_assoc, Nat.add_comm 1 k]
        exact hcells (k + 1) (Nat.succ_lt_succ hk)) hs
      (fun h => ⟨Nat.zero_lt_succ _, by rw [hmoves.tcol, Nat.add_sub_cancel, hc, h]⟩)
      (fun h => hmoves.tabs.trans (htab (List.mem_cons_of_mem _ h)))
    refine ⟨st₂, ?_, ?_⟩
    · unfold fieldCells at heq' ⊢
      rw [List.length_cons, List.range'_succ, List.foldlM_cons, heq, Res.ok_bind, heq']
    · rw [hc] at hmoves
      exact hmoves.trans hmoves'

end

end Mandoc
