import Mandoc.Html.Encode

/-!
# How the Encoding of a String Proceeds

Whatever is printed, `print_encode()` looks at the same places of a string: at every byte, and
behind every escape sequence. `Scans` is this walk through the string, together with the flag
that says whether the next character is skipped.

`EncodeIteration` says once what one iteration of the main loop can do, and where it leaves the walk.
Properties of the whole loop are derived from that by cases.
-/

namespace Mandoc

open Spacing

/-! ## §1 The places where the function looks for a character -/

/-- Whether the next character is skipped after an escape sequence, depending on whether the
    sequence itself would have been. -/
def skipAfter (skip : Bool) (rval : Esc) : Bool :=
  if rval.isFont ∨ rval = .ERROR then skip else decide (rval = .SKIPCHAR)

/-- From a place before `pend` to the next one, where the flag says that the character there is
    to be skipped. -/
inductive ScanStep (buf : CStr) (pend : Nat) : Nat × Bool → Nat × Bool → Prop where
  /-- A byte is followed by the next byte. -/
  | byte {i : Nat} {skip : Bool} : i < pend → charAt buf i ≠ '\\' →
      ScanStep buf pend (i, skip) (i + 1, false)
  /-- An escape sequence is followed by the byte at its end. -/
  | escape {i : Nat} {skip : Bool} {r : EscResult} : i < pend → charAt buf i = '\\' →
      mandocEscape buf i = .ok r → ScanStep buf pend (i, skip) (r.rend, skipAfter skip r.rval)

/-- The second place is reached from the first one. -/
abbrev Scans (buf : CStr) (pend : Nat) : Nat × Bool → Nat × Bool → Prop :=
  Relation.ReflTransGen (ScanStep buf pend)

section

variable {buf : CStr} {pend i : Nat} {skip : Bool}

/-- There is only one way to go on behind a byte. -/
theorem scanStep_byte_iff (hi : i < pend) (hc : charAt buf i ≠ '\\') {s : Nat × Bool} :
    ScanStep buf pend (i, skip) s ↔ s = (i + 1, false) := by
  constructor
  · intro h
    cases h with
    | byte => rfl
    | escape _ hesc => exact absurd hesc hc
  · rintro rfl
    exact .byte hi hc

/-- There is only one way to go on behind an escape sequence. -/
theorem scanStep_escape_iff (hi : i < pend) (hc : charAt buf i = '\\') {r : EscResult}
    (hr : mandocEscape buf i = .ok r) {s : Nat × Bool} :
    ScanStep buf pend (i, skip) s ↔ s = (r.rend, skipAfter skip r.rval) := by
  constructor
  · intro h
    cases h with
    | byte _ hbyte => exact absurd hc hbyte
    | escape _ _ hr' => cases Except.ok.inj (hr.symm.trans hr'); rfl
  · rintro rfl
    exact .escape hi hc hr

theorem scans_iff_of_step {s t : Nat × Bool} (hstep : ∀ u, ScanStep buf pend s u ↔ u = t)
    {u : Nat × Bool} : Scans buf pend s u ↔ s = u ∨ Scans buf pend t u := by
  apply Relation.ReflTransGen.cases_head_iff.trans
  simp only [hstep, exists_eq_left]

theorem scans_iff_of_none {s : Nat × Bool} (hstep : ∀ u, ¬ ScanStep buf pend s u)
    {u : Nat × Bool} : Scans buf pend s u ↔ s = u := by
  apply Relation.ReflTransGen.cases_head_iff.trans
  simp only [hstep, false_and, exists_false, or_false]

end

/-! ## §2 The flag for the next character -/

section

variable (h : Html)

@[simp] theorem skipchar_printIndent : (printIndent h).flags.skipchar = h.flags.skipchar := by
  rw [(printIndent_spec h).choose_spec.2.2.1]

@[simp] theorem skipchar_printByte (c : Char) : (printByte h c).flags.skipchar = h.flags.skipchar := by
  unfold printByte
  split
  · rfl
  split
  · rfl
  · exact skipchar_printIndent _

@[simp] theorem skipchar_printWord (s : CStr) : (printWord h s).flags.skipchar = h.flags.skipchar := by
  induction s generalizing h with
  | nil => rfl
  | cons c s ih => exact (ih (printByte h c)).trans (skipchar_printByte h c)

@[simp] theorem skipchar_printEndline : (printEndline h).flags.skipchar = h.flags.skipchar := by
  unfold printEndline
  split
  · rfl
  · split <;> rfl

@[simp] theorem skipchar_printEndword : (printEndword h).flags.skipchar = h.flags.skipchar := by
  unfold printEndword
  split
  · exact skipchar_printByte h ' '
  split
  · rfl
  split <;> rfl

@[simp] theorem skipchar_printOtagBr : (printOtagBr h).flags.skipchar = h.flags.skipchar := by
  simp [printOtagBr]

theorem skipchar_printEscape {h' : Html} {c : Char} (hesc : printEscape h c = some h') :
    h'.flags.skipchar = h.flags.skipchar := by
  unfold printEscape at hesc
  repeat' split at hesc
  all_goals first | (cases hesc; simp) | cases hesc

@[simp] theorem skipchar_printCodepoint (c : Int) :
    (printCodepoint h c).flags.skipchar = h.flags.skipchar := by
  unfold printCodepoint
  dsimp only
  generalize (if (c < 0x20 ∧ c ≠ 0x09) ∨ (0x7E < c ∧ c < 0xA0) then 0xFFFD else c) = code
  split
  · exact skipchar_printWord ..
  · split
    · next hesc => exact skipchar_printEscape h hesc
    · exact skipchar_printByte ..

end

/-! ## §3 Escape sequences -/

section

variable {spec2cp : CStr → Int} {buf : CStr} {pend : Nat} {st : EncodeState}

/-- Where an escape sequence leaves the main loop. -/
structure EscapeDone (st st' : EncodeState) (r : EscResult) : Prop where
  p : st'.p = r.rend
  skipchar : st'.h.flags.skipchar = skipAfter st.h.flags.skipchar r.rval
  breakline : st'.breakline = (st.breakline || (r.rval = .BREAK && !st.h.flags.skipchar))

/-- Printing a character does not change the course of the loop. -/
theorem EscapeDone.of_char {r : EscResult} (hfont : ¬ (r.rval.isFont ∨ r.rval = .ERROR))
    (hskip : r.rval ≠ .SKIPCHAR) (hflag : st.h.flags.skipchar = false) (hbreak : r.rval ≠ .BREAK)
    {h : Html} (hh : h.flags.skipchar = st.h.flags.skipchar) (nospace : Bool) :
    EscapeDone st { st with h := h, p := r.rend, nospace := nospace } r := by
  refine ⟨rfl, ?_, ?_⟩
  · rw [skipAfter, if_neg hfont, decide_eq_false hskip]
    exact hh.trans hflag
  · simp [hbreak]

/-- Every escape sequence that can be parsed can be interpreted. -/
theorem encodeEscape_ok {r : EscResult} (harg : ArgInside buf r) (hne : r.rval ≠ .EXPAND) :
    ∃ st', encodeEscape spec2cp buf st r = .ok st' ∧ EscapeDone st st' r := by
  unfold encodeEscape
  dsimp only
  by_cases hfont : r.rval.isFont ∨ r.rval = .ERROR
  · -- Font changes and errors print nothing.
    rw [if_pos hfont]
    refine ⟨_, rfl, rfl, ?_, ?_⟩
    · rw [skipAfter, if_pos hfont]
    · have hbreak : r.rval ≠ .BREAK := by
        rintro heq
        rw [heq] at hfont
        exact absurd hfont (by decide)
      simp [hbreak]
  rw [if_neg hfont]
  by_cases hskip : r.rval = .SKIPCHAR
  · rw [if_pos hskip]
    refine ⟨_, rfl, rfl, ?_, ?_⟩
    · rw [skipAfter, if_neg hfont, hskip]
      rfl
    · simp [EncodeState.setSkip, hskip]
  rw [if_neg hskip]
  by_cases hflag : st.h.flags.skipchar = true
  · rw [if_pos hflag]
    refine ⟨_, rfl, rfl, ?_, ?_⟩
    · rw [skipAfter, if_neg hfont, decide_eq_false hskip]
      rfl
    · simp [EncodeState.setSkip, hflag]
  rw [if_neg hflag]
  -- All other sequences print something for a character, or nothing, and go on behind themselves.
  have hchar : ∀ (h : Html) (nospace : Bool), h.flags.skipchar = st.h.flags.skipchar →
      r.rval ≠ .BREAK →
      EscapeDone st { st with h := h, p := r.rend, nospace := nospace } r :=
    fun h nospace hh hbreak =>
      .of_char hfont hskip (Bool.eq_false_iff.mpr hflag) hbreak hh nospace
  have herror : r.rval ≠ .ERROR := fun heq => hfont (.inr heq)
  -- The argument can be read, since it lies inside the string.
  have hread : readArg buf r.rarg r.rendarg = .ok (slice buf r.rarg r.rendarg) :=
    if_pos (harg.rendarg_le herror hne)
  split
  · next heq =>
    obtain ⟨hs, hname⟩ := harg.unicode heq
    have hdigits : readArg buf (r.rarg + 1) r.rendarg = .ok hs := by
      rw [readArg, if_pos (harg.rendarg_le herror hne), slice_tail, hname.name_eq]
      rfl
    rw [hdigits, Res.ok_bind, hname.num2uc]
    exact ⟨_, rfl, hchar _ _ (skipchar_printCodepoint ..) (by simp [heq])⟩
  · next heq =>
    rw [hread, Res.ok_bind]
    split
    · exact ⟨_, rfl, hchar _ _ rfl (by simp [heq])⟩
    · exact ⟨_, rfl, hchar _ _ (skipchar_printCodepoint ..) (by simp [heq])⟩
  · next heq =>
    rw [hread, Res.ok_bind]
    split
    · exact ⟨_, rfl, hchar _ _ rfl (by simp [heq])⟩
    · exact ⟨_, rfl, hchar _ _ (skipchar_printCodepoint ..) (by simp [heq])⟩
  · next heq =>
    rw [rd_of_le (harg.rarg_le herror hne)]
    exact ⟨_, rfl, hchar _ _ (skipchar_printCodepoint ..) (by simp [heq])⟩
  · next heq => exact ⟨_, rfl, hchar _ _ (skipchar_printWord ..) (by simp [heq])⟩
  · next heq =>
    refine ⟨_, rfl, rfl, ?_, ?_⟩
    · rw [skipAfter, if_neg hfont, decide_eq_false hskip]
      exact Bool.eq_false_iff.mpr hflag
    · simp [heq, hflag]
  · next heq =>
    rw [rd_of_le (harg.nospace heq)]
    exact ⟨_, rfl, hchar _ _ rfl (by simp [heq])⟩
  · next heq =>
    split
    · exact ⟨_, rfl, hchar _ _ rfl (by simp [heq])⟩
    · rw [rd_of_le ((Nat.sub_le _ _).trans (harg.rendarg_le herror hne))]
      exact ⟨_, rfl, hchar _ _ (skipchar_printCodepoint ..) (by simp [heq])⟩
  · next hbreak _ _ => exact ⟨_, rfl, hchar _ _ rfl hbreak⟩

/-! ## §4 One iteration -/

/-- The bytes printed at the beginning of an iteration. -/
theorem encodeRun_spec (buf : CStr) (pend : Nat) (st : EncodeState) :
    ∃ n, encodeRun buf pend st = { st with h := (encodeRun buf pend st).h, p := st.p + n } ∧
      (encodeRun buf pend st).h.flags.skipchar = st.h.flags.skipchar ∧
      (∀ k, k < n → st.p + k < pend ∧ charAt buf (st.p + k) ∉ encodeRejs) ∧
      (st.p + n < pend → st.p + n < buf.length → charAt buf (st.p + n) ∈ encodeRejs) := by
  have hspan := strcspn_drop_spec buf st.p encodeRejs
  refine ⟨min (strcspn (buf.drop st.p) encodeRejs) (pend - st.p), rfl, skipchar_printWord .., ?_, ?_⟩
  · intro k hk
    obtain ⟨hk, hend⟩ := Nat.lt_min.mp hk
    exact ⟨Nat.add_lt_of_lt_sub' hend, hspan.1 k hk⟩
  · intro hlt hlen
    have hn : min (strcspn (buf.drop st.p) encodeRejs) (pend - st.p) =
        strcspn (buf.drop st.p) encodeRejs := by omega
    rw [hn] at hlen ⊢
    exact hspan.2 hlen

/-- What the second part of an iteration can do. -/
inductive EncodeSpecial (buf : CStr) (pend : Nat) (st : EncodeState) :
    Res (Loop.Next EncodeState (Html × Bool)) → Prop where
  /-- Print the line break that was requested, and skip the blanks. -/
  | breakline {n : Nat} : st.breakline = true → (pend ≤ st.p ∨ isWordEnd (charAt buf st.p)) →
      (∀ k, k < n → st.p + k < pend ∧ charAt buf (st.p + k) ≠ '\\') → (st.p < pend → 0 < n) →
      EncodeSpecial buf pend st
        (.ok (.again { st with h := printOtagBr st.h, p := st.p + n, breakline := false }))
  /-- At the end, there was no such request. -/
  | finish : st.breakline = false → pend ≤ st.p →
      EncodeSpecial buf pend st (.ok (.done (st.h, st.nospace)))
  /-- Print a byte. -/
  | byte {h : Html} : ¬ (st.breakline = true ∧ isWordEnd (charAt buf st.p)) → st.p < pend →
      charAt buf st.p ≠ '\\' → h.flags.skipchar = st.h.flags.skipchar → AttrSafe st.h h →
      EncodeSpecial buf pend st (.ok (.again { st with h := h, p := st.p + 1 }))
  /-- Interpret an escape sequence. -/
  | escape {r : EscResult} {st' : EncodeState} : st.p < pend → charAt buf st.p = '\\' →
      mandocEscape buf st.p = .ok r → st.p < r.rend → EscapeDone st st' r → AttrSafe st.h st'.h →
      EncodeSpecial buf pend st (.ok (.again st'))
  /-- The parser for escape sequences fails. -/
  | fail {e : Fault} : st.p < pend → charAt buf st.p = '\\' → mandocEscape buf st.p = .error e →
      EncodeSpecial buf pend st (.error e)

/-- What an iteration can do. -/
inductive EncodeIteration (buf : CStr) (pend : Nat) (st : EncodeState) :
    Res (Loop.Next EncodeState (Html × Bool)) → Prop where
  /-- At the end, the loop ends. -/
  | finish : pend ≤ st.p → EncodeIteration buf pend st (.ok (.done (st.h, st.nospace)))
  /-- Skip a byte. -/
  | skip : st.p < pend → st.h.flags.skipchar = true → charAt buf st.p ≠ '\\' →
      EncodeIteration buf pend st (.ok (.again { st.setSkip false with p := st.p + 1 }))
  /-- Print a run of bytes, and go on with the second part. -/
  | special {n : Nat} {h : Html} {res : Res (Loop.Next EncodeState (Html × Bool))} : st.p < pend →
      (st.h.flags.skipchar = true → n = 0 ∧ charAt buf st.p = '\\') →
      encodeRun buf pend st = { st with h := h, p := st.p + n } →
      h.flags.skipchar = st.h.flags.skipchar →
      (∀ k, k < n → st.p + k < pend ∧ charAt buf (st.p + k) ∉ encodeRejs) →
      (st.p + n < pend → charAt buf (st.p + n) ∈ encodeRejs) →
      EncodeSpecial buf pend { st with h := h, p := st.p + n } res → EncodeIteration buf pend st res

/-- The second part of an iteration, where the index is not at an ordinary byte. -/
theorem encodeSpecial_cases (spec2cp : CStr → Int) (hs : NUL ∉ buf) (hpend : pend ≤ buf.length)
    (hstop : st.p < pend → charAt buf st.p ∈ encodeRejs) :
    EncodeSpecial buf pend st (encodeSpecial spec2cp buf pend st) := by
  unfold encodeSpecial
  split
  · -- A pending line break is done at the end of a word.
    next hbr =>
    have hlen : (slice buf st.p pend).length = pend - st.p := by
      rw [slice, List.length_take, List.length_drop]
      omega
    have hslice : ∀ k, k < pend - st.p → charAt (slice buf st.p pend) k = charAt buf (st.p + k) := by
      intro k hk
      rw [slice, ← charAt_drop]
      simp [charAt, hk]
    refine .breakline hbr.1 hbr.2 (fun k hk => ?_) fun hlt => ?_
    · have hk' : k < pend - st.p :=
        hlen ▸ Nat.lt_of_lt_of_le hk (List.takeWhile_prefix _).length_le
      have hblank := charAt_of_lt_takeWhile hk
      rw [hslice k hk'] at hblank
      refine ⟨Nat.add_lt_of_lt_sub' hk', fun heq => ?_⟩
      rw [heq] at hblank
      exact absurd hblank (by decide)
    · have hpos : 0 < pend - st.p := Nat.sub_pos_of_lt hlt
      have hblank := hbr.2.resolve_left (Nat.not_le.mpr hlt)
      refine Nat.pos_of_ne_zero fun hzero => ?_
      have hshort : ((slice buf st.p pend).takeWhile isWordEnd).length < (slice buf st.p pend).length := by
        rw [hzero, hlen]
        exact hpos
      have htest := charAt_length_takeWhile isWordEnd hshort
      rw [hzero, hslice 0 hpos] at htest
      exact absurd (hblank.symm.trans htest) (by simp)
  next hbr =>
  split
  · -- The text has been printed completely.
    next hle => exact .finish (Bool.eq_false_iff.mpr fun hbrk => hbr ⟨hbrk, .inl hle⟩) hle
  next hle =>
  have hlt := Nat.lt_of_not_le hle
  have hnoend : ¬ (st.breakline = true ∧ isWordEnd (charAt buf st.p)) := fun h => hbr ⟨h.1, .inr h.2⟩
  rw [rd_of_le (hlt.le.trans hpend), Res.ok_bind]
  split
  · next hblank =>
    -- A blank ends the word.
    exact .byte hnoend hlt (by rw [hblank]; decide) (skipchar_printEndword _)
      (attrSafe_printEndword _)
  next hblank =>
  split
  · next h hesc =>
    have hne : charAt buf st.p ≠ '\\' := by
      intro heq
      have hnone : printEscape st.h '\\' = none :=
        (printEscape_eq_none_iff _ _).mpr (by unfold IsAttrByte; decide)
      rw [heq, hnone] at hesc
      cases hesc
    -- A character that has an entity.
    exact .byte hnoend hlt hne (skipchar_printEscape _ hesc) (attrSafe_printEscape hesc)
  · next hesc =>
    -- What is left is a backslash.
    have hc : charAt buf st.p = '\\' := by
      have hnone := (printEscape_eq_none_iff _ _).mp hesc
      have hmem := hstop hlt
      simp only [encodeRejs, List.mem_cons, List.not_mem_nil, or_false] at hmem
      unfold IsAttrByte at hnone
      grind
    have hnul : charAt buf st.p ≠ NUL := by
      rw [hc]
      decide
    cases hr : mandocEscape buf st.p with
    | error e => exact .fail hlt hc hr
    | ok r =>
      have hb := (mandocEscape_bounded hs hnul).of_eq_ok hr
      obtain ⟨st', hst', hdone⟩ := @encodeEscape_ok spec2cp buf st r
        ((mandocEscape_argInside hs hnul).of_eq_ok hr) hb.1
      rw [Res.ok_bind, hst']
      exact .escape hlt hc hr (Nat.lt_of_le_of_lt hb.2.resc_ge hb.2.resc_lt) hdone
        ((attrSafe_encodeEscape spec2cp buf st r).of_eq_ok hst')

/-- One iteration. -/
theorem encodeStep_cases (spec2cp : CStr → Int) (hs : NUL ∉ buf) (hpend : pend ≤ buf.length)
    (st : EncodeState) : EncodeIteration buf pend st (encodeStep spec2cp buf pend st) := by
  unfold encodeStep
  split
  · next hle => exact .finish hle
  next hle =>
  have hlt := Nat.lt_of_not_le hle
  rw [rd_of_le (hlt.le.trans hpend), Res.ok_bind]
  split
  · next hskip => exact .skip hlt hskip.1 hskip.2
  next hskip =>
  obtain ⟨n, hrun, hflag, hords, hstop⟩ := encodeRun_spec buf pend st
  have hstop' : st.p + n < pend → charAt buf (st.p + n) ∈ encodeRejs := fun hlt' =>
    hstop hlt' (Nat.lt_of_lt_of_le hlt' hpend)
  refine .special hlt ?_ hrun hflag hords hstop' ?_
  · -- If a character is to be skipped, there is an escape sequence, and no run of bytes.
    intro htrue
    have hc : charAt buf st.p = '\\' := not_not.mp fun hne => hskip ⟨htrue, hne⟩
    refine ⟨Nat.eq_zero_of_not_pos fun hpos => (hords 0 hpos).2 ?_, hc⟩
    rw [Nat.add_zero, hc]
    decide
  · rw [← hrun]
    apply encodeSpecial_cases spec2cp hs hpend
    rw [hrun]
    exact hstop'

end

end Mandoc
