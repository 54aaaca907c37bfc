import Mandoc.Roff.EscapeArgs

/-!
# Order of the Indices of an Escape Sequence

`roff_escape()` reports where the argument of a sequence begins, where it ends, and where the
whole sequence ends. Callers take the text between the first two of these indices for the
argument, and go on reading or cut the sequence out at the last one.

The end of the sequence is only updated while the argument is scanned. When the string ends right
after a sign, a bracket, a parenthesis, or a delimiter that opens the argument, there is nothing
to scan, and the reported end lies in front of the argument. `roffEscape_ordered_iff` says that
this is the only case. Sizes are not affected because `\s` sets the end beforehand.
-/

namespace Mandoc

/-! ## §1 Arguments opened at the end of the string -/

/-- The argument lies inside the sequence. -/
structure Ordered (r : EscResult) : Prop where
  rarg_le : r.rarg ≤ r.rendarg
  rendarg_le : r.rendarg ≤ r.rend

/-- The byte is not accepted as the delimiter of an argument, and nothing is scanned. -/
def delimRefused (name c : Char) : Bool :=
  strchr "BDHLRSvxNhl" name && strchr " %&()*+-./0123456789:<=>" c && name ≠ 'D'

/-- A sign at the index `start`, or a parenthesis or bracket there or after the sign, is the last
    byte of the string. -/
def FormAtEnd (buf : CStr) (name : Char) (start : Nat) : Prop :=
  let i := start + regSign name (charAt buf start)
  (start < i ∧ i = buf.length) ∨ ((charAt buf i = '(' ∨ charAt buf i = '[') ∧ i + 1 = buf.length)

/-- A delimiter at the given index is the last byte of the string. -/
def DelimAtEnd (buf : CStr) (name : Char) (i : Nat) : Prop :=
  delimRefused name (charAt buf i) = false ∧ i + 1 = buf.length

/-- The escape sequence at the given index is not one that requires expansion first. -/
def NotExpanded (buf : CStr) (i : Nat) : Prop :=
  ∃ s, roffEscape buf i = .ok s ∧ s.rval ≠ .EXPAND

/-- An escape sequence that begins at the given index serves as a delimiter, and the string ends
    where that sequence does. -/
def EscDelimAtEnd (buf : CStr) (name : Char) (i : Nat) : Prop :=
  ∃ s, roffEscape buf i = .ok s ∧ s.rval ≠ .EXPAND ∧ s.rval ≠ .UNDEF ∧
    (strchr "BHLRSNhlvx" name && strchr " ,.0DLOXYZ^abdhlortuvx|~" (charAt buf s.rnam)) = false ∧
    s.rend = buf.length

/-- The argument in standard format is opened at the end of the string. -/
def StandardAtEnd (buf : CStr) (aesc : Nat) (start : Nat) : Prop :=
  (charAt buf start = charAt buf aesc → NotExpanded buf start) ∧
    FormAtEnd buf (charAt buf (nameIndex buf aesc)) start

/-- The quoted argument is opened at the end of the string. An undefined escape sequence is not a
    delimiter, but the byte after its escape character is. -/
def QuotedAtEnd (buf : CStr) (aesc : Nat) : Prop :=
  let name := charAt buf (nameIndex buf aesc)
  let i := nameIndex buf aesc + 1
  if charAt buf i = charAt buf aesc then
    EscDelimAtEnd buf name i ∨
      ((∃ s, roffEscape buf i = .ok s ∧ s.rval = .UNDEF) ∧ DelimAtEnd buf name (i + 1))
  else DelimAtEnd buf name i

/-- The argument of the escape sequence is opened at the end of the string. -/
def OpensAtEnd (buf : CStr) (aesc : Nat) : Prop :=
  match escName (charAt buf (nameIndex buf aesc)) with
  | .standard _ => StandardAtEnd buf aesc (nameIndex buf aesc + 1)
  | .bracket => StandardAtEnd buf aesc (nameIndex buf aesc)
  | .quoted _ => QuotedAtEnd buf aesc
  | _ => False

/-! ## §2 The beginning of the argument -/

/-- What is known after the first part of the function: whether the indices are ordered, or
    whether the scan of the argument begins at the end of the string. -/
structure Stage.Opening (buf : CStr) (atEnd : Prop) (st : Stage) : Prop where
  /-- There is nothing left to scan. -/
  ordered : ∀ r, st = .out r → Ordered r
  scan : ∀ a, st = .scan a → ((a.iend < a.iarg ∧ a.iarg = buf.length) ↔ atEnd)

section

variable {sub : Nat → Res EscResult} {buf : CStr} {aesc inam start iarg : Nat} {name : Char}
  {rval : Esc} {st : Stage} {atEnd : Prop}

theorem Stage.Opening.out {r : EscResult} (h : Ordered r) :
    Stage.Opening buf atEnd (.out r) where
  ordered := by
    intro r' heq
    cases heq
    exact h
  scan := by simp

theorem Stage.Opening.of_scan {a : ArgStart}
    (h : (a.iend < a.iarg ∧ a.iarg = buf.length) ↔ atEnd) : Stage.Opening buf atEnd (.scan a) where
  ordered := by simp
  scan := by
    intro a' heq
    cases heq
    exact h

/-- Sizes set the end of the sequence before the argument is scanned. -/
theorem sizeArg_opening (h : sizeArg buf aesc inam = .ok st) :
    Stage.Opening buf False st := by
  simp only [sizeArg, Res.bind_eq_ok, Res.pure_eq_ok] at h
  obtain ⟨c, -, f, -, c', -, h⟩ := h
  split at h <;> cases h
  · exact .out ⟨le_rfl, le_rfl⟩
  · exact .of_scan (by simp)

theorem standardForm_opening
    (h : standardForm buf aesc inam start rval = .ok st) :
    Stage.Opening buf (FormAtEnd buf (charAt buf inam) start) st := by
  simp only [standardForm, Res.bind_eq_ok, rd_eq_ok, Res.pure_eq_ok] at h
  obtain ⟨name, ⟨-, rfl⟩, c, ⟨-, rfl⟩, c', ⟨hi, hc'⟩, h⟩ := h
  unfold FormAtEnd
  generalize hiarg : start + regSign (charAt buf inam) (charAt buf start) = i at h hi hc' ⊢
  have hge : start ≤ i := hiarg ▸ Nat.le_add_right _ _
  -- An opening byte is not the terminating NUL.
  have hlt : (c' = '(' ∨ c' = '[') → i < buf.length := by
    rintro (hc | hc) <;> exact lt_length_of_charAt_ne_nul (by rw [hc', hc]; decide)
  split at h
  case isTrue hpar =>
    cases h
    have := hlt (.inl hpar)
    refine .of_scan ?_
    simp only [hc', hpar, true_or, true_and]
    omega
  split at h
  case isTrue hbrack =>
    simp only [Res.bind_eq_ok, rd_eq_ok] at h
    obtain ⟨c'', -, h⟩ := h
    have := hlt (.inr hbrack)
    split at h <;> cases h
    · exact .out ⟨Nat.le_succ _, le_rfl⟩
    · refine .of_scan ?_
      simp only [hc', hbrack, or_true, true_and]
      omega
  case isFalse hpar hbrack =>
    cases h
    exact .of_scan (by simp [hc', hpar, hbrack])

/-- The recursive calls report ordered indices. -/
def SubOrdered (sub : Nat → Res EscResult) (buf : CStr) (aesc : Nat) : Prop :=
  ∀ i r, aesc < i → charAt buf i = charAt buf aesc → sub i = .ok r → Ordered r

theorem Ordered.outSub {s : EscResult} (h : Ordered s) : Ordered (outSub s) :=
  ⟨h.rarg_le, h.rendarg_le⟩

theorem standardArg_opening (hsub : SubOrdered (roffEscape buf) buf aesc) (hstart : aesc < start)
    (h : standardArg (roffEscape buf) buf aesc (nameIndex buf aesc) start rval = .ok st) :
    Stage.Opening buf (StandardAtEnd buf aesc start) st := by
  simp only [standardArg, Res.bind_eq_ok, rd_eq_ok, Res.pure_eq_ok] at h
  obtain ⟨c, ⟨-, rfl⟩, ec, ⟨-, rfl⟩, h⟩ := h
  unfold StandardAtEnd
  split at h
  case isTrue hc =>
    obtain ⟨s, hs, h⟩ := Res.bind_eq_ok.mp h
    split at h
    case isTrue =>
      cases h
      exact .out (hsub start s hstart hc hs).outSub
    case isFalse hexpand =>
      have hnot : NotExpanded buf start := ⟨s, hs, hexpand⟩
      simpa [hc, hnot] using standardForm_opening h
  case isFalse hc => simpa [hc] using standardForm_opening h

theorem plainDelim_opening (hinam : inam < iarg)
    (h : plainDelim buf aesc inam iarg name rval = .ok st) :
    Stage.Opening buf (DelimAtEnd buf name iarg) st := by
  simp only [plainDelim, Res.bind_eq_ok, rd_eq_ok, Res.pure_eq_ok] at h
  obtain ⟨c, ⟨-, rfl⟩, h⟩ := h
  unfold DelimAtEnd delimRefused
  have hlt : inam + 1 < iarg + 1 := Nat.succ_lt_succ hinam
  split at h
  case isTrue hlisted =>
    split at h
    case isTrue hD =>
      cases h
      exact .of_scan (by simp [hD, hlt])
    case isFalse => cases h; exact .out ⟨Nat.le_succ _, le_rfl⟩
  case isFalse hlisted =>
    cases h
    refine .of_scan ?_
    simp only [Bool.not_eq_true] at hlisted
    simp [hlisted, hlt]

theorem quotedArg_opening (hs : NUL ∉ buf) (hsub : SubOrdered (roffEscape buf) buf aesc)
    (hesc : charAt buf aesc ≠ NUL)
    (h : quotedArg (roffEscape buf) buf aesc (nameIndex buf aesc) rval = .ok st) :
    Stage.Opening buf (QuotedAtEnd buf aesc) st := by
  have hgt := nameIndex_gt buf aesc
  simp only [quotedArg, Res.bind_eq_ok, rd_eq_ok, Res.pure_eq_ok] at h
  obtain ⟨name, ⟨-, rfl⟩, ec, ⟨-, rfl⟩, c, ⟨hi, rfl⟩, h⟩ := h
  unfold QuotedAtEnd
  split at h
  case isTrue hnul => cases h; exact .out ⟨le_rfl, le_rfl⟩
  split at h
  case isTrue hc =>
    -- The delimiter is an escape sequence.
    obtain ⟨s, hs', h⟩ := Res.bind_eq_ok.mp h
    have hb := roffEscape_subBounded hs aesc _ s (by omega)
      (lt_length_of_charAt_ne_nul (hc ▸ hesc)) hs'
    have hs'' : ∀ t, roffEscape buf (nameIndex buf aesc + 1) = .ok t ↔ t = s := by
      intro t
      rw [hs', Except.ok.injEq]
      exact eq_comm
    simp only [hc, if_true, EscDelimAtEnd, hs'', exists_eq_left]
    split at h
    case isTrue => cases h; exact .out (hsub _ s (by omega) hc hs').outSub
    split at h
    case isTrue hundef => simpa [hundef] using plainDelim_opening (Nat.lt_succ_of_lt (Nat.lt_succ_self _)) h
    case isFalse hexpand hundef =>
      obtain ⟨sname, hsname, h⟩ := Res.bind_eq_ok.mp h
      obtain ⟨-, rfl⟩ := rd_eq_ok.mp hsname
      have hresc := hb.resc_ge
      have hrend := hb.resc_lt
      split at h
      case isTrue => cases h; exact .out ⟨le_rfl, hrend.le⟩
      case isFalse hlisted =>
        -- It is no sequence that may delimit, so the argument is scanned from behind it.
        cases h
        refine .of_scan ?_
        simp only [Bool.not_eq_true] at hlisted
        have hlt : nameIndex buf aesc + 1 < s.rend := lt_of_le_of_lt hresc hrend
        simp [hexpand, hundef, hlisted, hlt]
  case isFalse hc => simpa [hc] using plainDelim_opening (Nat.lt_succ_self _) h

/-- The syntax categories differ in how the argument is opened. -/
theorem escapeStart_opening (hs : NUL ∉ buf) (hsub : SubOrdered (roffEscape buf) buf aesc)
    (hesc : charAt buf aesc ≠ NUL) (h : escapeStart (roffEscape buf) buf aesc = .ok st) :
    Stage.Opening buf (OpensAtEnd buf aesc) st := by
  have hgt := nameIndex_gt buf aesc
  simp only [escapeStart, Res.bind_eq_ok, rd_eq_ok, Res.pure_eq_ok] at h
  obtain ⟨c, ⟨-, rfl⟩, h⟩ := h
  unfold OpensAtEnd
  split at h
  case h_1 heq => cases h; exact .out ⟨le_rfl, le_rfl⟩
  case h_2 => cases h; exact .out ⟨le_rfl, le_rfl⟩
  case h_3 => cases h; exact .out ⟨Nat.le_succ _, le_rfl⟩
  case h_4 => cases h; exact .out ⟨Nat.le_succ _, le_rfl⟩
  case h_5 heq => simpa [heq] using standardArg_opening hsub (Nat.lt_succ_of_lt hgt) h
  case h_6 heq => simpa [heq] using standardArg_opening hsub hgt h
  case h_7 heq => simpa [heq] using quotedArg_opening hs hsub hesc h
  case h_8 heq => simpa [heq] using sizeArg_opening h

/-! ## §3 The scan of the argument -/

/-- What the scan reports about an argument that begins at `iarg`. -/
def ArgEnd.Ordered (iarg : Nat) : ArgEnd → Prop
  | .sub s => Mandoc.Ordered s
  | .done _ iendarg iend _ => iarg ≤ iendarg ∧ iendarg ≤ iend

/-- Once the end of the argument and the end of the sequence agree, they remain in order. -/
theorem argLoop_ordered {a : ArgStart} (hsub : SubOrdered (roffEscape buf) buf aesc)
    (hb : SubBounded (roffEscape buf) buf aesc) {steps : Nat} {maxl : Option Nat} {i : Nat}
    {validA : Bool} {e : ArgEnd} (hgt : aesc < i) (hge : a.iarg ≤ i)
    (h : argLoop (roffEscape buf) buf aesc name a steps maxl i i validA = .ok e) :
    e.Ordered a.iarg := by
  induction steps generalizing maxl i validA with
  | zero => simp [argLoop] at h
  | succ steps ih =>
    simp only [argLoop] at h
    split at h
    · cases h; exact ⟨hge, le_rfl⟩
    simp only [Res.bind_eq_ok, rd_eq_ok, Res.pure_eq_ok] at h
    obtain ⟨ec, ⟨-, rfl⟩, c, ⟨-, rfl⟩, h⟩ := h
    split at h
    · cases h
      refine ⟨?_, ?_⟩ <;> split <;> first | exact hge | exact le_rfl
    rename_i hnul
    split at h
    · cases h; exact ⟨hge, Nat.le_succ _⟩
    split at h
    · -- A nested sequence ends behind its beginning.
      rename_i hc
      obtain ⟨s, hs, h⟩ := Res.bind_eq_ok.mp h
      obtain ⟨sname, -, h⟩ := Res.bind_eq_ok.mp h
      have hbound := hb i s hgt (lt_length_of_charAt_ne_nul hnul) hs
      have hrend : i ≤ s.rend := le_trans hbound.resc_ge hbound.resc_lt.le
      split at h
      · cases h; exact hsub i s hgt hc hs
      split at h
      · cases h; exact ⟨hge, hrend⟩
      · exact ih (lt_of_lt_of_le hgt hrend) (le_trans hge hrend) h
    split at h
    · cases h; exact ⟨hge, Nat.le_succ _⟩
    · exact ih (Nat.lt_succ_of_lt hgt) (Nat.le_succ_of_le hge) h

theorem argLoop_first {a : ArgStart} {steps : Nat} {maxl : Option Nat} {i iend : Nat}
    {validA : Bool} (hmaxl : maxl ≠ some 0) (hi : charAt buf i ≠ NUL) :
    argLoop sub buf aesc name a (steps + 1) maxl i iend validA =
      argLoop sub buf aesc name a (steps + 1) maxl i i validA := by
  have hrd : rd buf i = .ok (charAt buf i) := rd_of_le (lt_length_of_charAt_ne_nul hi).le
  simp only [argLoop, if_neg hmaxl, hrd, Res.ok_bind, if_neg hi]

/-- At the end of the string, the scan finds nothing. -/
theorem argLoop_atEnd {a : ArgStart} {steps : Nat} {maxl : Option Nat} {iend : Nat} {validA : Bool}
    {e : ArgEnd} (hmaxl : maxl ≠ some 0) (hi : charAt buf a.iarg = NUL)
    (h : argLoop sub buf aesc name a (steps + 1) maxl a.iarg iend validA = .ok e) :
    a.iarg ≤ buf.length ∧ ∃ rval, e = .done rval a.iarg iend validA := by
  simp only [argLoop, if_neg hmaxl, Res.bind_eq_ok, rd_eq_ok, Res.pure_eq_ok] at h
  obtain ⟨ec, -, c, ⟨hle, rfl⟩, h⟩ := h
  rw [if_pos hi, Except.ok.injEq] at h
  exact ⟨hle, _, h.symm.trans (by rw [ite_self])⟩

/-- The content of the argument may only move the end of the argument to its beginning. -/
theorem postProcess_argument (nullResc : Bool) (a : ArgStart) (iendarg iend : Nat)
    (validA : Bool) :
    let r := postProcess buf nullResc aesc inam name a rval iendarg iend validA
    r.rarg = a.iarg ∧ (r.rendarg = iendarg ∨ r.rendarg = a.iarg) := by
  have hshift := (specialArg_ordinary (buf.drop a.iarg) (iendarg - a.iarg) a.term).1
  have hend : ∀ b : Bool, (if b then a.iarg else iendarg) = iendarg ∨
      (if b then a.iarg else iendarg) = a.iarg := by
    rintro (_ | _) <;> simp
  unfold postProcess
  dsimp only
  split
  · exact ⟨rfl, hend _⟩
  · exact ⟨by rw [hshift, Nat.add_zero], hend _⟩
  · exact ⟨rfl, hend _⟩

theorem postProcess_ordered {nullResc : Bool} {a : ArgStart} {iendarg iend : Nat} {validA : Bool}
    (h : a.iarg ≤ iendarg ∧ iendarg ≤ iend) :
    Ordered (postProcess buf nullResc aesc inam name a rval iendarg iend validA) := by
  obtain ⟨hrarg, hrendarg⟩ := postProcess_argument nullResc a iendarg iend validA
  obtain ⟨-, -, hrend⟩ :=
    postProcess_indices buf nullResc aesc inam name a rval iendarg iend validA
  obtain heq | heq := hrendarg
  · exact ⟨by rw [hrarg, heq]; exact h.1, by rw [heq, hrend]; exact h.2⟩
  · exact ⟨by rw [hrarg, heq], by rw [heq, hrend]; exact h.1.trans h.2⟩

/-! ## §4 The sequence at an index -/

/-- The sequence at an index, provided that those behind it are reported properly. -/
theorem roffEscape_ordered (hs : NUL ∉ buf) (hesc : charAt buf aesc ≠ NUL)
    (hsub : SubOrdered (roffEscape buf) buf aesc) (hopen : ¬ OpensAtEnd buf aesc) {r : EscResult}
    (h : roffEscape buf aesc = .ok r) : Ordered r := by
  have hb := roffEscape_subBounded hs aesc
  rw [roffEscape_eq hs hesc] at h
  obtain ⟨st, hst, h⟩ := Res.bind_eq_ok.mp h
  have hopening := escapeStart_opening hs hsub hesc hst
  cases st with
  | out r' =>
    cases h
    exact hopening.ordered _ rfl
  | scan a =>
    obtain ⟨c, hc, h⟩ := Res.bind_eq_ok.mp h
    obtain ⟨e, he, h⟩ := Res.bind_eq_ok.mp h
    have hmaxl := ((escapeStart_argInside hb).of_eq_ok hst).maxl
    have hgt := (escapeStart_bounded hb hesc hst).iarg_gt
    have hscan := hopening.scan a rfl
    have hend : e.Ordered a.iarg := by
      by_cases hi : charAt buf a.iarg = NUL
      · -- The end of the sequence has been set before.
        obtain ⟨hle, rval, rfl⟩ := argLoop_atEnd hmaxl hi he
        have hlen : a.iarg = buf.length := eq_length_of_charAt_nul hs hle hi
        have hnot : ¬ a.iend < a.iarg := fun hlt => hopen (hscan.mp ⟨hlt, hlen⟩)
        exact ⟨le_rfl, not_lt.mp hnot⟩
      · rw [argLoop_first hmaxl hi] at he
        exact argLoop_ordered hsub hb hgt le_rfl he
    cases e with
    | sub s => cases h; exact hend.outSub
    | done rval iendarg iend validA => cases h; exact postProcess_ordered hend

/-- The scan of an argument begins at the end of the string. -/
def ScanAtEnd (buf : CStr) (stage : Res Stage) : Prop :=
  ∃ a, stage = .ok (.scan a) ∧ a.iend < a.iarg ∧ a.iarg = buf.length ∧ a.maxl ≠ some 0

theorem standardForm_atEnd (hinam : inam ≤ buf.length)
    (h : FormAtEnd buf (charAt buf inam) start) :
    ScanAtEnd buf (standardForm buf aesc inam start rval) := by
  unfold FormAtEnd at h
  dsimp only at h
  generalize hiarg : start + regSign (charAt buf inam) (charAt buf start) = i at h
  have hge : start ≤ i := hiarg ▸ Nat.le_add_right _ _
  have hle : i ≤ buf.length := by omega
  have hnul : charAt buf buf.length = NUL := charAt_of_ge le_rfl
  simp only [standardForm, rd_of_le hinam, rd_of_le (hge.trans hle), Res.ok_bind, hiarg,
    rd_of_le hle]
  obtain ⟨hlt, rfl⟩ | ⟨hopen, hlen⟩ := h
  · rw [hnul, if_neg (by decide), if_neg (by decide)]
    exact ⟨_, rfl, hlt, rfl, by simp⟩
  · obtain hpar | hbrack := hopen
    · rw [if_pos hpar]
      exact ⟨_, rfl, Nat.lt_succ_of_le hge, hlen, by simp⟩
    · rw [if_neg (by rw [hbrack]; decide), if_pos hbrack, hlen, rd_of_le le_rfl, Res.ok_bind, hnul,
        if_neg (by decide)]
      exact ⟨_, rfl, hlen ▸ Nat.lt_succ_of_le hge, rfl, by simp⟩

theorem standardArg_atEnd (hstart : start ≤ buf.length) (haesc : aesc < buf.length)
    (hinam : nameIndex buf aesc ≤ buf.length) (h : StandardAtEnd buf aesc start) :
    ScanAtEnd buf (standardArg (roffEscape buf) buf aesc (nameIndex buf aesc) start rval) := by
  obtain ⟨hexpand, hform⟩ := h
  simp only [standardArg, rd_of_le hstart, rd_of_le haesc.le, Res.ok_bind]
  split
  case isTrue hc =>
    obtain ⟨s, hs, hne⟩ := hexpand hc
    rw [hs, Res.ok_bind, if_neg hne]
    exact standardForm_atEnd hinam hform
  case isFalse => exact standardForm_atEnd hinam hform

theorem plainDelim_atEnd (hinam : inam < iarg) (h : DelimAtEnd buf name iarg) :
    ScanAtEnd buf (plainDelim buf aesc inam iarg name rval) := by
  obtain ⟨hrefused, hlen⟩ := h
  have hle : iarg ≤ buf.length := hlen ▸ Nat.le_succ _
  simp only [plainDelim, rd_of_le hle, Res.ok_bind]
  split
  case isTrue hlisted =>
    rw [delimRefused, hlisted, Bool.true_and, decide_eq_false_iff_not, not_not] at hrefused
    rw [if_pos hrefused]
    exact ⟨_, rfl, Nat.succ_lt_succ hinam, hlen, by simp⟩
  case isFalse => exact ⟨_, rfl, Nat.succ_lt_succ hinam, hlen, by simp⟩

theorem quotedArg_atEnd (hs : NUL ∉ buf) (hesc : charAt buf aesc ≠ NUL)
    (hinam : nameIndex buf aesc < buf.length) (h : QuotedAtEnd buf aesc) :
    ScanAtEnd buf (quotedArg (roffEscape buf) buf aesc (nameIndex buf aesc) rval) := by
  have haesc := lt_length_of_charAt_ne_nul hesc
  unfold QuotedAtEnd at h
  dsimp only at h
  simp only [quotedArg, rd_of_le hinam.le, rd_of_le haesc.le,
    rd_of_le (show nameIndex buf aesc + 1 ≤ buf.length from hinam), Res.ok_bind]
  split at h
  case isTrue hc =>
    have hnul : charAt buf (nameIndex buf aesc + 1) ≠ NUL := hc ▸ hesc
    rw [if_neg hnul, if_pos hc]
    obtain ⟨s, hs', hexpand, hundef, hlisted, hrend⟩ | ⟨⟨s, hs', hundef⟩, hdelim⟩ := h
    · have hb := roffEscape_subBounded hs aesc _ s (Nat.lt_succ_of_lt (nameIndex_gt buf aesc))
        (lt_length_of_charAt_ne_nul hnul) hs'
      rw [hs', Res.ok_bind, if_neg hexpand, if_neg hundef, rd_of_le hb.rnam_le, Res.ok_bind,
        if_neg (by simp [hlisted])]
      exact ⟨_, rfl, lt_of_le_of_lt hb.resc_ge hb.resc_lt, hrend, by simp⟩
    · rw [hs', Res.ok_bind, if_neg (by rw [hundef]; decide), if_pos hundef]
      exact plainDelim_atEnd (Nat.lt_succ_of_lt (Nat.lt_succ_self _)) hdelim
  case isFalse hc =>
    have hnul : charAt buf (nameIndex buf aesc + 1) ≠ NUL :=
      charAt_ne_nul hs (h.2 ▸ Nat.lt_succ_self _)
    rw [if_neg hnul, if_neg hc]
    exact plainDelim_atEnd (Nat.lt_succ_self _) h

theorem escapeStart_atEnd (hs : NUL ∉ buf) (hesc : charAt buf aesc ≠ NUL)
    (h : OpensAtEnd buf aesc) : ScanAtEnd buf (escapeStart (roffEscape buf) buf aesc) := by
  have haesc := lt_length_of_charAt_ne_nul hesc
  have hle := nameIndex_le haesc
  have hlt : escName (charAt buf (nameIndex buf aesc)) ≠ .nul → nameIndex buf aesc < buf.length :=
    fun hne => lt_length_of_charAt_ne_nul fun h => hne (h ▸ escName_nul)
  unfold OpensAtEnd at h
  simp only [escapeStart, rd_of_le hle, Res.ok_bind]
  split at h
  case h_1 heq =>
    rw [heq]
    exact standardArg_atEnd (hlt (by simp [heq])) haesc hle h
  case h_2 heq =>
    rw [heq]
    exact standardArg_atEnd hle haesc hle h
  case h_3 heq =>
    rw [heq]
    exact quotedArg_atEnd hs hesc (hlt (by simp [heq])) h
  case h_4 => exact h.elim

/-- An argument that is opened at the end of the string begins behind the sequence. -/
theorem roffEscape_atEnd (hs : NUL ∉ buf) (hesc : charAt buf aesc ≠ NUL)
    (h : OpensAtEnd buf aesc) :
    ∃ r, roffEscape buf aesc = .ok r ∧ r.rend < r.rarg := by
  have hle := nameIndex_le (lt_length_of_charAt_ne_nul hesc)
  obtain ⟨a, ha, hlt, hlen, hmaxl⟩ := escapeStart_atEnd hs hesc h
  have hnul : charAt buf a.iarg = NUL := charAt_of_ge hlen.ge
  have haesc := lt_length_of_charAt_ne_nul hesc
  obtain ⟨e, he⟩ : ∃ e, argLoop (roffEscape buf) buf aesc (charAt buf (nameIndex buf aesc)) a
      (buf.length + 1) a.maxl a.iarg a.iend true = .ok e := by
    simp only [argLoop, if_neg hmaxl, rd_of_le haesc.le, rd_of_le hlen.le, Res.ok_bind, if_pos hnul]
    exact ⟨_, rfl⟩
  obtain ⟨-, rval, rfl⟩ := argLoop_atEnd hmaxl hnul he
  refine ⟨postProcess buf false aesc (nameIndex buf aesc) (charAt buf (nameIndex buf aesc)) a rval
    a.iarg a.iend true, ?_, ?_⟩
  · rw [roffEscape_eq hs hesc, escapeAt, ha, Res.ok_bind]
    simp only [rd_of_le hle, Res.ok_bind, he]
    rfl
  · rw [(postProcess_indices ..).2.2, (postProcess_argument ..).1]
    exact hlt

/-- The indices of a sequence and of all sequences behind it are ordered if and only if none of
    these sequences has its argument opened at the end of the string, and those of a sequence that
    has are not. -/
theorem roffEscape_ordered_iff (hs : NUL ∉ buf) (hesc : charAt buf aesc ≠ NUL) :
    ((∀ i r, aesc ≤ i → charAt buf i = charAt buf aesc → roffEscape buf i = .ok r → Ordered r) ↔
      ∀ i, aesc ≤ i → charAt buf i = charAt buf aesc → ¬ OpensAtEnd buf i) ∧
      (OpensAtEnd buf aesc → ∃ r, roffEscape buf aesc = .ok r ∧ ¬ Ordered r) := by
  have hbad : ∀ i, charAt buf i = charAt buf aesc → OpensAtEnd buf i →
      ∃ r, roffEscape buf i = .ok r ∧ ¬ Ordered r := by
    intro i hc hopen
    obtain ⟨r, hr, hlt⟩ := roffEscape_atEnd hs (hc ▸ hesc) hopen
    exact ⟨r, hr, fun h => absurd (h.rarg_le.trans h.rendarg_le) (not_le.mpr hlt)⟩
  refine ⟨⟨?_, ?_⟩, hbad aesc rfl⟩
  · intro hall i hi hc hopen
    obtain ⟨r, hr, hnot⟩ := hbad i hc hopen
    exact hnot (hall i r hi hc hr)
  · intro hall
    -- The sequences behind the current one come first.
    suffices h : ∀ k i r, buf.length - i < k → aesc ≤ i → charAt buf i = charAt buf aesc →
        roffEscape buf i = .ok r → Ordered r from fun i r => h _ i r (Nat.lt_succ_self _)
    intro k
    induction k with
    | zero => exact fun i r hk => absurd hk (Nat.not_lt_zero _)
    | succ k ih =>
      intro i r hk hi hc hr
      have hlt := lt_length_of_charAt_ne_nul (hc ▸ hesc : charAt buf i ≠ NUL)
      refine roffEscape_ordered hs (hc ▸ hesc) (fun j s hj hcj hs' => ?_) (hall i hi hc) hr
      exact ih j s (by omega) (hi.trans hj.le) (hcj.trans hc) hs'

end

/-- The text `\fB` has only one sequence. -/
theorem roffEscape_ordered_font :
    ∃ r, roffEscape ['\\', 'f', 'B'] 0 = .ok r ∧ r.rendarg = 3 ∧ Ordered r := by
  have hr : roffEscape ['\\', 'f', 'B'] 0 = .ok ⟨.FONTBOLD, 0, 1, 2, 3, 3⟩ := by decide +kernel
  have hall := (@roffEscape_ordered_iff ['\\', 'f', 'B'] 0 (by decide) (by decide)).1.mpr
  refine ⟨_, hr, rfl, hall ?_ 0 _ (Nat.le_refl 0) rfl hr⟩
  intro i _ hc hopen
  obtain rfl : i = 0 := by
    rcases i with _ | _ | _ | i
    · rfl
    · exact absurd hc (by decide)
    · exact absurd hc (by decide)
    · exact absurd hc (by simp [charAt, NUL])
  have hstandard : StandardAtEnd ['\\', 'f', 'B'] 0 2 := hopen
  exact absurd hstandard.2 (by unfold FormAtEnd; decide)

/-- In `\f(`, the sequence ends at index 2, but the argument begins at index 3. -/
theorem roffEscape_not_ordered : ¬ ∀ (buf : CStr) (aesc : Nat) (r : EscResult), NUL ∉ buf →
    charAt buf aesc ≠ NUL → roffEscape buf aesc = .ok r →
    r.rarg ≤ r.rendarg ∧ r.rendarg ≤ r.rend := by
  intro h
  have hr := h ['\\', 'f', '('] 0 ⟨.ERROR, 0, 1, 3, 3, 2⟩ (by decide) (by decide)
    (by decide +kernel)
  exact absurd hr.2 (by decide)

end Mandoc
