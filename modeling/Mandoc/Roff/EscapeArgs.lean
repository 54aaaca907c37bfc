import Mandoc.Lib.Ensures
import Mandoc.Roff.CharNames

/-!
# Arguments of Escape Sequences

The callers of `mandoc_escape()` read the argument that it reports. This file shows that the
argument lies inside the string, and that the argument of a Unicode escape is the name of a
code point, so that its conversion succeeds.

The sequence as a whole may end behind the terminating NUL, but only if its type says that there
is nothing to read: an error.
-/

namespace Mandoc

/-! ## §1 Types with an argument -/

/-- The bytes of the argument of an escape sequence: reading beyond the terminating NUL is a
    fault. -/
def readArg (buf : CStr) (i j : Nat) : Res CStr :=
  if j ≤ buf.length then .ok (slice buf i j) else .error .overrun

theorem slice_tail (s : CStr) (i j : Nat) : slice s (i + 1) j = (slice s i j).tail := by
  rw [slice, slice, ← List.drop_one, List.drop_take, List.drop_drop, Nat.sub_sub]

/-- The types that the syntax category alone does not assign to a sequence with an argument. -/
def EscName.Ordinary : EscName → Prop
  | .noarg rval => rval ≠ .UNICODE
  | .standard rval | .quoted rval => rval ≠ .NOSPACE ∧ rval ≠ .UNICODE
  | _ => True

private theorem ordinary_ite {p : Prop} [Decidable p] {a b : EscName} (ha : a.Ordinary)
    (hb : b.Ordinary) : (if p then a else b).Ordinary := by
  split
  · exact ha
  · exact hb

theorem escName_ordinary (c : Char) : (escName c).Ordinary := by
  unfold escName
  repeat' apply ordinary_ite
  all_goals simp [EscName.Ordinary]

/-- The argument that is reported can be read. -/
structure ArgInside (buf : CStr) (r : EscResult) : Prop where
  rarg_le : r.rval ≠ .ERROR → r.rval ≠ .EXPAND → r.rarg ≤ buf.length
  rendarg_le : r.rval ≠ .ERROR → r.rval ≠ .EXPAND → r.rendarg ≤ buf.length
  /-- The byte after the sequence can be read, too. -/
  nospace : r.rval = .NOSPACE → r.rend ≤ buf.length
  unicode : r.rval = .UNICODE → ∃ hs, UnicodeName (slice buf r.rarg r.rendarg) hs

/-- Where the scan of an argument begins, some of it is read, and the type is known to have an
    argument. -/
structure ScanInside (name : Char) (a : ArgStart) : Prop where
  maxl : a.maxl ≠ some 0
  ordinary : a.rval ≠ .NOSPACE ∧ a.rval ≠ .UNICODE
  validity : name = 'A' → a.rval ≠ .SPECIAL

/-- What holds after the first part of the function. -/
def Stage.ArgInside (buf : CStr) (name : Char) : Stage → Prop
  | .out r => Mandoc.ArgInside buf r
  | .scan a => ScanInside name a

section

variable {sub : Nat → Res EscResult} {buf : CStr} {aesc inam start iarg : Nat} {name : Char}
  {rval : Esc}

/-- Sequences that are to be expanded, or are in error, have no argument. -/
theorem ArgInside.of_failed {r : EscResult} (h : r.rval = .ERROR ∨ r.rval = .EXPAND) :
    ArgInside buf r := by
  refine ⟨fun h₁ h₂ => ?_, fun h₁ h₂ => ?_, fun hval => ?_, fun hval => ?_⟩
  · exact (h.elim h₁ h₂).elim
  · exact (h.elim h₁ h₂).elim
  · rw [hval] at h
    exact absurd h (by decide)
  · rw [hval] at h
    exact absurd h (by decide)

theorem ArgInside.of_le {r : EscResult} (hrarg : r.rarg ≤ buf.length)
    (hrendarg : r.rendarg ≤ buf.length) (hrend : r.rval = .NOSPACE → r.rend ≤ buf.length)
    (hunicode : r.rval ≠ .UNICODE) : ArgInside buf r :=
  ⟨fun _ _ => hrarg, fun _ _ => hrendarg, hrend, fun h => absurd h hunicode⟩

/-! ## §2 The beginning of the argument -/

theorem sizeArg_argInside (hname : name ≠ 'A') :
    Ensures (sizeArg buf aesc inam) (Stage.ArgInside buf name) := by
  unfold sizeArg
  refine Ensures.call fun _ => Ensures.call_eq fun f hf => Ensures.call_eq fun c hc => ?_
  have hle := (rd_eq_ok.mp hc).1
  refine Ensures.ite (fun _ => Ensures.pure_iff.mpr ?_) fun _ => Ensures.pure_iff.mpr ?_
  · exact .of_le hle hle (fun h => absurd h (by simp)) (by simp)
  · have hmaxl : f.2.2 ≠ some 0 := by
      simp only [sizeForm, Res.bind_eq_ok, Res.pure_eq_ok] at hf
      obtain ⟨c, -, h⟩ := hf
      repeat' split at h
      all_goals simp only [Res.bind_eq_ok, Except.ok.injEq] at h
      all_goals grind
    exact ⟨hmaxl, by simp, fun h => absurd h hname⟩

theorem standardForm_argInside (hrval : rval ≠ .NOSPACE ∧ rval ≠ .UNICODE) (hname : name ≠ 'A') :
    Ensures (standardForm buf aesc inam start rval) (Stage.ArgInside buf name) := by
  unfold standardForm
  refine Ensures.call fun _ => Ensures.call fun _ => Ensures.call fun _ => ?_
  refine Ensures.ite (fun _ => Ensures.pure_iff.mpr ⟨by simp, hrval, fun h => absurd h hname⟩)
    fun _ => ?_
  refine Ensures.ite (fun _ => Ensures.call fun _ => ?_) fun _ =>
    Ensures.pure_iff.mpr ⟨by simp, hrval, fun h => absurd h hname⟩
  exact Ensures.ite (fun _ => Ensures.pure_iff.mpr (.of_failed (.inl rfl))) fun _ =>
    Ensures.pure_iff.mpr ⟨by simp, hrval, fun h => absurd h hname⟩

theorem standardArg_argInside (hrval : rval ≠ .NOSPACE ∧ rval ≠ .UNICODE) (hname : name ≠ 'A') :
    Ensures (standardArg sub buf aesc inam start rval) (Stage.ArgInside buf name) := by
  unfold standardArg
  refine Ensures.call fun _ => Ensures.call fun _ => Ensures.ite (fun _ => ?_) fun _ =>
    standardForm_argInside hrval hname
  refine Ensures.call fun s => Ensures.ite (fun _ => ?_) fun _ => standardForm_argInside hrval hname
  exact Ensures.pure_iff.mpr (.of_failed (.inr rfl))

theorem plainDelim_argInside (hrval : rval ≠ .NOSPACE ∧ rval ≠ .UNICODE)
    (hname : name = 'A' → rval ≠ .SPECIAL) {c : Char} :
    Ensures (plainDelim buf aesc inam iarg c rval) (Stage.ArgInside buf name) := by
  have hval : ∀ rval : Esc, (if rval = .EXPAND then rval else .ERROR) = .ERROR ∨
      (if rval = .EXPAND then rval else .ERROR) = .EXPAND := by
    intro rval
    split
    · next h => exact .inr h
    · exact .inl rfl
  unfold plainDelim
  refine Ensures.call fun _ => Ensures.ite (fun _ => ?_) fun _ =>
    Ensures.pure_iff.mpr ⟨by simp, hrval, hname⟩
  refine Ensures.ite (fun _ => Ensures.pure_iff.mpr ?_) fun _ =>
    Ensures.pure_iff.mpr (.of_failed (hval rval))
  have hne : ∀ e : Esc, e ≠ .ERROR → e ≠ .EXPAND →
      (if rval = .EXPAND then rval else .ERROR) ≠ e := by
    intro e h₁ h₂ h
    obtain h' | h' := hval rval
    · exact h₁ (h.symm.trans h')
    · exact h₂ (h.symm.trans h')
  exact ⟨by simp, ⟨hne _ (by decide) (by decide), hne _ (by decide) (by decide)⟩,
    fun _ => hne _ (by decide) (by decide)⟩

theorem quotedArg_argInside (hsub : SubBounded sub buf aesc) (haesc : aesc < inam)
    (hrval : rval ≠ .NOSPACE ∧ rval ≠ .UNICODE) (hname : name = 'A' → rval ≠ .SPECIAL) :
    Ensures (quotedArg sub buf aesc inam rval) (Stage.ArgInside buf name) := by
  unfold quotedArg
  refine Ensures.call fun _ => Ensures.call fun _ => Ensures.call_eq fun c hc => ?_
  obtain ⟨hle, rfl⟩ := rd_eq_ok.mp hc
  refine Ensures.ite (fun _ => Ensures.pure_iff.mpr ?_) fun hnul => ?_
  · exact .of_le hle hle (fun h => absurd h hrval.1) hrval.2
  refine Ensures.ite (fun _ => Ensures.call_eq fun s hs => ?_) fun _ =>
    plainDelim_argInside hrval hname
  have hb := hsub _ s (Nat.lt_succ_of_lt haesc) (lt_length_of_charAt_ne_nul hnul) hs
  have hresc : s.resc ≤ buf.length :=
    Nat.le_of_lt_succ (Nat.lt_of_lt_of_le hb.resc_lt hb.rend_le)
  refine Ensures.ite (fun _ => Ensures.pure_iff.mpr (.of_failed (.inr rfl))) fun _ => ?_
  refine Ensures.ite (fun _ => plainDelim_argInside hrval hname) fun _ => ?_
  refine Ensures.call fun _ => Ensures.ite (fun _ => Ensures.pure_iff.mpr ?_) fun _ =>
    Ensures.pure_iff.mpr ⟨by simp, hrval, hname⟩
  exact .of_le hresc hresc (fun h => absurd h hrval.1) hrval.2

/-- All syntax categories. -/
theorem escapeStart_argInside (hsub : SubBounded sub buf aesc) :
    Ensures (escapeStart sub buf aesc)
      (Stage.ArgInside buf (charAt buf (nameIndex buf aesc))) := by
  have hgt := nameIndex_gt buf aesc
  unfold escapeStart
  refine Ensures.call_eq fun c hc => ?_
  obtain ⟨hle, rfl⟩ := rd_eq_ok.mp hc
  generalize hinam : nameIndex buf aesc = inam at hle hgt
  have hordinary := escName_ordinary (charAt buf inam)
  have hA : escName 'A' = .quoted .EXPAND := by decide
  -- Only the name A is treated in its own way.
  have hnotA : ∀ e, escName (charAt buf inam) = e → e ≠ .quoted .EXPAND → charAt buf inam ≠ 'A' := by
    rintro e rfl hne hname
    exact hne (hname ▸ hA)
  have hlt : escName (charAt buf inam) ≠ .nul → inam < buf.length := fun hne =>
    lt_length_of_charAt_ne_nul fun h => hne (h ▸ escName_nul)
  -- The cases are the kinds of names.
  split
  · next rval heq =>
    rw [heq] at hordinary
    have hle' : inam + 1 ≤ buf.length := hlt (by simp [heq])
    exact Ensures.pure_iff.mpr (.of_le hle' hle' (fun _ => hle') hordinary)
  · exact Ensures.pure_iff.mpr (.of_le hle hle (fun h => absurd h (by simp)) (by simp))
  · next heq =>
    have hle' : inam + 1 ≤ buf.length := hlt (by simp [heq])
    exact Ensures.pure_iff.mpr (.of_le hle hle' (fun h => absurd h (by simp)) (by simp))
  · next heq =>
    have hle' : inam + 1 ≤ buf.length := hlt (by simp [heq])
    exact Ensures.pure_iff.mpr (.of_le hle hle' (fun h => absurd h (by simp)) (by simp))
  · next rval heq =>
    rw [heq] at hordinary
    exact standardArg_argInside hordinary (hnotA _ heq (by simp))
  · next heq => exact standardArg_argInside (by decide) (hnotA _ heq (by simp))
  · next rval heq =>
    rw [heq] at hordinary
    refine quotedArg_argInside hsub hgt hordinary fun hname hrval => ?_
    rw [hname, hA] at heq
    cases heq
    exact absurd hrval (by decide)
  · next heq => exact sizeArg_argInside (hnotA _ heq (by simp))

/-! ## §3 The end of the argument -/

/-- Where the scan of an argument ends. -/
def ArgEnd.ArgInside (buf : CStr) (a : ArgStart) : ArgEnd → Prop
  | .sub _ => True
  | .done rval iendarg _ _ =>
    (rval = a.rval ∨ rval = .ERROR) ∧ a.iarg ≤ buf.length ∧ iendarg ≤ buf.length

/-- The bytes that the scan has passed are inside the string. -/
theorem argLoop_argInside {a : ArgStart} {steps : Nat} {maxl : Option Nat} {iendarg iend : Nat}
    {validA : Bool}
    (h : maxl = some 0 → iendarg ≤ buf.length) (hiarg : a.iarg ≤ iendarg ∨ a.iarg ≤ buf.length)
    (hsub : SubBounded sub buf aesc) (hgt : aesc < iendarg) :
    Ensures (argLoop sub buf aesc name a steps maxl iendarg iend validA)
      (ArgEnd.ArgInside buf a) := by
  induction steps generalizing maxl iendarg iend validA with
  | zero => exact Ensures.error_iff.mpr trivial
  | succ steps ih =>
    unfold argLoop
    refine Ensures.ite (fun hmaxl => ?_) fun hmaxl => ?_
    · have hle := h hmaxl
      have hiarg' : a.iarg ≤ buf.length := hiarg.elim (fun hi => hi.trans hle) id
      exact Ensures.ok_iff.mpr ⟨.inl rfl, hiarg', hle⟩
    refine Ensures.call fun _ => Ensures.call_eq fun c hc => ?_
    obtain ⟨hle, rfl⟩ := rd_eq_ok.mp hc
    have hiarg' : a.iarg ≤ buf.length := hiarg.elim (fun hi => hi.trans hle) id
    refine Ensures.ite (fun _ => Ensures.pure_iff.mpr ⟨?_, hiarg', ?_⟩) fun hnul => ?_
    · split
      · exact .inr rfl
      · exact .inl rfl
    · split
      · exact hle
      · exact hiarg'
    have hlt := lt_length_of_charAt_ne_nul hnul
    refine Ensures.ite (fun _ => Ensures.pure_iff.mpr ⟨.inl rfl, hiarg', hle⟩) fun _ => ?_
    refine Ensures.ite (fun _ => Ensures.call_eq fun s hs => Ensures.call fun _ => ?_) fun _ => ?_
    · -- A nested sequence may end behind the NUL, and then the next read fails.
      have hb := hsub _ s hgt hlt hs
      refine Ensures.ite (fun _ => Ensures.pure_iff.mpr trivial) fun _ => ?_
      refine Ensures.ite (fun _ => Ensures.pure_iff.mpr ⟨.inl rfl, hiarg', hle⟩) fun _ => ?_
      exact ih (fun hzero => absurd hzero hmaxl) (.inr hiarg')
        (Nat.lt_of_lt_of_le (Nat.lt_of_lt_of_le hgt hb.resc_ge) hb.resc_lt.le)
    refine Ensures.ite (fun _ => Ensures.pure_iff.mpr ⟨.inl rfl, hiarg', hle⟩) fun _ => ?_
    exact ih (fun _ => hlt) (.inr hiarg') (Nat.lt_succ_of_lt hgt)

/-! ## §4 The whole sequence -/

theorem mandocFont_ordinary (arg : CStr) : mandocFont arg ≠ .NOSPACE ∧ mandocFont arg ≠ .UNICODE := by
  unfold mandocFont
  split <;> decide

theorem outputArg_ordinary (i argl : Nat) : outputArg buf i argl ≠ .NOSPACE ∧
    outputArg buf i argl ≠ .UNICODE ∧ outputArg buf i argl ≠ .SPECIAL := by
  unfold outputArg
  grind

/-- The argument of a Unicode escape is the name of a code point. -/
theorem unicodeName_of_isUnicode {s : CStr} {argl : Nat} (h : isUnicode s argl = true) :
    ∃ hs, UnicodeName (s.take argl) hs := by
  have hle : argl ≤ s.length := by
    have hspan : strspn (s.drop 1) "0123456789ABCDEFabcdef" ≤ s.length - 1 := by
      rw [← List.length_drop]
      exact (List.takeWhile_prefix _).length_le
    simp only [isUnicode, Bool.and_eq_true, decide_eq_true_eq] at h
    omega
  have hsplit : s.take argl ++ s.drop argl = s := List.take_append_drop argl s
  have hlen : (s.take argl).length = argl := List.length_take_of_le hle
  have hiff := isUnicode_iff (s.take argl) (s.drop argl)
  rw [hsplit, hlen] at hiff
  exact (hiff.mp h).1

/-- Special characters: the type `UNICODE` is for the names of code points. -/
theorem specialArg_ordinary (s : CStr) (argl : Nat) (term : Char) :
    (specialArg s argl term).2 = 0 ∧ (specialArg s argl term).1 ≠ .NOSPACE ∧
    ((specialArg s argl term).1 = .UNICODE → ∃ hs, UnicodeName (s.take argl) hs) := by
  unfold specialArg
  rw [isCharAlias_eq_false]
  split
  · exact ⟨rfl, by simp, fun h => absurd h (by simp)⟩
  split
  · exact ⟨rfl, by simp, fun h => absurd h (by simp)⟩
  split
  · exact ⟨rfl, by simp, fun h => absurd h (by simp)⟩
  split
  · next hunicode => exact ⟨rfl, by simp, fun _ => unicodeName_of_isUnicode hunicode⟩
  · exact ⟨rfl, by simp, fun h => absurd h (by simp)⟩

/-- The content of the argument decides the type, and the argument remains inside. -/
theorem postProcess_argInside (nullResc : Bool) {a : ArgStart} {iendarg : Nat} (iend : Nat)
    (validA : Bool) (ha : ScanInside name a)
    (h : (rval = a.rval ∨ rval = .ERROR) ∧ a.iarg ≤ buf.length ∧ iendarg ≤ buf.length) :
    ArgInside buf (postProcess buf nullResc aesc inam name a rval iendarg iend validA) := by
  obtain ⟨hrval, hiarg, hle⟩ := h
  have hordinary : rval ≠ .NOSPACE ∧ rval ≠ .UNICODE := by
    obtain rfl | rfl := hrval
    · exact ha.ordinary
    · decide
  have hnotA : rval = .SPECIAL → name ≠ 'A' := by
    rintro rfl hname
    obtain h | h := hrval
    · exact ha.validity hname h.symm
    · exact absurd h (by decide)
  have hle' : (if name = 'A' && !validA then a.iarg else iendarg) ≤ buf.length := by
    split
    · exact hiarg
    · exact hle
  have houtput := @outputArg_ordinary buf a.iarg (iendarg - a.iarg)
  unfold postProcess
  dsimp only
  generalize hval : (if (name = '*' && nullResc && decide (iendarg - a.iarg = 2) &&
      decide (charAt buf a.iarg = '.') && decide (charAt buf (a.iarg + 1) = 'T')) = true then Esc.DEVICE
    else if name = 'O' then outputArg buf a.iarg (iendarg - a.iarg) else rval) = rval'
  have hval' : rval' = .DEVICE ∨ rval' = outputArg buf a.iarg (iendarg - a.iarg) ∨ rval' = rval := by
    rw [← hval]
    split
    · exact .inl rfl
    · split
      · exact .inr (.inl rfl)
      · exact .inr (.inr rfl)
  split
  · have hfont := mandocFont_ordinary ((buf.drop a.iarg).take (iendarg - a.iarg))
    exact .of_le hiarg hle' (fun h => absurd h hfont.1) hfont.2
  · -- Special characters are not the argument of `\A`.
    have hspecial : rval = .SPECIAL := by
      obtain h | h | h := hval'
      · exact absurd h (by decide)
      · exact absurd h.symm houtput.2.2
      · exact h.symm
    have hif : (if name = 'A' && !validA then a.iarg else iendarg) = iendarg :=
      if_neg (by simp [hnotA hspecial])
    obtain ⟨hzero, hnospace, hunicode⟩ :=
      specialArg_ordinary (buf.drop a.iarg) (iendarg - a.iarg) a.term
    rw [hif, hzero]
    exact ⟨fun _ _ => hiarg, fun _ _ => hle, fun h => absurd h hnospace, hunicode⟩
  · have hne : rval' ≠ .NOSPACE ∧ rval' ≠ .UNICODE := by
      obtain rfl | rfl | rfl := hval'
      · decide
      · exact ⟨houtput.1, houtput.2.1⟩
      · exact hordinary
    exact .of_le hiarg hle' (fun h => absurd h hne.1) hne.2

/-- One level of the recursion. -/
theorem escapeAt_argInside {nullResc : Bool} (hsub : SubBounded sub buf aesc)
    (hesc : charAt buf aesc ≠ NUL) :
    Ensures (escapeAt sub buf aesc nullResc) (ArgInside buf) := by
  unfold escapeAt
  refine Ensures.call_eq fun st hst => ?_
  have hinside := (escapeStart_argInside hsub).of_eq_ok hst
  cases st with
  | out r => exact Ensures.pure_iff.mpr hinside
  | scan a =>
    have hb := escapeStart_bounded hsub hesc hst
    refine Ensures.call_eq fun c hc => ?_
    obtain ⟨-, rfl⟩ := rd_eq_ok.mp hc
    refine Ensures.bind (argLoop_argInside (fun h => absurd h hinside.maxl) (.inl (Nat.le_refl _))
      hsub hb.iarg_gt) fun e he => ?_
    cases e with
    | sub s => exact Ensures.pure_iff.mpr (.of_failed (.inr rfl))
    | done rval iendarg iend validA =>
      exact Ensures.pure_iff.mpr (postProcess_argInside nullResc iend validA hinside he)

/-- **Arguments.** What a formatter learns about an escape sequence can be read. -/
theorem mandocEscape_argInside (hs : NUL ∉ buf) (hesc : charAt buf aesc ≠ NUL) :
    Ensures (mandocEscape buf aesc) (ArgInside buf) := by
  unfold mandocEscape
  rw [roffEscapeNull_eq hs hesc]
  refine Ensures.bind (escapeAt_argInside (roffEscape_subBounded hs aesc) hesc) fun r hr => ?_
  exact Ensures.ite (fun _ => Ensures.error_iff.mpr trivial) fun _ => Ensures.pure_iff.mpr hr

theorem mandocEscape_bounded (hs : NUL ∉ buf) (hesc : charAt buf aesc ≠ NUL) :
    Ensures (mandocEscape buf aesc) fun r => r.rval ≠ .EXPAND ∧ Bounded buf aesc r := by
  unfold mandocEscape
  refine Ensures.call_eq fun r hr => ?_
  refine Ensures.ite (fun _ => Ensures.error_iff.mpr trivial) fun hne => Ensures.pure_iff.mpr ?_
  exact ⟨hne, escapeRec_bounded hs hesc hr⟩

/-! ## §5 Behind the escape character -/

/-- The argument begins behind the escape character, unless a nested sequence is reported. -/
def Stage.ArgBehind (aesc : Nat) : Stage → Prop
  | .out r => r.rval = .EXPAND ∨ aesc < r.rarg
  | .scan a => aesc < a.iarg

theorem sizeArg_argBehind (hinam : aesc < inam) :
    Ensures (sizeArg buf aesc inam) (Stage.ArgBehind aesc) := by
  unfold sizeArg
  refine Ensures.call fun c => Ensures.call_eq fun f hf => Ensures.call fun _ => ?_
  have hge := sizeForm_ge hf
  have hgt : aesc < f.1 := Nat.lt_of_lt_of_le (Nat.lt_add_right _ (Nat.lt_succ_of_lt hinam)) hge
  exact Ensures.ite (fun _ => Ensures.pure_iff.mpr (.inr hgt)) fun _ => Ensures.pure_iff.mpr hgt

theorem standardForm_argBehind (hstart : aesc < start) :
    Ensures (standardForm buf aesc inam start rval) (Stage.ArgBehind aesc) := by
  unfold standardForm
  refine Ensures.call fun name => Ensures.call fun c => Ensures.call fun _ => ?_
  have hgt : aesc < start + regSign name c := Nat.lt_add_right _ hstart
  refine Ensures.ite (fun _ => Ensures.pure_iff.mpr (Nat.lt_succ_of_lt hgt)) fun _ => ?_
  refine Ensures.ite (fun _ => Ensures.call fun _ => ?_) fun _ => Ensures.pure_iff.mpr hgt
  exact Ensures.ite (fun _ => Ensures.pure_iff.mpr (.inr (Nat.lt_succ_of_lt hgt))) fun _ =>
    Ensures.pure_iff.mpr (Nat.lt_succ_of_lt hgt)

theorem standardArg_argBehind (hstart : aesc < start) :
    Ensures (standardArg sub buf aesc inam start rval) (Stage.ArgBehind aesc) := by
  unfold standardArg
  refine Ensures.call fun _ => Ensures.call fun _ => Ensures.ite (fun _ => ?_) fun _ =>
    standardForm_argBehind hstart
  refine Ensures.call fun s => Ensures.ite (fun _ => ?_) fun _ => standardForm_argBehind hstart
  exact Ensures.pure_iff.mpr (.inl rfl)

theorem plainDelim_argBehind (hiarg : aesc < iarg) {c : Char} :
    Ensures (plainDelim buf aesc inam iarg c rval) (Stage.ArgBehind aesc) := by
  unfold plainDelim
  refine Ensures.call fun _ => Ensures.ite (fun _ => ?_) fun _ =>
    Ensures.pure_iff.mpr (Nat.lt_succ_of_lt hiarg)
  exact Ensures.ite (fun _ => Ensures.pure_iff.mpr (Nat.lt_succ_of_lt hiarg)) fun _ =>
    Ensures.pure_iff.mpr (.inr hiarg)

theorem quotedArg_argBehind (hsub : SubBounded sub buf aesc) (haesc : aesc < inam) :
    Ensures (quotedArg sub buf aesc inam rval) (Stage.ArgBehind aesc) := by
  have hgt : aesc < inam + 1 := Nat.lt_succ_of_lt haesc
  unfold quotedArg
  refine Ensures.call fun _ => Ensures.call fun _ => Ensures.call_eq fun c hc => ?_
  obtain ⟨-, rfl⟩ := rd_eq_ok.mp hc
  refine Ensures.ite (fun _ => Ensures.pure_iff.mpr (.inr hgt)) fun hnul => ?_
  refine Ensures.ite (fun _ => Ensures.call_eq fun s hs => ?_) fun _ => plainDelim_argBehind hgt
  have hb := hsub _ s hgt (lt_length_of_charAt_ne_nul hnul) hs
  have hresc : aesc < s.resc := Nat.lt_of_lt_of_le hgt hb.resc_ge
  refine Ensures.ite (fun _ => Ensures.pure_iff.mpr (.inl rfl)) fun _ => ?_
  refine Ensures.ite (fun _ => plainDelim_argBehind (Nat.lt_succ_of_lt hgt)) fun _ => ?_
  refine Ensures.call fun _ => Ensures.ite (fun _ => Ensures.pure_iff.mpr (.inr hresc)) fun _ => ?_
  exact Ensures.pure_iff.mpr (Nat.lt_trans hresc hb.resc_lt)

theorem escapeStart_argBehind (hsub : SubBounded sub buf aesc) :
    Ensures (escapeStart sub buf aesc) (Stage.ArgBehind aesc) := by
  have hgt := nameIndex_gt buf aesc
  unfold escapeStart
  refine Ensures.call fun c => ?_
  split
  · exact Ensures.pure_iff.mpr (.inr (Nat.lt_succ_of_lt hgt))
  · exact Ensures.pure_iff.mpr (.inr hgt)
  · exact Ensures.pure_iff.mpr (.inr hgt)
  · exact Ensures.pure_iff.mpr (.inr hgt)
  · exact standardArg_argBehind (Nat.lt_succ_of_lt hgt)
  · exact standardArg_argBehind hgt
  · exact quotedArg_argBehind hsub hgt
  · exact sizeArg_argBehind hgt

theorem postProcess_rarg_ge (nullResc : Bool) (a : ArgStart) (iendarg iend : Nat) (validA : Bool) :
    a.iarg ≤ (postProcess buf nullResc aesc inam name a rval iendarg iend validA).rarg := by
  unfold postProcess
  dsimp only
  split
  · exact Nat.le_refl _
  · exact Nat.le_add_right ..
  · exact Nat.le_refl _

/-- The argument of a sequence begins behind the escape character. -/
theorem mandocEscape_lt_rarg (hs : NUL ∉ buf) (hesc : charAt buf aesc ≠ NUL) :
    Ensures (mandocEscape buf aesc) fun r => aesc < r.rarg := by
  have hsub := roffEscape_subBounded hs aesc
  unfold mandocEscape
  rw [roffEscapeNull_eq hs hesc]
  refine Ensures.bind (P := fun r => r.rval = .EXPAND ∨ aesc < r.rarg) ?_ fun r hr => ?_
  · unfold escapeAt
    refine Ensures.call_eq fun st hst => ?_
    have hbehind := (escapeStart_argBehind hsub).of_eq_ok hst
    cases st with
    | out r => exact Ensures.pure_iff.mpr hbehind
    | scan a =>
      refine Ensures.call fun _ => Ensures.call fun e => ?_
      cases e with
      | sub s => exact Ensures.pure_iff.mpr (.inl rfl)
      | done rval iendarg iend validA =>
        exact Ensures.pure_iff.mpr (.inr (Nat.lt_of_lt_of_le hbehind (postProcess_rarg_ge ..)))
  · refine Ensures.ite (fun _ => Ensures.error_iff.mpr trivial) fun hne => ?_
    exact Ensures.pure_iff.mpr (hr.resolve_left hne)

end

end Mandoc
