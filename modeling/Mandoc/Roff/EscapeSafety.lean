import Mandoc.Roff.EscapeBounds

/-!
# Escape Sequences End Inside the Buffer

Every caller of `roff_escape()` continues at the end index that it returns, so that
index must not lie beyond the terminating NUL.

There is exactly one way for it to do so. When the delimiter of a quoted argument is
an escape character and nothing follows, the recursive call finds the end of the line
and answers `ESCAPE_UNDEF`, so the delimiter is taken from the byte after the escape
character: the terminating NUL. With some names, `strchr()` finds the NUL in the list
of forbidden delimiters, with the others the scan of the argument starts behind it.

## References

- `roff_escape.c`: `roff_escape()`
- `roff.c`: `roff_expand()`
-/

namespace Mandoc

open Except

section

variable {sub : Nat → Res EscResult} {buf : CStr}

private theorem lt_of_charAt_eq {i : Nat} {c : Char} (h : charAt buf i = c) (hc : c ≠ NUL) :
    i < buf.length := lt_length_of_charAt_ne_nul (h ▸ hc)

/-! ## §1 A lone escape character as a delimiter -/

/-- The sequence at `aesc` has the name of a quoted argument, and the rest of the
    buffer is one escape character. -/
def LoneDelim (buf : CStr) (aesc : Nat) : Prop :=
  (∃ rval, escName (charAt buf (nameIndex buf aesc)) = .quoted rval) ∧
  charAt buf (nameIndex buf aesc + 1) = charAt buf aesc ∧
  buf.length = nameIndex buf aesc + 2

/-! ## §2 The beginning of the argument stays inside -/

/-- The first part of the function stays inside the buffer. -/
def Stage.Inside (buf : CStr) : Stage → Prop
  | .out r => r.rend ≤ buf.length
  | .scan a => a.iarg ≤ buf.length

/-- The recursive calls return, and end inside the buffer. -/
def SubInside (sub : Nat → Res EscResult) (buf : CStr) (aesc : Nat) : Prop :=
  ∀ i, aesc < i → charAt buf i = charAt buf aesc → ∃ r, sub i = .ok r ∧ r.rend ≤ buf.length

/-- Only a byte of the line is skipped as a sign. -/
theorem sizeSign_inside {i : Nat} (hi : i ≤ buf.length) :
    i + sizeSign (charAt buf i) ≤ buf.length := by
  by_cases h : charAt buf i = NUL
  · rw [h]; exact hi
  · have := lt_length_of_charAt_ne_nul h
    unfold sizeSign
    split <;> omega

theorem regSign_inside {i : Nat} (name : Char) (hi : i ≤ buf.length) :
    i + regSign name (charAt buf i) ≤ buf.length := by
  by_cases h : charAt buf i = NUL
  · rw [h]; simpa [regSign, NUL] using hi
  · have := lt_length_of_charAt_ne_nul h
    unfold regSign
    split <;> omega

/-- Whatever selects the form of the argument of `\s` is a byte of the line. -/
theorem sizeForm_inside {i : Nat} (hi : i ≤ buf.length) (hpos : 0 < i) :
    ∃ f, sizeForm buf i = .ok f ∧ f.1 ≤ buf.length := by
  have hlt : charAt buf i ≠ NUL → i < buf.length := lt_length_of_charAt_ne_nul
  simp only [sizeForm, rd_of_le hi, Res.ok_bind, Res.pure_eq_ok]
  split
  · rename_i h; exact ⟨_, rfl, lt_of_charAt_eq h (by decide)⟩
  split
  · rename_i h; exact ⟨_, rfl, lt_of_charAt_eq h (by decide)⟩
  split
  · rename_i h; exact ⟨_, rfl, lt_of_charAt_eq h (by decide)⟩
  split
  · rename_i h
    have : i < buf.length := hlt (fun h0 => by rw [h0] at h; revert h; decide)
    rw [rd_of_le (by omega : i - 1 ≤ buf.length), rd_of_le (by omega : i + 1 ≤ buf.length)]
    exact ⟨_, rfl, hi⟩
  · exact ⟨_, rfl, hi⟩

theorem sizeArg_inside {aesc inam : Nat} (hinam : inam < buf.length) :
    ∃ st, sizeArg buf aesc inam = .ok st ∧ st.Inside buf := by
  simp only [sizeArg, rd_of_le (show inam + 1 ≤ buf.length from hinam), Res.ok_bind,
    Res.pure_eq_ok]
  obtain ⟨f, hf, hle⟩ := sizeForm_inside (sizeSign_inside hinam) (by omega)
  simp only [hf, Res.ok_bind, rd_of_le hle]
  split
  · exact ⟨_, rfl, hle⟩
  · exact ⟨_, rfl, hle⟩

theorem standardForm_inside {aesc inam start : Nat} {rval : Esc} (hinam : inam ≤ buf.length)
    (hstart : start ≤ buf.length) :
    ∃ st, standardForm buf aesc inam start rval = .ok st ∧ st.Inside buf := by
  simp only [standardForm, rd_of_le hinam, rd_of_le hstart, Res.ok_bind, Res.pure_eq_ok]
  have hi' := regSign_inside (charAt buf inam) hstart
  generalize start + regSign (charAt buf inam) (charAt buf start) = i at hi'
  rw [rd_of_le hi']
  simp only [Res.ok_bind]
  split
  · rename_i h; exact ⟨_, rfl, lt_of_charAt_eq h (by decide)⟩
  split
  · rename_i h
    have hlt : i < buf.length := lt_of_charAt_eq h (by decide)
    rw [rd_of_le (by omega : i + 1 ≤ buf.length)]
    simp only [Res.ok_bind]
    split
    · rename_i h'; exact ⟨_, rfl, lt_of_charAt_eq h' (by decide)⟩
    · exact ⟨_, rfl, hlt⟩
  · exact ⟨_, rfl, hi'⟩

theorem standardArg_inside {aesc inam start : Nat} {rval : Esc} (hesc : charAt buf aesc ≠ NUL)
    (hsub : SubInside sub buf aesc) (hgt : aesc < start) (hinam : inam ≤ buf.length)
    (hstart : start ≤ buf.length) :
    ∃ st, standardArg sub buf aesc inam start rval = .ok st ∧ st.Inside buf := by
  simp only [standardArg, rd_of_le (lt_length_of_charAt_ne_nul hesc).le, rd_of_le hstart,
    Res.ok_bind, Res.pure_eq_ok]
  split
  · rename_i hc
    obtain ⟨s, hs, hle⟩ := hsub start hgt hc
    simp only [hs, Res.ok_bind]
    split
    · exact ⟨_, rfl, hle⟩
    · exact standardForm_inside hinam hstart
  · exact standardForm_inside hinam hstart

theorem plainDelim_inside {aesc inam iarg : Nat} {name : Char} {rval : Esc}
    (hi : iarg < buf.length) :
    ∃ st, plainDelim buf aesc inam iarg name rval = .ok st ∧ st.Inside buf := by
  simp only [plainDelim, rd_of_le hi.le, Res.ok_bind, Res.pure_eq_ok]
  split
  · split
    · exact ⟨_, rfl, hi⟩
    · exact ⟨_, rfl, hi⟩
  · exact ⟨_, rfl, hi⟩

/-- The only case that skips a byte without looking at it is an escape character as
    the delimiter; the byte after it exists because the escape character is not last. -/
theorem quotedArg_inside {aesc : Nat} {rval : Esc}
    (hesc : charAt buf aesc ≠ NUL) (hb : SubBounded sub buf aesc) (hsub : SubInside sub buf aesc)
    (hname : escName (charAt buf (nameIndex buf aesc)) = .quoted rval)
    (hlone : ¬ LoneDelim buf aesc) :
    ∃ st, quotedArg sub buf aesc (nameIndex buf aesc) rval = .ok st ∧ st.Inside buf := by
  have hgt := nameIndex_gt buf aesc
  have hlt : nameIndex buf aesc < buf.length :=
    lt_length_of_charAt_ne_nul (fun h => by rw [h, escName_nul] at hname; cases hname)
  simp only [quotedArg, rd_of_le (lt_length_of_charAt_ne_nul hesc).le, rd_of_le hlt.le,
    rd_of_le (show nameIndex buf aesc + 1 ≤ buf.length from hlt), Res.ok_bind, Res.pure_eq_ok]
  split
  · exact ⟨_, rfl, hlt⟩
  rename_i hnul
  have hlt' := lt_length_of_charAt_ne_nul hnul
  split
  · rename_i hc
    obtain ⟨s, hs', hle⟩ := hsub _ (by omega) hc
    have hb' := hb _ s (by omega) hlt' hs'
    simp only [hs', Res.ok_bind]
    split
    · exact ⟨_, rfl, hle⟩
    split
    · refine plainDelim_inside (Nat.lt_of_le_of_ne hlt' fun h => hlone ⟨⟨rval, hname⟩, hc, ?_⟩)
      exact h.symm
    · simp only [rd_of_le hb'.rnam_le, Res.ok_bind]
      split
      · exact ⟨_, rfl, hle⟩
      · exact ⟨_, rfl, hle⟩
  · exact plainDelim_inside hlt'

theorem escapeStart_inside {aesc : Nat}
    (hesc : charAt buf aesc ≠ NUL) (hb : SubBounded sub buf aesc) (hsub : SubInside sub buf aesc)
    (hlone : ¬ LoneDelim buf aesc) :
    ∃ st, escapeStart sub buf aesc = .ok st ∧ st.Inside buf := by
  have hgt := nameIndex_gt buf aesc
  have hle := nameIndex_le (lt_length_of_charAt_ne_nul hesc)
  have hlt : escName (charAt buf (nameIndex buf aesc)) ≠ .nul →
      nameIndex buf aesc < buf.length := fun hne =>
    lt_length_of_charAt_ne_nul (fun h => hne (h ▸ escName_nul))
  simp only [escapeStart, rd_of_le hle, Res.ok_bind, Res.pure_eq_ok]
  split
  case h_1 heq => exact ⟨_, rfl, hlt (by simp [heq])⟩
  case h_2 => exact ⟨_, rfl, hle⟩
  case h_3 heq => exact ⟨_, rfl, hlt (by simp [heq])⟩
  case h_4 heq => exact ⟨_, rfl, hlt (by simp [heq])⟩
  case h_5 heq => exact standardArg_inside hesc hsub (by omega) hle (hlt (by simp [heq]))
  case h_6 heq => exact standardArg_inside hesc hsub hgt hle hle
  case h_7 heq => exact quotedArg_inside hesc hb hsub heq hlone
  case h_8 heq => exact sizeArg_inside (hlt (by simp [heq]))

/-! ## §3 The end of the argument stays inside -/

/-- The scan of the argument ends inside the buffer. -/
def ArgEnd.Inside (buf : CStr) : ArgEnd → Prop
  | .sub s => s.rend ≤ buf.length
  | .done _ _ iend _ => iend ≤ buf.length

/-- By induction on the steps left, which exceed the number of bytes left. -/
theorem argLoop_inside {aesc : Nat} (name : Char) (a : ArgStart) (maxl : Option Nat)
    (validA : Bool) (hesc : charAt buf aesc ≠ NUL) (hb : SubBounded sub buf aesc) (hsub : SubInside sub buf aesc)
    {steps iendarg iend : Nat} (hgt : aesc < iendarg) (hle : iendarg ≤ buf.length) (hend : iend ≤ buf.length)
    (hsteps : buf.length - iendarg < steps) :
    ∃ e, argLoop sub buf aesc name a steps maxl iendarg iend validA = .ok e ∧ e.Inside buf := by
  -- By induction on the number of steps; the cases are the branches of the loop.
  induction steps generalizing maxl iendarg iend validA with
  | zero => omega
  | succ steps ih =>
    simp only [argLoop]
    split
    · exact ⟨_, rfl, hend⟩
    simp only [rd_of_le (lt_length_of_charAt_ne_nul hesc).le, rd_of_le hle, Res.ok_bind,
      Res.pure_eq_ok]
    split
    · exact ⟨_, rfl, hend⟩
    rename_i hnul
    have hlt := lt_length_of_charAt_ne_nul hnul
    split
    · exact ⟨_, rfl, hlt⟩
    split
    · rename_i hc
      -- An escape sequence in the argument ends inside the buffer.
      obtain ⟨s, hs, hle'⟩ := hsub _ hgt hc
      have hb' := hb _ s hgt hlt hs
      have := hb'.resc_ge
      have := hb'.resc_lt
      simp only [hs, rd_of_le hb'.rnam_le, Res.ok_bind]
      split
      · exact ⟨_, rfl, hle'⟩
      split
      · exact ⟨_, rfl, hle'⟩
      · exact ih _ _ (by omega) hle' hle' (by omega)
    split
    · exact ⟨_, rfl, hlt⟩
    · exact ih _ _ (by omega) hlt hlt (by omega)

/-- One level of the recursion. -/
theorem escapeAt_inside {aesc : Nat} {nullResc : Bool}
    (hesc : charAt buf aesc ≠ NUL) (hb : SubBounded sub buf aesc) (hsub : SubInside sub buf aesc)
    (hlone : ¬ LoneDelim buf aesc) :
    ∃ r, escapeAt sub buf aesc nullResc = .ok r ∧ r.rend ≤ buf.length := by
  obtain ⟨st, hst, hin⟩ := escapeStart_inside hesc hb hsub hlone
  have hbst := escapeStart_bounded hb hesc hst
  simp only [escapeAt, hst, Res.ok_bind]
  cases st with
  | out r => exact ⟨r, rfl, hin⟩
  | scan a =>
    have hsteps : buf.length - a.iarg < buf.length + 1 := by omega
    obtain ⟨e, he, hin'⟩ := argLoop_inside (charAt buf (nameIndex buf aesc)) a a.maxl true hesc hb
      hsub hbst.iarg_gt hin hbst.iend_le hsteps
    simp only [rd_of_le (nameIndex_le (lt_length_of_charAt_ne_nul hesc)), he, Res.ok_bind,
      Res.pure_eq_ok]
    cases e with
    | sub s => exact ⟨_, rfl, hin'⟩
    | done rval iendarg iend validA =>
      refine ⟨_, rfl, ?_⟩
      rw [(postProcess_indices _ _ _ _ _ _ _ _ _ _).2.2]
      exact hin'

/-! ## §4 All levels of the recursion -/

/-- A call that returns, without reading beyond the terminating NUL, and whose end
    index lies after the reported sequence and inside the buffer. -/
def SafeCall (buf : CStr) (call : Res EscResult) : Prop :=
  ∃ r, call = .ok r ∧ r.resc < r.rend ∧ r.rend ≤ buf.length

/-- Both ways to call `roff_escape()` on the sequence at `aesc` are safe. -/
def SafeAt (buf : CStr) (aesc : Nat) : Prop :=
  SafeCall buf (roffEscape buf aesc) ∧ SafeCall buf (roffEscapeNull buf aesc)

/-- Induction on the number of bytes after the escape character: the recursive calls
    are all made further to the right. -/
theorem roffEscape_inside {ec : Char} (hs : NUL ∉ buf) (hec : ec ≠ NUL)
    (hlone : ∀ i, charAt buf i = ec → ¬ LoneDelim buf i) {aesc : Nat} (ha : charAt buf aesc = ec) :
    ∃ r, roffEscape buf aesc = .ok r ∧ r.rend ≤ buf.length := by
  induction hn : buf.length - aesc using Nat.strong_induction_on generalizing aesc with
  | _ n ih =>
    have hesc : charAt buf aesc ≠ NUL := ha ▸ hec
    have hlt := lt_length_of_charAt_ne_nul hesc
    rw [roffEscape_eq hs hesc]
    refine escapeAt_inside hesc (roffEscape_subBounded hs aesc) (fun i hi hc => ?_) (hlone aesc ha)
    exact ih _ (by omega) (hc.trans ha) rfl

/-- Without a lone delimiter, every call is safe. -/
theorem safeAt_of_not_loneDelim {ec : Char} (hs : NUL ∉ buf) (hec : ec ≠ NUL)
    (hlone : ∀ i, charAt buf i = ec → ¬ LoneDelim buf i) {aesc : Nat} (ha : charAt buf aesc = ec) :
    SafeAt buf aesc := by
  have hesc : charAt buf aesc ≠ NUL := ha ▸ hec
  have hb := roffEscape_subBounded hs aesc
  have hin : SubInside (roffEscape buf) buf aesc := fun i _ hc =>
    roffEscape_inside hs hec hlone (hc.trans ha)
  have hsafe : ∀ nullResc, SafeCall buf (escapeAt (roffEscape buf) buf aesc nullResc) := by
    intro nullResc
    obtain ⟨r, hr, hle⟩ := escapeAt_inside hesc hb hin (hlone aesc ha)
    exact ⟨r, hr, (escapeAt_bounded hb hesc hr).resc_lt, hle⟩
  exact ⟨roffEscape_eq hs hesc ▸ hsafe false, roffEscapeNull_eq hs hesc ▸ hsafe true⟩

/-! ## §5 A lone delimiter is fatal -/

/-- A lone escape character at the end of the buffer is an undefined sequence. -/
theorem roffEscape_last {i : Nat} (hs : NUL ∉ buf) (hi : buf.length = i + 1) :
    roffEscape buf i = .ok ⟨.UNDEF, i, i + 1, i + 1, i + 1, i + 1⟩ := by
  have hesc : charAt buf i ≠ NUL := charAt_ne_nul hs (by omega)
  have hname : nameIndex buf i = i + 1 := by
    simp [nameIndex, strspn, List.drop_eq_nil_of_le (show buf.length ≤ i + 1 by omega)]
  have hnul : charAt buf (i + 1) = NUL := charAt_of_ge (by omega)
  rw [roffEscape_eq hs hesc]
  simp [escapeAt, escapeStart, hname, rd_of_le (show i + 1 ≤ buf.length by omega), hnul,
    escName_nul]

theorem argLoop_overrun {aesc : Nat} {name : Char} {a : ArgStart} {steps iendarg iend : Nat}
    {validA : Bool} (ha : aesc < buf.length) (hgt : buf.length < iendarg) :
    argLoop sub buf aesc name a (steps + 1) none iendarg iend validA = .error .overrun := by
  simp [argLoop, rd_of_le ha.le, rd_of_gt hgt]

/-- With a lone delimiter, the call reads beyond the NUL or returns an end index
    beyond it. -/
theorem not_safeAt_of_loneDelim {aesc : Nat} (hs : NUL ∉ buf) (hesc : charAt buf aesc ≠ NUL)
    (h : LoneDelim buf aesc) : ¬ SafeAt buf aesc := by
  obtain ⟨⟨rval, hname⟩, hdelim, hlen⟩ := h
  have hgt := nameIndex_gt buf aesc
  generalize hinam : nameIndex buf aesc = inam at hname hdelim hlen hgt
  rintro ⟨⟨r, hr, -, hle⟩, -⟩
  have hnul : charAt buf (inam + 2) = NUL := charAt_of_ge (by omega)
  rw [roffEscape_eq hs hesc] at hr
  simp only [escapeAt, escapeStart, hinam, rd_of_le (show inam ≤ buf.length by omega), hname,
    Res.ok_bind, quotedArg, rd_of_le (show inam + 1 ≤ buf.length by omega), hdelim, hesc,
    if_true, if_false, rd_of_le (lt_length_of_charAt_ne_nul hesc).le,
    roffEscape_last hs hlen, plainDelim, rd_of_le (show inam + 1 + 1 ≤ buf.length by omega),
    hnul, reduceCtorEq] at hr
  have hover : ∀ rval' : Esc, argLoop (roffEscape buf) buf aesc (charAt buf inam)
      ⟨rval', inam + 1 + 1 + 1, inam + 1, NUL, false, none⟩ (buf.length + 1) none
      (inam + 1 + 1 + 1) (inam + 1) true = .error .overrun := fun _ =>
    argLoop_overrun (lt_length_of_charAt_ne_nul hesc) (by omega)
  split at hr
  · split at hr
    · simp [hover] at hr
    · simp only [Res.pure_eq_ok, Res.ok_bind, Except.ok.injEq] at hr
      subst hr
      simp at hle
      omega
  · simp [hover] at hr

end

/-! ## §6 The exact condition -/

/-- The names of the sequences with a quoted argument. -/
def isQuotedName (c : Char) : Bool := "ABwDHLRSXZbvxCNhlo".toList.contains c

/-- The buffer ends in an escape character, any number of bytes `E`, the name of a
    sequence with a quoted argument, and one more escape character. -/
def EndsInLoneDelim (buf : CStr) (ec : Char) : Prop :=
  ∃ pre k q, isQuotedName q = true ∧ buf = pre ++ ec :: (List.replicate k 'E' ++ [q, ec])

private theorem ite_ne {α : Type} {p : Prop} [Decidable p] {a b x : α} (ha : p → a ≠ x)
    (hb : b ≠ x) : (if p then a else b) ≠ x := by
  by_cases h : p
  · rw [if_pos h]; exact ha h
  · rw [if_neg h]; exact hb

/-- The names of the sequences with a quoted argument are the ones listed. -/
theorem escName_quoted_iff (c : Char) :
    (∃ rval, escName c = .quoted rval) ↔ isQuotedName c = true := by
  constructor
  · rintro ⟨rval, h⟩
    by_contra hq
    have hquoted : ∀ names : String, names.toList.all isQuotedName = true →
        names.toList.contains c = true → False := fun names hall hc =>
      hq (List.all_eq_true.mp hall c (by simpa using hc))
    have hquoted' : ∀ d, isQuotedName d = true → c = d → False := fun d hd hc => hq (hc ▸ hd)
    revert h
    unfold escName
    -- The categories before the quoted arguments.
    iterate 11 refine ite_ne (fun _ => by simp) ?_
    refine ite_ne (fun h => (hquoted _ (by decide) h).elim) ?_
    refine ite_ne (fun h => (hquoted _ (by decide) h).elim) ?_
    iterate 5 refine ite_ne (fun h => (hquoted' _ (by decide) h).elim) ?_
    exact ite_ne (fun _ => by simp) (by simp)
  · intro h
    have hmem : c ∈ "ABwDHLRSXZbvxCNhlo".toList := by simpa [isQuotedName] using h
    have hall : ∀ c ∈ "ABwDHLRSXZbvxCNhlo".toList, ∃ rval, escName c = .quoted rval := by
      simp only [String.toList]
      intro c hc
      fin_cases hc <;> exact ⟨_, rfl⟩
    exact hall c hmem

private theorem list_two {α : Type} {l : List α} (h : l.length = 2) (d : α) :
    l = [l.getD 0 d, l.getD 1 d] := by
  match l, h with
  | [a, b], _ => rfl

/-- A lone delimiter is a matter of how the buffer ends. -/
theorem loneDelim_iff_endsInLoneDelim (buf : CStr) {ec : Char} (hec : ec ≠ NUL) :
    (∃ aesc, charAt buf aesc = ec ∧ LoneDelim buf aesc) ↔ EndsInLoneDelim buf ec := by
  constructor
  · rintro ⟨aesc, rfl, hname, hdelim, hlen⟩
    have hlt := lt_length_of_charAt_ne_nul hec
    have hdrop : buf.drop aesc = charAt buf aesc :: buf.drop (aesc + 1) := by
      rw [charAt_eq_getElem hlt]; exact List.drop_eq_getElem_cons hlt
    -- Letters E may stand between the escape character and the name.
    set k := strspn (buf.drop (aesc + 1)) "E" with hk
    have hinam : nameIndex buf aesc = aesc + 1 + k := rfl
    refine ⟨buf.take aesc, k, charAt buf (nameIndex buf aesc),
      (escName_quoted_iff _).mp hname, ?_⟩
    have hE : (buf.drop (aesc + 1)).takeWhile "E".toList.contains = List.replicate k 'E' :=
      List.eq_replicate_iff.mpr ⟨rfl, fun c hc => by simpa using List.mem_takeWhile_imp hc⟩
    -- The name and the delimiter are the last two characters.
    have hrest : (buf.drop (aesc + 1)).drop k =
        [charAt buf (nameIndex buf aesc), charAt buf aesc] := by
      rw [List.drop_drop, ← hinam, ← hdelim]
      have := list_two (l := buf.drop (nameIndex buf aesc)) (by simp; omega) NUL
      rw [this]
      simp [charAt, List.getD_eq_getElem?_getD]
    have htake : (buf.drop (aesc + 1)).take k = List.replicate k 'E' := by
      rw [← hE]
      exact (List.prefix_iff_eq_take.mp (List.takeWhile_prefix _)).symm
    rw [← hrest, ← htake, List.take_append_drop, ← hdrop, List.take_append_drop]
  · rintro ⟨pre, k, q, hq, rfl⟩
    -- The name is not an E, so it stands behind all of these letters.
    have hqE : q ≠ 'E' := by rintro rfl; revert hq; decide
    have hinam : nameIndex (pre ++ ec :: (List.replicate k 'E' ++ [q, ec])) pre.length =
        pre.length + 1 + k := by
      have hdrop : (pre ++ ec :: (List.replicate k 'E' ++ [q, ec])).drop (pre.length + 1) =
          List.replicate k 'E' ++ [q, ec] := by
        simp [List.drop_append]
      simp only [nameIndex, hdrop, strspn]
      rw [List.takeWhile_append_of_pos (by simp)]
      simp [hqE]
    have hsplit : pre ++ ec :: (List.replicate k 'E' ++ [q, ec]) =
        (pre ++ ec :: List.replicate k 'E') ++ [q, ec] := by simp
    have hlen : (pre ++ ec :: List.replicate k 'E').length = pre.length + 1 + k := by
      simp; omega
    have hrest : ∀ i, charAt (pre ++ ec :: (List.replicate k 'E' ++ [q, ec]))
        (pre.length + 1 + k + i) = charAt [q, ec] i := by
      intro i
      rw [hsplit, ← hlen, charAt_append]
    refine ⟨pre.length, by simp [charAt], ?_, ?_, ?_⟩
    · rw [hinam]
      exact (hrest 0).symm ▸ (escName_quoted_iff q).mpr hq
    · rw [hinam]
      exact (hrest 1).trans (by simp [charAt])
    · rw [hinam]
      simp
      omega

/-- `roff_escape()` is safe on all the escape sequences of a buffer if and only if the
    buffer does not end in a lone delimiter, and it is never safe on the sequence that has it. -/
theorem roffEscape_safe_iff (buf : CStr) (ec : Char) (hs : NUL ∉ buf) (hec : ec ≠ NUL) :
    ((∀ aesc, charAt buf aesc = ec → SafeAt buf aesc) ↔ ¬ EndsInLoneDelim buf ec) ∧
      ∀ aesc, charAt buf aesc = ec → LoneDelim buf aesc → ¬ SafeAt buf aesc := by
  refine ⟨?_, fun aesc ha => not_safeAt_of_loneDelim hs (ha ▸ hec)⟩
  rw [← loneDelim_iff_endsInLoneDelim buf hec]
  constructor
  · rintro h ⟨aesc, ha, hlone⟩
    exact not_safeAt_of_loneDelim hs (ha ▸ hec) hlone (h aesc ha)
  · intro h aesc ha
    exact safeAt_of_not_loneDelim hs hec (fun i hi hlone => h ⟨i, hi, hlone⟩) ha

/-- A line that does not end in an escape character is safe. -/
theorem roffEscape_safe_text : SafeAt "a\\h'1n'".toList 1 :=
  (roffEscape_safe_iff "a\\h'1n'".toList '\\' (by decide) (by decide)).1.mpr (by
    rintro ⟨pre, k, q, -, h⟩
    have hlast := congrArg List.getLast? (h.trans (show _ =
      (pre ++ '\\' :: List.replicate k 'E' ++ [q]) ++ ['\\'] by simp))
    rw [List.getLast?_concat] at hlast
    revert hlast
    decide) 1 (by decide)

/-- The delimiter of `\h\` is the terminating NUL: the end index is 4, and the length 3. -/
theorem roffEscape_unsafe_trailing : ¬ ∀ (buf : CStr) (aesc : Nat), NUL ∉ buf →
    charAt buf aesc ≠ NUL → SafeAt buf aesc := by
  intro h
  obtain ⟨⟨r, hr, -, hle⟩, -⟩ := h ['\\', 'h', '\\'] 0 (by decide) (by decide)
  rw [show roffEscape ['\\', 'h', '\\'] 0 = .ok ⟨.ERROR, 0, 1, 3, 4, 4⟩ by decide] at hr
  cases hr
  exact absurd hle (by decide)

end Mandoc
