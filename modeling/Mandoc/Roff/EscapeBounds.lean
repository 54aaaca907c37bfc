import Mandoc.Roff.Escape

/-!
# Indices Reported by the Escape Sequence Parser

Whatever the buffer contains, the indices that `roff_escape()` reports for the sequence
at `aesc` are ordered: the reported sequence begins at or after `aesc`, it is not empty,
its name is a byte of the buffer, and its end is at most one byte behind the terminating
NUL. Progress of the recursion follows, and with it the fixed-point equation
`roffEscape_eq`, in which the bound on the recursion depth no longer appears.
-/

namespace Mandoc

open Except

/-! ## §1 Bounds -/


theorem nameIndex_gt (buf : CStr) (a : Nat) : a < nameIndex buf a := by
  unfold nameIndex; omega

theorem nameIndex_le {buf : CStr} {a : Nat} (ha : a < buf.length) :
    nameIndex buf a ≤ buf.length := by
  have h : strspn (buf.drop (a + 1)) "E" ≤ (buf.drop (a + 1)).length :=
    (List.takeWhile_prefix _).length_le
  simp only [List.length_drop] at h
  unfold nameIndex
  omega

/-- The indices that every call reports, whatever the buffer. -/
structure Bounded (buf : CStr) (aesc : Nat) (r : EscResult) : Prop where
  resc_ge : aesc ≤ r.resc
  resc_lt : r.resc < r.rend
  rnam_le : r.rnam ≤ buf.length
  rend_le : r.rend ≤ buf.length + 1

/-- The recursive calls report their indices properly. -/
def SubBounded (sub : Nat → Res EscResult) (buf : CStr) (aesc : Nat) : Prop :=
  ∀ i r, aesc < i → i < buf.length → sub i = .ok r → Bounded buf i r

/-- Where the scan of an argument begins. -/
structure StartBounded (buf : CStr) (aesc : Nat) (a : ArgStart) : Prop where
  iarg_gt : aesc < a.iarg
  iend_gt : aesc < a.iend
  iend_le : a.iend ≤ buf.length

/-- Bounds after the first part of the function. -/
def Stage.Bounded (buf : CStr) (aesc : Nat) : Stage → Prop
  | .out r => Mandoc.Bounded buf aesc r
  | .scan a => StartBounded buf aesc a

variable {sub : Nat → Res EscResult} {buf : CStr}

/-! ## §2 The beginning of the argument -/

theorem Bounded.outSub {a i : Nat} {s : EscResult} (h : Bounded buf i s) (hi : a ≤ i) :
    Bounded buf a (outSub s) :=
  ⟨le_trans hi h.resc_ge, h.resc_lt, h.rnam_le, h.rend_le⟩

theorem sizeForm_ge {i : Nat} {f : Nat × Char × Option Nat} (h : sizeForm buf i = .ok f) :
    i ≤ f.1 := by
  simp only [sizeForm, Res.bind_eq_ok, Res.pure_eq_ok] at h
  obtain ⟨c, -, h⟩ := h
  repeat' split at h
  all_goals simp only [Res.bind_eq_ok, Except.ok.injEq] at h
  all_goals grind

theorem sizeArg_bounded {aesc inam : Nat} {st : Stage} (hinam : aesc < inam)
    (hle : inam < buf.length) (h : sizeArg buf aesc inam = .ok st) : st.Bounded buf aesc := by
  simp only [sizeArg, Res.bind_eq_ok, rd_eq_ok, Res.pure_eq_ok] at h
  obtain ⟨c, -, f, hf, c', ⟨hle', rfl⟩, h⟩ := h
  have hge := sizeForm_ge hf
  have hgt : inam < f.1 := by grind
  split at h <;> cases h
  · exact ⟨by simp, by simp; omega, by simp; omega, by simp; omega⟩
  · exact ⟨by simp; omega, by simp; omega, by simp; omega⟩

theorem standardForm_bounded {aesc inam start : Nat} {rval : Esc} {st : Stage} (hinam : aesc < start)
    (hstart : start ≤ buf.length) (hle : inam ≤ buf.length)
    (h : standardForm buf aesc inam start rval = .ok st) : st.Bounded buf aesc := by
  simp only [standardForm, Res.bind_eq_ok, rd_eq_ok, Res.pure_eq_ok] at h
  obtain ⟨name, -, c, -, c', ⟨hi, -⟩, h⟩ := h
  generalize hiarg : start + regSign name c = iarg at h hi
  have hge : start ≤ iarg := by omega
  split at h
  · cases h; exact ⟨by simp; omega, by simp; omega, by simp; omega⟩
  · split at h
    · simp only [Res.bind_eq_ok, rd_eq_ok] at h
      obtain ⟨c'', ⟨hi', -⟩, h⟩ := h
      split at h <;> cases h
      · exact ⟨by simp, by simp; omega, by simp; omega, by simp; omega⟩
      · exact ⟨by simp; omega, by simp; omega, by simp; omega⟩
    · cases h; exact ⟨by simp; omega, by simp; omega, by simp; omega⟩

theorem standardArg_bounded {aesc inam start : Nat} {rval : Esc} {st : Stage}
    (hsub : SubBounded sub buf aesc) (hesc : charAt buf aesc ≠ NUL) (hstart : aesc < start)
    (hle : start ≤ buf.length) (hinam : inam ≤ buf.length)
    (h : standardArg sub buf aesc inam start rval = .ok st) : st.Bounded buf aesc := by
  simp only [standardArg, Res.bind_eq_ok, rd_eq_ok, Res.pure_eq_ok] at h
  obtain ⟨c, ⟨-, rfl⟩, ec, ⟨-, rfl⟩, h⟩ := h
  split at h
  · rename_i hc
    obtain ⟨s, hs, h⟩ := Res.bind_eq_ok.mp h
    have hb := hsub start s hstart (lt_length_of_charAt_ne_nul (hc ▸ hesc)) hs
    split at h
    · cases h; exact hb.outSub hstart.le
    · exact standardForm_bounded hstart hle hinam h
  · exact standardForm_bounded hstart hle hinam h

theorem plainDelim_bounded {aesc inam iarg : Nat} {name : Char} {rval : Esc} {st : Stage}
    (haesc : aesc ≤ inam) (hinam : inam < iarg) (hle : inam < buf.length)
    (h : plainDelim buf aesc inam iarg name rval = .ok st) : st.Bounded buf aesc := by
  simp only [plainDelim, Res.bind_eq_ok, rd_eq_ok, Res.pure_eq_ok] at h
  obtain ⟨c, ⟨hi, rfl⟩, h⟩ := h
  split at h
  · split at h <;> cases h
    · exact ⟨by simp; omega, by simp; omega, by simp; omega⟩
    · exact ⟨by simp, by simp; omega, by simp; omega, by simp; omega⟩
  · cases h; exact ⟨by simp; omega, by simp; omega, by simp; omega⟩

theorem quotedArg_bounded {aesc inam : Nat} {rval : Esc} {st : Stage}
    (hsub : SubBounded sub buf aesc) (haesc : aesc < inam) (hinam : inam < buf.length)
    (h : quotedArg sub buf aesc inam rval = .ok st) : st.Bounded buf aesc := by
  simp only [quotedArg, Res.bind_eq_ok, rd_eq_ok, Res.pure_eq_ok] at h
  obtain ⟨name, -, ec, ⟨-, rfl⟩, c, ⟨hi, rfl⟩, h⟩ := h
  split at h
  · cases h; exact ⟨by simp, by simp; omega, by simp; omega, by simp; omega⟩
  · rename_i hnul
    split at h
    · obtain ⟨s, hs, h⟩ := Res.bind_eq_ok.mp h
      have hb := hsub (inam + 1) s (by omega) (lt_length_of_charAt_ne_nul hnul) hs
      have := hb.resc_ge
      have := hb.resc_lt
      have := hb.rend_le
      split at h
      · cases h; exact hb.outSub (by omega)
      · split at h
        · exact plainDelim_bounded haesc.le (by omega) hinam h
        · obtain ⟨sname, -, h⟩ := Res.bind_eq_ok.mp h
          split at h <;> cases h
          · exact ⟨by simp, by simp; omega, by simp; omega, by simp; omega⟩
          · exact ⟨by simp; omega, by simp; omega, by simp; omega⟩
    · exact plainDelim_bounded haesc.le (by omega) hinam h

theorem escName_nul : escName NUL = .nul := by decide

/-- All syntax categories report proper indices. -/
theorem escapeStart_bounded {aesc : Nat} {st : Stage} (hsub : SubBounded sub buf aesc)
    (hesc : charAt buf aesc ≠ NUL) (h : escapeStart sub buf aesc = .ok st) :
    st.Bounded buf aesc := by
  have hlt := lt_length_of_charAt_ne_nul hesc
  have hgt := nameIndex_gt buf aesc
  have hle := nameIndex_le hlt
  simp only [escapeStart, Res.bind_eq_ok, rd_eq_ok, Res.pure_eq_ok] at h
  obtain ⟨c, ⟨-, hc⟩, h⟩ := h
  have hname : c ≠ NUL → nameIndex buf aesc < buf.length := fun hne =>
    lt_length_of_charAt_ne_nul (hc ▸ hne)
  have hnul : escName c ≠ .nul → nameIndex buf aesc < buf.length := fun hne =>
    hname (fun h => hne (h ▸ escName_nul))
  split at h
  case h_1 heq => cases h; exact ⟨by simp, by simp; omega, hle, by simp; omega⟩
  case h_2 => cases h; exact ⟨by simp, hgt, hle, by simp; omega⟩
  case h_3 => cases h; exact ⟨by simp, by simp; omega, hle, by simp; omega⟩
  case h_4 => cases h; exact ⟨by simp, by simp; omega, hle, by simp; omega⟩
  case h_5 heq =>
    have := hnul (by simp [heq])
    exact standardArg_bounded hsub hesc (by omega) (by omega) hle h
  case h_6 heq => exact standardArg_bounded hsub hesc hgt hle hle h
  case h_7 heq => exact quotedArg_bounded hsub hgt (hnul (by simp [heq])) h
  case h_8 heq => exact sizeArg_bounded hgt (hnul (by simp [heq])) h

/-! ## §3 The end of the argument -/

/-- Bounds after the argument. -/
def ArgEnd.Bounded (buf : CStr) (aesc : Nat) : ArgEnd → Prop
  | .sub s => Mandoc.Bounded buf aesc s
  | .done _ _ iend _ => aesc < iend ∧ iend ≤ buf.length + 1

/-- Each iteration moves to the right, by one byte or by a whole nested sequence. -/
theorem argLoop_bounded {aesc : Nat} {name : Char} {a : ArgStart} (hsub : SubBounded sub buf aesc)
    {steps : Nat} {maxl : Option Nat} {iendarg iend : Nat} {validA : Bool} {e : ArgEnd}
    (hgt : aesc < iendarg) (hend : aesc < iend) (hend' : iend ≤ buf.length + 1)
    (h : argLoop sub buf aesc name a steps maxl iendarg iend validA = .ok e) :
    e.Bounded buf aesc := by
  -- By induction on the number of steps; the cases are the branches of the loop.
  induction steps generalizing maxl iendarg iend validA with
  | zero => simp [argLoop] at h
  | succ steps ih =>
    simp only [argLoop] at h
    split at h
    · cases h; exact ⟨hend, hend'⟩
    simp only [Res.bind_eq_ok, rd_eq_ok, Res.pure_eq_ok] at h
    obtain ⟨ec, -, c, ⟨hle, hc⟩, h⟩ := h
    split at h
    · cases h; exact ⟨hend, hend'⟩
    rename_i hnul
    have hlt : iendarg < buf.length := lt_length_of_charAt_ne_nul (hc ▸ hnul)
    split at h
    · cases h; exact ⟨by omega, by omega⟩
    split at h
    · obtain ⟨s, hs, h⟩ := Res.bind_eq_ok.mp h
      obtain ⟨sname, -, h⟩ := Res.bind_eq_ok.mp h
      -- A sequence in the argument ends behind its own start.
      have hb := hsub iendarg s hgt hlt hs
      have := hb.resc_ge
      have := hb.resc_lt
      split at h
      · cases h; exact ⟨by omega, hb.resc_lt, hb.rnam_le, hb.rend_le⟩
      split at h
      · cases h; exact ⟨by omega, hb.rend_le⟩
      · exact ih (by omega) (by omega) hb.rend_le h
    split at h
    · cases h; exact ⟨by omega, by omega⟩
    · exact ih (by omega) (by omega) (by omega) h

/-- The content of the argument has no influence on where the sequence ends. -/
theorem postProcess_indices (buf : CStr) (nullResc : Bool) (iesc inam : Nat) (name : Char)
    (a : ArgStart) (rval : Esc) (iendarg iend : Nat) (validA : Bool) :
    (postProcess buf nullResc iesc inam name a rval iendarg iend validA).resc = iesc ∧
    (postProcess buf nullResc iesc inam name a rval iendarg iend validA).rnam = inam ∧
    (postProcess buf nullResc iesc inam name a rval iendarg iend validA).rend = iend := by
  unfold postProcess
  dsimp only
  split <;> simp

/-- One level of the recursion reports proper indices. -/
theorem escapeAt_bounded {aesc : Nat} {nullResc : Bool} {r : EscResult}
    (hsub : SubBounded sub buf aesc) (hesc : charAt buf aesc ≠ NUL)
    (h : escapeAt sub buf aesc nullResc = .ok r) : Bounded buf aesc r := by
  have hle := nameIndex_le (lt_length_of_charAt_ne_nul hesc)
  obtain ⟨st, hst, h⟩ := Res.bind_eq_ok.mp h
  have hb := escapeStart_bounded hsub hesc hst
  cases st with
  | out r' => cases h; exact hb
  | scan a =>
    obtain ⟨name, -, h⟩ := Res.bind_eq_ok.mp h
    obtain ⟨e, he, h⟩ := Res.bind_eq_ok.mp h
    have hb' := argLoop_bounded hsub hb.iarg_gt hb.iend_gt (by have := hb.iend_le; omega) he
    cases e with
    | sub s => cases h; exact hb'.outSub le_rfl
    | done rval iendarg iend validA =>
      cases h
      obtain ⟨h1, h2, h3⟩ := postProcess_indices buf nullResc aesc (nameIndex buf aesc)
        name a rval iendarg iend validA
      exact ⟨by omega, by rw [h1, h3]; exact hb'.1, by omega, by rw [h3]; exact hb'.2⟩

/-- All levels of the recursion report proper indices. -/
theorem escapeRec_bounded {depth aesc : Nat} {nullResc : Bool} {r : EscResult} (hs : NUL ∉ buf)
    (hesc : charAt buf aesc ≠ NUL) (h : escapeRec buf depth aesc nullResc = .ok r) :
    Bounded buf aesc r := by
  induction depth generalizing aesc nullResc r with
  | zero => simp [escapeRec] at h
  | succ depth ih =>
    exact escapeAt_bounded (fun i s _ hi hs' => ih (charAt_ne_nul hs hi) hs') hesc h

/-! ## §4 The fixed-point equation -/

/-- The scan of an argument only looks at sequences to the right of `aesc`. -/
theorem argLoop_congr {sub' : Nat → Res EscResult} {aesc : Nat} {name : Char} {a : ArgStart}
    (hsub : SubBounded sub buf aesc)
    (heq : ∀ i, aesc < i → i < buf.length → sub i = sub' i)
    {steps : Nat} {maxl : Option Nat} {iendarg iend : Nat} {validA : Bool}
    (hgt : aesc < iendarg) :
    argLoop sub buf aesc name a steps maxl iendarg iend validA =
      argLoop sub' buf aesc name a steps maxl iendarg iend validA := by
  -- By induction on the number of steps; only positions behind the start are asked for.
  induction steps generalizing maxl iendarg iend validA with
  | zero => rfl
  | succ steps ih =>
    simp only [argLoop]
    split
    · rfl
    refine bind_congr fun ec => ?_
    cases hc : rd buf iendarg with
    | error e => rfl
    | ok c =>
      simp only [Res.ok_bind]
      split
      · rfl
      rename_i hnul
      have hlt : iendarg < buf.length :=
        lt_length_of_charAt_ne_nul ((rd_eq_ok.mp hc).2 ▸ hnul)
      split
      · rfl
      split
      · rw [← heq iendarg hgt hlt]
        cases hs : sub iendarg with
        | error e => rfl
        | ok s =>
          have hb := hsub iendarg s hgt hlt hs
          have := hb.resc_ge
          have := hb.resc_lt
          simp only [Res.ok_bind, ih (show aesc < s.rend by omega)]
      split
      · rfl
      · exact ih (by omega)

/-- So does the first part of the function. -/
theorem escapeStart_congr {sub' : Nat → Res EscResult} {aesc : Nat} (hesc : charAt buf aesc ≠ NUL)
    (heq : ∀ i, aesc < i → i < buf.length → sub i = sub' i) :
    escapeStart sub buf aesc = escapeStart sub' buf aesc := by
  have hgt := nameIndex_gt buf aesc
  have hec : rd buf aesc = .ok (charAt buf aesc) := rd_of_le (lt_length_of_charAt_ne_nul hesc).le
  -- Both kinds of arguments only ask for escape sequences behind the start.
  have hstd : ∀ start rval, aesc < start →
      standardArg sub buf aesc (nameIndex buf aesc) start rval =
      standardArg sub' buf aesc (nameIndex buf aesc) start rval := by
    intro start rval hstart
    simp only [standardArg, hec, Res.ok_bind]
    cases hc : rd buf start with
    | error e => rfl
    | ok c =>
      simp only [Res.ok_bind]
      split
      · rename_i h
        rw [heq start hstart (lt_length_of_charAt_ne_nul ((rd_eq_ok.mp hc).2 ▸ h ▸ hesc))]
      · rfl
  have hquo : ∀ rval, quotedArg sub buf aesc (nameIndex buf aesc) rval =
      quotedArg sub' buf aesc (nameIndex buf aesc) rval := by
    intro rval
    simp only [quotedArg]
    cases hc : rd buf (nameIndex buf aesc + 1) with
    | error e => rfl
    | ok c =>
      simp only [Res.ok_bind]
      by_cases hnul : c = NUL
      · simp [hnul]
      · rw [heq _ (by omega) (lt_length_of_charAt_ne_nul ((rd_eq_ok.mp hc).2 ▸ hnul))]
  -- The other kinds do not ask at all.
  simp only [escapeStart]
  refine bind_congr fun c => ?_
  split
  case h_5 => exact hstd _ _ (by omega)
  case h_6 => exact hstd _ _ hgt
  case h_7 => exact hquo _
  all_goals rfl

/-- One level of the recursion depends only on the recursive calls it makes. -/
theorem escapeAt_congr {sub' : Nat → Res EscResult} {aesc : Nat} {nullResc : Bool}
    (hesc : charAt buf aesc ≠ NUL) (hsub : SubBounded sub buf aesc)
    (heq : ∀ i, aesc < i → i < buf.length → sub i = sub' i) :
    escapeAt sub buf aesc nullResc = escapeAt sub' buf aesc nullResc := by
  unfold escapeAt
  rw [← escapeStart_congr hesc heq]
  cases hst : escapeStart sub buf aesc with
  | error e => rfl
  | ok st =>
    have hb := escapeStart_bounded hsub hesc hst
    cases st with
    | out r => rfl
    | scan a =>
      simp only [Res.ok_bind]
      refine bind_congr fun name => ?_
      rw [argLoop_congr hsub heq hb.iarg_gt]

/-- A depth exceeding the number of bytes to the right is as good as any other. -/
theorem escapeRec_depth {depth depth' aesc : Nat} {nullResc : Bool} (hs : NUL ∉ buf)
    (hesc : charAt buf aesc ≠ NUL) (hd : buf.length - aesc < depth)
    (hd' : buf.length - aesc < depth') :
    escapeRec buf depth aesc nullResc = escapeRec buf depth' aesc nullResc := by
  induction depth generalizing depth' aesc nullResc with
  | zero => omega
  | succ depth ih =>
    cases depth' with
    | zero => omega
    | succ depth' =>
      refine escapeAt_congr hesc
        (fun i r _ hi h => escapeRec_bounded hs (charAt_ne_nul hs hi) h) ?_
      intro i hi hlt
      exact ih (charAt_ne_nul hs hlt) (by omega) (by omega)

theorem roffEscape_subBounded (hs : NUL ∉ buf) (aesc : Nat) :
    SubBounded (roffEscape buf) buf aesc :=
  fun _ _ _ hi h => escapeRec_bounded hs (charAt_ne_nul hs hi) h

/-- Every call goes through one level of the recursion. -/
theorem escapeRec_eq {aesc : Nat} (nullResc : Bool) (hs : NUL ∉ buf)
    (hesc : charAt buf aesc ≠ NUL) :
    escapeRec buf (buf.length + 1) aesc nullResc =
      escapeAt (roffEscape buf) buf aesc nullResc := by
  have hlt := lt_length_of_charAt_ne_nul hesc
  refine escapeAt_congr hesc
    (fun i r _ hi h => escapeRec_bounded hs (charAt_ne_nul hs hi) h) ?_
  intro i hi hilt
  exact escapeRec_depth hs (charAt_ne_nul hs hilt) (by omega) (by omega)

theorem roffEscapeNull_eq {aesc : Nat} (hs : NUL ∉ buf) (hesc : charAt buf aesc ≠ NUL) :
    roffEscapeNull buf aesc = escapeAt (roffEscape buf) buf aesc true :=
  escapeRec_eq true hs hesc

/-- The fixed-point equation of `roff_escape()`. -/
theorem roffEscape_eq {aesc : Nat} (hs : NUL ∉ buf) (hesc : charAt buf aesc ≠ NUL) :
    roffEscape buf aesc = escapeAt (roffEscape buf) buf aesc false :=
  escapeRec_eq false hs hesc

/-! ## §5 The sequence at the beginning of a rest -/

theorem length_of_drop {buf s : CStr} {pos : Nat} (h : buf.drop pos = s) (hs : s ≠ []) :
    buf.length = pos + s.length := by
  have hl := congrArg List.length h
  rw [List.length_drop] at hl
  have := List.length_pos_iff.mpr hs
  omega

theorem rd_of_drop {buf s : CStr} {pos : Nat} (h : buf.drop pos = s) (i : Nat)
    (hi : i < s.length) : rd buf (pos + i) = .ok (charAt s i) := by
  have hlen := length_of_drop h (List.ne_nil_of_length_pos (Nat.zero_lt_of_lt hi))
  rw [rd_of_le (by omega), ← h, charAt_drop]

/-- The name of a sequence right after the escape character. -/
theorem nameIndex_of_drop {buf s : CStr} {pos : Nat} {ec c : Char} (h : buf.drop pos = ec :: c :: s)
    (hc : c ≠ 'E') : nameIndex buf pos = pos + 1 := by
  have hdrop : buf.drop (pos + 1) = c :: s := by
    rw [← List.drop_drop, h]
    rfl
  rw [nameIndex, hdrop, strspn, List.takeWhile_cons_of_neg (by simpa using hc)]
  rfl

end Mandoc
