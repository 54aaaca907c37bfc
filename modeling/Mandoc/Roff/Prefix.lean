import Mandoc.Lib.Ensures
import Mandoc.Roff.EscapeBounds
import Mandoc.Roff.NumExpr

/-!
# Parsing behind a prefix

The parser can arrive at a line with an index that is not zero, for example behind a conditional
request.  The parsers of escape sequences and of numeric expressions do not look at what is before
that index: with some text in front of the line, they find the same, at indices that are shifted by
the length of that text.
-/

namespace Mandoc

variable {l s : CStr}

/-! ## §1 Strings -/

theorem drop_append_length (l s : CStr) (i : Nat) : (l ++ s).drop (l.length + i) = s.drop i :=
  List.drop_length_add_append ..

theorem rd_append (l s : CStr) (i : Nat) : rd (l ++ s) (l.length + i) = rd s i := by
  rw [rd, rd, charAt_append, List.length_append]
  simp only [Nat.add_le_add_iff_left]

theorem skipWhile_append (f : Char → Bool) (l s : CStr) (i : Nat) :
    skipWhile f (l ++ s) (l.length + i) = l.length + skipWhile f s i := by
  rw [skipWhile, skipWhile, drop_append_length, Nat.add_assoc]

theorem slice_isPrefix (l s : CStr) (i j : Nat) :
    slice (l ++ s) (l.length + i) (l.length + j) = slice s i j := by
  rw [slice, slice, drop_append_length, Nat.add_sub_add_left]

theorem nameIndex_append (l s : CStr) (i : Nat) :
    nameIndex (l ++ s) (l.length + i) = l.length + nameIndex s i := by
  rw [nameIndex, nameIndex, Nat.add_assoc l.length i 1, drop_append_length, Nat.add_assoc]

theorem Res.map_bind {α β γ : Type} (x : Res α) (f : α → Res β) (g : β → γ) :
    (x >>= f).map g = x >>= fun a => (f a).map g := by
  cases x with
  | error e => rfl
  | ok a => rfl

theorem Res.bind_map {α β γ : Type} (x : Res α) (g : α → β) (f : β → Res γ) :
    (x.map g >>= f) = x >>= fun a => f (g a) := by
  cases x with
  | error e => rfl
  | ok a => rfl

theorem Res.map_ok {α β : Type} (a : α) (g : α → β) : (Except.ok a : Res α).map g = .ok (g a) := rfl

/-! ## §2 Escape sequences -/

/-- The indices of a result, shifted. -/
def EscResult.shift (k : Nat) (r : EscResult) : EscResult :=
  ⟨r.rval, k + r.resc, k + r.rnam, k + r.rarg, k + r.rendarg, k + r.rend⟩

/-- The indices where an argument begins, shifted. -/
def ArgStart.shift (k : Nat) (a : ArgStart) : ArgStart :=
  { a with iarg := k + a.iarg, iend := k + a.iend }

/-- The indices in the middle of the function, shifted. -/
def Stage.shift (k : Nat) : Stage → Stage
  | .out r => .out (r.shift k)
  | .scan a => .scan (a.shift k)

/-- The indices where an argument ends, shifted. -/
def ArgEnd.shift (k : Nat) : ArgEnd → ArgEnd
  | .sub r => .sub (r.shift k)
  | .done rval iendarg iend validA => .done rval (k + iendarg) (k + iend) validA

@[simp] theorem EscResult.shift_rval (k : Nat) (r : EscResult) : (r.shift k).rval = r.rval := rfl

@[simp] theorem EscResult.shift_rnam (k : Nat) (r : EscResult) : (r.shift k).rnam = k + r.rnam := rfl

@[simp] theorem EscResult.shift_rend (k : Nat) (r : EscResult) : (r.shift k).rend = k + r.rend := rfl

section

variable {sub sub' : Nat → Res EscResult}

theorem sizeForm_append {i : Nat} (hi : 0 < i) : sizeForm (l ++ s) (l.length + i) =
    (sizeForm s i).map fun f => (l.length + f.1, f.2) := by
  unfold sizeForm
  rw [rd_append, Res.map_bind]
  refine bind_congr fun c => ?_
  rw [Nat.add_sub_assoc hi, rd_append, Nat.add_assoc, rd_append]
  split
  · rfl
  split
  · rfl
  split
  · rfl
  split
  · rw [Res.map_bind]
    refine bind_congr fun before => ?_
    rw [Res.map_bind]
    rfl
  · rfl

theorem sizeArg_append (aesc inam : Nat) :
    sizeArg (l ++ s) (l.length + aesc) (l.length + inam) =
      (sizeArg s aesc inam).map (Stage.shift l.length) := by
  unfold sizeArg
  simp only [Nat.add_assoc, rd_append, Res.map_bind]
  refine bind_congr fun c => ?_
  rw [sizeForm_append (by omega)]
  cases sizeForm s (inam + (1 + sizeSign c)) with
  | error e => rfl
  | ok f =>
    obtain ⟨iarg, term, maxl⟩ := f
    rw [Res.map_ok, Res.ok_bind, Res.ok_bind]
    simp only [rd_append]
    refine bind_congr fun c => ?_
    split
    · rfl
    · rfl

theorem standardForm_append (aesc inam start : Nat) (rval : Esc) :
    standardForm (l ++ s) (l.length + aesc) (l.length + inam) (l.length + start) rval =
      (standardForm s aesc inam start rval).map (Stage.shift l.length) := by
  unfold standardForm
  simp only [Nat.add_assoc, rd_append, Res.map_bind]
  refine bind_congr fun name => bind_congr fun c => bind_congr fun c => ?_
  split
  · rfl
  split
  · rw [Res.map_bind]
    refine bind_congr fun c => ?_
    split
    · rfl
    · rfl
  · rfl

theorem standardArg_append {aesc start : Nat} (inam : Nat) (rval : Esc)
    (hsub : sub' (l.length + start) = (sub start).map (EscResult.shift l.length)) :
    standardArg sub' (l ++ s) (l.length + aesc) (l.length + inam) (l.length + start) rval =
      (standardArg sub s aesc inam start rval).map (Stage.shift l.length) := by
  unfold standardArg
  simp only [rd_append, Res.map_bind]
  refine bind_congr fun c => bind_congr fun ec => ?_
  split
  · rw [hsub]
    cases sub start with
    | error e => rfl
    | ok r =>
      rw [Res.map_ok, Res.ok_bind, Res.ok_bind]
      rw [EscResult.shift_rval]
      split
      · rfl
      · exact standardForm_append ..
  · exact standardForm_append ..

theorem plainDelim_append (aesc inam iarg : Nat) (name : Char) (rval : Esc) :
    plainDelim (l ++ s) (l.length + aesc) (l.length + inam) (l.length + iarg) name rval =
      (plainDelim s aesc inam iarg name rval).map (Stage.shift l.length) := by
  unfold plainDelim
  simp only [rd_append, Res.map_bind]
  refine bind_congr fun c => ?_
  split
  · split
    · rfl
    · rfl
  · rfl

theorem quotedArg_append {aesc inam : Nat} (rval : Esc)
    (hsub : sub' (l.length + (inam + 1)) = (sub (inam + 1)).map (EscResult.shift l.length)) :
    quotedArg sub' (l ++ s) (l.length + aesc) (l.length + inam) rval =
      (quotedArg sub s aesc inam rval).map (Stage.shift l.length) := by
  unfold quotedArg
  simp only [Nat.add_assoc, rd_append, Res.map_bind]
  refine bind_congr fun name => bind_congr fun ec => bind_congr fun c => ?_
  split
  · rfl
  split
  · rw [hsub]
    cases sub (inam + 1) with
    | error e => rfl
    | ok r =>
      rw [Res.map_ok, Res.ok_bind, Res.ok_bind]
      rw [EscResult.shift_rval, EscResult.shift_rnam, rd_append]
      split
      · rfl
      split
      · exact plainDelim_append ..
      · rw [Res.map_bind]
        refine bind_congr fun sname => ?_
        split
        · rfl
        · rfl
  · exact plainDelim_append ..

theorem escapeStart_append {aesc : Nat}
    (hsub : ∀ i, aesc < i → sub' (l.length + i) = (sub i).map (EscResult.shift l.length)) :
    escapeStart sub' (l ++ s) (l.length + aesc) =
      (escapeStart sub s aesc).map (Stage.shift l.length) := by
  have hgt := nameIndex_gt s aesc
  unfold escapeStart
  dsimp only
  rw [nameIndex_append, rd_append, Res.map_bind]
  refine bind_congr fun c => ?_
  rw [Nat.add_assoc]
  cases escName c with
  | noarg rval => rfl
  | nul => rfl
  | undefined => rfl
  | glyph => rfl
  | standard rval => exact standardArg_append _ rval (hsub _ (by omega))
  | bracket => exact standardArg_append _ _ (hsub _ hgt)
  | quoted rval => exact quotedArg_append rval (hsub _ (by omega))
  | size => exact sizeArg_append ..

/-- Apart from that, the number of steps does not matter as long as there are enough. -/
theorem argLoop_append {aesc : Nat} (name : Char) (a : ArgStart) (hbounded : SubBounded sub s aesc)
    (hsub : ∀ i, aesc < i → sub' (l.length + i) = (sub i).map (EscResult.shift l.length))
    {n n' : Nat} (maxl : Option Nat) {iendarg : Nat} (iend : Nat) (validA : Bool)
    (hgt : aesc < iendarg) (hn : s.length - iendarg < n) (hn' : s.length - iendarg < n') :
    argLoop sub' (l ++ s) (l.length + aesc) name (a.shift l.length) n' maxl (l.length + iendarg)
        (l.length + iend) validA =
      (argLoop sub s aesc name a n maxl iendarg iend validA).map (ArgEnd.shift l.length) := by
  obtain ⟨rval, iarg, start, term, escterm, max⟩ := a
  unfold ArgStart.shift
  induction n generalizing n' maxl iendarg iend validA with
  | zero => exact absurd hn (Nat.not_lt_zero _)
  | succ n ih =>
    obtain ⟨n', rfl⟩ := Nat.exists_eq_succ_of_ne_zero (Nat.ne_of_gt (Nat.zero_lt_of_lt hn'))
    rw [argLoop, argLoop]
    split
    · rfl
    simp only [rd_append, Res.map_bind, Nat.add_assoc]
    refine bind_congr fun ec => ?_
    cases hc : rd s iendarg with
    | error e => rfl
    | ok c =>
      rw [Res.ok_bind, Res.ok_bind]
      split
      · cases strchr "Aow" name with
        | true => rfl
        | false => rfl
      next hnul =>
      have hlt : iendarg < s.length := lt_length_of_charAt_ne_nul ((rd_eq_ok.mp hc).2 ▸ hnul)
      split
      · rfl
      split
      · rw [hsub iendarg hgt]
        cases hr : sub iendarg with
        | error e => rfl
        | ok r =>
          -- The nested sequence is not empty.
          have hb := hbounded iendarg r hgt hlt hr
          have hrend := Nat.lt_of_le_of_lt hb.resc_ge hb.resc_lt
          obtain ⟨rval', resc, rnam, rarg, rendarg, rend⟩ := r
          dsimp only at hrend
          rw [Res.map_ok, Res.ok_bind, Res.ok_bind, EscResult.shift]
          simp only [rd_append, Res.map_bind]
          refine bind_congr fun sname => ?_
          split
          · rfl
          split
          · rfl
          · exact ih _ _ _ (by omega) (by omega) (by omega)
      split
      · rfl
      · exact ih _ _ _ (by omega) (by omega) (by omega)

theorem outputArg_append {iarg : Nat} (hi : 0 < iarg) (argl : Nat) :
    outputArg (l ++ s) (l.length + iarg) argl = outputArg s iarg argl := by
  unfold outputArg
  rw [charAt_append, Nat.add_sub_assoc hi, charAt_append]

/-- The content of an argument does not depend on the prefix. -/
theorem postProcess_append (nullResc : Bool) (iesc inam : Nat) (name : Char) {a : ArgStart}
    (ha : 0 < a.iarg) (rval : Esc) (iendarg iend : Nat) (validA : Bool) :
    postProcess (l ++ s) nullResc (l.length + iesc) (l.length + inam) name (a.shift l.length) rval
        (l.length + iendarg) (l.length + iend) validA =
      (postProcess s nullResc iesc inam name a rval iendarg iend validA).shift l.length := by
  obtain ⟨rval', iarg, start, term, escterm, max⟩ := a
  unfold postProcess ArgStart.shift
  dsimp only
  rw [Nat.add_sub_add_left, charAt_append, Nat.add_assoc, charAt_append, outputArg_append ha,
    drop_append_length, ← apply_ite (l.length + ·)]
  generalize (if (decide (name = '*') && nullResc && decide (iendarg - iarg = 2) &&
      decide (charAt s iarg = '.') && decide (charAt s (iarg + 1) = 'T')) = true then Esc.DEVICE
    else if name = 'O' then outputArg s iarg (iendarg - iarg) else rval) = rval
  split
  · rfl
  · rw [Nat.add_assoc]
    rfl
  · rfl

/-- One level of the recursion. -/
theorem escapeAt_append {aesc : Nat} (nullResc : Bool) (hesc : charAt s aesc ≠ NUL)
    (hbounded : SubBounded sub s aesc)
    (hsub : ∀ i, aesc < i → sub' (l.length + i) = (sub i).map (EscResult.shift l.length)) :
    escapeAt sub' (l ++ s) (l.length + aesc) nullResc =
      (escapeAt sub s aesc nullResc).map (EscResult.shift l.length) := by
  unfold escapeAt
  rw [escapeStart_append hsub, Res.map_bind]
  cases hstart : escapeStart sub s aesc with
  | error e => rfl
  | ok stage =>
    have hstage := escapeStart_bounded hbounded hesc hstart
    rw [Res.map_ok, Res.ok_bind, Res.ok_bind]
    cases stage with
    | out res => rfl
    | scan a =>
      have hiarg : aesc < a.iarg := hstage.iarg_gt
      simp only [Stage.shift, nameIndex_append, rd_append, Res.map_bind]
      refine bind_congr fun name => ?_
      -- The loop over the argument gives the same positions behind the prefix.
      have hloop := @argLoop_append l s sub sub' aesc name a hbounded hsub (s.length + 1)
        ((l ++ s).length + 1) a.maxl a.iarg a.iend true hiarg (by omega)
        (by rw [List.length_append]; omega)
      have hshift : argLoop sub' (l ++ s) (l.length + aesc) name (a.shift l.length)
          ((l ++ s).length + 1) (a.shift l.length).maxl (a.shift l.length).iarg
          (a.shift l.length).iend true = _ := hloop
      rw [hshift]
      cases argLoop sub s aesc name a (s.length + 1) a.maxl a.iarg a.iend true with
      | error e => rfl
      | ok stop =>
        rw [Res.map_ok, Res.ok_bind, Res.ok_bind]
        cases stop with
        | sub r => rfl
        | done rval iendarg iend validA =>
          exact congrArg Except.ok
            (postProcess_append nullResc aesc _ name (Nat.zero_lt_of_lt hiarg) rval iendarg iend validA)

end

theorem escapeRec_overrun {aesc : Nat} (h : s.length ≤ aesc) (depth : Nat) (nullResc : Bool) :
    escapeRec s (depth + 1) aesc nullResc = .error .overrun := by
  rw [escapeRec, escapeAt, escapeStart, rd_of_gt (Nat.lt_of_le_of_lt h (nameIndex_gt s aesc))]
  rfl

/-- All levels of the recursion.  By induction on the number of bytes behind the index. -/
theorem escapeRec_append (hs : NUL ∉ s) (hl : NUL ∉ l) (n : Nat) {aesc : Nat} (nullResc : Bool)
    (hn : s.length - aesc < n) :
    escapeRec (l ++ s) ((l ++ s).length + 1) (l.length + aesc) nullResc =
      (escapeRec s (s.length + 1) aesc nullResc).map (EscResult.shift l.length) := by
  induction n generalizing aesc nullResc with
  | zero => exact absurd hn (Nat.not_lt_zero _)
  | succ n ih =>
    by_cases hesc : charAt s aesc = NUL
    · have hge : s.length ≤ aesc := by
        by_contra hlt
        exact charAt_ne_nul hs (Nat.lt_of_not_le hlt) hesc
      rw [escapeRec_overrun hge, escapeRec_overrun (by rw [List.length_append]; omega)]
      rfl
    · have hlt := lt_length_of_charAt_ne_nul hesc
      have hls : NUL ∉ l ++ s := fun h => (List.mem_append.mp h).elim hl hs
      rw [escapeRec_eq nullResc hs hesc, escapeRec_eq nullResc hls (by rw [charAt_append]; exact hesc)]
      refine escapeAt_append nullResc hesc (roffEscape_subBounded hs aesc) fun i hi => ?_
      exact ih false (by omega)

/-- A formatter finds the same escape sequence behind a prefix. -/
theorem mandocEscape_append (hs : NUL ∉ s) (hl : NUL ∉ l) (i : Nat) :
    mandocEscape (l ++ s) (l.length + i) = (mandocEscape s i).map (EscResult.shift l.length) := by
  unfold mandocEscape roffEscapeNull
  rw [escapeRec_append hs hl (s.length - i + 1) true (Nat.lt_succ_self _), Res.map_bind]
  cases escapeRec s (s.length + 1) i true with
  | error e => rfl
  | ok r =>
    rw [Res.map_ok, Res.ok_bind, Res.ok_bind, EscResult.shift_rval]
    split
    · rfl
    · rfl

/-! ## §3 Numeric expressions -/

/-- The parse point behind a number, shifted. -/
def Num.shift (k : Nat) (n : Num) : Num := { n with pos := k + n.pos }

theorem skipSpace_append (l s : CStr) (skipspace : Bool) (pos : Nat) :
    skipSpace (l ++ s) skipspace (l.length + pos) = l.length + skipSpace s skipspace pos := by
  unfold skipSpace
  split
  · exact skipWhile_append ..
  · rfl

theorem roffGetop_append (l s : CStr) (pos : Nat) : roffGetop (l ++ s) (l.length + pos) =
    (roffGetop s pos).map fun op => (op.1, l.length + op.2) := by
  unfold roffGetop
  simp only [Nat.add_assoc, charAt_append]
  split_ifs <;> rfl

section

variable {X : Type} (env : Env X)

theorem roffGetnum_append (l s : CStr) (pos : Nat) (unit : Char) (skipspace : Bool) :
    roffGetnum env (l ++ s) (l.length + pos) unit skipspace =
      (roffGetnum env s pos unit skipspace).shift l.length := by
  have hskip : ∀ p, (if skipspace = true then skipWhile isspace (l ++ s) (l.length + p)
      else l.length + p) = l.length + if skipspace = true then skipWhile isspace s p else p :=
    fun p => skipSpace_append l s skipspace p
  have hfraction : ∀ ip, (if charAt s ip = '.' then skipWhile isdigit (l ++ s) (l.length + (ip + 1))
      else l.length + ip) =
        l.length + if charAt s ip = '.' then skipWhile isdigit s (ip + 1) else ip := by
    intro ip
    rw [skipWhile_append, ← apply_ite (l.length + ·)]
  unfold roffGetnum
  dsimp only
  rw [charAt_append, Nat.add_assoc, ← apply_ite (l.length + ·), hskip, skipWhile_append,
    charAt_append, Nat.add_assoc, hfraction, Nat.add_assoc, Nat.add_assoc]
  generalize (if skipspace = true then
      skipWhile isspace s (if charAt s pos = '-' ∨ charAt s pos = '+' then pos + 1 else pos)
    else if charAt s pos = '-' ∨ charAt s pos = '+' then pos + 1 else pos) = p
  generalize skipWhile isdigit s p = ip
  generalize (if charAt s ip = '.' then skipWhile isdigit s (ip + 1) else ip) = fp
  by_cases hempty : fp = pos + if charAt s pos = '-' then 1 else 0
  · rw [if_pos hempty, if_pos (congrArg (l.length + ·) hempty)]
    rfl
  · rw [if_neg hempty, if_neg fun h => hempty (Nat.add_left_cancel h), charAt_append, slice_isPrefix,
      slice_isPrefix, ← apply_ite (l.length + ·)]
    rfl

/-- A parenthesized expression or a number. -/
theorem roffEvalpar_append {sub sub' : Nat → Res Num} (validate : Bool) (pos : Nat) (unit : Char)
    (skipspace : Bool) (hsub : charAt s pos = '(' →
      sub' (l.length + (pos + 1)) = (sub (pos + 1)).map (Num.shift l.length)) :
    roffEvalpar env (l ++ s) sub' validate (l.length + pos) unit skipspace =
      (roffEvalpar env s sub validate pos unit skipspace).map (Num.shift l.length) := by
  unfold roffEvalpar
  rw [charAt_append]
  split
  · rw [roffGetnum_append]
    rfl
  · next hopen =>
    rw [Nat.add_assoc, hsub (not_not.mp hopen)]
    cases sub (pos + 1) with
    | error e => rfl
    | ok n =>
      obtain ⟨ok, q, val⟩ := n
      rw [Res.map_ok, Res.ok_bind, Res.ok_bind, Num.shift]
      dsimp only
      rw [charAt_append]
      split
      · rfl
      split
      · rfl
      · rfl

/-- Without a number, nothing is read. -/
theorem roffGetnum_failed {v : CStr} {pos : Nat} {unit : Char} {skipspace : Bool}
    (h : (roffGetnum env v pos unit skipspace).ok = false) :
    (roffGetnum env v pos unit skipspace).pos = pos := by
  unfold roffGetnum at h ⊢
  dsimp only at h ⊢
  set p := if charAt v pos = '-' ∨ charAt v pos = '+' then pos + 1 else pos
  set q := if skipspace = true then skipWhile isspace v p else p
  set ip := skipWhile isdigit v q
  set fp := if charAt v ip = '.' then skipWhile isdigit v (ip + 1) else ip
  by_cases hempty : fp = pos + if charAt v pos = '-' then 1 else 0
  · rw [if_pos hempty]
  · rw [if_neg hempty] at h
    cases h

/-- Reading an operand does not go backwards, and an operand that has been read is not empty. -/
theorem roffEvalpar_progress {v : CStr} {sub : Nat → Res Num} (validate : Bool) (pos : Nat)
    (unit : Char) (skipspace : Bool) (hsub : Ensures (sub (pos + 1)) fun n => pos + 1 ≤ n.pos) :
    Ensures (roffEvalpar env v sub validate pos unit skipspace) fun n =>
      pos ≤ n.pos ∧ (n.ok = true → pos < n.pos ∧ pos < v.length) := by
  unfold roffEvalpar
  apply Ensures.ite
  · intro _
    rw [Ensures.ok_iff]
    cases hok : (roffGetnum env v pos unit skipspace).ok with
    | false => exact ⟨(roffGetnum_failed env hok).ge, fun h => nomatch h⟩
    | true =>
      have hprog := roffGetnum_progress env hok
      exact ⟨hprog.1.le, fun _ => hprog⟩
  · intro hopen
    have hlt : pos < v.length :=
      lt_length_of_charAt_ne_nul (by rw [not_not.mp hopen]; decide)
    apply Ensures.bind hsub
    intro n hle
    have hread : ∀ n' : Num, n.pos ≤ n'.pos → pos ≤ n'.pos ∧
        (n'.ok = true → pos < n'.pos ∧ pos < v.length) := by
      intro n' hn'
      have hlt' : pos < n'.pos := Nat.lt_of_lt_of_le hle hn'
      exact ⟨hlt'.le, fun _ => ⟨hlt', hlt⟩⟩
    apply Ensures.ite
    · exact fun _ => Ensures.pure_iff.mpr (hread n (Nat.le_refl _))
    intro _
    apply Ensures.ite
    · exact fun _ => Ensures.pure_iff.mpr (hread _ (Nat.le_succ _))
    · exact fun _ => Ensures.pure_iff.mpr (hread _ (Nat.le_refl _))

/-- Evaluating an expression does not go backwards. -/
theorem evalnum_progress {v : CStr} (steps : Nat) :
    (∀ validate pos unit skipspace, Ensures (evalnum env v validate steps pos unit skipspace)
      fun n => pos ≤ n.pos) ∧
    ∀ validate (n : Num) unit skipspace, Ensures (evalRest env v validate steps n unit skipspace)
      fun m => n.pos ≤ m.pos := by
  -- By induction on the number of steps, for an expression and the rest of one at once.
  induction steps with
  | zero =>
    exact ⟨fun _ _ _ _ => Ensures.error_iff.mpr trivial, fun _ _ _ _ => Ensures.error_iff.mpr trivial⟩
  | succ steps ih =>
    obtain ⟨ihExpr, ihRest⟩ := ih
    constructor
    · intro validate pos unit skipspace
      have hskip := le_skipSpace (v := v) skipspace pos
      rw [evalnum]
      apply Ensures.bind (roffEvalpar_progress env _ _ _ _ (ihExpr _ _ _ _))
      intro n hn
      have hle := hskip.trans hn.1
      apply Ensures.ite
      · exact fun _ => Ensures.pure_iff.mpr hle
      · exact fun _ => (ihRest _ _ _ _).mono fun m hm => hle.trans hm
    · intro validate n unit skipspace
      have hskip := le_skipSpace (v := v) skipspace n.pos
      rw [evalRest]
      dsimp only
      cases hop : roffGetop v (skipSpace v skipspace n.pos) with
      | none => exact Ensures.pure_iff.mpr hskip
      | some op =>
        obtain ⟨operator, pos⟩ := op
        have hpos := (roffGetop_progress hop).1
        have hskip' := le_skipSpace (v := v) skipspace pos
        dsimp only
        apply Ensures.bind (roffEvalpar_progress env _ _ _ _ (ihExpr _ _ _ _))
        intro m hm
        -- Behind the right operand, the rest is read from a position that is not smaller.
        have hle : n.pos ≤ m.pos := ((hskip.trans hpos.le).trans hskip').trans hm.1
        have hrest : ∀ val, Ensures (evalRest env v validate steps
            ⟨true, skipSpace v skipspace m.pos, val⟩ unit skipspace) fun m' => n.pos ≤ m'.pos := by
          intro val
          refine (ihRest _ _ _ _).mono fun m' hm' => ?_
          exact (hle.trans (le_skipSpace (v := v) skipspace m.pos)).trans hm'
        apply Ensures.ite
        · exact fun _ => Ensures.pure_iff.mpr hle
        intro _
        apply Ensures.ite (fun _ => hrest _)
        exact fun _ => Ensures.call fun val => hrest val

/-- Evaluating an expression behind a prefix.  By induction on the number of steps, which only need
    to be enough. -/
theorem evalnum_append (l s : CStr) (steps : Nat) :
    (∀ validate steps' pos unit skipspace, 2 * (s.length - pos) + 2 ≤ steps →
      2 * (s.length - pos) + 2 ≤ steps' →
      evalnum env (l ++ s) validate steps' (l.length + pos) unit skipspace =
        (evalnum env s validate steps pos unit skipspace).map (Num.shift l.length)) ∧
    ∀ validate steps' (n : Num) unit skipspace, 2 * (s.length - n.pos) + 1 ≤ steps →
      2 * (s.length - n.pos) + 1 ≤ steps' →
      evalRest env (l ++ s) validate steps' (n.shift l.length) unit skipspace =
        (evalRest env s validate steps n unit skipspace).map (Num.shift l.length) := by
  -- By induction on the number of steps, for an expression and for the rest of one at once.
  induction steps with
  | zero => exact ⟨fun _ _ _ _ _ h => absurd h (by omega), fun _ _ _ _ _ h => absurd h (by omega)⟩
  | succ steps ih =>
    obtain ⟨ihExpr, ihRest⟩ := ih
    -- An operand uses the expressions only in parentheses, where fewer bytes are left.
    have hoperand : ∀ validate' validate steps' pos unit skipspace,
        2 * (s.length - pos) ≤ steps → 2 * (s.length - pos) ≤ steps' →
        roffEvalpar env (l ++ s) (fun p => evalnum env (l ++ s) validate' steps' p unit true) validate
            (l.length + pos) unit skipspace =
          (roffEvalpar env s (fun p => evalnum env s validate' steps p unit true) validate pos unit
            skipspace).map (Num.shift l.length) := by
      intro validate' validate steps' pos unit skipspace hsteps hsteps'
      refine roffEvalpar_append env validate pos unit skipspace fun hopen => ?_
      have hlt : pos < s.length := lt_length_of_charAt_ne_nul (by rw [hopen]; decide)
      exact ihExpr _ _ _ _ _ (by omega) (by omega)
    have hprogress : ∀ validate' validate pos unit skipspace, Ensures
        (roffEvalpar env s (fun p => evalnum env s validate' steps p unit true) validate pos unit
          skipspace) fun n => pos ≤ n.pos ∧ (n.ok = true → pos < n.pos ∧ pos < s.length) :=
      fun _ _ _ _ _ => roffEvalpar_progress env _ _ _ _ ((evalnum_progress env steps).1 _ _ _ _)
    constructor
    · intro validate steps' pos unit skipspace hsteps hsteps'
      have hskip := le_skipSpace (v := s) skipspace pos
      obtain ⟨steps', rfl⟩ := Nat.exists_eq_succ_of_ne_zero (show steps' ≠ 0 by omega)
      rw [evalnum, evalnum, skipSpace_append, hoperand _ _ _ _ _ _ (by omega) (by omega),
        Res.map_bind]
      cases hn : roffEvalpar env s (fun p => evalnum env s validate steps p unit true) validate
          (skipSpace s skipspace pos) unit skipspace with
      | error e => rfl
      | ok n =>
        have hprog := ((hprogress _ _ _ _ _).of_eq_ok hn).2
        rw [Res.map_ok, Res.ok_bind, Res.ok_bind]
        have hsame : (n.shift l.length).ok = n.ok := rfl
        -- Whether the operand is a number decides about the rest, in both buffers alike.
        cases hok : n.ok with
        | false =>
          rw [hsame, hok, if_pos rfl, if_pos rfl]
          rfl
        | true =>
          have hlt := hprog hok
          rw [hsame, hok, if_neg (by decide), if_neg (by decide)]
          exact ihRest _ _ _ _ _ (by omega) (by omega)
    · intro validate steps' n unit skipspace hsteps hsteps'
      have hskip := le_skipSpace (v := s) skipspace n.pos
      obtain ⟨steps', rfl⟩ := Nat.exists_eq_succ_of_ne_zero (show steps' ≠ 0 by omega)
      have hpos : (n.shift l.length).pos = l.length + n.pos := rfl
      rw [evalRest, evalRest, hpos, skipSpace_append, roffGetop_append]
      dsimp only
      -- The operator is found at the same place.
      cases hop : roffGetop s (skipSpace s skipspace n.pos) with
      | none => rfl
      | some op =>
        obtain ⟨operator, pos⟩ := op
        obtain ⟨hpos', hlt'⟩ := roffGetop_progress hop
        have hskip' := le_skipSpace (v := s) skipspace pos
        rw [Option.map_some]
        dsimp only
        rw [skipSpace_append, hoperand _ _ _ _ _ _ (by omega) (by omega), Res.map_bind]
        cases hm : roffEvalpar env s (fun p => evalnum env s false steps p unit true) false
            (skipSpace s skipspace pos) unit skipspace with
        | error e => rfl
        | ok m =>
          have hprog := ((hprogress _ _ _ _ _).of_eq_ok hm).2
          rw [Res.map_ok, Res.ok_bind, Res.ok_bind]
          have hmpos : (m.shift l.length).pos = l.length + m.pos := rfl
          have hsame : (m.shift l.length).ok = m.ok := rfl
          cases hok : m.ok with
          | false =>
            rw [hsame, hok, if_pos rfl, if_pos rfl]
            rfl
          | true =>
            have hlt := hprog hok
            have hskip'' := le_skipSpace (v := s) skipspace m.pos
            have htrue : ¬ true = false := by decide
            rw [hsame, hok, if_neg htrue, if_neg htrue, hmpos, skipSpace_append]
            have hrest : ∀ val, evalRest env (l ++ s) validate steps'
                ⟨true, l.length + skipSpace s skipspace m.pos, val⟩ unit skipspace =
                (evalRest env s validate steps ⟨true, skipSpace s skipspace m.pos, val⟩ unit
                  skipspace).map (Num.shift l.length) := by
              -- The value computed so far is handed on, whatever it is.
              intro val
              exact ihRest validate steps' ⟨true, skipSpace s skipspace m.pos, val⟩ unit skipspace
                (by dsimp only; omega) (by dsimp only; omega)
            -- In validation mode, no value is computed.
            cases validate with
            | true => exact hrest _
            | false =>
              have hval : evalOp operator (n.shift l.length).val (m.shift l.length).val =
                  evalOp operator n.val m.val := rfl
              rw [if_neg (by decide), if_neg (by decide), hval, Res.map_bind]
              exact bind_congr fun val => hrest val

/-- The same number is found behind a prefix. -/
theorem roffEvalnum_append (l s : CStr) (validate : Bool) (pos : Nat) (unit : Char)
    (skipspace : Bool) :
    roffEvalnum env (l ++ s) validate (l.length + pos) unit skipspace =
      (roffEvalnum env s validate pos unit skipspace).map (Num.shift l.length) := by
  refine (evalnum_append env l s _).1 _ _ _ _ _ (by omega) ?_
  rw [List.length_append]
  omega

end

end Mandoc
