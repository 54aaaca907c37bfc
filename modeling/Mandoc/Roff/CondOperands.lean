import Mandoc.Roff.Cond
import Mandoc.Roff.NumExpr

/-!
# Numbers and Strings in Conditions

A condition of `.if` compares strings unless it starts with a number. What a number looks
like is defined here on the text alone: a sign, blanks, digits, and a fraction. The parser
`roff_getnum()` decides by the length of that text whether it found a number, and the
main result of the first part says for which texts that agrees with counting the digits.

The second part is about the comparison of strings, `roff_evalstrcond()`: what it compares,
and where it ends.
-/

namespace Mandoc

/-! ## §1 The text of a number -/

/-- The parts of the text of a number. -/
structure NumberText where
  sign : CStr
  blanks : CStr
  integral : CStr
  /-- The decimal point, and the digits after it. -/
  fraction : CStr
deriving DecidableEq, Repr

namespace NumberText

/-- The whole text. -/
def text (t : NumberText) : CStr := t.sign ++ t.blanks ++ t.integral ++ t.fraction

/-- The text contains a decimal digit. -/
def HasDigit (t : NumberText) : Prop := t.text.any isdigit

instance (t : NumberText) : Decidable t.HasDigit :=
  inferInstanceAs (Decidable (_ = true))

/-- The text consists of nothing but an optional minus sign. -/
def IsBare (t : NumberText) : Prop := t.text = [] ∨ t.text = ['-']

instance (t : NumberText) : Decidable t.IsBare := inferInstanceAs (Decidable (_ ∨ _))

end NumberText

/-- The optional sign at the beginning of a string. -/
def signText : CStr → CStr
  | [] => []
  | c :: _ => if c = '-' ∨ c = '+' then [c] else []

/-- The optional fraction at the beginning of a string. -/
def fractionText : CStr → CStr
  | [] => []
  | c :: s => if c = '.' then '.' :: s.takeWhile isdigit else []

/-- The number at the beginning of a string: an optional sign, optional blanks if they are
    skipped, digits, and an optional fraction. -/
def numberText (skipspace : Bool) (s : CStr) : NumberText :=
  let sign := signText s
  let s := s.drop sign.length
  let blanks := if skipspace then s.takeWhile isspace else []
  let s := s.drop blanks.length
  let integral := s.takeWhile isdigit
  ⟨sign, blanks, integral, fractionText (s.drop integral.length)⟩

theorem append_isPrefix {a b s : CStr} (ha : a <+: s) (hb : b <+: s.drop a.length) :
    a ++ b <+: s := by
  obtain ⟨t, rfl⟩ := ha
  rw [List.drop_left] at hb
  exact (List.prefix_append_right_inj a).mpr hb

theorem signText_isPrefix (s : CStr) : signText s <+: s := by
  cases s with
  | nil => exact List.nil_prefix
  | cons c s =>
    rw [signText]
    split
    · exact ⟨s, rfl⟩
    · exact List.nil_prefix

theorem fractionText_isPrefix (s : CStr) : fractionText s <+: s := by
  cases s with
  | nil => exact List.nil_prefix
  | cons c s =>
    rw [fractionText]
    split
    · next hdot =>
      rw [hdot]
      exact (List.prefix_cons_inj '.').mpr (List.takeWhile_prefix isdigit)
    · exact List.nil_prefix

/-- The text of a number stands at the beginning of the string. -/
theorem numberText_isPrefix (skipspace : Bool) (s : CStr) : (numberText skipspace s).text <+: s := by
  have hblanks : ∀ s : CStr, (if skipspace then s.takeWhile isspace else []) <+: s := by
    intro s
    split
    · exact List.takeWhile_prefix isspace
    · exact List.nil_prefix
  have hfirst := append_isPrefix (signText_isPrefix s) (hblanks _)
  have hdigits := append_isPrefix hfirst (List.takeWhile_prefix isdigit)
  have hall := append_isPrefix hdigits (fractionText_isPrefix _)
  simpa only [NumberText.text, numberText, List.length_append, List.drop_drop] using hall

theorem signText_length_le (skipspace : Bool) (s : CStr) :
    (signText s).length ≤ (numberText skipspace s).text.length := by
  simp only [NumberText.text, numberText, List.length_append]
  omega

/-- A text with a digit does not consist of a sign only. -/
theorem NumberText.HasDigit.not_isBare {t : NumberText} (h : t.HasDigit) : ¬ t.IsBare := by
  intro hbare
  rw [NumberText.HasDigit] at h
  cases hbare with
  | inl hnil =>
    rw [hnil] at h
    exact absurd h (by decide)
  | inr hminus =>
    rw [hminus] at h
    exact absurd h (by decide)

/-! ## §2 The test of roff_getnum() -/

section

variable {X : Type} (env : Env X) (v : CStr)

/-- The sign ends where the parser starts looking for digits. -/
theorem signText_length (pos : Nat) :
    pos + (signText (v.drop pos)).length =
      if charAt v pos = '-' ∨ charAt v pos = '+' then pos + 1 else pos := by
  have hc : charAt v pos = charAt (v.drop pos) 0 := by rw [charAt_drop, Nat.add_zero]
  rw [hc]
  cases v.drop pos with
  | nil =>
    rw [if_neg (by decide)]
    rfl
  | cons c s =>
    rw [charAt_cons_zero, signText]
    split <;> rfl

/-- The fraction ends where the parser stops. -/
theorem fractionText_length (ip : Nat) :
    ip + (fractionText (v.drop ip)).length =
      if charAt v ip = '.' then skipWhile isdigit v (ip + 1) else ip := by
  have hc : charAt v ip = charAt (v.drop ip) 0 := by rw [charAt_drop, Nat.add_zero]
  have htail : v.drop (ip + 1) = (v.drop ip).tail := by rw [List.tail_drop]
  rw [hc, skipWhile, htail]
  cases v.drop ip with
  | nil =>
    rw [if_neg (by decide)]
    rfl
  | cons c s =>
    rw [charAt_cons_zero, fractionText, List.tail_cons]
    split
    · rw [List.length_cons]
      omega
    · rfl

/-- The parser scans the text of the number. -/
theorem numberText_length (pos : Nat) (skipspace : Bool) :
    let p := if charAt v pos = '-' ∨ charAt v pos = '+' then pos + 1 else pos
    let p := if skipspace then skipWhile isspace v p else p
    let ip := skipWhile isdigit v p
    (if charAt v ip = '.' then skipWhile isdigit v (ip + 1) else ip) =
      pos + (numberText skipspace (v.drop pos)).text.length := by
  intro p q ip
  have hsign : pos + (signText (v.drop pos)).length = p := signText_length v pos
  have hblanks : p + (if skipspace then (v.drop p).takeWhile isspace else []).length = q := by
    simp only [q]
    split
    · rfl
    · exact Nat.add_zero p
  have hdigits : q + ((v.drop q).takeWhile isdigit).length = ip := rfl
  have hfraction := fractionText_length v ip
  rw [← hfraction]
  simp only [numberText, NumberText.text, List.length_append, List.drop_drop]
  rw [hsign, hblanks, hdigits]
  omega

/-- The parser's test for an empty number detects exactly the texts that consist of an optional
    minus sign. -/
theorem numberText_length_eq_iff (pos : Nat) (skipspace : Bool) :
    (numberText skipspace (v.drop pos)).text.length = (if charAt v pos = '-' then 1 else 0) ↔
      (numberText skipspace (v.drop pos)).IsBare := by
  have hc : charAt v pos = charAt (v.drop pos) 0 := by rw [charAt_drop, Nat.add_zero]
  rw [hc, NumberText.IsBare]
  obtain ⟨rest, hrest⟩ := numberText_isPrefix skipspace (v.drop pos)
  have hsign := signText_length_le skipspace (v.drop pos)
  generalize (numberText skipspace (v.drop pos)).text = text at hrest hsign ⊢
  constructor
  · intro hlen
    by_cases hminus : charAt (v.drop pos) 0 = '-'
    · rw [if_pos hminus] at hlen
      obtain ⟨c, rfl⟩ := List.length_eq_one_iff.mp hlen
      rw [← hrest] at hminus
      exact Or.inr (congrArg (fun d => [d]) hminus)
    · rw [if_neg hminus] at hlen
      exact Or.inl (List.length_eq_zero_iff.mp hlen)
  · intro hbare
    cases hbare with
    | inl hnil =>
      rw [hnil] at hsign ⊢
      rw [if_neg]
      · rfl
      · intro hminus
        -- A minus sign would be part of the text.
        cases hs : v.drop pos with
        | nil =>
          rw [hs] at hminus
          exact absurd hminus (by decide)
        | cons d s =>
          rw [hs, charAt_cons_zero] at hminus
          rw [hs, hminus] at hsign
          exact absurd hsign (by simp [signText])
    | inr hminus =>
      rw [← hrest, hminus]
      rfl

/-- Each number may be followed by one optional scaling unit. -/
def scaledEnd (fp : Nat) : Nat :=
  if "ficvPmnpuM".toList.contains (charAt v fp) then fp + 1 else fp

/-- What `roff_getnum()` returns: it fails if the text consists of nothing but an optional minus
    sign, and if not, it stops after the text and the scaling unit. -/
theorem roffGetnum_eq (pos : Nat) (unit : Char) (skipspace : Bool) :
    ∃ val, roffGetnum env v pos unit skipspace =
      if (numberText skipspace (v.drop pos)).IsBare then ⟨false, pos, 0⟩
      else ⟨true, scaledEnd v (pos + (numberText skipspace (v.drop pos)).text.length), val⟩ := by
  have hlen := numberText_length v pos skipspace
  have hbare := numberText_length_eq_iff v pos skipspace
  unfold roffGetnum
  dsimp only at hlen ⊢
  rw [hlen]
  by_cases hb : (numberText skipspace (v.drop pos)).IsBare
  · have heq := congrArg (pos + ·) (hbare.mpr hb)
    exact ⟨0, by rw [if_pos heq, if_pos hb]⟩
  · have hne := fun h => hb (hbare.mp (Nat.add_left_cancel (n := pos) h))
    exact ⟨_, by rw [if_neg hne, if_neg hb]; rfl⟩

/-- A number is found unless its text consists of nothing but an optional minus sign. -/
theorem roffGetnum_ok_iff_not_isBare (pos : Nat) (unit : Char) (skipspace : Bool) :
    (roffGetnum env v pos unit skipspace).ok ↔ ¬ (numberText skipspace (v.drop pos)).IsBare := by
  obtain ⟨val, heq⟩ := roffGetnum_eq env v pos unit skipspace
  rw [heq]
  split
  · next hb => exact iff_of_false (by simp) (not_not.mpr hb)
  · next hb => exact iff_of_true rfl hb

/-- A parser that does not find a number leaves the parse point unchanged. -/
theorem roffGetnum_pos_of_not_ok {pos : Nat} {unit : Char} {skipspace : Bool}
    (h : (roffGetnum env v pos unit skipspace).ok = false) :
    (roffGetnum env v pos unit skipspace).pos = pos := by
  obtain ⟨val, heq⟩ := roffGetnum_eq env v pos unit skipspace
  rw [heq] at h ⊢
  split at h
  · next hb => rw [if_pos hb]
  · exact absurd h (by simp)

/-! ## §3 Falling back to a comparison of strings -/

/-- The condition at an index is neither a number nor a numeric expression: this is where
    `roff_evalcond()` falls back to a comparison of strings. -/
def FallsBack (pos : Nat) : Prop :=
  ∃ n, roffEvalnum env v false pos 'u' false = .ok n ∧ n.ok = false ∧ n.pos = pos

theorem le_roffGetnum_pos (pos : Nat) (unit : Char) (skipspace : Bool) :
    pos ≤ (roffGetnum env v pos unit skipspace).pos := by
  cases hok : (roffGetnum env v pos unit skipspace).ok with
  | true => exact (roffGetnum_progress env hok).1.le
  | false => exact (roffGetnum_pos_of_not_ok env v hok).ge

/-- Evaluating an operand does not go backwards. -/
theorem roffEvalpar_le {sub : Nat → Res Num} {validate : Bool} {pos : Nat} {unit : Char}
    {skipspace : Bool} (hsub : ∀ p, Ensures (sub p) fun n => p ≤ n.pos) :
    Ensures (roffEvalpar env v sub validate pos unit skipspace) fun n =>
      pos ≤ n.pos ∧ (charAt v pos = '(' → pos < n.pos) := by
  unfold roffEvalpar
  apply Ensures.ite
  · intro hpar
    exact Ensures.ok_iff.mpr ⟨le_roffGetnum_pos env v pos unit skipspace, fun h => absurd h hpar⟩
  · intro _
    refine (hsub (pos + 1)).bind fun n hn => ?_
    have hlt : pos < n.pos := hn
    repeat' apply Ensures.ite <;> intro _
    · exact Ensures.pure_iff.mpr ⟨hlt.le, fun _ => hlt⟩
    · exact Ensures.pure_iff.mpr ⟨hlt.le.trans (Nat.le_succ _), fun _ => hlt.trans (Nat.lt_succ_self _)⟩
    · exact Ensures.pure_iff.mpr ⟨hlt.le, fun _ => hlt⟩

/-- Evaluating an expression does not go backwards, in either mode. -/
theorem evalnum_le (validate : Bool) (steps : Nat) :
    (∀ pos unit skipspace, Ensures (evalnum env v validate steps pos unit skipspace) fun n =>
      pos ≤ n.pos) ∧
    ∀ (n : Num) unit skipspace, Ensures (evalRest env v validate steps n unit skipspace) fun m =>
      n.pos ≤ m.pos := by
  -- By induction on the number of steps, for both functions at once.
  induction steps generalizing validate with
  | zero =>
    constructor
    · intro _ _ _
      rw [evalnum]
      exact Ensures.error_iff.mpr trivial
    · intro _ _ _
      rw [evalRest]
      exact Ensures.error_iff.mpr trivial
  | succ steps ih =>
    have hop : ∀ validate pos unit skipspace, Ensures (roffEvalpar env v
        (fun p => evalnum env v validate steps p unit true) validate pos unit skipspace) fun n =>
          pos ≤ n.pos := fun validate pos unit skipspace =>
      (roffEvalpar_le env v fun p => (ih validate).1 p unit true).mono fun _ h => h.1
    constructor
    · intro pos unit skipspace
      rw [evalnum]
      refine (hop _ _ _ _).bind fun n hn => ?_
      have hle := (le_skipSpace skipspace pos).trans hn
      apply Ensures.ite
      · exact fun _ => Ensures.pure_iff.mpr hle
      · exact fun _ => ((ih validate).2 n unit skipspace).mono fun _ h => hle.trans h
    · intro n unit skipspace
      have hle := le_skipSpace (v := v) skipspace n.pos
      rw [evalRest]
      dsimp only
      cases hgetop : roffGetop v (skipSpace v skipspace n.pos) with
      | none => exact Ensures.pure_iff.mpr hle
      | some res =>
        obtain ⟨operator, pos⟩ := res
        -- The position moves behind the operator and behind its right operand.
        have hlt := (roffGetop_progress hgetop).1
        refine (hop false _ unit skipspace).bind fun m hm => ?_
        have hskip := le_skipSpace (v := v) skipspace pos
        have hskip' := le_skipSpace (v := v) skipspace m.pos
        have hm' : n.pos ≤ skipSpace v skipspace m.pos := by omega
        apply Ensures.ite
        · intro _
          exact Ensures.pure_iff.mpr (show n.pos ≤ m.pos by omega)
        intro _
        apply Ensures.ite
        · exact fun _ => ((ih validate).2 _ unit skipspace).mono fun _ h => hm'.trans h
        · exact fun _ => Ensures.call fun x =>
            ((ih validate).2 _ unit skipspace).mono fun _ h => hm'.trans h

/-- A condition falls back if there is neither an opening parenthesis nor the text of a
    number. -/
theorem fallsBack_iff (pos : Nat) :
    FallsBack env v pos ↔ charAt v pos ≠ '(' ∧ (numberText false (v.drop pos)).IsBare := by
  have hunfold : roffEvalnum env v false pos 'u' false =
      (roffEvalpar env v (fun p => evalnum env v false (2 * v.length + 1) p 'u' true) false pos 'u'
        false >>= fun n =>
          if n.ok = false then .ok n else evalRest env v false (2 * v.length + 1) n 'u' false) := by
    rw [roffEvalnum, evalnum]
    rfl
  have hbare := roffGetnum_ok_iff_not_isBare env v pos 'u' false
  rw [FallsBack, hunfold]
  by_cases hpar : charAt v pos = '('
  · -- The parse point is already behind the parenthesis.
    refine iff_of_false ?_ fun h => h.1 hpar
    rintro ⟨n, hn, -, hpos⟩
    have hlt : Ensures (roffEvalpar env v (fun p => evalnum env v false (2 * v.length + 1) p 'u'
        true) false pos 'u' false >>= fun n =>
          if n.ok = false then .ok n else evalRest env v false (2 * v.length + 1) n 'u' false)
        fun n => pos < n.pos := by
      refine (roffEvalpar_le env v fun p =>
        (evalnum_le env v false (2 * v.length + 1)).1 p 'u' true).bind fun n hn => ?_
      apply Ensures.ite
      · exact fun _ => Ensures.ok_iff.mpr (hn.2 hpar)
      · exact fun _ => ((evalnum_le env v false _).2 n 'u' false).mono fun _ h => (hn.2 hpar).trans_le h
    have := hlt.of_eq_ok hn
    omega
  · have hop : roffEvalpar env v (fun p => evalnum env v false (2 * v.length + 1) p 'u' true) false
        pos 'u' false = .ok (roffGetnum env v pos 'u' false) := if_pos hpar
    rw [hop, Res.ok_bind]
    cases hok : (roffGetnum env v pos 'u' false).ok with
    | false =>
      rw [if_pos rfl]
      refine iff_of_true ⟨_, rfl, hok, roffGetnum_pos_of_not_ok env v hok⟩ ⟨hpar, ?_⟩
      by_contra hnot
      rw [hbare.mpr hnot] at hok
      exact absurd hok (by simp)
    | true =>
      rw [if_neg (by simp)]
      refine iff_of_false ?_ fun h => hbare.mp hok h.2
      rintro ⟨n, hn, -, hpos⟩
      have hle := ((evalnum_le env v false _).2 _ _ _).of_eq_ok hn
      have hlt := (roffGetnum_progress env hok).1
      omega

/-- **Numbers.** The parser of numbers succeeds exactly on the numbers with a digit, and a
    condition falls back to a comparison of strings exactly if there is no such number, provided
    that a text without digits has neither a plus sign nor a decimal point, that no blanks were
    skipped in it, and, for the condition, that it does not start with a parenthesis. In all
    other cases one of the two fails. -/
theorem roffGetnum_digits_iff (pos : Nat) (unit : Char) (skipspace : Bool) :
    (((roffGetnum env v pos unit skipspace).ok ↔ (numberText skipspace (v.drop pos)).HasDigit) ∧
        ((roffGetnum env v pos unit skipspace).ok = false →
          (roffGetnum env v pos unit skipspace).pos = pos) ↔
      (numberText skipspace (v.drop pos)).HasDigit ∨
        (numberText skipspace (v.drop pos)).IsBare) ∧
    ((FallsBack env v pos ↔ ¬ (numberText false (v.drop pos)).HasDigit) ↔
      (numberText false (v.drop pos)).HasDigit ∨
        (numberText false (v.drop pos)).IsBare ∧ charAt v pos ≠ '(') := by
  constructor
  · rw [roffGetnum_ok_iff_not_isBare, and_iff_left fun h => roffGetnum_pos_of_not_ok env v h]
    have hnot := NumberText.HasDigit.not_isBare (t := numberText skipspace (v.drop pos))
    by_cases hdigit : (numberText skipspace (v.drop pos)).HasDigit
    · exact iff_of_true (iff_of_true (hnot hdigit) hdigit) (Or.inl hdigit)
    · rw [iff_false_right hdigit, not_not, or_iff_right hdigit]
  · rw [fallsBack_iff]
    have hnot := NumberText.HasDigit.not_isBare (t := numberText false (v.drop pos))
    by_cases hdigit : (numberText false (v.drop pos)).HasDigit
    · exact iff_of_true (iff_of_false (fun h => hnot hdigit h.2) (not_not.mpr hdigit)) (Or.inl hdigit)
    · rw [iff_true_right hdigit, or_iff_right hdigit, and_comm]

/-- A plus sign alone is taken for a number. -/
theorem roffGetnum_plus : ¬ ∀ (v : CStr) (pos : Nat) (unit : Char) (skipspace : Bool),
    (roffGetnum plainEnv v pos unit skipspace).ok ↔ (numberText skipspace (v.drop pos)).HasDigit := by
  intro h
  have hplus := (h "+x+x+".toList 0 'u' false).mp
    ((roffGetnum_ok_iff_not_isBare plainEnv _ 0 _ false).mpr (by decide +kernel))
  exact absurd hplus (by decide +kernel)

end

/-! ## §4 Comparing strings -/

/-- The number of bytes up to and including the `n`-th occurrence of a delimiter, or, if there
    are fewer occurrences, the length of the string. -/
def afterOccurrence (delim : Char) : Nat → CStr → Nat
  | 0, _ => 0
  | _, [] => 0
  | n + 1, c :: s => 1 + afterOccurrence delim (if c = delim then n else n + 1) s

theorem afterOccurrence_le (delim : Char) (n : Nat) (s : CStr) :
    afterOccurrence delim n s ≤ s.length := by
  induction s generalizing n with
  | nil => cases n <;> exact Nat.le_refl 0
  | cons c s ih =>
    cases n with
    | zero => exact Nat.zero_le _
    | succ n =>
      rw [afterOccurrence, List.length_cons]
      have := ih (if c = delim then n else n + 1)
      omega

/-- Bytes other than the delimiter do not count. -/
theorem afterOccurrence_append {delim : Char} {a : CStr} (ha : delim ∉ a) (n : Nat) (s : CStr) :
    afterOccurrence delim (n + 1) (a ++ s) = a.length + afterOccurrence delim (n + 1) s := by
  induction a with
  | nil => simp
  | cons c a ih =>
    rw [List.mem_cons, not_or] at ha
    rw [List.cons_append, afterOccurrence, if_neg (Ne.symm ha.1), ih ha.2, List.length_cons]
    omega

theorem afterOccurrence_cons_self (delim : Char) (n : Nat) (s : CStr) :
    afterOccurrence delim (n + 1) (delim :: s) = 1 + afterOccurrence delim n s := by
  rw [afterOccurrence, if_pos rfl]

theorem afterOccurrence_of_notMem {delim : Char} {s : CStr} (hs : delim ∉ s) (n : Nat) :
    afterOccurrence delim (n + 1) s = s.length := by
  have h := afterOccurrence_append hs n []
  rw [List.append_nil] at h
  exact h

theorem charAt_of_drop {v s : CStr} {i : Nat} (h : v.drop i = s) : charAt v i = charAt s 0 := by
  rw [← h, charAt_drop, Nat.add_zero]

theorem takeWhile_ne_delim {a s : CStr} {c : Char} (ha : c ∉ a) :
    (a ++ c :: s).takeWhile (· ≠ c) = a := by
  rw [List.takeWhile_append_of_pos fun b hb => by
    simpa using fun heq : b = c => ha (heq ▸ hb)]
  simp

/-- The first occurrence from an index on. -/
theorem strchrFrom_of_drop {v a s : CStr} {i : Nat} {c : Char} (h : v.drop i = a ++ c :: s)
    (ha : c ∉ a) : strchrFrom v i c = some (i + a.length) := by
  have hwhile : (v.drop i).takeWhile (· ≠ c) = a := by rw [h, takeWhile_ne_delim ha]
  have hlt : i + a.length < v.length := by
    have hlen := congrArg List.length h
    simp only [List.length_drop, List.length_append, List.length_cons] at hlen
    omega
  rw [strchrFrom, skipWhile, hwhile, if_pos hlt]

theorem strchrFrom_of_notMem {v : CStr} {i : Nat} {c : Char} (h : c ∉ v.drop i) :
    strchrFrom v i c = none := by
  have hwhile : (v.drop i).takeWhile (· ≠ c) = v.drop i :=
    List.takeWhile_eq_self_iff.mpr fun b hb => by simpa using fun heq : b = c => h (heq ▸ hb)
  rw [strchrFrom, skipWhile, hwhile, if_neg]
  simp only [List.length_drop]
  omega

/-- The final part of `roff_evalstrcond()`: advance past the delimiter, or to the end. -/
def finishStrcond (v : CStr) : Bool × Option Nat → Bool × Nat
  | (isMatch, none) => (isMatch, v.length)
  | (isMatch, some s3) => (isMatch, if charAt v s3 ≠ NUL then s3 + 1 else s3)

/-- If there is a middle delimiter, the strings around it are compared. -/
theorem roffEvalstrcond_of_some {v : CStr} {pos s3 : Nat}
    (h : strchrFrom v (pos + 1) (charAt v pos) = some s3) :
    roffEvalstrcond v pos =
      finishStrcond v (strcondLoop v (charAt v pos) (v.length + 1) (pos + 1) s3) := by
  unfold roffEvalstrcond
  dsimp only
  rw [h]
  dsimp only
  generalize strcondLoop v (charAt v pos) (v.length + 1) (pos + 1) s3 = r
  cases r with
  | mk isMatch s3 => cases s3 <;> rfl

theorem roffEvalstrcond_of_none {v : CStr} {pos : Nat}
    (h : strchrFrom v (pos + 1) (charAt v pos) = none) :
    roffEvalstrcond v pos = (false, v.length) := by
  unfold roffEvalstrcond
  dsimp only
  rw [h]

/-- The position reached from the delimiter found, or not found, in the rest of the string. -/
theorem finishStrcond_strchrFrom {v : CStr} {i : Nat} {delim : Char} (hdelim : delim ≠ NUL)
    (hi : i ≤ v.length) (isMatch : Bool) :
    finishStrcond v (isMatch, strchrFrom v i delim) =
      (isMatch, i + afterOccurrence delim 1 (v.drop i)) := by
  by_cases hmem : delim ∈ v.drop i
  · obtain ⟨a, s, hdrop, ha⟩ := List.eq_append_cons_of_mem hmem
    have hchar : charAt v (i + a.length) = delim := by
      rw [← charAt_drop, hdrop]
      exact charAt_append a (delim :: s) 0
    rw [strchrFrom_of_drop hdrop ha, finishStrcond, hchar, if_pos hdelim, hdrop,
      afterOccurrence_append ha, afterOccurrence_cons_self, afterOccurrence]
    rfl
  · rw [strchrFrom_of_notMem hmem, afterOccurrence_of_notMem hmem, List.length_drop, finishStrcond]
    congr 1
    omega

/-- The loop compares the rest `a` of the first string and the text `t` at the second cursor. By
    induction on the iterations: the bytes compared so far are equal and different from the
    delimiter. -/
theorem strcondLoop_spec {v : CStr} (hv : NUL ∉ v) {delim : Char} (hdelim : delim ≠ NUL)
    {steps s2 s3 : Nat} {a b t : CStr} (hs2 : v.drop s2 = a ++ delim :: b) (ha : delim ∉ a)
    (ht : v.drop (s3 + 1) = t) (hs3 : s3 < v.length) (hsteps : t.length < steps) :
    ∃ isMatch, finishStrcond v (strcondLoop v delim steps s2 s3) =
        (isMatch, s3 + 1 + afterOccurrence delim 1 t) ∧
      (isMatch = true ↔ a ++ [delim] <+: t) := by
  induction steps generalizing s2 s3 a t with
  | zero => exact absurd hsteps (Nat.not_lt_zero _)
  | succ steps ih =>
    have hchar := charAt_of_drop ht
    rw [strcondLoop]
    cases t with
    | nil =>
      have hnul : charAt v (s3 + 1) = NUL := hchar
      rw [if_pos hnul, finishStrcond, hnul]
      refine ⟨false, rfl, iff_of_false (by simp) fun hpre => ?_⟩
      have := hpre.length_le
      simp at this
    | cons c t =>
      have hc : c ≠ NUL := fun heq => hv (List.mem_of_mem_drop (i := s3 + 1) (by rw [ht, heq]; simp))
      have hfirst : charAt v s2 = charAt (a ++ delim :: b) 0 := charAt_of_drop hs2
      rw [charAt_cons_zero] at hchar
      rw [hchar, if_neg hc]
      by_cases hne : charAt v s2 = c
      · rw [if_neg (not_not.mpr hne)]
        rw [hfirst] at hne
        cases a with
        | nil =>
          -- Both strings end here.
          have heq : delim = c := hne
          rw [← heq, if_pos rfl, finishStrcond, hchar, if_pos hc, afterOccurrence_cons_self,
            afterOccurrence]
          exact ⟨true, rfl, iff_of_true rfl ⟨t, rfl⟩⟩
        | cons x a =>
          rw [List.mem_cons, not_or] at ha
          have heq : x = c := hne
          rw [if_neg (heq ▸ Ne.symm ha.1)]
          have hs2' : v.drop (s2 + 1) = a ++ delim :: b := by rw [← List.tail_drop, hs2]; rfl
          have ht' : v.drop (s3 + 1 + 1) = t := by rw [← List.tail_drop, ht, List.tail_cons]
          have hs3' : s3 + 1 < v.length := by
            have hlen := congrArg List.length ht
            simp only [List.length_drop, List.length_cons] at hlen
            omega
          obtain ⟨isMatch, hres, hiff⟩ := ih hs2' ha.2 ht' hs3' (by simpa using hsteps)
          refine ⟨isMatch, ?_, ?_⟩
          · rw [hres, afterOccurrence, if_neg (heq ▸ Ne.symm ha.1), Nat.add_assoc]
          · rw [hiff, heq, List.cons_append, List.prefix_cons_inj]
      · rw [if_pos hne, finishStrcond_strchrFrom hdelim hs3, ht]
        refine ⟨false, rfl, iff_of_false (by simp) ?_⟩
        rintro ⟨rest, hrest⟩
        rw [hfirst] at hne
        cases a with
        | nil => exact hne (List.cons.inj hrest).1
        | cons x a => exact hne (List.cons.inj hrest).1

/-- **String comparison.** The comparison succeeds if and only if the delimiter, a string
    without the delimiter, the delimiter, the same string, and the delimiter stand at the given
    position. It ends after the third delimiter, or at the end of the string. -/
theorem roffEvalstrcond_spec {v : CStr} (hv : NUL ∉ v) {pos : Nat} (hpos : pos < v.length) :
    ((roffEvalstrcond v pos).1 = true ↔ ∃ a rest, charAt v pos ∉ a ∧ v.drop pos =
        charAt v pos :: a ++ charAt v pos :: a ++ charAt v pos :: rest) ∧
      (roffEvalstrcond v pos).2 = pos + afterOccurrence (charAt v pos) 3 (v.drop pos) ∧
      (roffEvalstrcond v pos).2 ≤ v.length := by
  suffices h : ((roffEvalstrcond v pos).1 = true ↔ ∃ a rest, charAt v pos ∉ a ∧ v.drop pos =
        charAt v pos :: a ++ charAt v pos :: a ++ charAt v pos :: rest) ∧
      (roffEvalstrcond v pos).2 = pos + afterOccurrence (charAt v pos) 3 (v.drop pos) by
    refine ⟨h.1, h.2, ?_⟩
    have hle := afterOccurrence_le (charAt v pos) 3 (v.drop pos)
    rw [h.2]
    rw [List.length_drop] at hle
    omega
  have hdelim := charAt_ne_nul hv hpos
  have hdrop : v.drop pos = charAt v pos :: v.drop (pos + 1) := by
    rw [charAt_eq_getElem hpos, List.drop_eq_getElem_cons hpos]
  set delim := charAt v pos
  rw [hdrop]
  by_cases hmem : delim ∈ v.drop (pos + 1)
  · obtain ⟨a, b, hs, ha⟩ := List.eq_append_cons_of_mem hmem
    have hfound := strchrFrom_of_drop hs ha
    have hb : v.drop (pos + 1 + a.length + 1) = b := by
      rw [Nat.add_assoc, ← List.drop_drop, hs, ← List.drop_drop, List.drop_left]
      rfl
    have hlen := congrArg List.length hs
    simp only [List.length_drop, List.length_append, List.length_cons] at hlen
    obtain ⟨isMatch, hres, hiff⟩ := strcondLoop_spec hv hdelim hs ha hb (by omega)
      (show b.length < v.length + 1 by omega)
    rw [roffEvalstrcond_of_some hfound, hres, hs, afterOccurrence_cons_self, afterOccurrence_append ha, afterOccurrence_cons_self]
    refine ⟨hiff.trans ?_, by omega⟩
    constructor
    · rintro ⟨rest, hrest⟩
      exact ⟨a, rest, ha, by simp [← hrest]⟩
    · rintro ⟨a', rest, ha', heq⟩
      -- The delimiter splits the string in only one way.
      have htail : a ++ delim :: b = a' ++ delim :: (a' ++ delim :: rest) := by simpa using heq
      have hsame : a = a' := by
        rw [← takeWhile_ne_delim (s := b) ha, htail, takeWhile_ne_delim ha']
      subst hsame
      exact ⟨rest, by simpa using htail.symm⟩
  · have hnone := strchrFrom_of_notMem hmem
    rw [roffEvalstrcond_of_none hnone, afterOccurrence_cons_self, afterOccurrence_of_notMem hmem, List.length_drop]
    refine ⟨iff_of_false (by simp) ?_, by dsimp only; omega⟩
    rintro ⟨a, rest, -, heq⟩
    have htail : v.drop (pos + 1) = a ++ delim :: (a ++ delim :: rest) := by simpa using heq
    exact hmem (by rw [htail]; simp)

/-- The condition in the line `.if 'a'a'b`. -/
theorem roffEvalstrcond_spec_equal : (roffEvalstrcond "'a'a'b".toList 0).1 = true :=
  have hpos : 0 < "'a'a'b".toList.length := by decide
  (roffEvalstrcond_spec (by decide) hpos).1.mpr ⟨['a'], ['b'], by decide, by decide⟩

end Mandoc
