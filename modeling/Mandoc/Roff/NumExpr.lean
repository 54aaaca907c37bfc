import Mandoc.Lib.Ensures
import Mandoc.Roff.Number

/-!
# The Meaning of Numeric Expressions

What a numeric expression means is defined on its syntax tree, independently of the
evaluation by `roff_evalnum()`. Operators are applied from left to right in wrapping 32-bit
arithmetic, and the expression `Overflows` if a quotient or a remainder has the left part
-2147483648 and the right operand -1.

The main result, `roffEvalnum_ok_iff`, says that the evaluation of a string always
terminates, and that it traps exactly if the expression in the string overflows. Division
by zero is guarded against, so it is not among the reasons for a trap.
-/

namespace Mandoc

/-! ## §1 The values of type `int` -/

/-- The values of type `int`. -/
def IsInt (x : Int) : Prop := -2 ^ 31 ≤ x ∧ x < 2 ^ 31

instance (x : Int) : Decidable (IsInt x) := inferInstanceAs (Decidable (_ ∧ _))

theorem isInt_wrapInt (x : Int) : IsInt (wrapInt x) := by
  have hlt := Int.bmod_lt (x := x) (m := 2 ^ 32) (by decide)
  have hle := Int.le_bmod (x := x) (m := 2 ^ 32) (by decide)
  constructor <;> simp only [wrapInt] <;> omega

/-- Wrapping changes exactly the numbers that are too large or too small. -/
theorem wrapInt_eq_iff {x : Int} : wrapInt x = x ↔ IsInt x := by
  constructor
  · intro h
    rw [← h]
    exact isInt_wrapInt x
  · rintro ⟨hle, hlt⟩
    exact Int.bmod_eq_of_le (by omega) (by omega)

theorem isInt_ofBool (b : Prop) [Decidable b] : IsInt (ofBool b) := by
  unfold ofBool
  split <;> decide

/-- Dividing two numbers of type `int` gives such a number, with a single exception. -/
theorem isInt_tdiv_iff {a b : Int} (ha : IsInt a) (hb : b ≠ 0) :
    IsInt (a.tdiv b) ↔ ¬ (a = -2 ^ 31 ∧ b = -1) := by
  obtain ⟨hle, hlt⟩ := ha
  by_cases hone : b = 1
  · subst hone
    rw [Int.tdiv_one]
    exact iff_of_true ⟨hle, hlt⟩ (by omega)
  by_cases hneg : b = -1
  · subst hneg
    rw [Int.tdiv_neg, Int.tdiv_one]
    unfold IsInt
    omega
  -- With any other divisor, the quotient is at most half as large as the dividend.
  · refine iff_of_true ?_ (fun h => hneg h.2)
    have habs : (a.tdiv b).natAbs = a.natAbs / b.natAbs := Int.natAbs_tdiv a b
    have hhalf : a.natAbs / b.natAbs ≤ a.natAbs / 2 := Nat.div_le_div_left (by omega) (by decide)
    unfold IsInt
    omega

theorem isInt_tmod {a b : Int} (hb : IsInt b) (hb0 : b ≠ 0) : IsInt (a.tmod b) := by
  have habs : (a.tmod b).natAbs = a.natAbs % b.natAbs := Int.natAbs_tmod a b
  have hlt : a.natAbs % b.natAbs < b.natAbs := Nat.mod_lt _ (by omega)
  unfold IsInt at *
  omega

/-- A quotient or remainder that has no value. -/
def Overflows (operator : Char) (a b : Int) : Prop :=
  (operator = '/' ∨ operator = '%') ∧ a = -2 ^ 31 ∧ b = -1

instance (operator : Char) (a b : Int) : Decidable (Overflows operator a b) :=
  inferInstanceAs (Decidable (_ ∧ _ ∧ _))

/-- A guarded division traps exactly if the quotient is too large. -/
theorem divOp_eq {a b : Int} (ha : IsInt a) (result : Int) :
    divOp a b result =
      if a = -2 ^ 31 ∧ b = -1 then .error .trap else .ok (if b = 0 then 0 else result) := by
  unfold divOp
  by_cases hb : b = 0
  · rw [if_pos hb, if_pos hb, if_neg (by omega)]
  · rw [if_neg hb, if_neg hb]
    by_cases h : a = -2 ^ 31 ∧ b = -1
    · have hno : ¬ IsInt (a.tdiv b) := fun hint => (isInt_tdiv_iff ha hb).mp hint h
      rw [if_pos h, if_pos (wrapInt_eq_iff.not.mpr hno)]
    · have hint := (isInt_tdiv_iff ha hb).mpr h
      rw [if_neg h, if_neg (not_not.mpr (wrapInt_eq_iff.mpr hint))]

/-- The value of an operator applied to two numbers, if it has one. -/
def opVal (operator : Char) (a b : Int) : Int := (evalOp operator a b).toOption.getD 0

/-- The code of an operator traps exactly if the operator has no value. -/
theorem evalOp_eq {operator : Char} {a b : Int} (ha : IsInt a) :
    evalOp operator a b =
      if Overflows operator a b then .error .trap else .ok (opVal operator a b) := by
  have hval : ∀ x, evalOp operator a b = .ok x → ¬ Overflows operator a b →
      evalOp operator a b =
        if Overflows operator a b then .error .trap else .ok (opVal operator a b) := by
    intro x hx hno
    rw [if_neg hno, opVal, hx]
    rfl
  by_cases hslash : operator = '/'
  · subst hslash
    have he : evalOp '/' a b = divOp a b (a.tdiv b) := rfl
    rw [divOp_eq ha] at he
    by_cases h : a = -2 ^ 31 ∧ b = -1
    · rw [if_pos (show Overflows '/' a b from ⟨.inl rfl, h⟩), he, if_pos h]
    · exact hval _ (he.trans (if_neg h)) fun hov => h hov.2
  by_cases hpercent : operator = '%'
  · subst hpercent
    have he : evalOp '%' a b = divOp a b (a.tmod b) := rfl
    rw [divOp_eq ha] at he
    by_cases h : a = -2 ^ 31 ∧ b = -1
    · rw [if_pos (show Overflows '%' a b from ⟨.inr rfl, h⟩), he, if_pos h]
    · exact hval _ (he.trans (if_neg h)) fun hov => h hov.2
  -- All other operators always have a value.
  · have hite : ∀ {c : Prop} [Decidable c] {x y : Res Int}, (∃ v, x = .ok v) →
        (∃ v, y = .ok v) → ∃ v, (if c then x else y) = .ok v := by
      intro c _ x y hx hy
      split
      · exact hx
      · exact hy
    have hok : ∃ x, evalOp operator a b = .ok x := by
      unfold evalOp
      rw [if_neg hslash, if_neg hpercent]
      repeat' apply hite
      all_goals exact ⟨_, rfl⟩
    obtain ⟨x, hx⟩ := hok
    exact hval x hx fun h => h.1.elim hslash hpercent

/-- The operands and the result of a guarded division are numbers of type `int`. -/
theorem divOp_isInt {a b result : Int} (hresult : b ≠ 0 → IsInt (a.tdiv b) → IsInt result) :
    Ensures (divOp a b result) IsInt := by
  apply Ensures.ite
  · exact fun _ => Ensures.ok_iff.mpr (by decide)
  intro hb
  apply Ensures.ite
  · exact fun _ => Ensures.error_iff.mpr trivial
  intro hwrap
  exact Ensures.ok_iff.mpr (hresult hb (wrapInt_eq_iff.mp (not_not.mp hwrap)))

/-- Whatever the operator is, its value is a wrapped number, a quotient, a remainder, a truth
    value, or an operand. -/
theorem evalOp_isInt {operator : Char} {a b : Int} (ha : IsInt a) (hb : IsInt b) :
    Ensures (evalOp operator a b) IsInt := by
  unfold evalOp
  repeat' with_reducible apply Ensures.ite <;> intro _
  all_goals first
    | exact divOp_isInt fun _ h => h
    | exact divOp_isInt fun hb0 _ => isInt_tmod hb hb0
    | exact Ensures.ok_iff.mpr (isInt_wrapInt _)
    | exact Ensures.ok_iff.mpr (isInt_ofBool _)
    | exact Ensures.ok_iff.mpr (min_rec' IsInt ha hb)
    | exact Ensures.ok_iff.mpr (max_rec' IsInt ha hb)

theorem isInt_opVal {operator : Char} {a b : Int} (ha : IsInt a) (hb : IsInt b) :
    IsInt (opVal operator a b) := by
  unfold opVal
  cases h : evalOp operator a b with
  | error e => exact (by decide : IsInt 0)
  | ok x => exact (evalOp_isInt ha hb).of_eq_ok h

/-! ## §2 Syntax trees -/

/-- A numeric expression. -/
inductive NumExpr where
  | num (val : Int)
  /-- There is no number where an operand is required. -/
  | missing
  /-- A parenthesized expression; the closing parenthesis may be omitted. -/
  | paren (e : NumExpr)
  /-- An operator applied to the expression on its left and to the operand on its right. -/
  | bin (operator : Char) (l r : NumExpr)
deriving DecidableEq, Repr

namespace NumExpr

/-- No operand is missing. -/
def complete : NumExpr → Bool
  | num _ => true
  | missing => false
  | paren e => e.complete
  | bin _ l r => l.complete && r.complete

/-- The value of a complete expression. -/
def val : NumExpr → Int
  | num v => v
  | missing => 0
  | paren e => e.val
  | bin operator l r => opVal operator l.val r.val

/-- Somewhere in the expression, -2147483648 is divided by -1. An operator without a complete
    operand is not applied. -/
def Overflow : NumExpr → Prop
  | num _ => False
  | missing => False
  | paren e => e.Overflow
  | bin operator l r =>
    l.Overflow ∨ r.Overflow ∨ r.complete ∧ Overflows operator l.val r.val

instance : DecidablePred Overflow := decOverflow
where
  decOverflow : DecidablePred Overflow
    | num _ => .isFalse id
    | missing => .isFalse id
    | paren e => decOverflow e
    | bin operator l r =>
      have := decOverflow l
      have := decOverflow r
      inferInstanceAs (Decidable
        (l.Overflow ∨ r.Overflow ∨ r.complete ∧ Overflows operator l.val r.val))

/-- All numbers in the expression are of type `int`. -/
def Ints : NumExpr → Prop
  | num v => IsInt v
  | missing => True
  | paren e => e.Ints
  | bin _ l r => l.Ints ∧ r.Ints

theorem isInt_val {e : NumExpr} (h : e.Ints) : IsInt e.val := by
  induction e with
  | num v => exact h
  | missing => exact (by decide : IsInt 0)
  | paren e ih => exact ih h
  | bin operator l r ihl ihr => exact isInt_opVal (ihl h.1) (ihr h.2)

end NumExpr

/-! ## §3 Reading an expression -/

section

variable {X : Type} (env : Env X) (v : CStr)

/-- The operand at the index `pos`, and the index after it. Parenthesized expressions are read
    by the parameter `sub`. -/
def readOperand (sub : Nat → NumExpr × Nat) (pos : Nat) (unit : Char) (skipspace : Bool) :
    NumExpr × Nat :=
  if charAt v pos ≠ '(' then
    let n := roffGetnum env v pos unit skipspace
    (if n.ok then .num n.val else .missing, n.pos)
  else
    let e := sub (pos + 1)
    (.paren e.1, if charAt v e.2 = ')' then e.2 + 1 else e.2)

mutual

/-- The expression at the index `pos`, with a bound on the size of the expression. -/
def readExpr : Nat → Nat → Char → Bool → NumExpr × Nat
  | 0, pos, _, _ => (.missing, pos)
  | steps + 1, pos, unit, skipspace =>
    let e := readOperand env v (fun p => readExpr steps p unit true) (skipSpace v skipspace pos)
      unit skipspace
    if e.1.complete then readRest steps e.1 e.2 unit skipspace else e

/-- The operators and operands from the index `pos` on, following the expression `l`. -/
def readRest : Nat → NumExpr → Nat → Char → Bool → NumExpr × Nat
  | 0, l, pos, _, _ => (l, pos)
  | steps + 1, l, pos, unit, skipspace =>
    let pos := skipSpace v skipspace pos
    match roffGetop v pos with
    | none => (l, pos)
    | some (operator, pos) =>
      let r := readOperand env v (fun p => readExpr steps p unit true)
        (skipSpace v skipspace pos) unit skipspace
      if r.1.complete then
        readRest steps (.bin operator l r.1) (skipSpace v skipspace r.2) unit skipspace
      else
        (.bin operator l r.1, r.2)

end

/-- The numeric expression in a string. -/
def numExpr (pos : Nat) (unit : Char) (skipspace : Bool) : NumExpr :=
  (readExpr env v (2 * v.length + 2) pos unit skipspace).1

/-! ## §4 Progress -/

variable {v}

theorem skipWhile_of_ge (p : Char → Bool) {s : CStr} {i : Nat} (h : s.length ≤ i) :
    skipWhile p s i = i := by
  simp [skipWhile, List.drop_eq_nil_of_le h]

theorem le_skipSpace (skipspace : Bool) (pos : Nat) : pos ≤ skipSpace v skipspace pos := by
  unfold skipSpace
  split
  · exact le_skipWhile _ _ _
  · exact Nat.le_refl _

/-- A number is not empty, and it does not start at the end of the string. -/
theorem roffGetnum_progress {pos : Nat} {unit : Char} {skipspace : Bool}
    (h : (roffGetnum env v pos unit skipspace).ok) :
    pos < (roffGetnum env v pos unit skipspace).pos ∧ pos < v.length := by
  have hlt : pos < v.length := by
    by_contra hge
    have hnul := charAt_of_ge (Nat.le_of_not_lt hge)
    have hskip := fun p => skipWhile_of_ge p (Nat.le_of_not_lt hge)
    have hminus : NUL ≠ '-' := by decide
    have hplus : NUL ≠ '+' := by decide
    have hdot : NUL ≠ '.' := by decide
    simp [roffGetnum, hnul, hskip, hminus, hplus, hdot] at h
  refine ⟨?_, hlt⟩
  unfold roffGetnum at h ⊢
  dsimp only at h ⊢
  set n := charAt v pos = '-'
  set p := if n ∨ charAt v pos = '+' then pos + 1 else pos
  set q := if skipspace = true then skipWhile isspace v p else p
  set ip := skipWhile isdigit v q
  set fp := if charAt v ip = '.' then skipWhile isdigit v (ip + 1) else ip
  -- The digits start after the sign.
  have hp : pos + (if n then 1 else 0) ≤ p := by
    simp only [p]
    split_ifs <;> first | omega | simp_all
  have hq : p ≤ q := by
    simp only [q]
    split
    · exact le_skipWhile _ _ _
    · exact Nat.le_refl _
  have hip : q ≤ ip := le_skipWhile _ _ _
  have hfp : ip ≤ fp := by
    simp only [fp]
    split
    · exact (Nat.le_succ ip).trans (le_skipWhile _ _ _)
    · exact Nat.le_refl _
  by_cases hempty : fp = pos + (if n then 1 else 0)
  · rw [if_pos hempty] at h
    exact absurd h (by simp)
  · rw [if_neg hempty]
    dsimp only
    split <;> omega

theorem roffGetop_progress {pos pos' : Nat} {operator : Char}
    (h : roffGetop v pos = some (operator, pos')) : pos < pos' ∧ pos < v.length := by
  constructor
  · unfold roffGetop at h
    dsimp only at h
    split_ifs at h <;> cases h <;> omega
  · by_contra hge
    have hnul := charAt_of_ge (Nat.le_of_not_lt hge)
    unfold roffGetop at h
    dsimp only at h
    rw [hnul, if_neg (by decide), if_neg (by decide), if_neg (by decide), if_neg (by decide)] at h
    exact absurd h (by simp)

/-- An operand that is complete is not empty. -/
theorem readOperand_progress {sub : Nat → NumExpr × Nat} {pos : Nat} {unit : Char}
    {skipspace : Bool} (hsub : ∀ p, (sub p).1.complete → p ≤ (sub p).2)
    (h : (readOperand env v sub pos unit skipspace).1.complete) :
    pos < (readOperand env v sub pos unit skipspace).2 ∧ pos < v.length := by
  unfold readOperand at h ⊢
  by_cases hpar : charAt v pos = '('
  · rw [if_neg (not_not.mpr hpar)] at h ⊢
    have hle := hsub (pos + 1) h
    refine ⟨?_, lt_length_of_charAt_ne_nul (by rw [hpar]; decide)⟩
    dsimp only
    split <;> omega
  · rw [if_pos hpar] at h ⊢
    apply roffGetnum_progress env
    cases hok : (roffGetnum env v pos unit skipspace).ok with
    | true => rfl
    | false => simp [hok, NumExpr.complete] at h

/-- Reading an expression does not go backwards. -/
theorem read_progress (steps : Nat) :
    (∀ pos unit skipspace, (readExpr env v steps pos unit skipspace).1.complete →
      pos ≤ (readExpr env v steps pos unit skipspace).2) ∧
    ∀ l pos unit skipspace, (readRest env v steps l pos unit skipspace).1.complete →
      pos ≤ (readRest env v steps l pos unit skipspace).2 := by
  -- By induction on the number of steps, for both readers at once.
  induction steps with
  | zero => exact ⟨fun _ _ _ _ => Nat.le_refl _, fun _ _ _ _ _ => Nat.le_refl _⟩
  | succ steps ih =>
    have hsub : ∀ unit p, (readExpr env v steps p unit true).1.complete →
        p ≤ (readExpr env v steps p unit true).2 := fun unit p => ih.1 p unit true
    constructor
    · intro pos unit skipspace h
      have hskip := le_skipSpace (v := v) skipspace pos
      rw [readExpr] at h ⊢
      split at h
      · next hc =>
        rw [if_pos hc]
        have hop := (readOperand_progress env (hsub unit) hc).1
        have hrest := ih.2 _ _ _ _ h
        omega
      · next hc => exact absurd h hc
    · intro l pos unit skipspace h
      have hskip := le_skipSpace (v := v) skipspace pos
      rw [readRest] at h ⊢
      dsimp only at h ⊢
      cases hop : roffGetop v (skipSpace v skipspace pos) with
      | none => exact hskip
      | some res =>
        -- Operator, right operand, and the rest follow each other.
        obtain ⟨operator, pos₁⟩ := res
        have hpos₁ := (roffGetop_progress hop).1
        have hskip₁ := le_skipSpace (v := v) skipspace pos₁
        simp only [hop] at h ⊢
        split at h
        · next hc =>
          rw [if_pos hc]
          have hop := (readOperand_progress env (hsub unit) hc).1
          have hrest := ih.2 _ _ _ _ h
          have hskip₂ := le_skipSpace (v := v) skipspace (readOperand env v
            (fun p => readExpr env v steps p unit true) (skipSpace v skipspace pos₁) unit
            skipspace).2
          omega
        · next hc =>
          simp only [NumExpr.complete, Bool.and_eq_true] at h
          exact absurd h.2 hc

/-! ## §5 Evaluation -/

theorem roffGetnum_isInt (henv : ∀ n i f u, IsInt (env.numValue n i f u)) (pos : Nat)
    (unit : Char) (skipspace : Bool) : IsInt (roffGetnum env v pos unit skipspace).val := by
  have hite : ∀ {c : Prop} [Decidable c] {n m : Num}, IsInt n.val → IsInt m.val →
      IsInt (if c then n else m).val := by
    intro c _ n m hn hm
    split
    · exact hn
    · exact hm
  exact hite (by decide : IsInt 0) (henv _ _ _ _)

theorem readOperand_ints (henv : ∀ n i f u, IsInt (env.numValue n i f u))
    {sub : Nat → NumExpr × Nat} {pos : Nat} {unit : Char} {skipspace : Bool}
    (hsub : ∀ p, (sub p).1.Ints) : (readOperand env v sub pos unit skipspace).1.Ints := by
  unfold readOperand
  split
  · dsimp only
    split
    · exact roffGetnum_isInt env henv pos unit skipspace
    · trivial
  · exact hsub _

/-- The numbers read are of type `int`. -/
theorem read_ints (henv : ∀ n i f u, IsInt (env.numValue n i f u)) (steps : Nat) :
    (∀ pos unit skipspace, (readExpr env v steps pos unit skipspace).1.Ints) ∧
    ∀ l pos unit skipspace, l.Ints → (readRest env v steps l pos unit skipspace).1.Ints := by
  induction steps with
  | zero => exact ⟨fun _ _ _ => trivial, fun _ _ _ _ h => h⟩
  | succ steps ih =>
    have hop : ∀ pos unit skipspace, (readOperand env v
        (fun p => readExpr env v steps p unit true) pos unit skipspace).1.Ints :=
      fun pos unit skipspace => readOperand_ints env henv fun p => ih.1 p unit true
    constructor
    · intro pos unit skipspace
      rw [readExpr]
      split
      · exact ih.2 _ _ _ _ (hop _ _ _)
      · exact hop _ _ _
    · intro l pos unit skipspace hl
      rw [readRest]
      dsimp only
      split
      · exact hl
      · split
        · exact ih.2 _ _ _ _ ⟨hl, hop _ _ _⟩
        · exact ⟨hl, hop _ _ _⟩

/-- What has overflowed keeps doing so when more is read. -/
theorem readRest_overflow (steps : Nat) {l : NumExpr} (hl : l.Overflow) (pos : Nat)
    (unit : Char) (skipspace : Bool) :
    (readRest env v steps l pos unit skipspace).1.Overflow := by
  induction steps generalizing l pos with
  | zero => exact hl
  | succ steps ih =>
    rw [readRest]
    dsimp only
    split
    · exact hl
    · split
      · exact ih (l := .bin _ l _) (Or.inl hl) _
      · exact Or.inl hl

/-- The evaluation traps if the expression overflows, and if not, it succeeds if the
    expression is complete. -/
def Agrees (x : Res Num) (e : NumExpr × Nat) : Prop :=
  if e.1.Overflow then x = .error .trap
  else ∃ n, x = .ok n ∧ n.ok = e.1.complete ∧ (e.1.complete → n.pos = e.2 ∧ n.val = e.1.val)

theorem Agrees.trap {x : Res Num} {e : NumExpr × Nat} (h : Agrees x e) (he : e.1.Overflow) :
    x = .error .trap := by
  rwa [Agrees, if_pos he] at h

theorem Agrees.ok {x : Res Num} {e : NumExpr × Nat} (h : Agrees x e) (he : ¬ e.1.Overflow) :
    ∃ n, x = .ok n ∧ n.ok = e.1.complete ∧ (e.1.complete → n.pos = e.2 ∧ n.val = e.1.val) := by
  rwa [Agrees, if_neg he] at h

/-- Evaluating an operand. -/
theorem operand_agrees {sub : Nat → Res Num} {subE : Nat → NumExpr × Nat} {pos : Nat}
    {unit : Char} {skipspace : Bool}
    (hsub : charAt v pos = '(' → Agrees (sub (pos + 1)) (subE (pos + 1))) :
    Agrees (roffEvalpar env v sub false pos unit skipspace)
      (readOperand env v subE pos unit skipspace) := by
  unfold roffEvalpar readOperand
  by_cases hpar : charAt v pos = '('
  · -- An operand in parentheses.
    rw [if_neg (not_not.mpr hpar), if_neg (not_not.mpr hpar)]
    have hagr := hsub hpar
    by_cases hov : (subE (pos + 1)).1.Overflow
    · rw [Agrees, if_pos (show NumExpr.Overflow (.paren _) from hov), hagr.trap hov]
      rfl
    · obtain ⟨n, hn, hok, hval⟩ := hagr.ok hov
      rw [Agrees, if_neg (show ¬ NumExpr.Overflow (.paren _) from hov), hn, Res.ok_bind]
      cases hc : (subE (pos + 1)).1.complete with
      | false =>
        rw [hc] at hok
        exact ⟨n, if_pos hok, by simp [hok, hc, NumExpr.complete], by simp [hc, NumExpr.complete]⟩
      | true =>
        rw [hc] at hok
        obtain ⟨hpos, hv⟩ := hval hc
        rw [if_neg (by simp [hok]), hpos]
        -- The closing parenthesis may be missing.
        by_cases hclose : charAt v (subE (pos + 1)).2 = ')'
        · exact ⟨_, if_pos hclose, by simp [hok, hc, NumExpr.complete],
            fun _ => ⟨by simp [hclose], hv⟩⟩
        · exact ⟨_, if_neg hclose, by simp [hc, NumExpr.complete],
            fun _ => ⟨by simp [hclose], hv⟩⟩
  · -- A number.
    rw [if_pos hpar, if_pos hpar]
    dsimp only
    cases hok : (roffGetnum env v pos unit skipspace).ok with
    | true =>
      rw [if_pos rfl]
      exact ⟨_, rfl, hok, fun _ => ⟨rfl, rfl⟩⟩
    | false =>
      rw [if_neg (by simp)]
      exact ⟨_, rfl, hok, by simp [NumExpr.complete]⟩

/-- By induction on the bound, which decreases with every call and every iteration; each of
    them reads on by at least one byte. -/
theorem eval_agrees (henv : ∀ n i f u, IsInt (env.numValue n i f u)) (steps : Nat) :
    (∀ pos unit skipspace, 2 * (v.length - pos) + 2 ≤ steps →
      Agrees (evalnum env v false steps pos unit skipspace)
        (readExpr env v steps pos unit skipspace)) ∧
    ∀ l (n : Num) unit skipspace, 2 * (v.length - n.pos) + 1 ≤ steps → l.complete →
      ¬ l.Overflow → l.Ints → n.ok → n.val = l.val →
      Agrees (evalRest env v false steps n unit skipspace)
        (readRest env v steps l n.pos unit skipspace) := by
  induction steps with
  | zero => exact ⟨fun _ _ _ h => absurd h (by omega), fun _ _ _ _ h => absurd h (by omega)⟩
  | succ steps ih =>
    obtain ⟨ihExpr, ihRest⟩ := ih
    -- An operand is complete only if it is inside the string, so that it can be read.
    have hoperand : ∀ pos unit skipspace, 2 * (v.length - pos) ≤ steps →
        Agrees (roffEvalpar env v (fun p => evalnum env v false steps p unit true) false pos unit
            skipspace)
          (readOperand env v (fun p => readExpr env v steps p unit true) pos unit skipspace) := by
      intro pos unit skipspace hsteps
      apply operand_agrees
      intro hpar
      have hlt : pos < v.length := lt_length_of_charAt_ne_nul (by rw [hpar]; decide)
      exact ihExpr (pos + 1) unit true (by omega)
    have hprogress : ∀ unit pos skipspace,
        (readOperand env v (fun p => readExpr env v steps p unit true) pos unit
          skipspace).1.complete →
        pos < (readOperand env v (fun p => readExpr env v steps p unit true) pos unit skipspace).2 ∧
          pos < v.length := fun unit pos skipspace =>
      readOperand_progress env fun p => (read_progress env steps).1 p unit true
    have hints : ∀ unit pos skipspace,
        (readOperand env v (fun p => readExpr env v steps p unit true) pos unit skipspace).1.Ints :=
      fun unit pos skipspace =>
        readOperand_ints env henv fun p => (read_ints env henv steps).1 p unit true
    constructor
    · intro pos unit skipspace hsteps
      have hskip := le_skipSpace (v := v) skipspace pos
      rw [evalnum, readExpr]
      have hagr := hoperand (skipSpace v skipspace pos) unit skipspace (by omega)
      have hprog := hprogress unit (skipSpace v skipspace pos) skipspace
      have hint := hints unit (skipSpace v skipspace pos) skipspace
      generalize readOperand env v (fun p => readExpr env v steps p unit true)
        (skipSpace v skipspace pos) unit skipspace = e at hagr hprog hint ⊢
      by_cases hov : e.1.Overflow
      · rw [hagr.trap hov, Agrees, if_pos]
        · rfl
        · split
          · exact readRest_overflow env steps hov _ _ _
          · exact hov
      · obtain ⟨n, hn, hok, hval⟩ := hagr.ok hov
        rw [hn, Res.ok_bind]
        cases hc : e.1.complete with
        | false =>
          rw [hc] at hok
          rw [if_pos hok, if_neg (by simp), Agrees, if_neg hov]
          exact ⟨n, rfl, hok.trans hc.symm, fun h => absurd h (by simp [hc])⟩
        | true =>
          rw [hc] at hok
          obtain ⟨hpos, hv⟩ := hval hc
          have hlt := hprog hc
          rw [if_neg (by simp [hok]), if_pos rfl, ← hpos]
          exact ihRest e.1 n unit skipspace (by omega) hc hov hint hok hv
    · intro l n unit skipspace hsteps hl hlov hlint hnok hnval
      have hskip := le_skipSpace (v := v) skipspace n.pos
      rw [evalRest, readRest]
      cases hop : roffGetop v (skipSpace v skipspace n.pos) with
      | none =>
        rw [Agrees, if_neg hlov]
        exact ⟨_, rfl, hnok.trans hl.symm, fun _ => ⟨rfl, hnval⟩⟩
      | some res =>
        obtain ⟨operator, pos⟩ := res
        obtain ⟨hpos, hlt⟩ := roffGetop_progress hop
        have hskip' := le_skipSpace (v := v) skipspace pos
        dsimp only
        have hagr := hoperand (skipSpace v skipspace pos) unit skipspace (by omega)
        have hprog := hprogress unit (skipSpace v skipspace pos) skipspace
        have hint := hints unit (skipSpace v skipspace pos) skipspace
        generalize readOperand env v (fun p => readExpr env v steps p unit true)
          (skipSpace v skipspace pos) unit skipspace = e at hagr hprog hint ⊢
        by_cases hov : e.1.Overflow
        · have hbin : (NumExpr.bin operator l e.1).Overflow := Or.inr (Or.inl hov)
          rw [hagr.trap hov, Agrees, if_pos]
          · rfl
          · split
            · exact readRest_overflow env steps hbin _ _ _
            · exact hbin
        · obtain ⟨m, hm, hok, hval⟩ := hagr.ok hov
          rw [hm, Res.ok_bind]
          cases hc : e.1.complete with
          | false =>
            -- The operator is not applied.
            have hbin : ¬ (NumExpr.bin operator l e.1).Overflow := by
              simp [NumExpr.Overflow, hlov, hov, hc]
            rw [hc] at hok
            rw [if_pos hok, if_neg (by simp), Agrees, if_neg hbin]
            exact ⟨m, rfl, by simp [NumExpr.complete, hok, hc], by simp [NumExpr.complete, hc]⟩
          | true =>
            rw [hc] at hok
            obtain ⟨hposm, hv⟩ := hval hc
            have hltm := hprog hc
            rw [if_neg (by simp [hok]), if_pos rfl, if_neg (by simp), hnval, hv,
              evalOp_eq (NumExpr.isInt_val hlint)]
            by_cases hdiv : Overflows operator l.val e.1.val
            · have hbin : (NumExpr.bin operator l e.1).Overflow := Or.inr (Or.inr ⟨hc, hdiv⟩)
              rw [if_pos hdiv, Agrees, if_pos (readRest_overflow env steps hbin _ _ _)]
              rfl
            · have hbin : ¬ (NumExpr.bin operator l e.1).Overflow := by
                simp [NumExpr.Overflow, hlov, hov, hdiv]
              have hskip'' := le_skipSpace (v := v) skipspace m.pos
              rw [if_neg hdiv, Res.ok_bind, ← hposm]
              exact ihRest (.bin operator l e.1) ⟨true, skipSpace v skipspace m.pos, _⟩ unit
                skipspace (by dsimp only; omega) (by simp [NumExpr.complete, hl, hc]) hbin
                ⟨hlint, hint⟩ rfl rfl

end

/-! ## §6 Exact numbers -/

/-- The factor belonging to a scaling unit: `switch (unit)` in `roff_getnum()`. -/
def unitFactor (unit : Char) : ℚ :=
  if unit = 'f' then 65536
  else if unit = 'i' then 240
  else if unit = 'c' then 24000 / 254
  else if unit = 'v' ∨ unit = 'P' then 40
  else if unit = 'm' ∨ unit = 'n' then 24
  else if unit = 'p' then 40 / 12
  else if unit = 'M' then 24 / 100
  else 1

/-- The number with a sign, the given digits before and after the decimal point, and a
    scaling unit. -/
def exactNum (n : Bool) (integral fraction : CStr) (unit : Char) : ℚ :=
  (if n then -1 else 1) * (decimal integral + decimal fraction / 10 ^ fraction.length) *
    unitFactor unit

/-- Rounding towards zero. -/
def truncRat (q : ℚ) : Int := q.num.tdiv q.den

/-- A conversion of numbers to the type `int`. It is exact, except that the result is arbitrary
    if a number is too large or too small. -/
structure NumConv where
  toInt : ℚ → Int
  isInt : ∀ q, IsInt (toInt q)
  exact : ∀ q, IsInt (truncRat q) → toInt q = truncRat q

/-- The conversion that delivers the smallest number if it cannot deliver the right one. -/
def NumConv.saturate : NumConv where
  toInt q := if IsInt (truncRat q) then truncRat q else -2 ^ 31
  isInt q := by
    split
    · assumption
    · decide
  exact q h := if_pos h

/-- The environment with exact numbers. -/
def NumConv.env (conv : NumConv) : Env Unit :=
  { plainEnv with
    numValue := fun n integral fraction unit => conv.toInt (exactNum n integral fraction unit) }

/-- **Numeric expressions.** The evaluation of a string ends without a trap if and only if
    the expression in the string does not divide -2147483648 by -1. -/
theorem roffEvalnum_ok_iff (conv : NumConv) (v : CStr) (pos : Nat) (unit : Char)
    (skipspace : Bool) :
    (∃ n, roffEvalnum conv.env v false pos unit skipspace = .ok n) ↔
      ¬ (numExpr conv.env v pos unit skipspace).Overflow := by
  have hagr := (eval_agrees (v := v) conv.env (fun n i f u => conv.isInt _) (2 * v.length + 2)).1
    pos unit skipspace (by omega)
  constructor
  · rintro ⟨n, hn⟩ hov
    exact absurd (hn.symm.trans (hagr.trap hov)) (by simp)
  · intro hov
    obtain ⟨n, hn, -⟩ := hagr.ok hov
    exact ⟨n, hn⟩

/-- Dividing the smallest number by -1 traps. -/
theorem roffEvalnum_traps : ¬ ∀ (conv : NumConv) (v : CStr) (pos : Nat) (unit : Char)
    (skipspace : Bool), ∃ n, roffEvalnum conv.env v false pos unit skipspace = .ok n := by
  intro h
  obtain ⟨n, hn⟩ := h .saturate "-2147483648/-1".toList 0 NUL false
  have htrap : roffEvalnum NumConv.saturate.env "-2147483648/-1".toList false 0 NUL false =
      .error .trap := by decide +kernel
  exact absurd (hn.symm.trans htrap) (by simp)

end Mandoc
