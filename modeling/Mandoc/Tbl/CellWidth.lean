import Mandoc.Roff.NumExpr
import Mandoc.Tbl.Layout

/-!
# Explicit Column Widths

The modifier `w` in a table layout sets the width of a cell in basic units. The argument is either
a string of digits or a numeric expression in parentheses. This file compares the width that is
stored with the width that the argument denotes.

- `NumExpr.exact` is the value of a numeric expression in unbounded arithmetic, as opposed to
  `NumExpr.val`, its value in the type `int`. They agree if no intermediate result is too large
  (`Literals.val_eq_exact`).
- `denotedWidth` is the width that an argument denotes.
- `WidthFits` says when the width that is stored is the one that is denoted.

The type of the width is unsigned and has 64 bits. Neither a negative value of an expression nor
an overflow of the digits is detected when it is assigned.
-/

namespace Mandoc

/-! ## §1 Exact values -/

/-- The value of an operator in unbounded arithmetic. Division by zero yields zero. -/
def exactOp (operator : Char) (a b : Int) : Int :=
  if operator = '+' then a + b
  else if operator = '-' then a - b
  else if operator = '*' then a * b
  else if operator = '/' then a.tdiv b
  else if operator = '%' then if b = 0 then 0 else a.tmod b
  else if operator = '<' then ofBool (a < b)
  else if operator = '>' then ofBool (a > b)
  else if operator = 'l' then ofBool (a ≤ b)
  else if operator = 'g' then ofBool (a ≥ b)
  else if operator = '=' then ofBool (a = b)
  else if operator = '!' then ofBool (a ≠ b)
  else if operator = '&' then ofBool (a ≠ 0 ∧ b ≠ 0)
  else if operator = ':' then ofBool (a ≠ 0 ∨ b ≠ 0)
  else if operator = 'i' then min a b
  else max a b

namespace NumExpr

/-- The value of an expression in unbounded arithmetic. -/
def exact : NumExpr → Int
  | num v => v
  | missing => 0
  | paren e => e.exact
  | bin operator l r => exactOp operator l.exact r.exact

/-- No number and no intermediate result exceeds the type `int`. The quotient that belongs to a
    remainder is an intermediate result, too. -/
def InRange : NumExpr → Prop
  | num v => IsInt v
  | missing => True
  | paren e => e.InRange
  | bin operator l r => l.InRange ∧ r.InRange ∧ ¬ Overflows operator l.exact r.exact ∧
    IsInt (exactOp operator l.exact r.exact)

theorem InRange.isInt {e : NumExpr} (h : e.InRange) : IsInt e.exact := by
  cases e with
  | num v => exact h
  | missing => exact (by decide : IsInt 0)
  | paren e => exact InRange.isInt (e := e) h
  | bin operator l r => exact h.2.2.2

end NumExpr

/-- An operator is exact if its value does not exceed the type `int`. -/
theorem evalOp_exact {operator : Char} {a b : Int} (ha : IsInt a)
    (h : IsInt (exactOp operator a b)) (hdiv : ¬ Overflows operator a b) :
    evalOp operator a b = .ok (exactOp operator a b) := by
  have hwrap := wrapInt_eq_iff.mpr h
  by_cases hplus : operator = '+'
  · subst hplus
    exact congrArg Except.ok hwrap
  by_cases hminus : operator = '-'
  · subst hminus
    exact congrArg Except.ok hwrap
  by_cases hstar : operator = '*'
  · subst hstar
    exact congrArg Except.ok hwrap
  by_cases hslash : operator = '/'
  · subst hslash
    have heval : evalOp '/' a b = divOp a b (a.tdiv b) := rfl
    have hexact : exactOp '/' a b = a.tdiv b := rfl
    rw [heval, hexact, divOp_eq ha, if_neg fun hov => hdiv ⟨.inl rfl, hov⟩]
    split
    · next hb => rw [hb, Int.tdiv_zero]
    · rfl
  by_cases hpercent : operator = '%'
  · subst hpercent
    have heval : evalOp '%' a b = divOp a b (a.tmod b) := rfl
    rw [heval, divOp_eq ha, if_neg fun hov => hdiv ⟨.inr rfl, hov⟩]
    rfl
  -- The other operators are the same in both kinds of arithmetic.
  unfold evalOp exactOp
  rw [if_neg hplus, if_neg hminus, if_neg hstar, if_neg hslash, if_neg hpercent, if_neg hplus,
    if_neg hminus, if_neg hstar, if_neg hslash, if_neg hpercent]
  simp only [apply_ite (Except.ok (ε := Fault))]

/-! ## §2 Two readings of a string -/

/-- The numbers of an expression, and the exact numbers of another one with the same shape. -/
inductive Literals (conv : NumConv) : NumExpr → NumExpr → Prop where
  | num (q : ℚ) : Literals conv (.num (conv.toInt q)) (.num (truncRat q))
  | missing : Literals conv .missing .missing
  | paren {e e' : NumExpr} : Literals conv e e' → Literals conv (.paren e) (.paren e')
  | bin {operator : Char} {l l' r r' : NumExpr} : Literals conv l l' → Literals conv r r' →
      Literals conv (.bin operator l r) (.bin operator l' r')

/-- The environment in which the numbers have no limit. -/
def exactEnv : Env Unit :=
  { plainEnv with
    numValue := fun n integral fraction unit => truncRat (exactNum n integral fraction unit) }

section

variable {conv : NumConv} {v : CStr} {e e' : NumExpr}

theorem Literals.complete_eq (h : Literals conv e e') : e.complete = e'.complete := by
  induction h with
  | num => rfl
  | missing => rfl
  | paren _ ih => exact ih
  | bin _ _ ihl ihr => rw [NumExpr.complete, NumExpr.complete, ihl, ihr]

/-- Whether there is a number does not depend on the environment. -/
theorem roffGetnum_cases (v : CStr) (pos : Nat) (unit : Char) (skipspace : Bool) :
    (∀ env : Env Unit, roffGetnum env v pos unit skipspace = ⟨false, pos, 0⟩) ∨
      ∃ n integral fraction unit' p, ∀ env : Env Unit,
        roffGetnum env v pos unit skipspace = ⟨true, p, env.numValue n integral fraction unit'⟩ := by
  unfold roffGetnum
  dsimp only
  generalize (if skipspace = true then skipWhile isspace v
    (if charAt v pos = '-' ∨ charAt v pos = '+' then pos + 1 else pos)
    else (if charAt v pos = '-' ∨ charAt v pos = '+' then pos + 1 else pos)) = p
  generalize (if charAt v (skipWhile isdigit v p) = '.' then
    skipWhile isdigit v (skipWhile isdigit v p + 1) else skipWhile isdigit v p) = fp
  by_cases hempty : fp = pos + if charAt v pos = '-' then 1 else 0
  · exact .inl fun env => if_pos (by simpa using hempty)
  · exact .inr ⟨_, _, _, _, _, fun env => if_neg (by simpa using hempty)⟩

/-- Both readings find an operand, or none of them. -/
theorem readOperand_literals {sub sub' : Nat → NumExpr × Nat} (pos : Nat) (unit : Char)
    (skipspace : Bool)
    (hsub : ∀ p, Literals conv (sub p).1 (sub' p).1 ∧ (sub p).2 = (sub' p).2) :
    Literals conv (readOperand conv.env v sub pos unit skipspace).1
        (readOperand exactEnv v sub' pos unit skipspace).1 ∧
      (readOperand conv.env v sub pos unit skipspace).2 =
        (readOperand exactEnv v sub' pos unit skipspace).2 := by
  unfold readOperand
  split
  · obtain hnone | ⟨n, integral, fraction, unit', p, hsome⟩ := roffGetnum_cases v pos unit skipspace
    · rw [hnone, hnone]
      exact ⟨.missing, rfl⟩
    · rw [hsome, hsome]
      exact ⟨.num _, rfl⟩
  · obtain ⟨hlit, hpos⟩ := hsub (pos + 1)
    refine ⟨.paren hlit, ?_⟩
    dsimp only
    rw [hpos]

/-- **Two readings** of a string result in expressions of the same shape. -/
theorem read_literals (steps : Nat) :
    (∀ pos unit skipspace,
      Literals conv (readExpr conv.env v steps pos unit skipspace).1
          (readExpr exactEnv v steps pos unit skipspace).1 ∧
        (readExpr conv.env v steps pos unit skipspace).2 =
          (readExpr exactEnv v steps pos unit skipspace).2) ∧
    ∀ l l' pos unit skipspace, Literals conv l l' →
      Literals conv (readRest conv.env v steps l pos unit skipspace).1
          (readRest exactEnv v steps l' pos unit skipspace).1 ∧
        (readRest conv.env v steps l pos unit skipspace).2 =
          (readRest exactEnv v steps l' pos unit skipspace).2 := by
  -- By induction on the number of steps, for both readers at once.
  induction steps with
  | zero => exact ⟨fun _ _ _ => ⟨.missing, rfl⟩, fun _ _ _ _ _ h => ⟨h, rfl⟩⟩
  | succ steps ih =>
    obtain ⟨ihExpr, ihRest⟩ := ih
    constructor
    · intro pos unit skipspace
      obtain ⟨hlit, hpos⟩ := @readOperand_literals conv v _ _ (skipSpace v skipspace pos) unit
        skipspace fun p => ihExpr p unit true
      rw [readExpr, readExpr, hlit.complete_eq, hpos]
      split
      · exact ihRest _ _ _ _ _ hlit
      · exact ⟨hlit, hpos⟩
    · intro l l' pos unit skipspace hl
      rw [readRest, readRest]
      dsimp only
      split
      · exact ⟨hl, rfl⟩
      · -- The right operand is read at the same position with both kinds of arithmetic.
        next operator pos' _ =>
        obtain ⟨hlit, hpos⟩ := @readOperand_literals conv v _ _ (skipSpace v skipspace pos') unit
          skipspace fun p => ihExpr p unit true
        rw [hlit.complete_eq, hpos]
        split
        · exact ihRest _ _ _ _ _ (.bin hl hlit)
        · exact ⟨.bin hl hlit, rfl⟩

/-- **Exact evaluation.** If no intermediate result exceeds the type `int`, then the value is the
    exact one, and no division traps. -/
theorem Literals.val_eq_exact (h : Literals conv e e') (hrange : e'.InRange) :
    e.val = e'.exact ∧ ¬ e.Overflow := by
  induction h with
  | num q => exact ⟨conv.exact q hrange, id⟩
  | missing => exact ⟨rfl, id⟩
  | paren _ ih => exact ih hrange
  | @bin operator l l' r r' _ _ ihl ihr =>
    obtain ⟨hl, hr, hdiv, hint⟩ := hrange
    obtain ⟨hlval, hlov⟩ := ihl hl
    obtain ⟨hrval, hrov⟩ := ihr hr
    have heval := evalOp_exact hl.isInt hint hdiv
    refine ⟨?_, ?_⟩
    · rw [NumExpr.val, hlval, hrval, opVal, heval]
      rfl
    · rintro (hov | hov | ⟨-, hov⟩)
      · exact hlov hov
      · exact hrov hov
      · rw [hlval, hrval] at hov
        exact hdiv hov

end

/-! ## §3 The width that is denoted -/

/-- The expression in the argument of a modifier `w` in parentheses, and the index after it. -/
def widthExpr (env : Env Unit) (p : CStr) (pos : Nat) : NumExpr × Nat :=
  readExpr env p (2 * p.length + 2) (pos + 1) 'n' true

/-- The argument of a modifier `w` is an expression in parentheses. -/
def HasWidthExpr (p : CStr) (pos : Nat) : Prop :=
  (widthExpr exactEnv p pos).1.complete ∧ charAt p (widthExpr exactEnv p pos).2 = ')'

instance (p : CStr) (pos : Nat) : Decidable (HasWidthExpr p pos) := inferInstanceAs (Decidable (_ ∧ _))

/-- The number denoted by the digits at the index. -/
def widthDigits (p : CStr) (pos : Nat) : Nat := digits (slice p pos (skipWhile isdigit p pos))

/-- The width in basic units that is denoted by the argument of a modifier `w` at the index, unless
    the argument is invalid. Digits without a unit are multiples of the width of a character. -/
def denotedWidth (p : CStr) (pos : Nat) : Option Int :=
  if charAt p pos = '(' then
    if HasWidthExpr p pos then some (widthExpr exactEnv p pos).1.exact else none
  else some (widthDigits p pos * 24)

/-- After the modifier, the width of the cell is zero, or the positive width that is denoted. -/
def WidthExact (conv : NumConv) (p : CStr) (st : ModState) : Prop :=
  ∃ st', modWidth conv.env p st = .ok st' ∧
    (st'.cell.width = 0 ∨ denotedWidth p st.pos = some (st'.cell.width : Int))

/-- The digits denote a width of less than 64 bits. An expression has the same value in the type
    `int` as in unbounded arithmetic, which is not negative. Behind an invalid argument, the cell
    has no width yet. -/
def WidthFits (conv : NumConv) (p : CStr) (st : ModState) : Prop :=
  if charAt p st.pos = '(' then
    ¬ (widthExpr conv.env p st.pos).1.Overflow ∧
      if HasWidthExpr p st.pos then
        let val := (widthExpr conv.env p st.pos).1.val
        let exact := (widthExpr exactEnv p st.pos).1.exact
        val = 0 ∨ 0 < val ∧ val = exact ∨ val < 0 ∧ val + 2 ^ 64 = exact
      else st.cell.width = 0
  else widthDigits p st.pos * 24 < 2 ^ 64 ∨ 2 ^ 64 ∣ widthDigits p st.pos * 24

section

variable {conv : NumConv} {p : CStr} {st : ModState}

/-- Digits. -/
theorem widthExact_digits (hpar : charAt p st.pos ≠ '(') :
    WidthExact conv p st ↔ WidthFits conv p st := by
  have hmod : modWidth conv.env p st = .ok { st with
      cell := { st.cell with width := widthDigits p st.pos * 24 % 2 ^ 64 }
      pos := skipWhile isdigit p st.pos } := by
    unfold modWidth
    rw [if_neg hpar]
    rfl
  unfold WidthExact WidthFits denotedWidth
  rw [hmod, if_neg hpar, if_neg hpar]
  constructor
  · rintro ⟨st', h, hexact⟩
    cases h
    obtain hzero | hexact := hexact
    · exact .inr (Nat.dvd_of_mod_eq_zero hzero)
    · left
      have heq := Option.some.inj hexact
      have hlt : widthDigits p st.pos * 24 % 2 ^ 64 < 2 ^ 64 := Nat.mod_lt _ (by decide)
      dsimp only at heq
      omega
  · intro h
    refine ⟨_, rfl, ?_⟩
    obtain hlt | hdvd := h
    · right
      rw [Nat.mod_eq_of_lt hlt]
      rfl
    · exact .inl (Nat.mod_eq_zero_of_dvd hdvd)

/-- The value of type `int` becomes a width of 64 bits. -/
theorem width_of_val {val exact : Int} (hint : IsInt val) :
    ((val % (SIZE_MAX + 1 : Nat)).toNat = 0 ∨
        some exact = some ((val % (SIZE_MAX + 1 : Nat)).toNat : Int)) ↔
      val = 0 ∨ 0 < val ∧ val = exact ∨ val < 0 ∧ val + 2 ^ 64 = exact := by
  have hsize : ((SIZE_MAX + 1 : Nat) : Int) = 2 ^ 64 := rfl
  rw [hsize, Option.some.injEq]
  obtain ⟨hle, hlt⟩ := hint
  omega

theorem widthExpr_literals (conv : NumConv) (p : CStr) (pos : Nat) :
    Literals conv (widthExpr conv.env p pos).1 (widthExpr exactEnv p pos).1 ∧
      (widthExpr conv.env p pos).2 = (widthExpr exactEnv p pos).2 :=
  (read_literals (2 * p.length + 2)).1 (pos + 1) 'n' true

/-- An expression in parentheses. -/
theorem widthExact_expr (hpar : charAt p st.pos = '(') :
    WidthExact conv p st ↔ WidthFits conv p st := by
  have hagr : Agrees (roffEvalnum conv.env p false (st.pos + 1) 'n' true)
      (widthExpr conv.env p st.pos) :=
    (eval_agrees conv.env (fun n i f u => conv.isInt _) (2 * p.length + 2)).1 _ _ _ (by omega)
  have hints : (widthExpr conv.env p st.pos).1.Ints :=
    (read_ints conv.env (fun n i f u => conv.isInt _) (2 * p.length + 2)).1 _ _ _
  obtain ⟨hlit, hpos⟩ := widthExpr_literals conv p st.pos
  have hcomplete := hlit.complete_eq
  unfold WidthExact WidthFits denotedWidth modWidth
  rw [if_pos hpar, if_pos hpar, if_pos hpar]
  generalize widthExpr conv.env p st.pos = e at hagr hints hlit hpos hcomplete ⊢
  by_cases hov : e.1.Overflow
  · -- The division traps.
    rw [hagr.trap hov]
    exact iff_of_false (fun h => by simp at h) fun h => h.1 hov
  obtain ⟨n, hn, hok, hval⟩ := hagr.ok hov
  rw [hn, Res.ok_bind]
  by_cases hvalid : HasWidthExpr p st.pos
  · have hc : e.1.complete := hcomplete.trans hvalid.1
    obtain ⟨hnpos, hnval⟩ := hval hc
    have hclose : charAt p n.pos = ')' := by rw [hnpos, hpos, hvalid.2]
    have hif : (n.ok && decide (charAt p n.pos = ')')) = true := by simp [hok, hc, hclose]
    rw [if_pos hif, if_pos hvalid, if_pos hvalid, ← hnval]
    have hint : IsInt n.val := hnval ▸ NumExpr.isInt_val hints
    constructor
    · rintro ⟨st', h, hexact⟩
      cases h
      exact ⟨hov, (width_of_val hint).mp hexact⟩
    · exact fun h => ⟨_, rfl, (width_of_val hint).mpr h.2⟩
  · have hif : ¬ (n.ok && decide (charAt p n.pos = ')')) = true := by
      intro h
      simp only [Bool.and_eq_true, decide_eq_true_eq] at h
      have hc : e.1.complete := hok ▸ h.1
      obtain ⟨hnpos, -⟩ := hval hc
      exact hvalid ⟨hcomplete ▸ hc, by rw [← hpos, ← hnpos]; exact h.2⟩
    rw [if_neg hif, if_neg hvalid, if_neg hvalid]
    constructor
    · rintro ⟨st', h, hexact⟩
      cases h
      exact ⟨hov, hexact.resolve_right (by simp)⟩
    · exact fun h => ⟨_, rfl, .inl h.2⟩

/-- **Explicit widths.** After a modifier `w`, the width of the cell is zero or the positive width
    that is denoted if and only if the width fits. It does fit if all intermediate results are of
    type `int`, and the last one is not negative. -/
theorem modWidth_exact_iff (conv : NumConv) (p : CStr) (st : ModState) :
    (WidthExact conv p st ↔ WidthFits conv p st) ∧
      (charAt p st.pos = '(' → HasWidthExpr p st.pos → (widthExpr exactEnv p st.pos).1.InRange →
        0 ≤ (widthExpr exactEnv p st.pos).1.exact → WidthExact conv p st) := by
  have hiff : WidthExact conv p st ↔ WidthFits conv p st := by
    by_cases hpar : charAt p st.pos = '('
    · exact widthExact_expr hpar
    · exact widthExact_digits hpar
  refine ⟨hiff, fun hpar hvalid hrange hpos => hiff.mpr ?_⟩
  obtain ⟨hval, hov⟩ := (widthExpr_literals conv p st.pos).1.val_eq_exact hrange
  unfold WidthFits
  rw [if_pos hpar, if_pos hvalid]
  refine ⟨hov, ?_⟩
  dsimp only
  omega

/-- A negative width becomes a huge one. -/
theorem modWidth_exact_false :
    ¬ ∀ (conv : NumConv) (p : CStr) (st : ModState), WidthExact conv p st := by
  intro h
  obtain ⟨st', hst', hexact⟩ := h .saturate "w(-5)".toList ⟨{ pos := .LEFT }, 0, 1⟩
  have hwidth : (modWidth NumConv.saturate.env "w(-5)".toList ⟨{ pos := .LEFT }, 0, 1⟩).map
      (·.cell.width) = .ok 18446744073709551496 := by decide +kernel
  have hdenoted : denotedWidth "w(-5)".toList 1 = some (-120) := by decide +kernel
  rw [hst'] at hwidth
  have heq : st'.cell.width = 18446744073709551496 := Except.ok.inj hwidth
  rw [heq, hdenoted] at hexact
  exact absurd hexact (by decide)

end

end Mandoc
