import Mandoc.Roff.CondOperands

/-!
# Validation of Numeric Expressions

The escape sequence `\B` asks whether its argument is a valid numeric expression. The parser
`roff_evalnum()` answers in validation mode, where it has no place to store a value: there,
it is an error if a closing parenthesis is missing.

But only the operand on the left inherits the mode. Each operand on the right is evaluated
into a variable of its own, hence in evaluation mode. The main result,
`roffEvalnum_validates_iff`, says for which strings the answer is right all the same.
-/

namespace Mandoc

/-! ## §1 Syntax trees -/

/-- The syntax of a numeric expression. -/
inductive NumSyntax where
  /-- The text of a number, without the scaling unit, and its value. -/
  | num (text : CStr) (val : Int)
  /-- A parenthesized expression, and whether it has a closing parenthesis. -/
  | paren (e : NumSyntax) (closed : Bool)
  /-- An operator applied to the expression on its left and to the operand on its right. -/
  | bin (operator : Char) (l r : NumSyntax)
deriving DecidableEq, Repr

namespace NumSyntax

/-- The expression denoted. -/
def toExpr : NumSyntax → NumExpr
  | num _ val => .num val
  | paren e _ => .paren e.toExpr
  | bin operator l r => .bin operator l.toExpr r.toExpr

/-- The number of opening parentheses without a closing one. -/
def unclosed : NumSyntax → Nat
  | num _ _ => 0
  | paren e closed => e.unclosed + if closed then 0 else 1
  | bin _ l r => l.unclosed + r.unclosed

/-- An operand with a numeric value: a parenthesized expression or a number with a digit. -/
def IsOperand : NumSyntax → Prop
  | num text _ => text.any isdigit
  | paren _ _ => True
  | bin _ _ _ => False

instance : DecidablePred IsOperand
  | num text _ => inferInstanceAs (Decidable (text.any isdigit = true))
  | paren _ _ => .isTrue trivial
  | bin _ _ _ => .isFalse id

/-- Every operator has an operand on its right. -/
def HasOperands : NumSyntax → Prop
  | num _ _ => True
  | paren e _ => e.HasOperands
  | bin _ l r => l.HasOperands ∧ r.IsOperand ∧ r.HasOperands

/-- All parentheses are closed, except perhaps in operands on the right of an operator. -/
def LeftClosed : NumSyntax → Prop
  | num _ _ => True
  | paren e closed => e.LeftClosed ∧ closed
  | bin _ l _ => l.LeftClosed

/-- Somewhere in an operand on the right of an operator, -2147483648 is divided by -1. -/
def RightOverflow : NumSyntax → Prop
  | num _ _ => False
  | paren e _ => e.RightOverflow
  | bin _ l r => l.RightOverflow ∨ r.toExpr.Overflow

/-- What validation mode checks. -/
def Checked (t : NumSyntax) : Prop := t.LeftClosed ∧ ¬ t.RightOverflow

theorem complete_toExpr (t : NumSyntax) : t.toExpr.complete := by
  induction t with
  | num text val => rfl
  | paren e closed ih => exact ih
  | bin operator l r ihl ihr =>
    rw [toExpr, NumExpr.complete, ihl, ihr]
    rfl

end NumSyntax

/-! ## §2 Reading the syntax -/

section

variable {X : Type} (env : Env X) (v : CStr)

/-- The operand at the index `pos`, if there is one, and the index after it. Parenthesized
    expressions are read by the parameter `sub`. -/
def operandSyntax (sub : Nat → Option (NumSyntax × Nat)) (pos : Nat) (unit : Char)
    (skipspace : Bool) : Option (NumSyntax × Nat) :=
  if charAt v pos ≠ '(' then
    let n := roffGetnum env v pos unit skipspace
    if n.ok then some (.num (numberText skipspace (v.drop pos)).text n.val, n.pos) else none
  else
    (sub (pos + 1)).map fun e =>
      if charAt v e.2 = ')' then (.paren e.1 true, e.2 + 1) else (.paren e.1 false, e.2)

mutual

/-- The expression at the index `pos`, if no operand is missing in it, with a bound on its
    size. -/
def exprSyntax : Nat → Nat → Char → Bool → Option (NumSyntax × Nat)
  | 0, _, _, _ => none
  | steps + 1, pos, unit, skipspace =>
    (operandSyntax env v (fun p => exprSyntax steps p unit true) (skipSpace v skipspace pos) unit
      skipspace).bind fun e => restSyntax steps e.1 e.2 unit skipspace

/-- The operators and operands from the index `pos` on, following the expression `l`. -/
def restSyntax : Nat → NumSyntax → Nat → Char → Bool → Option (NumSyntax × Nat)
  | 0, l, pos, _, _ => some (l, pos)
  | steps + 1, l, pos, unit, skipspace =>
    let pos := skipSpace v skipspace pos
    match roffGetop v pos with
    | none => some (l, pos)
    | some (operator, pos) =>
      (operandSyntax env v (fun p => exprSyntax steps p unit true) (skipSpace v skipspace pos) unit
        skipspace).bind fun r =>
          restSyntax steps (.bin operator l r.1) (skipSpace v skipspace r.2) unit skipspace

end

/-- The syntax of the expression in a string, and the index after it. -/
def numSyntax (pos : Nat) (unit : Char) (skipspace : Bool) : Option (NumSyntax × Nat) :=
  exprSyntax env v (2 * v.length + 2) pos unit skipspace

/-- Reading the syntax and reading the expression agree: either both of them find an operand
    missing, or the syntax denotes the expression. -/
def Denotes (o : Option (NumSyntax × Nat)) (e : NumExpr × Nat) : Prop :=
  match o with
  | none => e.1.complete = false
  | some t => e = (t.1.toExpr, t.2)

theorem operandSyntax_denotes {sub : Nat → Option (NumSyntax × Nat)}
    {subE : Nat → NumExpr × Nat} (hsub : ∀ p, Denotes (sub p) (subE p)) (pos : Nat) (unit : Char)
    (skipspace : Bool) :
    Denotes (operandSyntax env v sub pos unit skipspace)
      (readOperand env v subE pos unit skipspace) := by
  unfold operandSyntax readOperand
  by_cases hpar : charAt v pos = '('
  · rw [if_neg (not_not.mpr hpar), if_neg (not_not.mpr hpar)]
    have h := hsub (pos + 1)
    cases hs : sub (pos + 1) with
    | none =>
      rw [hs] at h
      exact h
    | some t =>
      rw [hs] at h
      dsimp only [Denotes] at h
      rw [h, Option.map_some]
      dsimp only
      split <;> rfl
  · rw [if_pos hpar, if_pos hpar]
    dsimp only
    split <;> rfl

/-- By induction on the bound, which both readers share. -/
theorem syntax_denotes (steps : Nat) :
    (∀ pos unit skipspace, Denotes (exprSyntax env v steps pos unit skipspace)
      (readExpr env v steps pos unit skipspace)) ∧
    ∀ l pos unit skipspace, Denotes (restSyntax env v steps l pos unit skipspace)
      (readRest env v steps l.toExpr pos unit skipspace) := by
  -- By induction on the number of steps, for an expression and for the rest of one at once.
  induction steps with
  | zero =>
    constructor
    · intro pos unit skipspace
      rw [exprSyntax, readExpr]
      rfl
    · intro l pos unit skipspace
      rw [restSyntax, readRest]
      rfl
  | succ steps ih =>
    have hop : ∀ pos unit skipspace,
        Denotes (operandSyntax env v (fun p => exprSyntax env v steps p unit true) pos unit skipspace)
          (readOperand env v (fun p => readExpr env v steps p unit true) pos unit skipspace) :=
      fun pos unit skipspace => operandSyntax_denotes env v (fun p => ih.1 p unit true) pos unit _
    constructor
    · intro pos unit skipspace
      have h := hop (skipSpace v skipspace pos) unit skipspace
      rw [exprSyntax, readExpr]
      cases ho : operandSyntax env v (fun p => exprSyntax env v steps p unit true)
          (skipSpace v skipspace pos) unit skipspace with
      -- Without an operand, both are incomplete.
      | none =>
        rw [ho] at h
        rw [if_neg (by rw [show _ = false from h]; simp)]
        exact h
      | some t =>
        rw [ho] at h
        dsimp only [Denotes] at h
        rw [h, if_pos t.1.complete_toExpr]
        exact ih.2 t.1 t.2 unit skipspace
    · intro l pos unit skipspace
      rw [restSyntax, readRest]
      dsimp only
      cases hgetop : roffGetop v (skipSpace v skipspace pos) with
      | none => rfl
      | some res =>
        obtain ⟨operator, pos'⟩ := res
        have h := hop (skipSpace v skipspace pos') unit skipspace
        dsimp only
        cases ho : operandSyntax env v (fun p => exprSyntax env v steps p unit true)
            (skipSpace v skipspace pos') unit skipspace with
        -- If the right operand is missing, the expression is incomplete.
        | none =>
          rw [ho] at h
          have hc : (readOperand env v (fun p => readExpr env v steps p unit true)
            (skipSpace v skipspace pos') unit skipspace).1.complete = false := h
          rw [if_neg (by rw [hc]; simp)]
          show (NumExpr.bin operator l.toExpr _).complete = false
          rw [NumExpr.complete, hc, Bool.and_false]
        | some t =>
          rw [ho] at h
          dsimp only [Denotes] at h
          rw [h, if_pos t.1.complete_toExpr]
          exact ih.2 (.bin operator l t.1) _ unit skipspace

/-! ## §3 Both modes -/

/-- The computation succeeds at an index exactly if the syntax is there and satisfies a test. -/
def SucceedsOn (x : Res Num) (o : Option (NumSyntax × Nat)) (P : NumSyntax → Prop) : Prop :=
  ∀ q, (∃ n, x = .ok n ∧ n.ok = true ∧ n.pos = q) ↔ ∃ t, o = some (t, q) ∧ P t

variable {env v}

/-- What the evaluation of an expression says about its syntax. -/
theorem Agrees.succeedsOn {x : Res Num} {e : NumExpr × Nat} {o : Option (NumSyntax × Nat)}
    (hagr : Agrees x e) (hden : Denotes o e) : SucceedsOn x o fun t => ¬ t.toExpr.Overflow := by
  intro q
  constructor
  · rintro ⟨n, hn, hok, hpos⟩
    have hov : ¬ e.1.Overflow := fun hov => absurd (hn.symm.trans (hagr.trap hov)) (by simp)
    obtain ⟨m, hm, hmok, hval⟩ := hagr.ok hov
    cases hm.symm.trans hn
    rw [hok] at hmok
    cases o with
    | none => exact absurd (hmok.trans hden) (by simp)
    | some t =>
      have he : e = (t.1.toExpr, t.2) := hden
      have hq : t.2 = q := by rw [← hpos, (hval hmok.symm).1, he]
      exact ⟨t.1, by rw [← hq], by rw [he] at hov; exact hov⟩
  · rintro ⟨t, ht, hov⟩
    rw [ht] at hden
    have he : e = (t.toExpr, q) := hden
    rw [he] at hagr
    obtain ⟨n, hn, hok, hval⟩ := hagr.ok hov
    exact ⟨n, hn, hok.trans t.complete_toExpr, (hval t.complete_toExpr).1⟩

/-- Validating an operand: a closing parenthesis is required. -/
theorem operand_validates {sub : Nat → Res Num} {subS : Nat → Option (NumSyntax × Nat)}
    {pos : Nat} {unit : Char} {skipspace : Bool}
    (hsub : charAt v pos = '(' →
      SucceedsOn (sub (pos + 1)) (subS (pos + 1)) NumSyntax.Checked) :
    SucceedsOn (roffEvalpar env v sub true pos unit skipspace)
      (operandSyntax env v subS pos unit skipspace) NumSyntax.Checked := by
  intro q
  unfold roffEvalpar operandSyntax
  -- An operand in parentheses.
  by_cases hpar : charAt v pos = '('
  · rw [if_neg (not_not.mpr hpar), if_neg (not_not.mpr hpar)]
    have h := hsub hpar
    constructor
    · rintro ⟨n, hn, hok, hpos⟩
      obtain ⟨m, hm, hif⟩ := Res.bind_eq_ok.mp hn
      cases hmok : m.ok with
      | false =>
        rw [if_pos hmok] at hif
        cases hif
        exact absurd (hok.symm.trans hmok) (by simp)
      | true =>
        rw [if_neg (by simp [hmok])] at hif
        obtain ⟨t, ht, hchecked⟩ := (h m.pos).mp ⟨m, hm, hmok, rfl⟩
        by_cases hclose : charAt v m.pos = ')'
        · rw [if_pos hclose] at hif
          cases hif
          refine ⟨.paren t true, ?_, ⟨hchecked.1, rfl⟩, hchecked.2⟩
          rw [ht, ← hpos]
          simp [hclose]
        · -- Without a closing parenthesis, validation fails.
          rw [if_neg hclose] at hif
          cases hif
          exact absurd hok (by simp)
    · -- In the syntax, the closing parenthesis is a part of a valid operand.
      rintro ⟨t, ht, hchecked⟩
      obtain ⟨e, he, het⟩ := Option.map_eq_some_iff.mp ht
      by_cases hclose : charAt v e.2 = ')'
      · rw [if_pos hclose, Prod.mk.injEq] at het
        obtain ⟨rfl, rfl⟩ := het
        obtain ⟨n, hn, hok, hpos⟩ := (h e.2).mpr ⟨e.1, he, hchecked.1.1, hchecked.2⟩
        rw [hn, Res.ok_bind, if_neg (by simp [hok]), hpos, if_pos hclose]
        exact ⟨_, rfl, hok, rfl⟩
      · rw [if_neg hclose, Prod.mk.injEq] at het
        obtain ⟨rfl, rfl⟩ := het
        exact absurd hchecked.1.2 (by simp)
  · -- An operand that is a number needs no validation.
    rw [if_pos hpar, if_pos hpar]
    dsimp only
    cases hok : (roffGetnum env v pos unit skipspace).ok with
    | true =>
      rw [if_pos rfl]
      constructor
      · rintro ⟨n, hn, -, hpos⟩
        cases hn
        exact ⟨.num _ _, by rw [hpos], ⟨trivial, id⟩⟩
      · rintro ⟨t, ht, -⟩
        exact ⟨_, rfl, hok, (Prod.mk.inj (Option.some.inj ht)).2⟩
    | false =>
      rw [if_neg (by simp)]
      refine iff_of_false ?_ (by rintro ⟨t, ht, -⟩; cases ht)
      rintro ⟨n, hn, hnok, -⟩
      cases hn
      exact absurd (hok.symm.trans hnok) (by simp)

/-- What is not valid does not become valid when more is read. -/
theorem restSyntax_checked {steps : Nat} {l t : NumSyntax} {pos q : Nat} {unit : Char}
    {skipspace : Bool} (h : restSyntax env v steps l pos unit skipspace = some (t, q))
    (ht : t.Checked) : l.Checked := by
  induction steps generalizing l pos with
  | zero =>
    rw [restSyntax] at h
    cases h
    exact ht
  | succ steps ih =>
    rw [restSyntax] at h
    cases hgetop : roffGetop v (skipSpace v skipspace pos) with
    | none =>
      rw [hgetop] at h
      cases h
      exact ht
    | some res =>
      rw [hgetop] at h
      obtain ⟨r, -, hr⟩ := Option.bind_eq_some_iff.mp h
      have hbin := ih hr
      exact ⟨hbin.1, fun hov => hbin.2 (Or.inl hov)⟩

/-- Operands on the right are evaluated. -/
theorem operand_evaluates (conv : NumConv) {steps pos : Nat} (unit : Char) (skipspace : Bool)
    (hsteps : 2 * (v.length - pos) ≤ steps) :
    SucceedsOn
      (roffEvalpar conv.env v (fun p => evalnum conv.env v false steps p unit true) false pos unit
        skipspace)
      (operandSyntax conv.env v (fun p => exprSyntax conv.env v steps p unit true) pos unit
        skipspace)
      fun t => ¬ t.toExpr.Overflow := by
  apply Agrees.succeedsOn (e := readOperand conv.env v
    (fun p => readExpr conv.env v steps p unit true) pos unit skipspace)
  · apply operand_agrees
    intro hpar
    have hlt : pos < v.length := lt_length_of_charAt_ne_nul (by rw [hpar]; decide)
    exact (eval_agrees conv.env (fun n i f u => conv.isInt _) steps).1 (pos + 1) unit true
      (by omega)
  · exact operandSyntax_denotes conv.env v
      (fun p => (syntax_denotes conv.env v steps).1 p unit true) pos unit skipspace

/-- An operand is not empty. -/
theorem operandSyntax_progress (env : Env X) {steps pos q : Nat} {unit : Char} {skipspace : Bool}
    {t : NumSyntax}
    (h : operandSyntax env v (fun p => exprSyntax env v steps p unit true) pos unit skipspace =
      some (t, q)) : pos < q ∧ pos < v.length := by
  have hden := operandSyntax_denotes env v
    (fun p => (syntax_denotes env v steps).1 p unit true) pos unit skipspace
  rw [h] at hden
  have hread : readOperand env v (fun p => readExpr env v steps p unit true) pos unit skipspace =
      (t.toExpr, q) := hden
  have hcomplete : (readOperand env v (fun p => readExpr env v steps p unit true) pos unit
      skipspace).1.complete := by
    rw [hread]
    exact t.complete_toExpr
  have hprog := readOperand_progress env (fun p => (read_progress env steps).1 p unit true) hcomplete
  rwa [hread] at hprog

/-- Validation mode succeeds on the expressions where everything it checks is as it should be.
    By induction on the bound, which decreases with every call and every iteration. -/
theorem eval_validates (conv : NumConv) (steps : Nat) :
    (∀ pos unit skipspace, 2 * (v.length - pos) + 2 ≤ steps →
      SucceedsOn (evalnum conv.env v true steps pos unit skipspace)
        (exprSyntax conv.env v steps pos unit skipspace) NumSyntax.Checked) ∧
    ∀ (l : NumSyntax) (n : Num) unit skipspace, 2 * (v.length - n.pos) + 1 ≤ steps →
      l.Checked → n.ok = true →
      SucceedsOn (evalRest conv.env v true steps n unit skipspace)
        (restSyntax conv.env v steps l n.pos unit skipspace) NumSyntax.Checked := by
  -- By induction on the number of steps, for an expression and for the rest of one at once.
  induction steps with
  | zero => exact ⟨fun _ _ _ h => absurd h (by omega), fun _ _ _ _ h => absurd h (by omega)⟩
  | succ steps ih =>
    obtain ⟨ihExpr, ihRest⟩ := ih
    constructor
    · intro pos unit skipspace hsteps q
      -- The operand at the beginning: only one in parentheses is an expression with fewer steps.
      have hskip := le_skipSpace (v := v) skipspace pos
      have hop : SucceedsOn
          (roffEvalpar conv.env v (fun p => evalnum conv.env v true steps p unit true) true
            (skipSpace v skipspace pos) unit skipspace)
          (operandSyntax conv.env v (fun p => exprSyntax conv.env v steps p unit true)
            (skipSpace v skipspace pos) unit skipspace) NumSyntax.Checked := by
        apply operand_validates
        intro hpar
        have hlt : skipSpace v skipspace pos < v.length :=
          lt_length_of_charAt_ne_nul (by rw [hpar]; decide)
        exact ihExpr _ unit true (by omega)
      rw [evalnum, exprSyntax]
      constructor
      · -- What the code accepts is in the syntax.
        rintro ⟨n, hn, hok, hpos⟩
        obtain ⟨m, hm, hif⟩ := Res.bind_eq_ok.mp hn
        cases hmok : m.ok with
        | false =>
          rw [if_pos hmok] at hif
          cases hif
          exact absurd (hok.symm.trans hmok) (by simp)
        | true =>
          rw [if_neg (by simp [hmok])] at hif
          obtain ⟨l, hl, hchecked⟩ := (hop m.pos).mp ⟨m, hm, hmok, rfl⟩
          have hlt := operandSyntax_progress conv.env hl
          rw [hl]
          exact (ihRest l m unit skipspace (by omega) hchecked hmok q).mp ⟨n, hif, hok, hpos⟩
      · -- What is in the syntax is accepted by the code.
        rintro ⟨t, ht, hchecked⟩
        obtain ⟨l, hl, hrest⟩ := Option.bind_eq_some_iff.mp ht
        have hlt := operandSyntax_progress conv.env hl
        have hlchecked := restSyntax_checked hrest hchecked
        obtain ⟨m, hm, hmok, hmpos⟩ := (hop l.2).mpr ⟨l.1, hl, hlchecked⟩
        rw [← hmpos] at hrest
        obtain ⟨n, hn, hok, hpos⟩ := (ihRest l.1 m unit skipspace (by omega) hlchecked hmok q).mpr
          ⟨t, hrest, hchecked⟩
        rw [hm, Res.ok_bind, if_neg (by simp [hmok])]
        exact ⟨n, hn, hok, hpos⟩
    · intro l n unit skipspace hsteps hl hnok q
      have hskip := le_skipSpace (v := v) skipspace n.pos
      rw [evalRest, restSyntax]
      cases hgetop : roffGetop v (skipSpace v skipspace n.pos) with
      -- Without an operator, the number read so far is the result.
      | none =>
        constructor
        · rintro ⟨m, hm, -, hpos⟩
          cases hm
          exact ⟨l, by rw [← hpos], hl⟩
        · rintro ⟨t, ht, -⟩
          exact ⟨_, rfl, hnok, (Prod.mk.inj (Option.some.inj ht)).2⟩
      | some res =>
        obtain ⟨operator, pos⟩ := res
        -- With an operator, the right operand is read, and the loop goes on behind it.
        obtain ⟨hpos, hlt⟩ := roffGetop_progress hgetop
        have hskip' := le_skipSpace (v := v) skipspace pos
        have hbound : 2 * (v.length - skipSpace v skipspace pos) ≤ steps := by omega
        have hop := operand_evaluates conv unit skipspace hbound
        dsimp only
        constructor
        · rintro ⟨m, hm, hok, hq⟩
          obtain ⟨k, hk, hif⟩ := Res.bind_eq_ok.mp hm
          cases hkok : k.ok with
          | false =>
            rw [if_pos hkok] at hif
            cases hif
            exact absurd (hok.symm.trans hkok) (by simp)
          | true =>
            rw [if_neg (by simp [hkok]), if_pos rfl] at hif
            -- The value is not computed, and the operand on the right is not validated.
            obtain ⟨r, hr, hrov⟩ := (hop k.pos).mp ⟨k, hk, hkok, rfl⟩
            have hltk := operandSyntax_progress conv.env hr
            have hskip'' := le_skipSpace (v := v) skipspace k.pos
            rw [hr]
            exact (ihRest (.bin operator l r) ⟨true, skipSpace v skipspace k.pos, n.val⟩ unit
              skipspace (by dsimp only; omega) ⟨hl.1, not_or.mpr ⟨hl.2, hrov⟩⟩ rfl q).mp
              ⟨m, hif, hok, hq⟩
        · rintro ⟨t, ht, hchecked⟩
          obtain ⟨r, hr, hrest⟩ := Option.bind_eq_some_iff.mp ht
          have hbin := restSyntax_checked hrest hchecked
          have hltr := operandSyntax_progress conv.env hr
          obtain ⟨k, hk, hkok, hkpos⟩ := (hop r.2).mpr ⟨r.1, hr, fun h => hbin.2 (Or.inr h)⟩
          have hskip'' := le_skipSpace (v := v) skipspace k.pos
          rw [← hkpos] at hrest
          rw [hk, Res.ok_bind, if_neg (by simp [hkok]), if_pos rfl]
          exact (ihRest (.bin operator l r.1) ⟨true, skipSpace v skipspace k.pos, n.val⟩ unit
              skipspace (by dsimp only; omega) hbin rfl q).mpr ⟨t, hrest, hchecked⟩

/-- Validation mode. -/
theorem roffEvalnum_validates (conv : NumConv) (pos : Nat) (unit : Char) (skipspace : Bool) :
    SucceedsOn (roffEvalnum conv.env v true pos unit skipspace)
      (numSyntax conv.env v pos unit skipspace) NumSyntax.Checked :=
  (eval_validates conv (2 * v.length + 2)).1 pos unit skipspace (by omega)

/-- Evaluation mode. -/
theorem roffEvalnum_evaluates (conv : NumConv) (pos : Nat) (unit : Char) (skipspace : Bool) :
    SucceedsOn (roffEvalnum conv.env v false pos unit skipspace)
      (numSyntax conv.env v pos unit skipspace) fun t => ¬ t.toExpr.Overflow :=
  Agrees.succeedsOn
    ((eval_agrees conv.env (fun n i f u => conv.isInt _) (2 * v.length + 2)).1 pos unit skipspace
      (by omega))
    ((syntax_denotes conv.env v (2 * v.length + 2)).1 pos unit skipspace)

/-! ## §4 Matching parentheses -/

/-- The number of opening parentheses that still wait for a closing one after a text, if `d` of
    them do before it. -/
def openParens : Nat → CStr → Nat
  | d, [] => d
  | d, c :: s => openParens (if c = '(' then d + 1 else if c = ')' then d - 1 else d) s

theorem openParens_append (d : Nat) (s t : CStr) :
    openParens d (s ++ t) = openParens (openParens d s) t := by
  induction s generalizing d with
  | nil => rfl
  | cons c s ih => exact ih _

/-- A text without parentheses leaves everything open. -/
theorem openParens_of_notMem {s : CStr} (hs : ∀ c ∈ s, c ≠ '(' ∧ c ≠ ')') (d : Nat) :
    openParens d s = d := by
  induction s with
  | nil => rfl
  | cons c s ih =>
    obtain ⟨hopen, hclose⟩ := hs c (List.mem_cons_self ..)
    rw [openParens, if_neg hopen, if_neg hclose]
    exact ih fun b hb => hs b (List.mem_cons_of_mem _ hb)

omit v in
variable (v) in
/-- The text from one index to another one leaves `u` more parentheses open. -/
structure Spans (i j u : Nat) : Prop where
  le : i ≤ j
  open_eq : ∀ d, openParens d (slice v i j) = d + u

theorem Spans.trans {i j k u w : Nat} (h : Spans v i j u) (h' : Spans v j k w) :
    Spans v i k (u + w) :=
  ⟨h.le.trans h'.le, fun d => by
    rw [slice_append v h.le h'.le, openParens_append, h.open_eq, h'.open_eq, Nat.add_assoc]⟩

theorem Spans.of_plain {i j : Nat} (hle : i ≤ j)
    (h : ∀ k, i ≤ k → k < j → charAt v k ≠ '(' ∧ charAt v k ≠ ')') : Spans v i j 0 :=
  ⟨hle, openParens_of_notMem fun c hc => by
    obtain ⟨k, hik, hkj, rfl⟩ := exists_of_mem_slice hc
    exact h k hik hkj⟩

/-- A parenthesized expression with its closing parenthesis. -/
theorem Spans.closed {pos q u : Nat} (hopen : charAt v pos = '(') (h : Spans v (pos + 1) q u)
    (hclose : charAt v q = ')') : Spans v pos (q + 1) u := by
  have hpos : pos < v.length := lt_length_of_charAt_ne_nul (by rw [hopen]; decide)
  have hq : q < v.length := lt_length_of_charAt_ne_nul (by rw [hclose]; decide)
  refine ⟨by have := h.le; omega, fun d => ?_⟩
  rw [slice_append v (Nat.le_succ pos) (by have := h.le; omega), slice_append v h.le (Nat.le_succ q),
    slice_succ hpos, slice_succ hq, openParens_append, openParens_append, hopen, hclose]
  have hstart : openParens d ['('] = d + 1 := rfl
  rw [hstart, h.open_eq]
  show d + 1 + u - 1 = d + u
  omega

/-- A parenthesized expression without a closing parenthesis. -/
theorem Spans.unclosed {pos q u : Nat} (hopen : charAt v pos = '(') (h : Spans v (pos + 1) q u) :
    Spans v pos q (u + 1) := by
  have hpos : pos < v.length := lt_length_of_charAt_ne_nul (by rw [hopen]; decide)
  refine ⟨by have := h.le; omega, fun d => ?_⟩
  rw [slice_append v (Nat.le_succ pos) h.le, slice_succ hpos, openParens_append, hopen]
  have hstart : openParens d ['('] = d + 1 := rfl
  rw [hstart, h.open_eq]
  omega

/-- A byte that is not a parenthesis. -/
def NoParen (c : Char) : Prop := c ≠ '(' ∧ c ≠ ')'

/-- A byte that passes a test that the parentheses fail. -/
theorem noParen_of_test {p : Char → Bool} (hopen : p '(' = false) (hclose : p ')' = false)
    {c : Char} (hc : p c = true) : NoParen c := by
  constructor
  · rintro rfl
    rw [hopen] at hc
    exact absurd hc (by simp)
  · rintro rfl
    rw [hclose] at hc
    exact absurd hc (by simp)

/-- A text without parentheses at an index. -/
theorem Spans.of_text {i : Nat} {text : CStr} (hpre : text <+: v.drop i)
    (h : ∀ c ∈ text, NoParen c) : Spans v i (i + text.length) 0 := by
  refine ⟨Nat.le_add_right _ _, fun d => ?_⟩
  have hslice : slice v i (i + text.length) = text := by
    rw [slice, Nat.add_sub_cancel_left]
    exact (List.prefix_iff_eq_take.mp hpre).symm
  rw [hslice, openParens_of_notMem h, Nat.add_zero]

theorem Spans.empty (i : Nat) : Spans v i i 0 := Spans.of_text List.nil_prefix fun _ h => nomatch h

/-- Blanks. -/
theorem spans_skipSpace (skipspace : Bool) (pos : Nat) :
    Spans v pos (skipSpace v skipspace pos) 0 := by
  unfold skipSpace
  split
  · exact Spans.of_text (List.takeWhile_prefix isspace) fun c hc =>
      noParen_of_test (by decide) (by decide) (List.mem_takeWhile_imp hc)
  · exact Spans.empty _

/-- The text of a number consists of signs, blanks, digits, and decimal points. -/
theorem noParen_of_mem_numberText {skipspace : Bool} {s : CStr} {c : Char}
    (hc : c ∈ (numberText skipspace s).text) : NoParen c := by
  -- A number consists of a sign, blanks, digits, and a fraction.
  have hsign : ∀ {s : CStr}, c ∈ signText s → NoParen c := by
    intro s hc
    cases s with
    | nil => exact absurd hc (by simp [signText])
    | cons d s =>
      rw [signText] at hc
      split at hc
      · next hd =>
        rw [List.mem_singleton] at hc
        rw [hc]
        exact noParen_of_test (p := fun d => d = '-' ∨ d = '+') (by decide) (by decide)
          (by simpa using hd)
      · exact absurd hc (by simp)
  have hdigit : ∀ {s : CStr}, c ∈ s.takeWhile isdigit → NoParen c := fun hc =>
    noParen_of_test (by decide) (by decide) (List.mem_takeWhile_imp hc)
  have hblank : ∀ {s : CStr}, c ∈ (if skipspace then s.takeWhile isspace else []) → NoParen c := by
    intro s hc
    split at hc
    · exact noParen_of_test (by decide) (by decide) (List.mem_takeWhile_imp hc)
    · exact absurd hc (by simp)
  have hfraction : ∀ {s : CStr}, c ∈ fractionText s → NoParen c := by
    intro s hc
    cases s with
    | nil => exact absurd hc (by simp [fractionText])
    | cons d s =>
      rw [fractionText] at hc
      split at hc
      · cases List.mem_cons.mp hc with
        | inl heq => rw [heq]; exact ⟨by decide, by decide⟩
        | inr hmem => exact hdigit hmem
      · exact absurd hc (by simp)
  simp only [numberText, NumberText.text, List.mem_append] at hc
  obtain ((hc | hc) | hc) | hc := hc
  · exact hsign hc
  · exact hblank hc
  · exact hdigit hc
  · exact hfraction hc

/-- A number. -/
theorem spans_roffGetnum (env : Env X) {pos : Nat} {unit : Char} {skipspace : Bool}
    (h : (roffGetnum env v pos unit skipspace).ok) :
    Spans v pos (roffGetnum env v pos unit skipspace).pos 0 := by
  obtain ⟨val, heq⟩ := roffGetnum_eq env v pos unit skipspace
  rw [heq] at h ⊢
  split at h
  · exact absurd h (by simp)
  · next hbare =>
    rw [if_neg hbare]
    have htext := Spans.of_text (numberText_isPrefix skipspace (v.drop pos)) fun c hc =>
      noParen_of_mem_numberText hc
    refine htext.trans (w := 0) ?_
    dsimp only
    generalize pos + (numberText skipspace (v.drop pos)).text.length = fp
    unfold scaledEnd
    split
    · next hunit =>
      refine Spans.of_plain (Nat.le_succ fp) fun k hk hlt => ?_
      rw [Nat.le_antisymm (Nat.le_of_lt_succ hlt) hk]
      exact noParen_of_test (p := "ficvPmnpuM".toList.contains) (by decide) (by decide) hunit
    · exact Spans.empty _

/-- An operator consists of one or two bytes, none of which is a parenthesis. -/
theorem roffGetop_noParen {pos pos' : Nat} {operator : Char}
    (h : roffGetop v pos = some (operator, pos')) :
    NoParen (charAt v pos) ∧ (pos' = pos + 1 ∨ pos' = pos + 2 ∧ NoParen (charAt v (pos + 1))) := by
  have hne : ∀ {i : Nat} {c : Char}, NoParen c → charAt v i = c → NoParen (charAt v i) := by
    rintro i c hc rfl
    exact hc
  unfold roffGetop at h
  dsimp only at h
  split_ifs at h with h1 h2 h3 h4 h5 h6 h7 h8 h9 h10 <;> cases h
  · exact ⟨noParen_of_test (p := "+-*/%&:".toList.contains) (by decide) (by decide) h1, .inl rfl⟩
  · exact ⟨hne ⟨by decide, by decide⟩ h2, .inr ⟨rfl, hne ⟨by decide, by decide⟩ h3⟩⟩
  · exact ⟨hne ⟨by decide, by decide⟩ h2, .inr ⟨rfl, hne ⟨by decide, by decide⟩ h4⟩⟩
  · exact ⟨hne ⟨by decide, by decide⟩ h2, .inr ⟨rfl, hne ⟨by decide, by decide⟩ h5⟩⟩
  · exact ⟨hne ⟨by decide, by decide⟩ h2, .inl rfl⟩
  · exact ⟨hne ⟨by decide, by decide⟩ h6, .inr ⟨rfl, hne ⟨by decide, by decide⟩ h7⟩⟩
  · exact ⟨hne ⟨by decide, by decide⟩ h6, .inr ⟨rfl, hne ⟨by decide, by decide⟩ h8⟩⟩
  · exact ⟨hne ⟨by decide, by decide⟩ h6, .inl rfl⟩
  · exact ⟨hne ⟨by decide, by decide⟩ h9, .inr ⟨rfl, hne ⟨by decide, by decide⟩ h10⟩⟩
  · exact ⟨hne ⟨by decide, by decide⟩ h9, .inl rfl⟩

/-- An operator. -/
theorem spans_roffGetop {pos pos' : Nat} {operator : Char}
    (h : roffGetop v pos = some (operator, pos')) : Spans v pos pos' 0 := by
  obtain ⟨hfirst, hend⟩ := roffGetop_noParen h
  refine Spans.of_plain (roffGetop_progress h).1.le fun k hk hlt => ?_
  cases hk.eq_or_lt with
  | inl heq => exact heq ▸ hfirst
  | inr hgt =>
    cases hend with
    | inl hone => omega
    | inr htwo =>
      have heq : k = pos + 1 := by omega
      exact heq ▸ htwo.2

/-- The parentheses that are open after an operand are those that the syntax tree shows. -/
theorem operandSyntax_spans (env : Env X) {sub : Nat → Option (NumSyntax × Nat)} {pos q : Nat}
    {unit : Char} {skipspace : Bool} {t : NumSyntax}
    (hsub : ∀ p e r, sub p = some (e, r) → Spans v p r e.unclosed)
    (h : operandSyntax env v sub pos unit skipspace = some (t, q)) :
    Spans v pos q t.unclosed := by
  unfold operandSyntax at h
  by_cases hpar : charAt v pos = '('
  · rw [if_neg (not_not.mpr hpar)] at h
    obtain ⟨e, he, het⟩ := Option.map_eq_some_iff.mp h
    have hspan := hsub (pos + 1) e.1 e.2 he
    by_cases hclose : charAt v e.2 = ')'
    · rw [if_pos hclose] at het
      cases het
      exact hspan.closed hpar hclose
    · rw [if_neg hclose] at het
      cases het
      exact hspan.unclosed hpar
  · rw [if_pos hpar] at h
    dsimp only at h
    split at h
    · next hok =>
      cases h
      exact spans_roffGetnum env hok
    · cases h

/-- The parentheses that are open after an expression are those that the syntax tree shows. -/
theorem syntax_spans (env : Env X) (steps : Nat) :
    (∀ pos unit skipspace t q, exprSyntax env v steps pos unit skipspace = some (t, q) →
      Spans v pos q t.unclosed) ∧
    ∀ l pos unit skipspace t q, restSyntax env v steps l pos unit skipspace = some (t, q) →
      ∃ u, t.unclosed = l.unclosed + u ∧ Spans v pos q u := by
  -- By induction on the number of steps, for both functions at once.
  induction steps with
  | zero =>
    constructor
    · intro pos unit skipspace t q h
      rw [exprSyntax] at h
      cases h
    · intro l pos unit skipspace t q h
      rw [restSyntax] at h
      cases h
      exact ⟨0, rfl, Spans.empty _⟩
  | succ steps ih =>
    have hop : ∀ {pos unit skipspace t q}, operandSyntax env v
        (fun p => exprSyntax env v steps p unit true) pos unit skipspace = some (t, q) →
          Spans v pos q t.unclosed := fun h =>
      operandSyntax_spans env (fun p e r => ih.1 p _ true e r) h
    constructor
    · intro pos unit skipspace t q h
      rw [exprSyntax] at h
      obtain ⟨l, hl, hrest⟩ := Option.bind_eq_some_iff.mp h
      obtain ⟨u, hu, hspan⟩ := ih.2 _ _ _ _ _ _ hrest
      have hall := ((spans_skipSpace skipspace pos).trans (hop hl)).trans hspan
      rwa [Nat.zero_add, ← hu] at hall
    · intro l pos unit skipspace t q h
      rw [restSyntax] at h
      have hblanks := spans_skipSpace (v := v) skipspace pos
      -- Without an operator, the expression ends here.
      cases hgetop : roffGetop v (skipSpace v skipspace pos) with
      | none =>
        rw [hgetop] at h
        cases h
        exact ⟨0, rfl, hblanks⟩
      | some res =>
        obtain ⟨operator, pos'⟩ := res
        rw [hgetop] at h
        obtain ⟨r, hr, hrest⟩ := Option.bind_eq_some_iff.mp h
        obtain ⟨u, hu, hspan⟩ := ih.2 _ _ _ _ _ _ hrest
        -- The unclosed parentheses of the right operand add up.
        refine ⟨r.1.unclosed + u, ?_, ?_⟩
        · rw [hu, NumSyntax.unclosed, Nat.add_assoc]
        · have hop' := ((hblanks.trans (spans_roffGetop hgetop)).trans
            (spans_skipSpace skipspace pos')).trans (hop hr)
          have hall := (hop'.trans (spans_skipSpace skipspace r.2)).trans hspan
          simpa only [Nat.zero_add, Nat.add_zero] using hall

/-! ## §5 What validation decides -/

/-- If validation mode accepts the whole string, all parentheses in it match and every operator
    has an operand on its right, and whenever validation mode succeeds, evaluation mode succeeds
    with the same end. -/
def ValidatesGrammar (env : Env X) (v : CStr) (pos : Nat) (unit : Char) (skipspace : Bool) : Prop :=
  ∀ n, roffEvalnum env v true pos unit skipspace = .ok n → n.ok = true →
    (n.pos = v.length → openParens 0 (v.drop pos) = 0 ∧
      ∀ t p, numSyntax env v pos unit skipspace = some (t, p) → t.HasOperands) ∧
    ∃ m, roffEvalnum env v false pos unit skipspace = .ok m ∧ m.ok = true ∧ m.pos = n.pos

/-- The expressions that validation mode accepts although something is wrong with them:
    everything that it checks is as it should be, but the evaluation divides -2147483648 by -1, or
    nothing follows the expression and an operand on the right of an operator contains an open
    parenthesis or lacks digits. -/
def IsGap (v : CStr) (t : NumSyntax) (q : Nat) : Prop :=
  t.Checked ∧ (t.toExpr.Overflow ∨ q = v.length ∧ ¬ (t.unclosed = 0 ∧ t.HasOperands))

/-- **Validation.** Validation mode decides the grammar for exactly the strings that do not
    contain one of the expressions in the gap. -/
theorem roffEvalnum_validates_iff (conv : NumConv) (v : CStr) (pos : Nat) (unit : Char)
    (skipspace : Bool) :
    ValidatesGrammar conv.env v pos unit skipspace ↔
      ∀ t q, numSyntax conv.env v pos unit skipspace = some (t, q) → ¬ IsGap v t q := by
  have hvalid := roffEvalnum_validates (v := v) conv pos unit skipspace
  have heval := roffEvalnum_evaluates (v := v) conv pos unit skipspace
  -- At the end of the string, the syntax tree shows which parentheses are open.
  have hopen : ∀ t q, numSyntax conv.env v pos unit skipspace = some (t, q) → q = v.length →
      openParens 0 (v.drop pos) = t.unclosed := by
    intro t q ht hq
    have hspan := (syntax_spans conv.env _).1 _ _ _ _ _ ht
    have hslice : slice v pos q = v.drop pos := by
      rw [slice, List.take_of_length_le]
      rw [List.length_drop, hq]
    rw [← hslice, hspan.open_eq, Nat.zero_add]
  constructor
  · rintro h t q ht ⟨hchecked, hgap⟩
    obtain ⟨n, hn, hok, hpos⟩ := (hvalid q).mpr ⟨t, ht, hchecked⟩
    obtain ⟨hend, m, hm, hmok, hmpos⟩ := h n hn hok
    obtain ⟨t', ht', hov⟩ := (heval n.pos).mp ⟨m, hm, hmok, hmpos⟩
    rw [hpos] at ht' hend
    cases ht.symm.trans ht'
    cases hgap with
    | inl hoverflow => exact hov hoverflow
    | inr hrest =>
      obtain ⟨hparens, hoperands⟩ := hend hrest.1
      exact hrest.2 ⟨by rw [← hopen t q ht hrest.1, hparens], hoperands t q ht⟩
  · intro h n hn hok
    obtain ⟨t, ht, hchecked⟩ := (hvalid n.pos).mp ⟨n, hn, hok, rfl⟩
    have hno := not_or.mp fun hgap => h t n.pos ht ⟨hchecked, hgap⟩
    refine ⟨fun hend => ?_, ?_⟩
    · have hgood := not_not.mp fun hbad => hno.2 ⟨hend, hbad⟩
      refine ⟨by rw [hopen t n.pos ht hend, hgood.1], fun t' p ht' => ?_⟩
      cases ht.symm.trans ht'
      exact hgood.2
    · exact (heval n.pos).mpr ⟨t, ht, hno.1⟩

end

/-- A missing closing parenthesis in an operand on the right of an operator goes unnoticed. -/
theorem roffEvalnum_validates_open : ¬ ∀ (conv : NumConv) (v : CStr) (pos : Nat) (unit : Char)
    (skipspace : Bool), ValidatesGrammar conv.env v pos unit skipspace := by
  intro h
  have hend := (h .saturate "1+(2".toList 0 'u' false ⟨true, 4, 1⟩ (by decide +kernel) rfl).1 rfl
  exact absurd hend.1 (by decide +kernel)

end Mandoc
