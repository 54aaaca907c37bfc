import Mathlib.Logic.Basic

/-!
# Partial Correctness of Computations that May Fail

`Ensures x Q` says that the result of the computation `x` satisfies `Q`, unless `x` fails.
The rules follow the syntax of the computation, so that a specification of a function in
`do` notation is derived by rewriting with the `simp` lemmas, and by citing the
specifications of the functions it calls.
-/

universe u v w

variable {ε : Type u} {α : Type v} {β : Type v}

/-- If the computation succeeds, its result satisfies the postcondition. -/
def Ensures {ε : Type u} {α : Type w} (x : Except ε α) (Q : α → Prop) : Prop :=
  ∀ a, x = .ok a → Q a

namespace Ensures

@[simp] theorem ok_iff {a : α} {Q : α → Prop} : Ensures (.ok a : Except ε α) Q ↔ Q a := by
  simp [Ensures]

@[simp] theorem pure_iff {a : α} {Q : α → Prop} : Ensures (pure a : Except ε α) Q ↔ Q a :=
  ok_iff

@[simp] theorem error_iff {e : ε} {Q : α → Prop} :
    Ensures (.error e : Except ε α) Q ↔ True := by
  simp [Ensures]

/-- The postcondition of the first computation is the precondition of the second one. -/
@[simp] theorem bind_iff {x : Except ε α} {f : α → Except ε β} {Q : β → Prop} :
    Ensures (x >>= f) Q ↔ Ensures x fun a => Ensures (f a) Q := by
  cases x with
  | error e => simp [Ensures, bind, Except.bind]
  | ok a => simp [Ensures, bind, Except.bind]

@[simp] theorem ite_iff {c : Prop} [Decidable c] {x y : Except ε α} {Q : α → Prop} :
    Ensures (if c then x else y) Q ↔ (c → Ensures x Q) ∧ (¬ c → Ensures y Q) := by
  split <;> simp_all

@[simp] theorem trivial_iff {x : Except ε α} : Ensures x (fun _ => True) ↔ True := by
  simp [Ensures]

theorem of_imp {x : Except ε α} {Q : α → Prop} (h : ∀ a, x = .ok a → Q a) : Ensures x Q :=
  h

/-- What a successful computation guarantees. -/
theorem of_eq_ok {x : Except ε α} {Q : α → Prop} (h : Ensures x Q) {a : α} (ha : x = .ok a) :
    Q a :=
  h a ha

/-- The rule of consequence. -/
theorem mono {x : Except ε α} {P Q : α → Prop} (h : Ensures x P) (hPQ : ∀ a, P a → Q a) :
    Ensures x Q :=
  fun a ha => hPQ a (h a ha)

/-- A postcondition that all values satisfy. -/
theorem of_forall {x : Except ε α} {Q : α → Prop} (h : ∀ a, Q a) : Ensures x Q :=
  fun a _ => h a

/-- The rule for a conditional. -/
theorem ite {c : Prop} [Decidable c] {x y : Except ε α} {Q : α → Prop} (hx : c → Ensures x Q)
    (hy : ¬ c → Ensures y Q) : Ensures (if c then x else y) Q :=
  ite_iff.mpr ⟨hx, hy⟩

/-- The rule for a call of a function of which nothing is known. -/
theorem call {x : Except ε α} {f : α → Except ε β} {Q : β → Prop}
    (hf : ∀ a, Ensures (f a) Q) : Ensures (x >>= f) Q :=
  bind_iff.mpr (of_forall hf)

/-- The rule for a call that remembers the call. -/
theorem call_eq {x : Except ε α} {f : α → Except ε β} {Q : β → Prop}
    (hf : ∀ a, x = .ok a → Ensures (f a) Q) : Ensures (x >>= f) Q :=
  bind_iff.mpr fun a ha => hf a ha

/-- Sequential composition: the rule for a call of a function with a specification. -/
theorem bind {x : Except ε α} {f : α → Except ε β} {P : α → Prop} {Q : β → Prop}
    (hx : Ensures x P) (hf : ∀ a, P a → Ensures (f a) Q) : Ensures (x >>= f) Q :=
  bind_iff.mpr (hx.mono hf)

end Ensures

attribute [irreducible] Ensures
