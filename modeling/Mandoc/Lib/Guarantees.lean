import Mandoc.Lib.Loop
import Mathlib.Order.WellFounded

/-!
# Computations that Fail in Known Ways Only

`Guarantees allowed x Q` says that the computation `x` delivers a result that satisfies
`Q`, or fails with an error that is allowed. When no error is allowed this is total
correctness, and when all errors are allowed it is partial correctness.

The rules follow the syntax of the computation. For loops there is a rule that combines an
invariant with a variant.
-/

universe u v w

/-- The result satisfies the postcondition, or the error is one of those allowed. -/
def Guarantees {ε : Type u} {α : Type v} (allowed : ε → Prop) (x : Except ε α)
    (Q : α → Prop) : Prop :=
  (∀ a, x = .ok a → Q a) ∧ ∀ e, x = .error e → allowed e

namespace Guarantees

section

variable {ε : Type u} {α β : Type v} {allowed : ε → Prop} {P Q : α → Prop}

@[simp] theorem ok_iff {a : α} : Guarantees allowed (.ok a) Q ↔ Q a := by
  simp [Guarantees]

@[simp] theorem pure_iff {a : α} : Guarantees allowed (pure a : Except ε α) Q ↔ Q a := ok_iff

@[simp] theorem error_iff {e : ε} :
    Guarantees allowed (.error e : Except ε α) Q ↔ allowed e := by
  simp [Guarantees]

/-- A computation that is known to succeed. -/
theorem of_eq {x : Except ε α} {a : α} (h : x = .ok a) (ha : Q a) : Guarantees allowed x Q := by
  rw [h]
  exact ok_iff.mpr ha

/-- The rule of consequence. -/
theorem mono {x : Except ε α} (h : Guarantees allowed x P) (hPQ : ∀ a, P a → Q a) :
    Guarantees allowed x Q :=
  ⟨fun a ha => hPQ a (h.1 a ha), h.2⟩

/-- The result may be remembered to be the result of the computation. -/
theorem with_eq {x : Except ε α} (h : Guarantees allowed x Q) :
    Guarantees allowed x fun a => x = .ok a ∧ Q a :=
  ⟨fun a ha => ⟨ha, h.1 a ha⟩, h.2⟩

/-- More errors may be allowed. -/
theorem weaken {allowed' : ε → Prop} {x : Except ε α} (h : Guarantees allowed x Q)
    (hle : ∀ e, allowed e → allowed' e) : Guarantees allowed' x Q :=
  ⟨h.1, fun e he => hle e (h.2 e he)⟩

/-- Sequential composition. -/
theorem bind {x : Except ε α} {f : α → Except ε β} {Q : β → Prop}
    (hx : Guarantees allowed x P) (hf : ∀ a, P a → Guarantees allowed (f a) Q) :
    Guarantees allowed (x >>= f) Q := by
  cases x with
  | error e => exact error_iff.mpr (hx.2 e rfl)
  | ok a => exact hf a (hx.1 a rfl)

/-- Sequential composition, exactly: the second computation is only executed if the first one
    delivers a result. -/
theorem bind_iff {x : Except ε α} {f : α → Except ε β} {Q : β → Prop} :
    Guarantees allowed (x >>= f) Q ↔ Guarantees allowed x fun a => Guarantees allowed (f a) Q := by
  cases x with
  | error e => exact error_iff.trans error_iff.symm
  | ok a =>
    rw [ok_iff]
    exact Iff.rfl

/-- Sequential composition after a computation that is known to succeed. -/
theorem bind_of_eq {x : Except ε α} {f : α → Except ε β} {Q : β → Prop} {a : α}
    (h : x = .ok a) (hf : Guarantees allowed (f a) Q) : Guarantees allowed (x >>= f) Q := by
  rw [h]
  exact hf

/-- The rule for a conditional. -/
theorem ite {c : Prop} [Decidable c] {x y : Except ε α} (hx : c → Guarantees allowed x Q)
    (hy : ¬ c → Guarantees allowed y Q) : Guarantees allowed (if c then x else y) Q := by
  split
  · rename_i h
    exact hx h
  · rename_i h
    exact hy h

/-- The computation succeeds, or fails with an error that is allowed. -/
theorem cases {x : Except ε α} (h : Guarantees allowed x Q) :
    (∃ a, x = .ok a ∧ Q a) ∨ ∃ e, x = .error e ∧ allowed e := by
  cases x with
  | error e => exact .inr ⟨e, rfl, h.2 e rfl⟩
  | ok a => exact .inl ⟨a, rfl, h.1 a rfl⟩

end

end Guarantees

namespace Loop

variable {σ : Type u} {α : Type v} {ε : Type w}
variable {step : σ → Except ε (Next σ α)} {limit : ε}

/-- A bound that is large enough may be replaced by a larger one. -/
theorem run_stable {n k : Nat} {s : σ} (hn : run step limit n s ≠ .error limit) (hk : n ≤ k) :
    run step limit k s = run step limit n s := by
  induction n generalizing k s with
  | zero => exact absurd rfl hn
  | succ n ih =>
    obtain ⟨k, rfl⟩ := Nat.exists_eq_add_of_le' (Nat.le_trans (Nat.le_add_left 1 n) hk)
    cases hs : step s with
    | error e => simp [run, hs]
    | ok x =>
      cases x with
      | done a => simp [run, hs]
      | again t =>
        simp only [run, hs] at hn ⊢
        exact ih hn (Nat.le_of_succ_le_succ hk)

/-- **Total correctness rule.** Every iteration preserves the invariant and decreases a
    measure, unless it is the last one. Then for every large enough bound, the loop ends
    with a result that satisfies the postcondition, or with an error that is allowed. -/
theorem run_guarantees {β : Type*} {r : β → β → Prop} (hr : WellFounded r) (m : σ → β)
    {I : σ → Prop} {Q : α → Prop} {allowed : ε → Prop} (hlimit : ¬ allowed limit)
    (hstep : ∀ s, I s → Guarantees allowed (step s) (Next.Sat (fun t => I t ∧ r (m t) (m s)) Q))
    {s : σ} (hs : I s) : ∃ n, ∀ k, n ≤ k → Guarantees allowed (run step limit k s) Q := by
  have hsome : ∃ n, Guarantees allowed (run step limit n s) Q := by
    induction hb : m s using hr.induction generalizing s with
    | _ b ih =>
      rcases (hstep s hs).cases with ⟨x, hx, hsat⟩ | ⟨e, he, hallowed⟩
      · cases x with
        | done a => exact ⟨1, by simpa [run, hx, Next.Sat] using hsat⟩
        | again t =>
          obtain ⟨ht, hlt⟩ := hsat
          obtain ⟨n, hn⟩ := ih (m t) (hb ▸ hlt) ht rfl
          exact ⟨n + 1, by simpa [run, hx] using hn⟩
      · exact ⟨1, by simpa [run, he] using hallowed⟩
  obtain ⟨n, hn⟩ := hsome
  refine ⟨n, fun k hk => ?_⟩
  rw [run_stable (fun he => hlimit (hn.2 limit he)) hk]
  exact hn

end Loop
