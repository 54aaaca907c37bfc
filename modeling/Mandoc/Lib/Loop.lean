import Mandoc.Lib.Ensures
import Mathlib.Logic.Relation
import Mathlib.Data.Nat.Basic

/-!
# Loops with Early Exit

A loop is given by the effect of one iteration on the loop state. An iteration asks for
another one, delivers the result of the loop, or fails.

- `Loop.run` executes a bounded number of iterations. When the bound is too small, the
  loop fails with a designated error.
- `Loop.Reaches` relates a loop state to the states at the beginning of later iterations.
- The invariant rule derives properties of the whole loop from properties of one iteration.
-/

namespace Loop

universe u v w

/-! ## §1 Iterations and runs -/

/-- What an iteration delivers, unless it fails. -/
inductive Next (σ : Type u) (α : Type v) where
  /-- Another iteration follows. -/
  | again (s : σ)
  /-- The loop ends. -/
  | done (a : α)

section

variable {σ : Type u} {α : Type v} {ε : Type w}
variable (step : σ → Except ε (Next σ α)) (limit : ε)

/-- Execute at most the given number of iterations. -/
def run : Nat → σ → Except ε α
  | 0, _ => .error limit
  | n + 1, s =>
    match step s with
    | .error e => .error e
    | .ok (.done a) => .ok a
    | .ok (.again s) => run n s

/-- Another iteration follows, and it starts in the second state. -/
def Continues (s t : σ) : Prop := step s = .ok (.again t)

/-- The second state is the one at the beginning of this or of a later iteration. -/
abbrev Reaches : σ → σ → Prop := Relation.ReflTransGen (Continues step)

variable {step limit}

/-- A loop that ends does so in an iteration that it reaches. -/
theorem run_eq_ok {n : Nat} {s : σ} {a : α} (h : run step limit n s = .ok a) :
    ∃ t, Reaches step s t ∧ step t = .ok (.done a) := by
  induction n generalizing s with
  | zero => simp [run] at h
  | succ n ih =>
    unfold run at h
    split at h
    · cases h
    · rename_i b hs
      cases h
      exact ⟨s, .refl, hs⟩
    · rename_i t hs
      obtain ⟨u, hu, ha⟩ := ih h
      exact ⟨u, .head hs hu, ha⟩

/-- A loop whose last iteration has been reached ends for every large enough bound. -/
theorem run_of_reaches {s t : σ} {a : α} (h : Reaches step s t)
    (ht : step t = .ok (.done a)) : ∃ k, ∀ n, k ≤ n → run step limit n s = .ok a := by
  induction h using Relation.ReflTransGen.head_induction_on with
  | refl =>
    refine ⟨1, fun n hn => ?_⟩
    obtain ⟨m, rfl⟩ := Nat.exists_eq_add_of_le' hn
    simp [run, ht]
  | head hs _ ih =>
    obtain ⟨k, hk⟩ := ih
    refine ⟨k + 1, fun n hn => ?_⟩
    obtain ⟨m, rfl⟩ := Nat.exists_eq_add_of_le' hn
    rw [← Nat.add_assoc]
    simp only [run, show step _ = _ from hs]
    exact hk _ (Nat.le_add_left k m)

/-- In a loop that ends, every iteration that is reached is one of a loop that ends. -/
theorem run_of_run_reaches {n : Nat} {s t : σ} {a : α} (h : run step limit n s = .ok a)
    (ht : Reaches step s t) : ∃ m, run step limit m t = .ok a := by
  induction ht with
  | refl => exact ⟨n, h⟩
  | tail _ hst ih =>
    obtain ⟨m, hm⟩ := ih
    cases m with
    | zero => cases hm
    | succ m => exact ⟨m, by simpa only [run, show step _ = _ from hst] using hm⟩

/-- In a loop that ends, the first iteration does not fail. -/
theorem step_of_run {n : Nat} {s : σ} {a : α} (h : run step limit n s = .ok a) :
    ∃ next, step s = .ok next := by
  cases n with
  | zero => cases h
  | succ n =>
    cases hs : step s with
    | error e => simp [run, hs] at h
    | ok next => exact ⟨next, rfl⟩

/-! ## §2 Rules -/

/-- The invariant holds if another iteration follows, and the postcondition if not. -/
def Next.Sat (I : σ → Prop) (Q : α → Prop) : Next σ α → Prop
  | .again s => I s
  | .done a => Q a

/-- A property that every iteration preserves holds at the beginning of every iteration. -/
theorem Reaches.invariant {I : σ → Prop} {Q : α → Prop}
    (hstep : ∀ s, I s → Ensures (step s) (Next.Sat I Q)) {s t : σ} (h : Reaches step s t)
    (hs : I s) : I t := by
  induction h with
  | refl => exact hs
  | tail _ hst ih => exact (hstep _ ih).of_eq_ok hst

/-- **Invariant rule.** What the last iteration establishes from the invariant holds of
    the result of the loop. -/
theorem run_invariant {I : σ → Prop} {Q : α → Prop}
    (hstep : ∀ s, I s → Ensures (step s) (Next.Sat I Q)) {n : Nat} {s : σ} (hs : I s) :
    Ensures (run step limit n s) Q := by
  apply Ensures.of_imp
  intro a h
  obtain ⟨t, hst, ht⟩ := run_eq_ok h
  exact (hstep t (Reaches.invariant hstep hst hs)).of_eq_ok ht

end

/-- A bounded loop as a sequence of the first iteration and of the others. -/
theorem run_succ {σ α : Type u} {ε : Type w} (step : σ → Except ε (Next σ α)) (limit : ε) (n : Nat)
    (s : σ) :
    run step limit (n + 1) s = (step s >>= fun
      | .done a => .ok a
      | .again s => run step limit n s) := by
  rw [run]
  cases step s with
  | error e => rfl
  | ok next => cases next <;> rfl

end Loop
