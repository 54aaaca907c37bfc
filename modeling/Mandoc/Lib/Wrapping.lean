import Mathlib

/-!
# Machine Integers and Exact Integers

Arithmetic that converts between a signed and an unsigned type, written down once for integers,
with the two conversions as parameters. With the conversions of the machine, it is what a program
computes; with the identity, it is what the program is meant to compute.

- `toInt_eq_self_iff` and `toSize_eq_self_iff` say which integers survive a conversion.
- `toInt_toSize` and its variants remove conversions inside of other conversions.
-/

namespace Wrapping

/-! ## §1 Conversions -/

/-- Conversion to a signed type of 32 bits. -/
def toInt (x : ℤ) : ℤ := (x + 2 ^ 31) % 2 ^ 32 - 2 ^ 31

/-- Conversion to an unsigned type of 64 bits. -/
def toSize (x : ℤ) : ℤ := x % 2 ^ 64

/-- A choice of conversions. -/
structure Conv where
  /-- To the signed type. -/
  int : ℤ → ℤ
  /-- To the unsigned type. -/
  size : ℤ → ℤ

/-- The conversions of the machine. -/
def Conv.machine : Conv := ⟨toInt, toSize⟩

/-- No conversions at all. -/
def Conv.exact : Conv := ⟨id, id⟩

@[simp] theorem machine_int (x : ℤ) : Conv.machine.int x = toInt x := rfl

@[simp] theorem machine_size (x : ℤ) : Conv.machine.size x = toSize x := rfl

@[simp] theorem exact_int (x : ℤ) : Conv.exact.int x = x := rfl

@[simp] theorem exact_size (x : ℤ) : Conv.exact.size x = x := rfl

/-! ## §2 What survives -/

/-- The integers that fit into the signed type. -/
theorem toInt_eq_self_iff {x : ℤ} : toInt x = x ↔ -2 ^ 31 ≤ x ∧ x < 2 ^ 31 := by
  unfold toInt
  omega

/-- The integers that fit into the unsigned type. -/
theorem toSize_eq_self_iff {x : ℤ} : toSize x = x ↔ 0 ≤ x ∧ x < 2 ^ 64 := by
  unfold toSize
  omega

theorem toInt_of_fits {x : ℤ} (hlo : -2 ^ 31 ≤ x) (hhi : x < 2 ^ 31) : toInt x = x :=
  toInt_eq_self_iff.mpr ⟨hlo, hhi⟩

theorem toSize_of_fits {x : ℤ} (hlo : 0 ≤ x) (hhi : x < 2 ^ 64) : toSize x = x :=
  toSize_eq_self_iff.mpr ⟨hlo, hhi⟩

theorem toSize_nonneg (x : ℤ) : 0 ≤ toSize x :=
  Int.emod_nonneg x (by norm_num)

/-! ## §3 Conversions of sums -/

/-- An unsigned intermediate result does not matter for a signed one. -/
@[simp] theorem toInt_toSize (x : ℤ) : toInt (toSize x) = toInt x := by
  unfold toInt toSize
  omega

/-- A signed summand can be taken from before its conversion. -/
@[simp] theorem toInt_toInt_add (x y : ℤ) : toInt (toInt x + y) = toInt (x + y) := by
  unfold toInt
  omega

/-- Adding a wrong signed value gives a wrong unsigned sum, unless the value is wrong by a lot. -/
theorem toSize_add_toInt_ne {x off : ℤ} (hlo : 2 ^ 31 ≤ x) (hhi : x < 2 ^ 63) :
    toSize (off + toInt x) ≠ off + x := by
  unfold toSize toInt
  omega

end Wrapping
