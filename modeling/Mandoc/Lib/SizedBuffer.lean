import Mathlib.Data.List.Basic

/-!
# Buffers of a Known Size

A block of memory that a program has allocated and fills from the start.  The elements that have
been written never exceed the size; a write that has no room left fails.

- `put_eq_some_iff` and `puts_eq_some_iff` say when a write succeeds and what it leaves behind.
- `realloc` changes the size, `cut` gives up elements at the end.
-/

/-- A block of memory, and the elements written to its start. -/
structure SizedBuffer (α : Type*) where
  /-- The number of elements that have been allocated. -/
  size : ℕ
  /-- The elements written so far. -/
  written : List α
  /-- Nothing has been written beyond the end. -/
  fits : written.length ≤ size

namespace SizedBuffer

variable {α : Type*}

/-- Two buffers with the same size and the same contents are equal. -/
@[ext] theorem ext_written {b b' : SizedBuffer α} (hsize : b.size = b'.size)
    (hwritten : b.written = b'.written) : b = b' := by
  cases b
  cases b'
  cases hsize
  cases hwritten
  rfl

/-! ## §1 Operations -/

/-- A new block. -/
def alloc (size : ℕ) : SizedBuffer α := ⟨size, [], Nat.zero_le _⟩

/-- Write one element behind the others. -/
def put (b : SizedBuffer α) (a : α) : Option (SizedBuffer α) :=
  if h : b.written.length < b.size then
    some ⟨b.size, b.written ++ [a], by rw [List.length_append]; exact h⟩
  else none

/-- Write several elements, one after the other. -/
def puts (b : SizedBuffer α) : List α → Option (SizedBuffer α)
  | [] => some b
  | a :: as => (b.put a).bind fun b => b.puts as

/-- Reallocation: elements for which there is no room are lost. -/
def realloc (b : SizedBuffer α) (size : ℕ) : SizedBuffer α :=
  ⟨size, b.written.take size, List.length_take_le ..⟩

/-- Go back to the first elements. -/
def cut (b : SizedBuffer α) (n : ℕ) : SizedBuffer α :=
  ⟨b.size, b.written.take n, Nat.le_trans (List.length_take_le' n b.written) b.fits⟩

@[simp] theorem alloc_size (size : ℕ) : (alloc size : SizedBuffer α).size = size := rfl

@[simp] theorem alloc_written (size : ℕ) : (alloc size : SizedBuffer α).written = [] := rfl

@[simp] theorem realloc_size (b : SizedBuffer α) (size : ℕ) : (b.realloc size).size = size := rfl

/-- A larger block contains what has been written. -/
theorem realloc_written {b : SizedBuffer α} {size : ℕ} (h : b.size ≤ size) :
    (b.realloc size).written = b.written :=
  List.take_of_length_le (Nat.le_trans b.fits h)

@[simp] theorem cut_size (b : SizedBuffer α) (n : ℕ) : (b.cut n).size = b.size := rfl

@[simp] theorem cut_written (b : SizedBuffer α) (n : ℕ) :
    (b.cut n).written = b.written.take n := rfl

/-! ## §2 When there is room -/

/-- A write of one element. -/
theorem put_eq_some_iff {b b' : SizedBuffer α} {a : α} :
    b.put a = some b' ↔ b'.size = b.size ∧ b'.written = b.written ++ [a] := by
  unfold put
  constructor
  · intro h
    split at h
    · cases h
      exact ⟨rfl, rfl⟩
    · cases h
  · rintro ⟨hsize, hwritten⟩
    have hfits := b'.fits
    rw [hsize, hwritten, List.length_append] at hfits
    have hroom : b.written.length < b.size := hfits
    rw [dif_pos hroom]
    exact congrArg some (ext_written hsize.symm hwritten.symm)

/-- A write of several elements. -/
theorem puts_eq_some_iff {b b' : SizedBuffer α} {as : List α} :
    b.puts as = some b' ↔ b'.size = b.size ∧ b'.written = b.written ++ as := by
  induction as generalizing b with
  | nil =>
    rw [puts, List.append_nil, Option.some.injEq]
    exact ⟨fun h => h ▸ ⟨rfl, rfl⟩, fun h => (ext_written h.1 h.2).symm⟩
  | cons a as ih =>
    rw [puts, Option.bind_eq_some_iff]
    constructor
    · rintro ⟨b₁, hput, hputs⟩
      obtain ⟨hsize, hwritten⟩ := put_eq_some_iff.mp hput
      obtain ⟨hsize', hwritten'⟩ := ih.mp hputs
      refine ⟨hsize'.trans hsize, ?_⟩
      rw [hwritten', hwritten, List.append_assoc, List.singleton_append]
    · rintro ⟨hsize, hwritten⟩
      have hfits := b'.fits
      rw [hwritten, hsize, List.length_append, List.length_cons] at hfits
      have hroom : (b.written ++ [a]).length ≤ b.size := by
        rw [List.length_append, List.length_singleton]
        exact Nat.le_trans (Nat.add_le_add_left (Nat.le_add_left 1 _) _) hfits
      refine ⟨⟨b.size, b.written ++ [a], hroom⟩, put_eq_some_iff.mpr ⟨rfl, rfl⟩, ?_⟩
      refine ih.mpr ⟨hsize, ?_⟩
      rw [hwritten, List.append_assoc, List.singleton_append]

/-- A write that fits succeeds. -/
theorem exists_puts {b : SizedBuffer α} {as : List α}
    (h : b.written.length + as.length ≤ b.size) :
    ∃ b', b.puts as = some b' ∧ b'.size = b.size ∧ b'.written = b.written ++ as := by
  have hfits : (b.written ++ as).length ≤ b.size := by rwa [List.length_append]
  exact ⟨⟨b.size, b.written ++ as, hfits⟩, puts_eq_some_iff.mpr ⟨rfl, rfl⟩, rfl, rfl⟩

/-- A write of one element that fits succeeds. -/
theorem exists_put {b : SizedBuffer α} {a : α} (h : b.written.length < b.size) :
    ∃ b', b.put a = some b' ∧ b'.size = b.size ∧ b'.written = b.written ++ [a] := by
  have hfits : (b.written ++ [a]).length ≤ b.size := by rwa [List.length_append]
  have hput : b.put a = some ⟨b.size, b.written ++ [a], hfits⟩ :=
    put_eq_some_iff.mpr ⟨rfl, rfl⟩
  exact ⟨_, hput, rfl, rfl⟩

end SizedBuffer
