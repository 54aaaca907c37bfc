import Mathlib.Data.List.Basic

/-!
# Edits of Lists

A list is edited by inserting, deleting, or replacing one element, or by exchanging two adjacent
ones. `Edits n s t` says that `n` edits turn `s` into `t`, so `n` is an upper bound for the
distance of the two lists with transpositions.
-/

namespace Mandoc

variable {α : Type} {s t u : List α} {m n : Nat}

/-- One edit, at any place of the list. -/
inductive Edit : List α → List α → Prop where
  | insert (l r : List α) (a : α) : Edit (l ++ r) (l ++ a :: r)
  | delete (l r : List α) (a : α) : Edit (l ++ a :: r) (l ++ r)
  | replace (l r : List α) (a b : α) : Edit (l ++ a :: r) (l ++ b :: r)
  | transpose (l r : List α) (a b : α) : Edit (l ++ a :: b :: r) (l ++ b :: a :: r)

/-- A sequence of edits. -/
inductive Edits : Nat → List α → List α → Prop where
  | refl (s : List α) : Edits 0 s s
  | step {s t u : List α} {n : Nat} : Edit s t → Edits n t u → Edits (n + 1) s u

/-- An edit is not affected by what is in front of the list. -/
theorem Edit.cons (a : α) (h : Edit s t) : Edit (a :: s) (a :: t) := by
  cases h with
  | insert l r b => exact .insert (a :: l) r b
  | delete l r b => exact .delete (a :: l) r b
  | replace l r b c => exact .replace (a :: l) r b c
  | transpose l r b c => exact .transpose (a :: l) r b c

namespace Edits

theorem cons (a : α) (h : Edits n s t) : Edits n (a :: s) (a :: t) := by
  induction h with
  | refl s => exact .refl (a :: s)
  | step hstep _ ih => exact .step (hstep.cons a) ih

/-- Without any edits, the lists are the same. -/
theorem eq_of_zero (h : Edits 0 s t) : s = t := by
  cases h
  rfl

theorem insert (a : α) (h : Edits n s t) : Edits (n + 1) s (a :: t) :=
  .step (.insert [] s a) (h.cons a)

theorem delete (a : α) (h : Edits n s t) : Edits (n + 1) (a :: s) t :=
  .step (.delete [] s a) h

theorem replace (a b : α) (h : Edits n s t) : Edits (n + 1) (a :: s) (b :: t) :=
  .step (.replace [] s a b) (h.cons b)

theorem transpose (a b : α) (h : Edits n s t) : Edits (n + 1) (a :: b :: s) (b :: a :: t) :=
  .step (.transpose [] s a b) ((h.cons a).cons b)

/-- Delete the whole list. -/
theorem to_nil (s : List α) : Edits s.length s [] := by
  induction s with
  | nil => exact .refl []
  | cons a s ih => exact ih.delete a

/-- Insert a whole list. -/
theorem of_nil (t : List α) : Edits t.length [] t := by
  induction t with
  | nil => exact .refl []
  | cons a t ih => exact ih.insert a

end Edits

end Mandoc
