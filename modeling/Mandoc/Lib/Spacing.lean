import Mathlib.Data.List.Basic

/-!
# Texts with Variable Spacing

A text is a sequence of symbols and of marks where blanks may be inserted. A rendering of the
text consists of its symbols in the same order, with any number of blanks, possibly none, in
place of each mark. Renderings are composed from renderings of the parts, and a rendering
tells nothing about the text apart from its blanks, and adds nothing to it.
-/

universe u

namespace Spacing

variable {α : Type u}

/-! ## §1 Texts and renderings -/

/-- A symbol, or a place where blanks may be inserted. -/
inductive Mark (α : Type u) where
  | sym (a : α)
  | sep

/-- The symbols of a text. -/
def syms : List (Mark α) → List α
  | [] => []
  | .sym a :: ms => a :: syms ms
  | .sep :: ms => syms ms

theorem syms_append (ms ms' : List (Mark α)) : syms (ms ++ ms') = syms ms ++ syms ms' := by
  induction ms with
  | nil => rfl
  | cons m ms ih =>
    cases m with
    | sym a => exact congrArg (a :: ·) ih
    | sep => exact ih

theorem syms_map_sym (s : List α) : syms (s.map .sym) = s := by
  induction s with
  | nil => rfl
  | cons a s ih => exact congrArg (a :: ·) ih

/-- The sequence of symbols is a rendering of the text. -/
inductive Renders (blank : α → Bool) : List (Mark α) → List α → Prop where
  | nil : Renders blank [] []
  | sym (a : α) {ms : List (Mark α)} {s : List α} :
      Renders blank ms s → Renders blank (.sym a :: ms) (a :: s)
  | sep (w : List α) {ms : List (Mark α)} {s : List α} :
      (∀ a ∈ w, blank a) → Renders blank ms s → Renders blank (.sep :: ms) (w ++ s)

variable {blank : α → Bool} {ms ms' : List (Mark α)} {s s' w : List α}

/-! ## §2 Composition -/

/-- Renderings of the parts make up a rendering of the whole text. -/
theorem Renders.append (h : Renders blank ms s) (h' : Renders blank ms' s') :
    Renders blank (ms ++ ms') (s ++ s') := by
  induction h with
  | nil => exact h'
  | sym a _ ih => exact .sym a ih
  | sep w hw _ ih =>
    rw [List.append_assoc]
    exact .sep w hw ih

/-- At the end of the text, blanks may be inserted later on. -/
def Open (blank : α → Bool) (ms : List (Mark α)) (s : List α) : Prop :=
  ∀ w : List α, (∀ a ∈ w, blank a) → Renders blank ms (s ++ w)

/-- At a mark, blanks may be inserted later on. -/
theorem Renders.opened (h : Renders blank ms s) : Open blank (ms ++ [.sep]) s := fun w hw => by
  have hsep : Renders blank [.sep] w := by
    have := Renders.sep w hw .nil
    rwa [List.append_nil] at this
  exact h.append hsep

/-- Blanks need not be inserted at a further mark. -/
theorem Open.sep (h : Open blank ms s) : Open blank (ms ++ [.sep]) s := fun w hw => by
  have hsep : Renders blank [.sep] [] := Renders.sep [] (by simp) .nil
  have := (h w hw).append hsep
  rwa [List.append_nil] at this

/-- Inserting the blanks, and more text after them. -/
theorem Open.append (h : Open blank ms s) (hw : ∀ a ∈ w, blank a) (h' : Renders blank ms' s') :
    Renders blank (ms ++ ms') (s ++ (w ++ s')) := by
  rw [← List.append_assoc]
  exact (h w hw).append h'

/-! ## §3 What a rendering preserves -/

/-- The symbols that are not blanks. -/
def visible (blank : α → Bool) (s : List α) : List α := s.filter fun a => !blank a

theorem visible_append (s s' : List α) :
    visible blank (s ++ s') = visible blank s ++ visible blank s' :=
  List.filter_append ..

/-- Apart from blanks, nothing is lost, duplicated, or reordered. -/
theorem Renders.visible_eq (h : Renders blank ms s) : visible blank s = visible blank (syms ms) := by
  induction h with
  | nil => rfl
  | sym a _ ih =>
    rw [syms, visible, visible, List.filter_cons, List.filter_cons]
    split
    · exact congrArg (a :: ·) ih
    · exact ih
  | sep w hw _ ih =>
    have hnone : visible blank w = [] :=
      List.filter_eq_nil_iff.mpr fun a ha => by simp [hw a ha]
    rw [visible_append, hnone, List.nil_append]
    exact ih

/-- A rendering of two parts consists of renderings of the parts. -/
theorem Renders.split (h : Renders blank (ms ++ ms') s) :
    ∃ s₁ s₂, s = s₁ ++ s₂ ∧ Renders blank ms s₁ ∧ Renders blank ms' s₂ := by
  induction ms generalizing s with
  | nil => exact ⟨[], s, rfl, .nil, h⟩
  | cons m ms ih =>
    cases h with
    | sym a h =>
      obtain ⟨s₁, s₂, rfl, h₁, h₂⟩ := ih h
      exact ⟨a :: s₁, s₂, rfl, .sym a h₁, h₂⟩
    | sep w hw h =>
      obtain ⟨s₁, s₂, rfl, h₁, h₂⟩ := ih h
      exact ⟨w ++ s₁, s₂, by rw [List.append_assoc], .sep w hw h₁, h₂⟩

/-- Symbols without a mark between them stay next to each other. -/
theorem Renders.adjacent {a b : α} (h : Renders blank (ms ++ .sym a :: .sym b :: ms') s) :
    ∃ s₁ s₂, s = s₁ ++ a :: b :: s₂ ∧ Renders blank ms s₁ ∧ Renders blank ms' s₂ := by
  obtain ⟨s₁, s₂, rfl, h₁, h₂⟩ := h.split
  cases h₂ with
  | sym _ h₂ =>
    cases h₂ with
    | sym _ h₂ => exact ⟨s₁, _, rfl, h₁, h₂⟩

end Spacing
