import Mathlib.Data.List.Induction
import Mathlib.Logic.Function.Basic

/-!
# Numbered Parts of an Output, and the Table of their Offsets

An output is written from the front to the back. From time to time, a part with a number begins,
and the current offset is stored in a table. `Points` says that the table is right: it is kept when
the last part grows, and when a part begins that has a new number.
-/

namespace NumberedParts

universe u v

variable {ι : Type u} {α : Type v}

/-- All the parts, one after the other. -/
def render (parts : List (ι × List α)) : List α := parts.flatMap Prod.snd

/-- The table has the offset of each part, if the first one begins at the offset `origin`. -/
def Points (origin : Nat) (parts : List (ι × List α)) (table : ι → Nat) : Prop :=
  ∀ before n text behind, parts = before ++ (n, text) :: behind →
    table n = origin + (render before).length

variable {origin : Nat} {parts : List (ι × List α)} {table table' : ι → Nat}

@[simp] theorem render_append (parts parts' : List (ι × List α)) :
    render (parts ++ parts') = render parts ++ render parts' := List.flatMap_append

@[simp] theorem render_singleton (n : ι) (text : List α) : render [(n, text)] = text :=
  List.flatMap_singleton _ _

/-- The last part is extended. -/
theorem render_extend (n : ι) (text more : List α) :
    render (parts ++ [(n, text ++ more)]) = render (parts ++ [(n, text)]) ++ more := by
  rw [render_append, render_append, render_singleton, render_singleton, List.append_assoc]

/-- The table of an empty output. -/
theorem Points.nil : Points origin ([] : List (ι × List α)) table := by
  intro before n text behind h
  exact absurd h.symm (List.append_ne_nil_of_right_ne_nil _ (List.cons_ne_nil _ _))

/-- A split of a list with one more element. -/
theorem split_snoc {a b : ι × List α} {before behind : List (ι × List α)}
    (h : parts ++ [a] = before ++ b :: behind) :
    (before = parts ∧ b = a ∧ behind = []) ∨
      ∃ behind', behind = behind' ++ [a] ∧ parts = before ++ b :: behind' := by
  cases behind using List.reverseRecOn with
  | nil =>
    obtain ⟨hparts, hlast⟩ := List.append_inj' h rfl
    exact Or.inl ⟨hparts.symm, (List.singleton_inj.mp hlast).symm, rfl⟩
  | append_singleton behind c _ =>
    have h' : parts ++ [a] = (before ++ b :: behind) ++ [c] := by
      rw [h, List.append_assoc, List.cons_append]
    obtain ⟨hparts, hlast⟩ := List.append_inj' h' rfl
    exact Or.inr ⟨behind, by rw [List.singleton_inj.mp hlast], hparts⟩

/-- A part with a new number begins at the end of the output. -/
theorem Points.snoc {n : ι} {text : List α} (h : Points origin parts table)
    (hnew : table' n = origin + (render parts).length)
    (hold : ∀ m ∈ parts.map Prod.fst, table' m = table m) :
    Points origin (parts ++ [(n, text)]) table' := by
  intro before m text' behind hsplit
  obtain ⟨rfl, heq, -⟩ | ⟨behind', -, hparts⟩ := split_snoc hsplit
  · obtain rfl : m = n := congrArg Prod.fst heq
    exact hnew
  · rw [hold m, h before m text' behind' hparts]
    rw [hparts]
    exact List.mem_map.mpr ⟨_, List.mem_append_right _ (List.mem_cons_self), rfl⟩

/-- Only the text of the last part is changed. -/
theorem Points.grow {n : ι} {text text' : List α} (h : Points origin (parts ++ [(n, text)]) table) :
    Points origin (parts ++ [(n, text')]) table := by
  intro before m s behind hsplit
  obtain ⟨rfl, heq, -⟩ | ⟨behind', -, hparts⟩ := split_snoc hsplit
  · obtain rfl : m = n := congrArg Prod.fst heq
    exact h before m text [] rfl
  · refine h before m s (behind' ++ [(n, text)]) ?_
    rw [hparts, List.append_assoc, List.cons_append]

/-- Each part begins where the table says. -/
theorem Points.starts {n : ι} {text head tail : List α} (h : Points head.length parts table)
    (hmem : (n, text) ∈ parts) : text <+: (head ++ render parts ++ tail).drop (table n) := by
  obtain ⟨before, behind, rfl⟩ := List.append_of_mem hmem
  rw [h before n text behind rfl]
  have hparts : head ++ render (before ++ (n, text) :: behind) ++ tail =
      (head ++ render before) ++ (text ++ (render behind ++ tail)) := by
    simp only [render, List.flatMap_append, List.flatMap_cons, List.append_assoc]
  rw [hparts, ← List.length_append, List.drop_left]
  exact List.prefix_append _ _

end NumberedParts
