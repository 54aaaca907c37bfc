import Mathlib.Data.List.Nodup
import Mathlib.Logic.Function.Basic

/-!
# Names with Ordinal Numbers

A supply of names counts, for each base name, how many names were handed out. A fresh name
takes the next ordinal number of its base, and a repeated name takes the current one. If the
names with different bases or with different ordinals differ, then all fresh names of a run
differ.
-/

universe u v

namespace FreshNames

variable {β : Type u} {ν : Type v} [DecidableEq β]

/-! ## §1 Requests and runs -/

/-- A request for a name with a given base: either for a fresh name, or once more for the
    current one. -/
structure Request (β : Type u) where
  base : β
  fresh : Bool

/-- The ordinal number of the name handed out, where the ordinals handed out before are those
    up to the number in `c`. -/
def ordinal (c : β → Nat) (r : Request β) : Nat :=
  if r.fresh then c r.base + 1 else max (c r.base) 1

/-- The ordinals handed out after a request. -/
def next (c : β → Nat) (r : Request β) : β → Nat := Function.update c r.base (ordinal c r)

/-- The fresh names handed out by a run. -/
def freshNames (name : β → Nat → ν) : (β → Nat) → List (Request β) → List ν
  | _, [] => []
  | c, r :: rs =>
    if r.fresh then name r.base (ordinal c r) :: freshNames name (next c r) rs
    else freshNames name (next c r) rs

/-! ## §2 Fresh names differ -/

omit [DecidableEq β] in
/-- Ordinals start with one. -/
theorem ordinal_pos (c : β → Nat) (r : Request β) : 1 ≤ ordinal c r := by
  unfold ordinal
  split
  · exact Nat.le_add_left _ _
  · exact Nat.le_max_right _ _

/-- No request takes back a name. -/
theorem le_next (c : β → Nat) (r : Request β) (b : β) : c b ≤ next c r b := by
  by_cases hb : b = r.base
  · subst hb
    rw [next, Function.update_self, ordinal]
    split
    · exact Nat.le_succ _
    · exact Nat.le_max_left _ _
  · have hother : next c r b = c b := by rw [next, Function.update_of_ne hb]
    exact Nat.le_of_eq hother.symm

/-- At most one name is handed out. -/
theorem next_le (c : β → Nat) (r : Request β) (b : β) : next c r b ≤ c b + 1 := by
  by_cases hb : b = r.base
  · subst hb
    rw [next, Function.update_self, ordinal]
    split
    · exact Nat.le_refl _
    · exact Nat.max_le.mpr ⟨Nat.le_succ _, Nat.le_add_left _ _⟩
  · rw [next, Function.update_of_ne hb]
    exact Nat.le_succ _

/-- The ordinals of fresh names are larger than those handed out before. -/
theorem exists_of_mem_freshNames {name : β → Nat → ν} {c : β → Nat} {rs : List (Request β)} {x : ν}
    (hx : x ∈ freshNames name c rs) : ∃ b k, x = name b k ∧ c b < k := by
  induction rs generalizing c with
  | nil => exact absurd hx (by simp [freshNames])
  | cons r rs ih =>
    have hrest : x ∈ freshNames name (next c r) rs → ∃ b k, x = name b k ∧ c b < k := by
      intro hmem
      obtain ⟨b, k, hbk, hlt⟩ := ih hmem
      exact ⟨b, k, hbk, Nat.lt_of_le_of_lt (le_next c r b) hlt⟩
    rw [freshNames] at hx
    split at hx
    · next hfresh =>
      cases List.mem_cons.mp hx with
      | inl heq => exact ⟨r.base, _, heq, by rw [ordinal, if_pos hfresh]; exact Nat.lt_succ_self _⟩
      | inr hmem => exact hrest hmem
    · exact hrest hx

/-- If names with different bases or ordinals differ, all fresh names of a run differ. -/
theorem freshNames_nodup {name : β → Nat → ν}
    (hname : ∀ b k b' k', 1 ≤ k → 1 ≤ k' → name b k = name b' k' → b = b' ∧ k = k')
    (c : β → Nat) (rs : List (Request β)) : (freshNames name c rs).Nodup := by
  induction rs generalizing c with
  | nil => exact List.nodup_nil
  | cons r rs ih =>
    rw [freshNames]
    split
    · refine List.nodup_cons.mpr ⟨fun hmem => ?_, ih _⟩
      -- A later name with the same base has a larger ordinal.
      obtain ⟨b, k, hbk, hlt⟩ := exists_of_mem_freshNames hmem
      obtain ⟨rfl, rfl⟩ := hname _ _ _ _ (ordinal_pos c r) (Nat.zero_lt_of_lt hlt) hbk
      rw [next, Function.update_self] at hlt
      exact Nat.lt_irrefl _ hlt
    · exact ih _

/-- A name that is requested again right away is the same. -/
theorem ordinal_again (c : β → Nat) (b : β) :
    ordinal (next c ⟨b, true⟩) ⟨b, false⟩ = ordinal c ⟨b, true⟩ := by
  have hself : next c ⟨b, true⟩ b = c b + 1 := Function.update_self ..
  simp [ordinal, hself]

end FreshNames
