import Mandoc.Roff.Tables
import Mandoc.Roff.Requests

/-!
# The Tables of Strings

`roff_setstrn()` and the requests changing the case of strings are the only functions that
change the tables of user-defined and of renamed strings and macros. In the tables that they
build, no name occurs twice, so a table is a partial function from names to values, and
`roff_setstrn()` is an update of that function.
-/

namespace Mandoc

/-! ## §1 Looking up after a change -/

/-- The tables of strings that the program can build. -/
inductive StrTable : List Kv → Prop where
  | nil : StrTable []
  | set {tab : List Kv} (name : CStr) (string : Option CStr) (append : Nat) (h : StrTable tab) :
      StrTable (roffSetstrn tab name string append)
  | mapValue {tab : List Kv} (f : Char → Char) (name : CStr) (h : StrTable tab) :
      StrTable (mapValue f name tab)

variable {tab : List Kv} {name key : CStr} {string : Option CStr} {append : Nat}

theorem change_keys :
    (roffSetstrn.change tab name string append).map (·.key) = tab.map (·.key) := by
  induction tab with
  | nil => rfl
  | cons n tab ih =>
    rw [roffSetstrn.change]
    split
    · rfl
    · simp [ih]

theorem mapValue_keys (f : Char → Char) : (mapValue f name tab).map (·.key) = tab.map (·.key) := by
  induction tab with
  | nil => rfl
  | cons n tab ih =>
    rw [mapValue]
    split
    · rfl
    · simp [ih]

/-- No name occurs twice. -/
theorem StrTable.nodup (h : StrTable tab) : (tab.map (·.key)).Nodup := by
  induction h with
  | nil => exact .nil
  | @set tab name string append _ ih =>
    unfold roffSetstrn
    split
    · rw [change_keys]
      exact ih
    -- A new entry is only made for a new name.
    · next hnew =>
      refine List.nodup_cons.mpr ⟨fun hm => hnew ?_, ih⟩
      obtain ⟨n, hn, hkey⟩ := List.mem_map.mp hm
      exact List.any_eq_true.mpr ⟨n, hn, by simpa using hkey⟩
  | mapValue f name _ ih =>
    rw [mapValue_keys]
    exact ih

theorem lookup_cons {n : Kv} :
    lookup (n :: tab) name = if n.key = name ∧ n.val.isSome then n.val else lookup tab name := by
  by_cases h : n.key = name ∧ n.val.isSome
  · rw [if_pos h, lookup, List.find?_cons_of_pos (by simpa using h)]
  · rw [if_neg h, lookup, List.find?_cons_of_neg (by simpa using h)]
    rfl

theorem lookup_of_notMem (h : name ∉ tab.map (·.key)) : lookup tab name = none := by
  induction tab with
  | nil => rfl
  | cons n tab ih =>
    simp only [List.map_cons, List.mem_cons, not_or] at h
    rw [lookup_cons, if_neg fun hn => h.1 hn.1.symm, ih h.2]

/-- The other names keep their values. -/
theorem lookup_setstrn_of_ne (hne : key ≠ name) :
    lookup (roffSetstrn tab name string append) key = lookup tab key := by
  have hchange : lookup (roffSetstrn.change tab name string append) key = lookup tab key := by
    induction tab with
    | nil => rfl
    | cons n tab ih =>
      rw [roffSetstrn.change]
      split
      · next hn => rw [lookup_cons, lookup_cons, if_neg fun h => hne (h.1.symm.trans hn),
          if_neg fun h => hne (h.1.symm.trans hn)]
      · rw [lookup_cons, lookup_cons, ih]
  unfold roffSetstrn
  split
  · exact hchange
  · rw [lookup_cons, if_neg fun h => hne h.1.symm]

/-- The value of the name changes as requested. -/
theorem lookup_setstrn_self (h : StrTable tab) :
    lookup (roffSetstrn tab name string append) name =
      setVal string append (lookup tab name) := by
  have hnodup := h.nodup
  have hchange : name ∈ tab.map (·.key) →
      lookup (roffSetstrn.change tab name string append) name =
        setVal string append (lookup tab name) := by
    clear h
    induction tab with
    | nil => simp
    | cons n tab ih =>
      intro hm
      rw [List.map_cons, List.nodup_cons] at hnodup
      rw [roffSetstrn.change]
      by_cases hn : n.key = name
      -- The rest of the table does not contain the name.
      · have hnone : lookup tab name = none := lookup_of_notMem fun hm' => hnodup.1 (hn ▸ hm')
        have hval : ∀ v : Option CStr, lookup (⟨n.key, v⟩ :: tab) name = v := by
          intro v
          rw [lookup_cons, hnone]
          cases v <;> simp [hn]
        rw [if_pos hn, hval, show lookup (n :: tab) name = n.val from hval n.val]
      · rw [if_neg hn, lookup_cons, lookup_cons, if_neg fun hk => hn hk.1,
          if_neg fun hk => hn hk.1]
        refine ih hnodup.2 ?_
        simpa [Ne.symm hn] using hm
  unfold roffSetstrn
  split
  · next hany =>
    obtain ⟨n, hn, hkey⟩ := List.any_eq_true.mp hany
    exact hchange (List.mem_map.mpr ⟨n, hn, by simpa using hkey⟩)
  · next hany =>
    have hnone : lookup tab name = none := by
      refine lookup_of_notMem fun hm => hany ?_
      obtain ⟨n, hn, hkey⟩ := List.mem_map.mp hm
      exact List.any_eq_true.mpr ⟨n, hn, by simpa using hkey⟩
    rw [lookup_cons, hnone]
    cases setVal string append none <;> simp

/-! ## §2 Copy mode -/

/-- Copy mode only acts on backslashes. -/
theorem copyMode_append {s : CStr} (hs : '\\' ∉ s) (t : CStr) :
    copyMode (s ++ t) = s ++ copyMode t := by
  induction s with
  | nil => rfl
  | cons c s ih =>
    have hc : c ≠ '\\' := fun h => hs (h ▸ List.mem_cons_self)
    have hrest := ih fun h => hs (List.mem_cons_of_mem _ h)
    rw [List.cons_append, List.cons_append, ← hrest]
    cases s ++ t with
    | nil => rfl
    | cons d u => rw [copyMode, if_neg fun h => hc h.1]

/-- Copy mode changes a string exactly if it contains two consecutive backslashes. -/
theorem copyMode_eq_self_iff {s : CStr} : copyMode s = s ↔ ¬ ['\\', '\\'] <:+: s := by
  -- Copy mode never makes a string longer, so a pair that is shortened is never restored.
  have hlen : ∀ s : CStr, (copyMode s).length ≤ s.length := by
    intro s
    induction s using copyMode.induct with
    | case1 => exact Nat.le_refl _
    | case2 c => exact Nat.le_refl _
    | case3 c d s h ih =>
      rw [copyMode, if_pos h, List.length_cons, List.length_cons, List.length_cons]
      omega
    | case4 c d s h ih =>
      rw [copyMode, if_neg h, List.length_cons, List.length_cons]
      exact Nat.succ_le_succ ih
  induction s using copyMode.induct with
  | case1 => exact iff_of_true rfl (by simp)
  | case2 c => exact iff_of_true rfl fun h => absurd h.length_le (by simp)
  | case3 c d s h ih =>
    obtain ⟨rfl, rfl⟩ := h
    refine iff_of_false (fun he => ?_) (not_not.mpr ⟨[], s, rfl⟩)
    have hle := hlen s
    have hl := congrArg List.length he
    rw [copyMode, if_pos ⟨rfl, rfl⟩, List.length_cons, List.length_cons, List.length_cons] at hl
    omega
  | case4 c d s h ih =>
    rw [copyMode, if_neg h, List.infix_cons_iff, not_or]
    have hpre : ¬ ['\\', '\\'] <+: c :: d :: s := by
      rintro ⟨t, ht⟩
      simp only [List.cons_append, List.cons.injEq] at ht
      exact h ⟨ht.1.symm, ht.2.1.symm⟩
    have ih' : copyMode (d :: s) = d :: s ↔ ¬ ['\\', '\\'] <:+: d :: s := ih
    rw [List.cons_eq_cons, ih']
    simp [hpre]

end Mandoc
