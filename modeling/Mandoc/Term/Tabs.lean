import Mandoc.Term.Field

/-!
# Setting and Finding Tab Positions

The request `.ta` sets tab positions. The function `term_tab_set()` of `term_tab.c` records them
in one of two lists: the positions in the first list are used once, and those in the second list,
which follow the argument `T`, are repeated behind the last position for as long as needed. The
function `term_tab_next()` finds the first position beyond the current one.

- `termTabSet` is one call of `term_tab_set()`.
- `Tabs.IsPosition` says which positions the lists stand for.

Parsing and converting the argument requires floating point numbers. What `a2roffsu()` and
`term_hspan()` make of it is a parameter. The default tab width `tabs.d` is left out because
nothing depends on it.
-/

namespace Mandoc

/-! ## §1 Setting tabs -/

/-- `struct tablist`: one of the two lists. -/
inductive TabList where
  /-- All tab positions for lookup. -/
  | a
  /-- Periodic tab positions to add. -/
  | p
deriving DecidableEq, Repr

/-- The lists, and the one currently being recorded. -/
structure TabSettings where
  tabs : Tabs
  r : Option TabList
deriving DecidableEq, Repr

/-- The static variable before the first call. -/
def TabSettings.init : TabSettings := ⟨.none, none⟩

/-- The position that is added to a list. -/
def newTab (ts : List Nat) (add : Bool) (pos : Int) : Nat :=
  let pos := (pos % 2 ^ 64).toNat
  if add ∧ ts ≠ [] then (pos + ts.getLastD 0) % 2 ^ 64 else pos

/-- `term_tab_set()`. The parameter is the width in basic units that `a2roffsu()` and
    `term_hspan()` compute from a number. -/
def termTabSet (position : CStr → Option Int) (st : TabSettings) : Option CStr → Res TabSettings
  -- Special arguments: clear all tabs or switch lists.
  | none => .ok ⟨.none, some .a⟩
  | some arg =>
    if arg = ['T'] then .ok { st with r := some .p }
    else
      -- Parse the sign, the number, and the unit.
      let add := arg.head? = some '+'
      match position (if add then arg.tail else arg) with
      | none => .ok st
      | some pos =>
        -- Select the list and append the new position.
        match st.r with
        | none => .error .null
        | some .a => .ok { st with tabs := ⟨st.tabs.a ++ [newTab st.tabs.a add pos], st.tabs.p⟩ }
        | some .p => .ok { st with tabs := ⟨st.tabs.a, st.tabs.p ++ [newTab st.tabs.p add pos]⟩ }

/-! ## §2 The positions -/

/-- An explicit position, or a periodic one: the periodic positions are added to the last explicit
    position, and over and over again to the last position in the list. Positions are of the type
    `size_t`. -/
def Tabs.IsPosition (tabs : Tabs) (t : Nat) : Prop :=
  t ∈ tabs.a ∨ ∃ k, ∃ d ∈ tabs.p, t = (tabs.a.getLastD 0 + k * tabs.p.getLastD 0 + d) % 2 ^ 64

@[simp] theorem Tabs.extend_p (tabs : Tabs) : tabs.extend.p = tabs.p := rfl

theorem Tabs.extend_a (tabs : Tabs) :
    tabs.extend.a = tabs.a ++ tabs.p.map fun t => (t + tabs.a.getLastD 0) % 2 ^ 64 := rfl

@[simp] theorem Tabs.iterate_p (tabs : Tabs) (k : Nat) : (Tabs.extend^[k] tabs).p = tabs.p := by
  induction k with
  | zero => rfl
  | succ k ih =>
    rw [Function.iterate_succ_apply', Tabs.extend_p]
    exact ih

/-- The number of positions that are there after adding the periodic ones several times. -/
theorem Tabs.iterate_length (tabs : Tabs) (k : Nat) :
    (Tabs.extend^[k] tabs).a.length = tabs.a.length + k * tabs.p.length := by
  induction k with
  | zero => rw [Function.iterate_zero_apply, Nat.zero_mul, Nat.add_zero]
  | succ k ih =>
    rw [Function.iterate_succ_apply', Tabs.extend_a, List.length_append, List.length_map,
      Tabs.iterate_p, ih, Nat.succ_mul, Nat.add_assoc]

/-- The last position grows by the last periodic one. -/
theorem Tabs.iterate_last (tabs : Tabs) (k : Nat) :
    (Tabs.extend^[k] tabs).a.getLastD 0 % 2 ^ 64 =
      (tabs.a.getLastD 0 + k * tabs.p.getLastD 0) % 2 ^ 64 := by
  induction k with
  | zero => rw [Function.iterate_zero_apply, Nat.zero_mul, Nat.add_zero]
  | succ k ih =>
    rw [Function.iterate_succ_apply', Tabs.extend_a, Tabs.iterate_p]
    rcases List.eq_nil_or_concat tabs.p with hp | ⟨ds, d, hp⟩
    · rw [hp] at ih ⊢
      simpa using ih
    · rw [List.concat_eq_append] at hp
      have hlast : tabs.p.getLastD 0 = d := by rw [hp]; simp
      rw [hlast] at ih ⊢
      rw [hp, List.map_append, ← List.append_assoc]
      simp only [List.map_cons, List.map_nil, List.getLastD_concat]
      rw [Nat.mod_mod, Nat.add_mod, ih, ← Nat.add_mod, Nat.succ_mul]
      congr 1
      omega

/-- All positions that the code adds are periodic ones. -/
theorem Tabs.isPosition_of_mem {tabs : Tabs} {k t : Nat} (h : t ∈ (Tabs.extend^[k] tabs).a) :
    tabs.IsPosition t := by
  induction k with
  | zero => exact .inl h
  | succ k ih =>
    rw [Function.iterate_succ_apply', Tabs.extend_a, Tabs.iterate_p] at h
    rcases List.mem_append.mp h with h | h
    · exact ih h
    · obtain ⟨d, hd, rfl⟩ := List.mem_map.mp h
      refine .inr ⟨k, d, hd, ?_⟩
      rw [Nat.add_mod, tabs.iterate_last k, ← Nat.add_mod, Nat.add_comm]

/-- The code adds all periodic positions. Since a position has 64 bits, repeating the list that
    many times yields all of them. -/
theorem Tabs.mem_of_isPosition {tabs : Tabs} {t : Nat} (h : tabs.IsPosition t) :
    ∃ k ≤ 2 ^ 64, t ∈ (Tabs.extend^[k] tabs).a := by
  rcases h with h | ⟨k, d, hd, rfl⟩
  · exact ⟨0, Nat.zero_le _, h⟩
  · refine ⟨k % 2 ^ 64 + 1, Nat.mod_lt _ (by decide), ?_⟩
    rw [Function.iterate_succ_apply', Tabs.extend_a, Tabs.iterate_p]
    refine List.mem_append_right _ (List.mem_map.mpr ⟨d, hd, ?_⟩)
    rw [Nat.add_mod, tabs.iterate_last, ← Nat.add_mod, Nat.add_comm]
    -- The number of repetitions counts modulo the size of the type, too.
    have hk : (k % 2 ^ 64 * tabs.p.getLastD 0) % 2 ^ 64 = (k * tabs.p.getLastD 0) % 2 ^ 64 :=
      Nat.mod_mul_mod _ _ _
    omega

/-! ## §3 Looking up a tab -/

/-- Adding positions does not change those that are there. -/
theorem Tabs.iterate_getD {tabs : Tabs} {i : Nat} (h : i < tabs.a.length) (k : Nat) :
    (Tabs.extend^[k] tabs).a.getD i 0 = tabs.a.getD i 0 := by
  induction k with
  | zero => rfl
  | succ k ih =>
    have hlen : i < (Tabs.extend^[k] tabs).a.length := by
      rw [Tabs.iterate_length]
      omega
    rw [Function.iterate_succ_apply', Tabs.extend_a, List.getD_append _ _ _ _ hlen, ih]

/-- Two lists with added positions agree as far as both of them go. -/
theorem Tabs.iterate_agree {tabs : Tabs} {i k m : Nat} (hk : i < (Tabs.extend^[k] tabs).a.length)
    (hm : i < (Tabs.extend^[m] tabs).a.length) :
    (Tabs.extend^[k] tabs).a.getD i 0 = (Tabs.extend^[m] tabs).a.getD i 0 := by
  rcases Nat.le_total k m with h | h
  · obtain ⟨j, rfl⟩ := Nat.exists_eq_add_of_le' h
    rw [Function.iterate_add_apply, Tabs.iterate_getD hk]
  · obtain ⟨j, rfl⟩ := Nat.exists_eq_add_of_le' h
    rw [Function.iterate_add_apply, Tabs.iterate_getD hm]

/-- Without periodic positions, nothing is added. -/
theorem Tabs.iterate_of_nil {tabs : Tabs} (h : tabs.p = []) (k : Nat) :
    Tabs.extend^[k] tabs = tabs := by
  obtain ⟨a, p⟩ := tabs
  obtain rfl : p = [] := h
  induction k with
  | zero => rfl
  | succ k ih => rw [Function.iterate_succ_apply', ih, Tabs.extend, List.map_nil, List.append_nil]

/-- **One iteration**: it reaches the end of the list, or it inspects a position, perhaps after
    adding positions. -/
theorem tabStep_cases (prev : Nat) {tabs : Tabs} {i : Nat} (hi : i ≤ tabs.a.length) :
    (i = tabs.a.length ∧ tabs.p = [] ∧ tabStep prev (tabs, i) = .ok (.done (prev, tabs))) ∨
      ∃ m, i < (Tabs.extend^[m] tabs).a.length ∧
        ((prev < (Tabs.extend^[m] tabs).a.getD i 0 ∧ tabStep prev (tabs, i) =
            .ok (.done ((Tabs.extend^[m] tabs).a.getD i 0, Tabs.extend^[m] tabs))) ∨
          ((Tabs.extend^[m] tabs).a.getD i 0 ≤ prev ∧
            tabStep prev (tabs, i) = .ok (.again (Tabs.extend^[m] tabs, i + 1)))) := by
  by_cases hend : i = tabs.a.length ∧ tabs.p = []
  · refine .inl ⟨hend.1, hend.2, ?_⟩
    simp only [tabStep]
    exact if_pos hend
  · right
    have hadd : ∃ m, (if i = tabs.a.length then tabs.extend else tabs) = Tabs.extend^[m] tabs ∧
        i < (Tabs.extend^[m] tabs).a.length := by
      by_cases hlen : i = tabs.a.length
      · refine ⟨1, if_pos hlen, ?_⟩
        have hpos := List.length_pos_iff.mpr fun hp => hend ⟨hlen, hp⟩
        rw [Tabs.iterate_length]
        omega
      · exact ⟨0, if_neg hlen, Nat.lt_of_le_of_ne hi hlen⟩
    obtain ⟨m, hm, hlt⟩ := hadd
    refine ⟨m, hlt, ?_⟩
    simp only [tabStep, hm]
    rw [if_neg hend]
    by_cases hbeyond : prev < (Tabs.extend^[m] tabs).a.getD i 0
    · exact .inl ⟨hbeyond, if_pos hbeyond⟩
    · exact .inr ⟨Nat.le_of_not_lt hbeyond, if_neg hbeyond⟩

/-- What holds at the beginning of every iteration. -/
structure TabInv (tabs : Tabs) (prev : Nat) (st : Tabs × Nat) : Prop where
  /-- The periodic positions have been added several times. -/
  added : ∃ k, st.1 = Tabs.extend^[k] tabs
  /-- The index is inside the list or right behind it. -/
  index : st.2 ≤ st.1.a.length
  /-- No position before the index lies beyond the current one. -/
  before : ∀ j < st.2, st.1.a.getD j 0 ≤ prev

theorem TabInv.start (tabs : Tabs) (prev : Nat) : TabInv tabs prev (tabs, 0) :=
  ⟨⟨0, rfl⟩, Nat.zero_le _, fun _ h => absurd h (Nat.not_lt_zero _)⟩

/-- Going on to the next iteration. -/
theorem TabInv.next {tabs tb : Tabs} {prev i m : Nat} (h : TabInv tabs prev (tb, i))
    (hi : i < (Tabs.extend^[m] tb).a.length) (hle : (Tabs.extend^[m] tb).a.getD i 0 ≤ prev) :
    TabInv tabs prev (Tabs.extend^[m] tb, i + 1) := by
  obtain ⟨⟨k, rfl⟩, hindex, hbefore⟩ := h
  refine ⟨⟨m + k, (Function.iterate_add_apply ..).symm⟩, hi, fun j hj => ?_⟩
  rcases Nat.lt_succ_iff_lt_or_eq.mp hj with hlt | rfl
  · rw [Tabs.iterate_getD (Nat.lt_of_lt_of_le hlt hindex)]
    exact hbefore j hlt
  · exact hle

/-- What the lookup returns: it is not a position only if there is none. -/
def FoundTab (tabs : Tabs) (prev : Nat) (res : Nat × Tabs) : Prop :=
  (tabs.p = [] ∧ ∀ t ∈ tabs.a, t ≤ prev) ∨ (prev < res.1 ∧ tabs.IsPosition res.1)

/-- An iteration preserves the invariant or returns a position. -/
theorem TabInv.step {tabs : Tabs} {prev : Nat} {st : Tabs × Nat} (h : TabInv tabs prev st) :
    Ensures (tabStep prev st) (Loop.Next.Sat (TabInv tabs prev) (FoundTab tabs prev)) := by
  obtain ⟨tb, i⟩ := st
  rcases tabStep_cases prev h.index with ⟨hend, hp, heq⟩ | ⟨m, hi, ⟨hlt, heq⟩ | ⟨hle, heq⟩⟩
  · -- All positions are explicit, and none lies beyond the current one.
    rw [heq, Ensures.ok_iff]
    obtain ⟨⟨k, rfl⟩, -, hbefore⟩ := h
    rw [Tabs.iterate_p] at hp
    rw [Tabs.iterate_of_nil hp] at hend hbefore
    refine .inl ⟨hp, fun t ht => ?_⟩
    obtain ⟨j, hj, rfl⟩ := List.mem_iff_getElem.mp ht
    have := hbefore j (hend ▸ hj)
    rwa [List.getD_eq_getElem _ _ hj] at this
  · rw [heq, Ensures.ok_iff]
    obtain ⟨⟨k, rfl⟩, -, -⟩ := h
    refine .inr ⟨hlt, @Tabs.isPosition_of_mem tabs (m + k) _ ?_⟩
    rw [Function.iterate_add_apply, List.getD_eq_getElem _ _ hi]
    exact List.getElem_mem hi
  · rw [heq, Ensures.ok_iff]
    exact h.next hi hle

/-- The iteration in which the loop ends at the latest. -/
def LastIndex (tabs : Tabs) (prev m : Nat) : Prop :=
  (tabs.p = [] ∧ m = tabs.a.length) ∨
    ∃ k, m < (Tabs.extend^[k] tabs).a.length ∧ prev < (Tabs.extend^[k] tabs).a.getD m 0

/-- **Termination.** By induction on the number of iterations before the last one. -/
theorem tabLoop_ends {tabs : Tabs} {prev m : Nat} (hm : LastIndex tabs prev m) :
    ∀ (d : Nat) {st : Tabs × Nat}, TabInv tabs prev st → st.2 + d = m →
      ∀ n, d < n → ∃ res, Loop.run (tabStep prev) .fuel n st = .ok res := by
  intro d
  induction d with
  | zero =>
    intro st h hst n hn
    obtain ⟨tb, i⟩ := st
    obtain rfl : i = m := hst
    obtain ⟨n, rfl⟩ := Nat.exists_eq_succ_of_ne_zero (Nat.ne_of_gt hn)
    rcases tabStep_cases prev h.index with ⟨hend, hp, heq⟩ | ⟨j, hi, ⟨hlt, heq⟩ | ⟨hle, heq⟩⟩
    · exact ⟨_, by rw [Loop.run, heq]⟩
    · exact ⟨_, by rw [Loop.run, heq]⟩
    · -- The last position lies beyond the current one.
      exfalso
      obtain ⟨⟨k, rfl⟩, hindex, -⟩ := h
      rw [← Function.iterate_add_apply] at hi hle
      rcases hm with ⟨hp, rfl⟩ | ⟨k', hlen, hlt⟩
      · rw [Tabs.iterate_of_nil hp (j + k)] at hi
        exact absurd hi (Nat.lt_irrefl tabs.a.length)
      · rw [Tabs.iterate_agree hi hlen] at hle
        exact absurd hlt (Nat.not_lt_of_le hle)
  | succ d ih =>
    intro st h hst n hn
    obtain ⟨tb, i⟩ := st
    obtain ⟨n, rfl⟩ := Nat.exists_eq_succ_of_ne_zero (Nat.ne_of_gt (Nat.zero_lt_of_lt hn))
    rcases tabStep_cases prev h.index with ⟨hend, hp, heq⟩ | ⟨j, hi, ⟨hlt, heq⟩ | ⟨hle, heq⟩⟩
    · exact ⟨_, by rw [Loop.run, heq]⟩
    · exact ⟨_, by rw [Loop.run, heq]⟩
    · rw [Loop.run, heq]
      refine ih (h.next hi hle) ?_ n (Nat.lt_of_succ_lt_succ hn)
      show i + 1 + d = m
      replace hst : i + (d + 1) = m := hst
      omega

/-- **Enough iterations.** If the loop ends at all, it ends within the bound of the model. -/
theorem termTabNext_ok {tabs : Tabs} {prev : Nat}
    (h : tabs.p = [] ∨ ∃ t, tabs.IsPosition t ∧ prev < t) :
    ∃ res, termTabNext tabs prev = .ok res := by
  have hlast : ∃ m ≤ tabs.a.length + 2 ^ 64 * tabs.p.length, LastIndex tabs prev m := by
    rcases h with hp | ⟨t, ht, hlt⟩
    · exact ⟨_, Nat.le_add_right _ _, .inl ⟨hp, rfl⟩⟩
    · obtain ⟨k, hk, hmem⟩ := Tabs.mem_of_isPosition ht
      obtain ⟨m, hm, rfl⟩ := List.mem_iff_getElem.mp hmem
      refine ⟨m, ?_, .inr ⟨k, hm, by rwa [List.getD_eq_getElem _ _ hm]⟩⟩
      rw [Tabs.iterate_length] at hm
      have := Nat.mul_le_mul_right tabs.p.length hk
      omega
  obtain ⟨m, hm, hlast⟩ := hlast
  refine tabLoop_ends hlast m (TabInv.start tabs prev) (Nat.zero_add m) _ ?_
  have := Nat.mul_le_mul_right tabs.p.length (Nat.le_succ (2 ^ 64))
  omega

theorem tabLoop_found {tabs : Tabs} {prev n : Nat} {res : Nat × Tabs}
    (h : Loop.run (tabStep prev) .fuel n (tabs, 0) = .ok res) : FoundTab tabs prev res :=
  (Loop.run_invariant (fun _ hst => TabInv.step hst) (TabInv.start tabs prev)).of_eq_ok h

theorem FoundTab.condition {tabs : Tabs} {prev : Nat} {res : Nat × Tabs}
    (h : FoundTab tabs prev res) : tabs.p = [] ∨ ∃ t, tabs.IsPosition t ∧ prev < t := by
  rcases h with ⟨hp, -⟩ | ⟨hlt, hpos⟩
  · exact .inl hp
  · exact .inr ⟨_, hpos, hlt⟩

/-- The lookup ends, and it finds a position beyond the current one if there is any. -/
def TabLookup (tabs : Tabs) (prev : Nat) : Prop :=
  ∃ t tabs', termTabNext tabs prev = .ok (t, tabs') ∧
    ((∃ u, tabs.IsPosition u ∧ prev < u) → prev < t)

/-- After the lists have been cleared once, a call never fails. -/
theorem termTabSet_ok {position : CStr → Option Int} {st : TabSettings} (h : st.r ≠ none)
    (arg : Option CStr) : ∃ st', termTabSet position st arg = .ok st' ∧ st'.r ≠ none := by
  unfold termTabSet
  cases arg with
  | none => exact ⟨_, rfl, Option.some_ne_none _⟩
  | some arg =>
    dsimp only
    split
    · exact ⟨_, rfl, Option.some_ne_none _⟩
    · split
      · exact ⟨st, rfl, h⟩
      · split
        · contradiction
        · exact ⟨_, rfl, h⟩
        · exact ⟨_, rfl, h⟩

/-- Any calls that begin with clearing the lists. By induction on the calls. -/
theorem termTabSet_calls_ok (position : CStr → Option Int) (args : List (Option CStr)) :
    ∃ st, (none :: args).foldlM (termTabSet position) .init = .ok st := by
  have hcalls : ∀ (args : List (Option CStr)) (st : TabSettings), st.r ≠ none →
      ∃ st', args.foldlM (termTabSet position) st = .ok st' := by
    intro args
    induction args with
    | nil => exact fun st _ => ⟨st, rfl⟩
    | cons arg args ih =>
      intro st hst
      obtain ⟨st', hcall, hst'⟩ := termTabSet_ok hst arg
      rw [List.foldlM_cons, hcall]
      exact ih st' hst'
  exact hcalls args _ (Option.some_ne_none TabList.a)

/-- **Tab lookup.** After any calls that set tabs, looking up a tab ends, and finds a position
    beyond the current one if there is any, if and only if no periodic positions have been set or
    some position lies beyond the current one. -/
theorem termTabNext_lookup_iff (position : CStr → Option Int) (args : List (Option CStr))
    (prev : Nat) : Ensures (args.foldlM (termTabSet position) .init) fun st =>
      (TabLookup st.tabs prev ↔ st.tabs.p = [] ∨ ∃ u, st.tabs.IsPosition u ∧ prev < u) := by
  apply Ensures.of_forall
  intro st
  constructor
  · rintro ⟨t, tabs', hres, -⟩
    exact (tabLoop_found hres).condition
  · intro h
    obtain ⟨⟨t, tabs'⟩, hres⟩ := termTabNext_ok h
    refine ⟨t, tabs', hres, ?_⟩
    rintro ⟨u, hu, hlt⟩
    rcases tabLoop_found hres with ⟨hp, hle⟩ | ⟨hlt', -⟩
    · -- Without periodic positions, the position is one of those that have been inspected.
      rcases hu with hu | ⟨k, d, hd, -⟩
      · exact absurd hlt (Nat.not_lt_of_le (hle u hu))
      · rw [hp] at hd
        exact absurd hd List.not_mem_nil
    · exact hlt'

/-- A single periodic position with the distance zero. -/
theorem termTabNext_lookup_zero : ¬ ∀ (position : CStr → Option Int) (args : List (Option CStr))
    (prev : Nat), Ensures (args.foldlM (termTabSet position) .init) fun st =>
      TabLookup st.tabs prev := by
  intro h
  have hrun := (h (fun arg => if arg = ['0'] then some 0 else none) [none, some ['T'], some ['0']]
    0).of_eq_ok (a := ⟨⟨[], [0]⟩, some .p⟩) rfl
  obtain ⟨t, tabs', hres, -⟩ := hrun
  rcases (tabLoop_found hres).condition with hp | ⟨u, hu, hlt⟩
  · exact absurd hp (List.cons_ne_nil _ _)
  · rcases hu with hu | ⟨k, d, hd, rfl⟩
    · exact absurd hu List.not_mem_nil
    · rw [List.mem_singleton.mp hd] at hlt
      exact absurd hlt (by simp)

end Mandoc
