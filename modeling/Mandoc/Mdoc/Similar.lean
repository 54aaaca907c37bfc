import Mandoc.CString
import Mandoc.Lib.Edits

/-!
# Similar Section Names

Model of `similar()` in `mdoc_validate.c`, which compares the title of a custom section with the
standard ones. It walks over both strings at once and looks one byte ahead in order to tell
replacements, transpositions, insertions, and deletions apart.

`similarLoop_walked` says what the rest of the walk amounts to: the distance it adds is the number
of edits that turn the rest of one string into the rest of the other one.
-/

namespace Mandoc

/-! ## §1 The function -/

/-- `INT_MAX` -/
def INT_MAX : Int := 2 ^ 31 - 1

/-- The end of `similar()`, after the loop: the sum is a `size_t`. -/
def similarRest (dist : Nat) (s1 s2 : CStr) (i j : Nat) : Int :=
  -- The sum is converted to `int`.
  let dist := Int.bmod ((dist + ((s1.drop i).length + (s2.drop j).length)) % 2 ^ 64 : Nat) (2 ^ 32)
  if dist > 3 then INT_MAX else dist

/-- The loop of `similar()` at the indices `i` and `j`, with a bound on the number of
    iterations. -/
def similarLoop (s1 s2 : CStr) : Nat → Nat → Nat → Nat → Res Int
  | 0, _, _, _ => .error .fuel
  | fuel + 1, i, j, dist => do
    let a ← rd s1 i
    let b ← rd s2 j
    if a = NUL ∨ b = NUL then return similarRest dist s1 s2 i j
    else if a = b then similarLoop s1 s2 fuel (i + 1) (j + 1) dist
    else if dist + 1 > 3 then return INT_MAX
    else do
      let a' ← rd s1 (i + 1)
      let b' ← rd s2 (j + 1)
      -- replacement
      if a' = b' then similarLoop s1 s2 fuel (i + 1) (j + 1) (dist + 1)
      -- transposition
      else if a = b' ∧ a' = b then similarLoop s1 s2 fuel (i + 2) (j + 2) (dist + 1)
      -- insertion
      else if a = b' then similarLoop s1 s2 fuel i (j + 1) (dist + 1)
      -- deletion
      else if a' = b then similarLoop s1 s2 fuel (i + 1) j (dist + 1)
      else return INT_MAX

/-- `similar()` -/
def similar (s1 s2 : CStr) : Res Int := similarLoop s1 s2 (s1.length + s2.length + 1) 0 0 0

/-! ## §2 The walk over both strings -/

section

variable {s1 s2 : CStr}

theorem drop_of_charAt_ne {s : CStr} {i : Nat} (h : charAt s i ≠ NUL) :
    s.drop i = charAt s i :: s.drop (i + 1) := by
  have hlt := lt_length_of_charAt_ne_nul h
  rw [charAt_eq_getElem hlt]
  exact List.drop_eq_getElem_cons hlt

/-- The distance of strings that are not too long. -/
theorem similarRest_eq {dist i j : Nat} (hdist : dist ≤ 3)
    (h : (s1.drop i).length + (s2.drop j).length < 2 ^ 31 - 3) :
    similarRest dist s1 s2 i j =
      if dist + ((s1.drop i).length + (s2.drop j).length) > 3 then INT_MAX
      else ((dist + ((s1.drop i).length + (s2.drop j).length) : Nat) : Int) := by
  unfold similarRest
  generalize (s1.drop i).length + (s2.drop j).length = k at h
  have hmod : (dist + k) % 2 ^ 64 = dist + k := Nat.mod_eq_of_lt (by omega)
  have hint : Int.bmod ((dist + k : Nat) : Int) (2 ^ 32) = ((dist + k : Nat) : Int) :=
    Int.bmod_eq_of_le (by omega) (by omega)
  rw [hmod]
  simp only [hint]
  split <;> split <;> first | rfl | omega

/-- What holds of the result, for the rests of the strings and the distance of what is in front
    of them. -/
structure Walked (s t : CStr) (dist : Nat) (d : Int) : Prop where
  /-- The distance that is added is a number of edits. -/
  edits : d ≠ INT_MAX → ∃ n : Nat, d = dist + n ∧ dist + n ≤ 3 ∧ Edits n s t
  /-- Strings that are equal add nothing. -/
  same : s = t → d = dist

theorem Walked.cons {s t : CStr} {dist : Nat} {d : Int} (c : Char) (h : Walked s t dist d) :
    Walked (c :: s) (c :: t) dist d where
  edits hd := by
    obtain ⟨n, heq, hle, hedits⟩ := h.edits hd
    exact ⟨n, heq, hle, hedits.cons c⟩
  same heq := h.same (List.tail_eq_of_cons_eq heq)

/-- One edit in front of the rests. -/
theorem Walked.edit {s t s' t' : CStr} {dist : Nat} {d : Int} (h : Walked s t (dist + 1) d)
    (hedit : ∀ n, Edits n s t → Edits (n + 1) s' t') (hne : s' ≠ t') : Walked s' t' dist d where
  edits hd := by
    obtain ⟨n, heq, hle, hedits⟩ := h.edits hd
    refine ⟨n + 1, ?_, ?_, hedit n hedits⟩
    · rw [heq, Nat.cast_add, Nat.cast_add, Nat.cast_one, add_assoc, add_comm (1 : Int)]
    · rw [← add_assoc, add_right_comm]
      exact hle
  same heq := absurd heq hne

theorem Walked.stop {s t : CStr} {dist : Nat} (hne : s ≠ t) : Walked s t dist INT_MAX where
  edits h := absurd rfl h
  same heq := absurd heq hne

/-- One of the strings has come to its end. -/
theorem walked_rest {i j dist : Nat} (hdist : dist ≤ 3) (h1 : s1.length < 2 ^ 31 - 3)
    (h2 : s2.length < 2 ^ 31 - 3) (hend : s1.drop i = [] ∨ s2.drop j = []) :
    Walked (s1.drop i) (s2.drop j) dist (similarRest dist s1 s2 i j) := by
  have hlen1 : (s1.drop i).length ≤ s1.length := (List.drop_sublist i s1).length_le
  have hlen2 : (s2.drop j).length ≤ s2.length := (List.drop_sublist j s2).length_le
  have hlt : (s1.drop i).length + (s2.drop j).length < 2 ^ 31 - 3 := by
    obtain h | h := hend
    · rw [h, List.length_nil, Nat.zero_add]
      exact lt_of_le_of_lt hlen2 h2
    · rw [h, List.length_nil, Nat.add_zero]
      exact lt_of_le_of_lt hlen1 h1
  have hedits : Edits ((s1.drop i).length + (s2.drop j).length) (s1.drop i) (s2.drop j) := by
    obtain h | h := hend
    · rw [h, List.length_nil, Nat.zero_add]
      exact Edits.of_nil _
    · rw [h, List.length_nil, Nat.add_zero]
      exact Edits.to_nil _
  rw [similarRest_eq hdist hlt]
  constructor
  · intro hd
    split at hd
    · exact absurd rfl hd
    · next hle =>
      rw [if_neg hle]
      exact ⟨_, by rw [Nat.cast_add], not_lt.mp hle, hedits⟩
  · intro heq
    -- Both strings have come to their ends.
    have hzero : (s1.drop i).length + (s2.drop j).length = 0 := by
      obtain h | h := hend
      · rw [← heq, h]
        rfl
      · rw [heq, h]
        rfl
    rw [hzero, Nat.add_zero, if_neg (not_lt.mpr hdist)]

theorem similarLoop_walked (hs1 : NUL ∉ s1) (hs2 : NUL ∉ s2) (h1 : s1.length < 2 ^ 31 - 3)
    (h2 : s2.length < 2 ^ 31 - 3) {fuel i j dist : Nat}
    (hfuel : (s1.length - i) + (s2.length - j) < fuel) (hi : i ≤ s1.length) (hj : j ≤ s2.length)
    (hdist : dist ≤ 3) :
    ∃ d, similarLoop s1 s2 fuel i j dist = .ok d ∧ Walked (s1.drop i) (s2.drop j) dist d := by
  induction fuel generalizing i j dist with
  | zero => exact absurd hfuel (Nat.not_lt_zero _)
  | succ fuel ih =>
    simp only [similarLoop, rd_of_le hi, rd_of_le hj, Res.ok_bind, Res.pure_eq_ok]
    split
    case isTrue hend =>
      refine ⟨_, rfl, walked_rest hdist h1 h2 ?_⟩
      obtain h | h := hend
      · exact .inl (by rw [eq_length_of_charAt_nul hs1 hi h, List.drop_length])
      · exact .inr (by rw [eq_length_of_charAt_nul hs2 hj h, List.drop_length])
    case isFalse hend =>
    obtain ⟨ha, hb⟩ := not_or.mp hend
    have hlt1 := lt_length_of_charAt_ne_nul ha
    have hlt2 := lt_length_of_charAt_ne_nul hb
    have hdrop1 := drop_of_charAt_ne ha
    have hdrop2 := drop_of_charAt_ne hb
    split
    case isTrue heq =>
      obtain ⟨d, hd, hwalked⟩ := ih (by omega) hlt1 hlt2 hdist
      refine ⟨d, hd, ?_⟩
      rw [hdrop1, hdrop2, heq]
      exact hwalked.cons _
    case isFalse hab =>
    have hne : s1.drop i ≠ s2.drop j := by
      rw [hdrop1, hdrop2]
      exact fun h => hab (List.head_eq_of_cons_eq h)
    split
    case isTrue => exact ⟨_, rfl, .stop hne⟩
    case isFalse hmax =>
    have hdist' : dist + 1 ≤ 3 := not_lt.mp hmax
    simp only [rd_of_le (show i + 1 ≤ s1.length from hlt1),
      rd_of_le (show j + 1 ≤ s2.length from hlt2), Res.ok_bind]
    split
    case isTrue =>
      -- replacement
      obtain ⟨d, hd, hwalked⟩ := ih (by omega) hlt1 hlt2 hdist'
      refine ⟨d, hd, hwalked.edit (fun n h => ?_) hne⟩
      rw [hdrop1, hdrop2]
      exact h.replace _ _
    case isFalse =>
    split
    case isTrue hswap =>
      -- transposition
      obtain ⟨hab', hba'⟩ := hswap
      have hdrop1' := drop_of_charAt_ne (hba' ▸ hb)
      have hdrop2' := drop_of_charAt_ne (hab' ▸ ha)
      have hlt1' := lt_length_of_charAt_ne_nul (hba' ▸ hb)
      have hlt2' := lt_length_of_charAt_ne_nul (hab' ▸ ha)
      obtain ⟨d, hd, hwalked⟩ := ih (by omega) hlt1' hlt2' hdist'
      refine ⟨d, hd, hwalked.edit (fun n h => ?_) hne⟩
      rw [hdrop1, hdrop2, hdrop1', hdrop2', hba', ← hab']
      exact h.transpose _ _
    case isFalse =>
    split
    case isTrue =>
      -- insertion
      obtain ⟨d, hd, hwalked⟩ := ih (by omega) hi hlt2 hdist'
      refine ⟨d, hd, hwalked.edit (fun n h => ?_) hne⟩
      rw [hdrop2]
      exact h.insert _
    case isFalse =>
    split
    case isTrue =>
      -- deletion
      obtain ⟨d, hd, hwalked⟩ := ih (by omega) hlt1 hj hdist'
      refine ⟨d, hd, hwalked.edit (fun n h => ?_) hne⟩
      rw [hdrop1]
      exact h.delete _
    case isFalse => exact ⟨_, rfl, .stop hne⟩

end

/-! ## §3 The distance -/

/-- The result is `INT_MAX` or the number of edits of a sequence that turns one string into the
    other one, and it is zero for equal strings only. The input files are smaller than two
    gigabytes, and so are the strings in them. -/
theorem similar_edits (s1 s2 : CStr) (hs1 : NUL ∉ s1) (hs2 : NUL ∉ s2)
    (h1 : s1.length < 2 ^ 31 - 3) (h2 : s2.length < 2 ^ 31 - 3) :
    ∃ d, similar s1 s2 = .ok d ∧
      (d ≠ INT_MAX → ∃ n : Nat, d = n ∧ n ≤ 3 ∧ Edits n s1 s2) ∧ (d = 0 ↔ s1 = s2) := by
  obtain ⟨d, hd, hwalked⟩ := similarLoop_walked hs1 hs2 h1 h2
    (Nat.lt_succ_self ((s1.length - 0) + (s2.length - 0))) (Nat.zero_le _) (Nat.zero_le _)
    (Nat.zero_le 3)
  have hedits : d ≠ INT_MAX → ∃ n : Nat, d = n ∧ n ≤ 3 ∧ Edits n s1 s2 := by
    intro hmax
    obtain ⟨n, heq, hle, hn⟩ := hwalked.edits hmax
    exact ⟨n, by rw [heq, Nat.cast_zero, zero_add], by rwa [zero_add] at hle, hn⟩
  refine ⟨d, hd, hedits, fun hzero => ?_, hwalked.same⟩
  obtain ⟨n, heq, -, hn⟩ := hedits (by rw [hzero]; decide)
  have hn0 : n = 0 := Nat.cast_eq_zero.mp (heq.symm.trans hzero)
  rw [hn0] at hn
  exact hn.eq_of_zero

/-- Exchanged letters in a title. -/
theorem similar_edits_name : similar "NMAE".toList "NAME".toList = .ok 1 ∧
    Edits 1 "NMAE".toList "NAME".toList := by
  obtain ⟨d, hd, hedits, -⟩ := similar_edits "NMAE".toList "NAME".toList (by decide) (by decide)
    (by decide) (by decide)
  have hone : similar "NMAE".toList "NAME".toList = .ok 1 := by decide +kernel
  obtain rfl := Except.ok.inj (hd.symm.trans hone)
  obtain ⟨n, hn, -, h⟩ := hedits (by decide)
  obtain rfl : 1 = n := by exact_mod_cast hn
  exact ⟨hone, h⟩

example : similar "NMAE".toList "NAME".toList = .ok 1 := by decide +kernel

end Mandoc
