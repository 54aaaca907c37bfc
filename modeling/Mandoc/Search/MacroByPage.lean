import Mandoc.Search.DbmIterate

/-!
# The macro values of a page

`macro_bypage` walks over the lists of pages of all values of a macro with a single pointer.  The
pointer is taken from the first entry of the macro table, whether or not the table has an entry.
-/

namespace Mandoc

open BackPatch

/-! ## §1 Iterations step by step -/

/-- What an iteration yields is determined. -/
theorem MacroYields.unique {db : Dbm} {it : MacroIter} {ss ss' : List Str}
    (h : MacroYields db it ss) (h' : MacroYields db it ss') : ss = ss' := by
  induction h generalizing ss' with
  | done hnext =>
    cases h' with
    | done => rfl
    | more hnext' =>
      rw [hnext] at hnext'
      cases hnext'
  | more hnext hstr _ ih =>
    cases h' with
    | done hnext' =>
      rw [hnext] at hnext'
      cases hnext'
    | more hnext' hstr' hrest' =>
      rw [hnext] at hnext'
      cases hnext'
      rw [hstr] at hstr'
      obtain rfl := Except.ok.inj hstr'
      rw [ih hrest']

/-! ## §2 The list of pages of one value -/

section Value

variable {db : Dbm} {file : List UInt8} {im ip : Nat}

theorem length_refsBytes (v : ValueRefs) : (refsBytes v).length = 4 * v.2.length + 4 := by
  rw [refsBytes, List.length_append, length_flatMap_be32, length_be32]

/-- A page that is not looked for is passed. -/
theorem searchPage_step {n off iv r : Nat} (hiv : (iv : Int) < db.nvals.getD im 0)
    (hr : r < 4294967296) (h : At file off (be32 r)) (hne : r ≠ ip) :
    searchPage db im ip (n + 1) (some ⟨file, off⟩) iv =
      searchPage db im ip n (some ⟨file, off + 4⟩) (if r = 0 then iv + 1 else iv) := by
  rw [searchPage, if_neg (Int.not_le.mpr hiv)]
  simp only [nonNull, Res.ok_bind, uint32_of_at hr h, if_neg hne]
  rfl

theorem searchPage_found {n off iv : Nat} (hiv : (iv : Int) < db.nvals.getD im 0)
    (hip : ip < 4294967296) (h : At file off (be32 ip)) :
    searchPage db im ip (n + 1) (some ⟨file, off⟩) iv = .ok (some ⟨file, off⟩, iv) := by
  rw [searchPage, if_neg (Int.not_le.mpr hiv)]
  simp only [nonNull, Res.ok_bind, uint32_of_at hip h]
  rfl

/-- A list without the page is passed together with its end. -/
theorem searchPage_pass {n off iv : Nat} {refs : List Nat} (hiv : (iv : Int) < db.nvals.getD im 0)
    (hip : ip ≠ 0) (hrange : ∀ r ∈ refs, r ≠ 0 ∧ r < 4294967296) (hno : ip ∉ refs)
    (h : At file off (refs.flatMap be32 ++ be32 0)) :
    searchPage db im ip (n + (refs.length + 1)) (some ⟨file, off⟩) iv =
      searchPage db im ip n (some ⟨file, off + (4 * refs.length + 4)⟩) (iv + 1) := by
  induction refs generalizing off with
  | nil => exact searchPage_step hiv (by decide) h hip.symm
  | cons r refs ih =>
    obtain ⟨hne, hlt⟩ := hrange r (List.mem_cons_self ..)
    rw [List.flatMap_cons, List.append_assoc] at h
    have hrest := h.right
    rw [length_be32] at hrest
    have hnext := ih (fun s hs => hrange s (List.mem_cons_of_mem r hs))
      (fun hmem => hno (List.mem_cons_of_mem r hmem)) hrest
    rw [List.length_cons, ← Nat.add_assoc, searchPage_step hiv hlt h.left
      (fun heq => hno (heq ▸ List.mem_cons_self ..)), if_neg hne, hnext]
    congr 3
    omega

/-- In a list with the page, the search ends at the page. -/
theorem searchPage_hit {n off iv : Nat} {refs : List Nat} (hiv : (iv : Int) < db.nvals.getD im 0)
    (hrange : ∀ r ∈ refs, r ≠ 0 ∧ r < 4294967296) (hmem : ip ∈ refs)
    (h : At file off (refs.flatMap be32 ++ be32 0)) :
    ∃ pre post, refs = pre ++ ip :: post ∧
      searchPage db im ip (n + refs.length) (some ⟨file, off⟩) iv =
        .ok (some ⟨file, off + 4 * pre.length⟩, iv) ∧
      At file (off + 4 * pre.length) ((ip :: post).flatMap be32 ++ be32 0) := by
  induction refs generalizing off with
  | nil => exact absurd hmem List.not_mem_nil
  | cons r refs ih =>
    obtain ⟨hne, hlt⟩ := hrange r (List.mem_cons_self ..)
    cases decEq r ip with
    -- The page is the first one of the list.
    | isTrue heq =>
      subst heq
      refine ⟨[], refs, rfl, ?_, h⟩
      rw [List.flatMap_cons, List.append_assoc] at h
      exact searchPage_found hiv hlt h.left
    | isFalse hother =>
      -- The number is skipped, and the page is among those that follow.
      have hrest : ip ∈ refs := (List.mem_cons.mp hmem).resolve_left fun heq => hother heq.symm
      rw [List.flatMap_cons, List.append_assoc] at h
      have hright := h.right
      rw [length_be32] at hright
      obtain ⟨pre, post, hsplit, hsearch, hat⟩ :=
        ih (fun s hs => hrange s (List.mem_cons_of_mem r hs)) hrest hright
      have hoff : off + 4 * (r :: pre).length = off + 4 + 4 * pre.length := by
        rw [List.length_cons]
        omega
      refine ⟨r :: pre, post, by rw [hsplit]; rfl, ?_, by rw [hoff]; exact hat⟩
      rw [List.length_cons, ← Nat.add_assoc, searchPage_step hiv hlt h.left hother, if_neg hne,
        hsearch, hoff]

/-- The rest of a list is skipped together with its end. -/
theorem skipPages_eq {n off : Nat} {refs : List Nat}
    (hrange : ∀ r ∈ refs, r ≠ 0 ∧ r < 4294967296)
    (h : At file off (refs.flatMap be32 ++ be32 0)) (hn : refs.length < n) :
    skipPages n (some ⟨file, off⟩) = .ok (some ⟨file, off + (4 * refs.length + 4)⟩) := by
  induction refs generalizing n off with
  | nil =>
    obtain ⟨m, rfl⟩ := Nat.exists_eq_succ_of_ne_zero (Nat.ne_of_gt hn)
    have hzero : Ptr.uint32 ⟨file, off⟩ = .ok 0 := uint32_of_at (by decide) h
    rw [skipPages]
    simp only [nonNull, Res.ok_bind, hzero]
    rfl
  | cons r refs ih =>
    obtain ⟨m, rfl⟩ := Nat.exists_eq_succ_of_ne_zero (Nat.ne_zero_of_lt hn)
    obtain ⟨hne, hlt⟩ := hrange r (List.mem_cons_self ..)
    rw [List.flatMap_cons, List.append_assoc] at h
    have hrest := h.right
    rw [length_be32] at hrest
    have hnext := ih (fun s hs => hrange s (List.mem_cons_of_mem r hs)) hrest
      (Nat.lt_of_succ_lt_succ hn)
    rw [skipPages]
    simp only [nonNull, Res.ok_bind, uint32_of_at hlt h.left, ne_eq, hne, not_false_eq_true,
      if_true, Option.map_some, Ptr.add, hnext]
    congr 3
    rw [List.length_cons]
    omega

end Value

/-! ## §3 The lists of pages of all values -/

/-- The values that list a page. -/
def valuesListing (ip : Nat) (vs : List ValueRefs) : List Str :=
  (vs.filter fun v => v.2.contains ip).map Prod.fst

/-- The state of `macro_bypage` in front of the value number `iv`.  The pointer does not matter
    when no values are left. -/
structure PagesAt (us : List DbaPage) (tables : List (List ValueRefs)) (place : Nat)
    (vs : List ValueRefs) (im ip iv : Nat) (it : MacroIter) : Prop where
  im_eq : it.im = im
  ip_eq : it.ip = ip
  iv_eq : it.iv = iv
  iv_le : iv ≤ vs.length
  pp_eq : iv < vs.length →
    it.pp = some ⟨fileBytes us tables, startOf refsBytes (refsStart place vs) vs iv⟩

section Table

variable {us : List DbaPage} {tables : List (List ValueRefs)} {im ip place : Nat}
  {vs : List ValueRefs}
variable (hsize : (fileBytes us tables).length ≤ INT32_MAX)
  (hvs : tables[im]? = some vs) (hplace : (tableStarts us tables)[im]? = some place)
  (hat : At (fileBytes us tables) place (macroBytes place vs)) (hwf : TableWF us.length vs)
  (hip : ip ≠ 0)

include hvs in
theorem nvals_openedDbm : (openedDbm us tables).nvals.getD im 0 = vs.length := by
  simp [openedDbm, List.getD_eq_getElem?_getD, hvs]

include hsize hwf in
theorem refs_range {v : ValueRefs} (hv : v ∈ vs) : ∀ r ∈ v.2, r ≠ 0 ∧ r < 4294967296 := by
  intro r hr
  obtain ⟨k, hk, rfl⟩ := hwf.refs v hv r hr
  have hlt := ref_lt hsize hk
  omega

include hsize hvs hat hwf hip

/-- The search ends at the next value that lists the page, or behind the last value. -/
theorem searchPage_table {todo : List ValueRefs} {n iv : Nat} {pp : Option Ptr}
    (htodo : vs.drop iv = todo) (hle : iv ≤ vs.length)
    (hn : (todo.flatMap refsBytes).length < n)
    (hpp : iv < vs.length →
      pp = some ⟨fileBytes us tables, startOf refsBytes (refsStart place vs) vs iv⟩) :
    (valuesListing ip todo = [] ∧ ∃ pp',
      searchPage (openedDbm us tables) im ip n pp iv = .ok (pp', vs.length)) ∨
    ∃ jv v off post, vs[jv]? = some v ∧
      searchPage (openedDbm us tables) im ip n pp iv =
        .ok (some ⟨fileBytes us tables, off⟩, jv) ∧
      At (fileBytes us tables) off ((ip :: post).flatMap be32 ++ be32 0) ∧
      (∀ r ∈ ip :: post, r ∈ v.2) ∧
      off + (4 * (ip :: post).length + 4) =
        startOf refsBytes (refsStart place vs) vs (jv + 1) ∧
      valuesListing ip todo = v.1 :: valuesListing ip (vs.drop (jv + 1)) := by
  have hnvals := @nvals_openedDbm us _ _ _ hvs
  induction todo generalizing n iv pp with
  | nil =>
    obtain rfl : iv = vs.length := Nat.le_antisymm hle (List.drop_eq_nil_iff.mp htodo)
    obtain ⟨m, rfl⟩ := Nat.exists_eq_succ_of_ne_zero (Nat.ne_zero_of_lt hn)
    refine .inl ⟨rfl, pp, ?_⟩
    rw [searchPage, if_pos (Int.le_of_eq hnvals)]
    rfl
  | cons v todo ih =>
    have hv : vs[iv]? = some v := by
      rw [← List.head?_drop, htodo]
      rfl
    have hlt : iv < vs.length := (List.getElem?_eq_some_iff.mp hv).1
    have hrest : vs.drop (iv + 1) = todo := by
      rw [← List.drop_drop, htodo]
      rfl
    have hrefs := (at_refs hat).element hv
    have hrange := refs_range hsize hwf (List.mem_of_getElem? hv)
    have hiv : (iv : Int) < (openedDbm us tables).nvals.getD im 0 := by
      rw [hnvals]
      exact Int.ofNat_lt.mpr hlt
    have hnext : startOf refsBytes (refsStart place vs) vs (iv + 1) =
        startOf refsBytes (refsStart place vs) vs iv + (4 * v.2.length + 4) := by
      rw [startOf_succ hv, length_refsBytes]
    rw [List.flatMap_cons, List.length_append, length_refsBytes] at hn
    obtain rfl := hpp hlt
    cases hmem : v.2.contains ip with
    | false =>
      -- The whole list is passed.
      have hno : ip ∉ v.2 := fun h => by simp [h] at hmem
      obtain ⟨m, rfl⟩ : ∃ m, n = m + (v.2.length + 1) := ⟨n - (v.2.length + 1), by omega⟩
      have hlist : valuesListing ip (v :: todo) = valuesListing ip todo := by
        rw [valuesListing, List.filter_cons_of_neg (by simp [hno])]
        rfl
      rw [searchPage_pass hiv hip hrange hno hrefs, hlist, ← hnext]
      exact ih hrest hlt (by omega) fun _ => rfl
    | true =>
      have hyes : ip ∈ v.2 := by simpa using hmem
      obtain ⟨m, rfl⟩ : ∃ m, n = m + v.2.length := ⟨n - v.2.length, by omega⟩
      obtain ⟨pre, post, hsplit, hsearch, hhit⟩ := searchPage_hit (n := m) hiv hrange hyes hrefs
      refine .inr ⟨iv, v, _, post, hv, hsearch, hhit, ?_, ?_, ?_⟩
      · intro r hr
        rw [hsplit]
        exact List.mem_append_right pre hr
      · rw [hnext, hsplit, List.length_append]
        omega
      · rw [valuesListing, List.filter_cons_of_pos (by simp [hyes]), hrest]
        rfl

include hplace

/-- One call of `dbm_macro_next`: it returns the next value that lists the page. -/
theorem dbmMacroNext_results {iv : Nat} {it : MacroIter} (him : im < macroMax)
    (h : PagesAt us tables place vs im ip iv it) :
    (valuesListing ip (vs.drop iv) = [] ∧
      ∃ it', dbmMacroNext (openedDbm us tables) it = .ok (none, it')) ∨
    ∃ jv v p it', dbmMacroNext (openedDbm us tables) it = .ok (some p, it') ∧
      p.str = .ok v ∧ PagesAt us tables place vs im ip jv it' ∧
      valuesListing ip (vs.drop iv) = v :: valuesListing ip (vs.drop jv) := by
  obtain ⟨rfl, rfl, rfl, hle, hpp⟩ := h
  have hnvals := @nvals_openedDbm us _ _ _ hvs
  have hbase : (openedDbm us tables).base = fileBytes us tables := rfl
  have hover : ¬ (macroMax < macroMax ∧ (0 : Nat) ≠ 0) := fun hc => Nat.lt_irrefl _ hc.1
  -- The lists that are left are a part of the file.
  have hfuel : ((vs.drop it.iv).flatMap refsBytes).length < (fileBytes us tables).length + 1 := by
    have hpart : ((vs.drop it.iv).flatMap refsBytes).length ≤
        (vs.flatMap refsBytes).length := by
      rw [← List.take_append_drop it.iv vs, List.flatMap_append, List.length_append]
      simp only [List.take_append_drop]
      exact Nat.le_add_left ..
    cases hvals : vs with
    | nil => simp
    | cons w ws =>
      have hne : vs.flatMap refsBytes ≠ [] := by simp [hvals, refsBytes, be32]
      have hall := at_add_length_le (at_refs hat) hne
      rw [← hvals]
      omega
  rcases searchPage_table hsize hvs hat hwf hip rfl hle hfuel hpp with
    ⟨hnil, pp', hsearch⟩ | ⟨jv, v, off, post, hv, hsearch, hhit, hsub, hend, hlist⟩
  · refine .inl ⟨hnil, ⟨none, macroMax, 0, vs.length⟩, ?_⟩
    rw [dbmMacroNext, macroBypage, if_neg hover]
    simp only [if_neg (Nat.not_le_of_lt him), hbase, hsearch, Res.ok_bind, hnvals,
      if_true]
    rfl
  · have hjv : jv < vs.length := (List.getElem?_eq_some_iff.mp hv).1
    obtain ⟨rvalue, -⟩ := macroInt_of_at hsize hplace hat hv
    have hvalue := (at_values hat).element hv
    have hget := get_place hsize hvalue (strBytes_ne_nil _)
    have hstr := str_of_at (hwf.values v (List.mem_of_getElem? hv)) hvalue
    have hnot : ¬ ((jv : Int) = vs.length) := by omega
    have hskip : skipPages ((fileBytes us tables).length + 1) (some ⟨fileBytes us tables, off⟩) =
        .ok (some ⟨fileBytes us tables,
          startOf refsBytes (refsStart place vs) vs (jv + 1)⟩) := by
      have hrange := refs_range hsize hwf (List.mem_of_getElem? hv)
      have hlen := at_add_length_le hhit (by simp [be32])
      rw [List.length_append, length_flatMap_be32] at hlen
      rw [skipPages_eq (fun r hr => hrange r (hsub r hr)) hhit (by omega), hend]
    -- Behind the last value, the remaining pages are not skipped.
    obtain ⟨pp', hpages, hpp'⟩ : ∃ pp',
        (if (jv : Int) + 1 < vs.length
          then skipPages ((fileBytes us tables).length + 1) (some ⟨fileBytes us tables, off⟩)
          else pure (some ⟨fileBytes us tables, off⟩)) = .ok pp' ∧
        (jv + 1 < vs.length → pp' =
          some ⟨fileBytes us tables, startOf refsBytes (refsStart place vs) vs (jv + 1)⟩) := by
      cases Nat.decLt (jv + 1) vs.length with
      | isTrue hlt =>
        rw [if_pos (by omega), hskip]
        exact ⟨_, rfl, fun _ => rfl⟩
      | isFalse hlast =>
        rw [if_neg (by omega)]
        exact ⟨_, rfl, fun hlt => absurd hlt hlast⟩
    refine .inr ⟨jv + 1, v.1, _, ⟨pp', it.im, it.ip, jv + 1⟩, ?_, hstr,
      ⟨rfl, rfl, rfl, hjv, hpp'⟩, hlist⟩
    rw [dbmMacroNext, macroBypage, if_neg hover]
    simp only [if_neg (Nat.not_le_of_lt him), hbase, hsearch, Res.ok_bind, hnvals,
      if_neg hnot, hpages, rvalue, hget]
    rfl

/-- **An iteration that has been started properly is exact.** -/
theorem macroYields_of_pagesAt {iv : Nat} {it : MacroIter} (him : im < macroMax)
    (h : PagesAt us tables place vs im ip iv it) :
    MacroYields (openedDbm us tables) it (valuesListing ip (vs.drop iv)) := by
  generalize hss : valuesListing ip (vs.drop iv) = ss
  induction ss generalizing iv it with
  | nil =>
    rcases dbmMacroNext_results hsize hvs hplace hat hwf hip him h with
      ⟨-, it', hnext⟩ | ⟨_, _, _, _, _, _, _, hlist⟩
    · exact .done hnext
    · rw [hss] at hlist
      cases hlist
  | cons s ss ih =>
    rcases dbmMacroNext_results hsize hvs hplace hat hwf hip him h with
      ⟨hnil, -⟩ | ⟨jv, v, p, it', hnext, hstr, hrest, hlist⟩
    · rw [hss] at hnil
      cases hnil
    · rw [hss] at hlist
      obtain ⟨rfl, rfl⟩ := List.cons.inj hlist
      exact .more hnext hstr (ih hrest rfl)

end Table

/-! ## §4 The start of an iteration -/

theorem add_padding_mod (n : Nat) : (n + padding n) % 4 = 0 := by
  unfold padding
  omega

/-- Behind a macro table, the position is aligned. -/
theorem macroBytes_aligned (n : Nat) (vs : List ValueRefs) :
    (n + (macroBytes n vs).length) % 4 = 0 := by
  have hrefs : (vs.flatMap refsBytes).length % 4 = 0 := by
    induction vs with
    | nil => rfl
    | cons v vs ih =>
      rw [List.flatMap_cons, List.length_append, length_refsBytes]
      omega
  have hstart : refsStart n vs % 4 = 0 := add_padding_mod _
  rw [← length_macroBytes]
  omega

/-- All macro tables are aligned. -/
theorem tableStarts_aligned (us : List DbaPage) (tables : List (List ValueRefs)) :
    ∀ place ∈ tableStarts us tables, place % 4 = 0 := by
  apply forall_placesOf
  · have hpages : macrosStart us % 4 = 0 := by
      rw [macrosStart, ← length_pagesBytes]
      exact add_padding_mod _
    omega
  · exact fun place vs _ _ => macroBytes_aligned place vs

theorem length_macroBytes_nil {n : Nat} (hn : n % 4 = 0) : (macroBytes n []).length = 4 := by
  have hpad : padding (n + 4) = 0 := by
    unfold padding
    omega
  simp [macroBytes, valuesEnd, valuesStart, valuePositions, refsPositions, hpad, length_be32]

theorem four_le_length_macroBytes (n : Nat) (vs : List ValueRefs) :
    4 ≤ (macroBytes n vs).length := by
  rw [macroBytes, List.length_append, length_be32]
  exact Nat.le_add_right 4 _

section Start

variable {us : List DbaPage} {tables : List (List ValueRefs)} {im ip : Nat}
  {vs : List ValueRefs} {it : MacroIter}
variable (hsize : (fileBytes us tables).length ≤ INT32_MAX)
  (htables : tables.length = macroMax) (hvs : tables[im]? = some vs) (hip : ip ≠ 0)

theorem uint32_end {p : Ptr} (h : p.mem.length ≤ p.off) : p.uint32 = .error .overrun := by
  have hget : p.get = .error .overrun := by
    rw [Ptr.get, List.getElem?_eq_none h]
  rw [Ptr.uint32, hget]
  rfl

include htables hvs hip

/-- The calls that start an iteration differ in what they find behind the number of values. -/
theorem dbmMacroBypage_eq :
    dbmMacroBypage (openedDbm us tables) im ip it =
      ((openedDbm us tables).macroInt im 0 1).map fun pages =>
        ⟨(openedDbm us tables).get pages, im, ip, 0⟩ := by
  have him : im < macroMax := htables ▸ (List.getElem?_eq_some_iff.mp hvs).1
  rw [dbmMacroBypage, if_neg (Nat.not_le_of_lt him)]
  simp only [if_neg hip, macroBypage, if_pos (And.intro him hip)]
  cases (openedDbm us tables).macroInt im 0 1 <;> rfl

omit hip in
/-- Where an empty table is: the file has another table behind it, or nothing but its end. -/
theorem macroInt_empty (hnil : vs = []) :
    (im + 1 = macroMax → (openedDbm us tables).macroInt im 0 1 = .error .overrun) ∧
      (im + 1 ≠ macroMax → ∃ pages, (openedDbm us tables).macroInt im 0 1 = .ok pages) := by
  subst hnil
  obtain ⟨place, hplace, -⟩ := at_table hvs
  have him : im < tables.length := (List.getElem?_eq_some_iff.mp hvs).1
  have hlen := length_placeAll macroBytes hvs hplace
  rw [length_macroBytes_nil (tableStarts_aligned us tables place (List.mem_of_getElem? hplace))]
    at hlen
  -- Behind an empty table, there is its count, and then the next table or the end of the file.
  have hfile : (fileBytes us tables).length = place + 4 +
      (placeAll macroBytes (place + 4) (tables.drop (im + 1))).length + 4 := by
    rw [← hlen, length_fileBytes, macrosBytes, macrosStart]
    simp only [List.length_append, length_flatMap_be32, length_placesOf, length_be32]
    omega
  have hmac : (openedDbm us tables).macroInt im 0 1 =
      Ptr.uint32 ⟨fileBytes us tables, place + 4 + 4⟩ := by
    have hget : (openedDbm us tables).macros[im]? = some (place + 4) := by
      simp [openedDbm, hplace]
    simp only [Dbm.macroInt, hget]
    rfl
  rw [hmac]
  constructor
  · -- For the last table, the next number lies outside the file.
    intro hlast
    have hdrop : tables.drop (im + 1) = [] := List.drop_eq_nil_of_le (by omega)
    rw [hdrop, placeAll, List.length_nil] at hfile
    exact uint32_end (Nat.le_of_eq hfile)
  · -- For another one, it belongs to the next table.
    intro hmore
    obtain ⟨ws, rest, hdrop⟩ := List.exists_cons_of_ne_nil
      (mt List.drop_eq_nil_iff.mp (show ¬ tables.length ≤ im + 1 by omega))
    have hnext := four_le_length_macroBytes (place + 4) ws
    rw [hdrop, placeAll, List.length_append] at hfile
    exact Ptr.uint32_isOk (show place + 4 + 4 + 4 ≤ (fileBytes us tables).length by omega)

include hsize

/-- **When an iteration is exact.**  A macro table without values must not be the last one. -/
theorem macroByPage_openedDbm_iff (hwf : TableWF us.length vs) :
    (∃ it', dbmMacroBypage (openedDbm us tables) im ip it = .ok it' ∧
      MacroYields (openedDbm us tables) it' (valuesListing ip vs)) ↔
      (im + 1 = macroMax → vs ≠ []) := by
  have him : im < macroMax := htables ▸ (List.getElem?_eq_some_iff.mp hvs).1
  obtain ⟨place, hplace, hat⟩ := @at_table us _ _ _ hvs
  rw [dbmMacroBypage_eq htables hvs hip]
  constructor
  · rintro ⟨it', hstart, -⟩ hlast hnil
    rw [(macroInt_empty htables hvs hnil).1 hlast] at hstart
    cases hstart
  · intro hne
    -- The integer behind the number of values can be read, and it matters if there are values.
    obtain ⟨pages, hpages, hfirst⟩ : ∃ pages,
        (openedDbm us tables).macroInt im 0 1 = .ok pages ∧ (0 < vs.length →
          (openedDbm us tables).get pages = some ⟨fileBytes us tables,
            startOf refsBytes (refsStart place vs) vs 0⟩) := by
      cases hcases : vs with
      | nil =>
        obtain ⟨pages, hpages⟩ := (macroInt_empty htables hvs hcases).2
          fun hlast => hne hlast hcases
        exact ⟨pages, hpages, fun hpos => absurd hpos (Nat.lt_irrefl 0)⟩
      | cons v ws =>
        have hv : vs[0]? = some v := by rw [hcases]; rfl
        obtain ⟨-, rrefs⟩ := macroInt_of_at hsize hplace hat hv
        have hget := get_place hsize ((at_refs hat).element hv) (by simp [refsBytes, be32])
        rw [← hcases]
        exact ⟨_, rrefs, fun _ => hget⟩
    rw [hpages]
    have hinit : PagesAt us tables place vs im ip 0
        ⟨(openedDbm us tables).get pages, im, ip, 0⟩ :=
      ⟨rfl, rfl, rfl, Nat.zero_le _, hfirst⟩
    exact ⟨_, rfl, macroYields_of_pagesAt hsize hvs hplace hat hwf hip him hinit⟩

end Start

/-! ## §5 Files for databases that have been built -/

/-- The values of a macro whose list of pages contains a page, in the order of the table. -/
def Dba.valuesOn (db : Dba) (im jp : Nat) : List Str :=
  ((sortBy compareEntries (db.macros.getD im [])).filter fun entry =>
    entry.pages.contains jp).map MacroEntry.value

/-- Two pages that have not been deleted have different numbers in the file. -/
theorem rank_injective {pages : List DbaPage} {ip jp : Nat} {page page' : DbaPage}
    (hpage : pages[ip]? = some page) (hlive : page.deleted = false)
    (hpage' : pages[jp]? = some page') (hlive' : page'.deleted = false)
    (heq : rank pages ip = rank pages jp) : ip = jp := by
  rcases Nat.lt_trichotomy ip jp with hlt | hsame | hgt
  · exact absurd heq (Nat.ne_of_lt (rank_lt_rank hpage hlive hlt))
  · exact hsame
  · exact absurd heq (Nat.ne_of_gt (rank_lt_rank hpage' hlive' hgt))

/-- The positions in the list of an entry contain the address of a page if the list contains the
    page. -/
theorem contains_pageAddr {pages : List DbaPage} {jp : Nat} {page : DbaPage}
    (hpage : pages[jp]? = some page) (hlive : page.deleted = false) (ips : List Nat) :
    ((livePart pages ips).map fun ip => 20 + 20 * rank pages ip).contains
      (pageAddr (rank pages jp)) = ips.contains jp := by
  rw [Bool.eq_iff_iff, List.contains_iff_mem, List.contains_iff_mem, List.mem_map]
  constructor
  · rintro ⟨ip, hip, heq⟩
    obtain ⟨hmem, hget⟩ := List.mem_filter.mp hip
    have hrank : rank pages ip = rank pages jp := by
      rw [pageAddr] at heq
      omega
    cases hpage' : pages[ip]? with
    | none => simp [hpage'] at hget
    | some page' =>
      rw [← rank_injective hpage' (by simpa [hpage'] using hget) hpage hlive hrank]
      exact hmem
  · intro hmem
    exact ⟨jp, List.mem_filter.mpr ⟨hmem, by simp [hpage, hlive]⟩, rfl⟩

/-- The values in the file that list the address of a page. -/
theorem valuesListing_liveTable {db : Dba} (h : db.Sound) {im jp : Nat} {page : DbaPage}
    (him : im < macroMax) (hpage : db.pages[jp]? = some page) (hlive : page.deleted = false) :
    valuesListing (pageAddr (rank db.pages jp)) (liveTable db.pages (db.macros.getD im [])) =
      db.valuesOn im jp := by
  have hget : db.macros.getD im [] ∈ db.macros := by
    rw [List.getD_eq_getElem _ _ (h.macros ▸ him)]
    exact List.getElem_mem _
  have htable := h.tables _ hget
  -- Different entries have different values.
  have hne : ∀ e ∈ db.macros.getD im [], ∀ f ∈ db.macros.getD im [],
      compareEntries e f = .eq → e = f :=
    fun e he f hf heq => List.inj_on_of_nodup_map htable.nodup he hf (strcmp_eq_iff.mp heq)
  rw [valuesListing, liveTable, List.filter_map, List.map_map, Dba.valuesOn,
    ← filter_sortBy compareEntries hne, List.filter_filter]
  congr 1
  apply List.filter_congr
  intro entry _
  simp only [Function.comp_apply, contains_pageAddr hpage hlive]
  cases hmem : entry.pages.contains jp with
  | false => rfl
  | true =>
    have hpart : jp ∈ livePart db.pages entry.pages :=
      List.mem_filter.mpr ⟨List.contains_iff_mem.mp hmem, by simp [hpage, hlive]⟩
    simpa using List.ne_nil_of_mem hpart

/-- **The macro values of a page.**  For every macro and every page of a file written by
    `dba_write`, the iteration reads only bytes of the file and yields the values that list the
    page, each once and in the order of the table, if and only if it is not an iteration over
    the last macro table while nothing has been written into that table. -/
theorem macroByPage_exact_iff {db db₁ : Dba} {file : List UInt8} {opened : Dbm}
    (built : db.Built) (hw : dbaWrite db = .ok (file, db₁))
    (hopen : dbmOpen file = .ok (some opened)) {im jp : Nat} {page : DbaPage}
    (him : im < macroMax) (hpage : db.pages[jp]? = some page) (hlive : page.deleted = false)
    (it : MacroIter) :
    (∃ it', dbmMacroBypage opened im (pageAddr (rank db.pages jp)) it = .ok it' ∧
      MacroYields opened it' (db.valuesOn im jp)) ↔
      (im + 1 = macroMax →
        ∃ entry ∈ db.macros.getD im [], livePart db.pages entry.pages ≠ []) := by
  -- First, the file is what the writer makes, and opening it gives its tables.
  have h := built.sound
  obtain ⟨rfl, hsize⟩ := h.file_of_opened hw hopen
  rw [h.dbmOpen_fileOf hsize] at hopen
  obtain rfl := Option.some.inj (Except.ok.inj hopen)
  have hget : db.macros[im]? = some (db.macros.getD im []) := by
    rw [List.getD_eq_getElem _ _ (h.macros ▸ him)]
    exact List.getElem?_eq_getElem _
  have hvs : (db.macros.map (liveTable db.pages))[im]? =
      some (liveTable db.pages (db.macros.getD im [])) := by
    rw [List.getElem?_map, hget]
    rfl
  have hwf := tableWF_liveTable (h.tables _ (List.mem_of_getElem? hget))
  have hip : pageAddr (rank db.pages jp) ≠ 0 := by
    rw [pageAddr]
    omega
  -- The table in the file is empty unless some page of an entry is live.
  have hne : liveTable db.pages (db.macros.getD im []) ≠ [] ↔
      ∃ entry ∈ db.macros.getD im [], livePart db.pages entry.pages ≠ [] := by
    rw [liveTable, ne_eq, List.map_eq_nil_iff, ← ne_eq, sortBy_ne_nil, ne_eq,
      List.filter_eq_nil_iff]
    simp
  rw [← valuesListing_liveTable h him hpage hlive, ← hne]
  exact macroByPage_openedDbm_iff hsize (by rw [List.length_map]; exact h.macros) hvs hip hwf

theorem macroByPage_exact_sample :
    dbaWrite sampleDba = .ok (sampleDba.fileOf, sampleDba.written) ∧
      ∃ opened it, dbmOpen sampleDba.fileOf = .ok (some opened) ∧
        dbmMacroBypage opened 0 (pageAddr (rank sampleDba.pages 0)) ⟨none, 0, 0, 0⟩ = .ok it ∧
        MacroYields opened it [[0x76]] := by
  have h := sampleDba_built.sound
  have hsize : sampleDba.fileOf.length ≤ INT32_MAX := by decide +kernel
  have hwrite := h.dbaWrite_eq (Nat.lt_of_le_of_lt hsize (by decide))
  have hopen := h.dbmOpen_fileOf hsize
  have hvalues : sampleDba.valuesOn 0 0 = [[0x76]] := by decide +kernel
  have him : 0 < macroMax := by decide
  have hpage := List.getElem?_eq_getElem (show 0 < sampleDba.pages.length by decide)
  obtain ⟨it, hstart, hyields⟩ := (macroByPage_exact_iff sampleDba_built hwrite hopen him hpage
    rfl ⟨none, 0, 0, 0⟩).mpr fun hlast => absurd hlast (by decide)
  rw [hvalues] at hyields
  exact ⟨hwrite, _, it, hopen, hstart, hyields⟩

/-- No page of the sample uses the last macro.  The iteration over its values starts by reading
    what is behind the end of the file. -/
theorem macroByPage_not_exact :
    dbaWrite sampleDba = .ok (sampleDba.fileOf, sampleDba.written) ∧
      sampleDba.valuesOn 35 0 = [] ∧
      ∃ opened, dbmOpen sampleDba.fileOf = .ok (some opened) ∧
        dbmMacroBypage opened 35 (pageAddr (rank sampleDba.pages 0)) ⟨none, 0, 0, 0⟩ =
          .error .overrun ∧
        ¬ ∃ it, dbmMacroBypage opened 35 (pageAddr (rank sampleDba.pages 0)) ⟨none, 0, 0, 0⟩ =
            .ok it ∧ MacroYields opened it (sampleDba.valuesOn 35 0) := by
  have h := sampleDba_built.sound
  have hsize : sampleDba.fileOf.length ≤ INT32_MAX := by decide +kernel
  have hwrite := h.dbaWrite_eq (Nat.lt_of_le_of_lt hsize (by decide))
  have hvs : (sampleDba.macros.map (liveTable sampleDba.pages))[35]? = some [] := by
    decide +kernel
  have hstart : dbmMacroBypage (openedDbm (livePages sampleDba.pages)
      (sampleDba.macros.map (liveTable sampleDba.pages))) 35
      (pageAddr (rank sampleDba.pages 0)) ⟨none, 0, 0, 0⟩ = .error .overrun := by
    rw [dbmMacroBypage_eq rfl hvs (by decide), (macroInt_empty rfl hvs rfl).1 rfl]
    rfl
  refine ⟨hwrite, by decide +kernel, _, h.dbmOpen_fileOf hsize, hstart, ?_⟩
  rintro ⟨it, hok, -⟩
  rw [hstart] at hok
  cases hok

end Mandoc
