import Mandoc.Eqn.Next
import Mandoc.Lib.Guarantees
import Mathlib.Data.Prod.Lex

/-!
# Reading Equations Makes Progress

Every token that `eqn_next()` delivers brings the parser closer to the end of the
equation, although a token may be replaced with a longer text, even one that contains the
same token.

The measure consists of three parts, the more significant ones first: how much text comes
behind the rightmost replacement; how many more replacements are allowed; and how much
text there is at all. The number of replacements is only reset when reading gets beyond
the rightmost replacement, and then the first part is about to shrink.

## Main results

- `eqnNext_spec`: `eqn_next()` never fails, and makes progress.
- `eqnNext_dangling`: after a token, the pointer to its end can be used.
- `eqnDef_spec`, `eqnUndef_spec`, `eqnDelim_advance`: control statements never go back.
-/

namespace Mandoc

/-! ## §1 The measure -/

/-- The text of the equation and the values of the definitions are strings of C. -/
structure EqnNode.Clean (ep : EqnNode) : Prop where
  data : NUL ∉ ep.data
  defs : ∀ d ∈ ep.defs, NUL ∉ d.val

/-- Nothing but blanks is left. -/
def EqnNode.Finished (ep : EqnNode) : Bool := (ep.data.drop ep.next).all eqnBlank

/-- How many more replacements are allowed. -/
def EqnNode.budget (ep : EqnNode) : Nat :=
  if ep.Finished then 0 else EQN_NEST_MAX + 1 - ep.subcnt

/-- What is left to be read. -/
def EqnNode.left (ep : EqnNode) : Nat ×ₗ Nat ×ₗ Nat :=
  toLex (ep.data.length - max ep.sublen ep.next, toLex (ep.budget, ep.data.length - ep.next))

theorem left_lt_iff {ep ep' : EqnNode} : ep'.left < ep.left ↔
    ep'.data.length - max ep'.sublen ep'.next < ep.data.length - max ep.sublen ep.next ∨
    ep'.data.length - max ep'.sublen ep'.next = ep.data.length - max ep.sublen ep.next ∧
      (ep'.budget < ep.budget ∨ ep'.budget = ep.budget ∧
        ep'.data.length - ep'.next < ep.data.length - ep.next) := by
  simp [EqnNode.left, Prod.Lex.toLex_lt_toLex]

/-- Reading does not go back. -/
structure Advance (ep ep' : EqnNode) : Prop where
  left : ep'.left ≤ ep.left
  clean : ep'.Clean

theorem Advance.trans {ep ep' ep'' : EqnNode} (h : Advance ep ep') (h' : Advance ep' ep'') :
    Advance ep ep'' :=
  ⟨h'.left.trans h.left, h'.clean⟩

theorem Advance.refl {ep : EqnNode} (h : ep.Clean) : Advance ep ep := ⟨le_rfl, h⟩

/-! ## §2 One token of the text -/

/-- When everything is skipped, all bytes pass the test. -/
theorem all_of_skipWhile {p : Char → Bool} {s : CStr} {i : Nat}
    (h : s.length ≤ skipWhile p s i) : (s.drop i).all p := by
  have hlen : (s.drop i).length ≤ ((s.drop i).takeWhile p).length := by
    simp only [List.length_drop]
    unfold skipWhile at h
    omega
  have heq : (s.drop i).takeWhile p = s.drop i :=
    (List.takeWhile_prefix p).eq_of_length_le hlen
  rw [← heq]
  exact List.all_takeWhile

/-- The byte where skipping ends does not pass the test, and neither do all bytes. -/
theorem not_all_of_skipWhile {p : Char → Bool} {s : CStr} {i : Nat}
    (h : skipWhile p s i < s.length) : (s.drop i).all p = false := by
  rw [Bool.eq_false_iff]
  intro hall
  have heq : (s.drop i).takeWhile p = s.drop i :=
    List.takeWhile_eq_self_iff.mpr fun c hc => List.all_eq_true.mp hall c hc
  unfold skipWhile at h
  rw [heq, List.length_drop] at h
  omega

variable {mode : ParseMode} {ep ep' : EqnNode} {q : Bool} {allowed : EqnFault → Prop}

/-- There is no token at the end of the text. -/
theorem eqnDelimit_none (hd : NUL ∉ ep.data) (h : eqnDelimit mode ep = (none, ep')) :
    (∃ s, ep' = { ep with start := s, toksz := 0 }) ∧ (ep.data.drop ep.start).all eqnBlank := by
  have hend : ∀ i, charAt ep.data i = NUL → ep.data.length ≤ i := fun i hi =>
    Nat.le_of_not_lt fun hlt => charAt_ne_nul hd hlt hi
  by_cases hm : mode = .QUOTED
  · by_cases hc : charAt ep.data ep.start = NUL
    · simp only [eqnDelimit, hm, if_true, hc, Prod.mk.injEq, true_and] at h
      refine ⟨⟨_, h.symm⟩, ?_⟩
      rw [List.drop_of_length_le (hend _ hc)]
      rfl
    · simp [eqnDelimit, hm, hc] at h
  · by_cases hc : charAt ep.data (skipWhile eqnBlank ep.data ep.start) = NUL
    · simp only [eqnDelimit, hm, if_false, hc, if_true, Prod.mk.injEq, true_and] at h
      exact ⟨⟨_, h.symm⟩, all_of_skipWhile (hend _ hc)⟩
    · simp only [eqnDelimit, hm, if_false, if_neg hc] at h
      split at h <;> simp at h

/-- A quoted token makes progress. -/
theorem eqnDelimit_quoted (h : eqnDelimit mode ep = (some true, ep')) :
    ∃ start toksz next, ep' = { ep with start := start, toksz := toksz, next := next } ∧
      ep.start < next ∧ next ≤ ep.data.length := by
  set s := if mode = .QUOTED then ep.start else skipWhile eqnBlank ep.data ep.start with hs
  have hle : ep.start ≤ s := by
    rw [hs]
    split
    · exact le_rfl
    · exact le_skipWhile _ _ _
  simp only [eqnDelimit, ← hs] at h
  by_cases hc : charAt ep.data s = NUL
  · simp [hc] at h
  · have hlt := lt_length_of_charAt_ne_nul hc
    rw [if_neg hc] at h
    split at h
    · simp only [Prod.mk.injEq, true_and] at h
      refine ⟨_, _, _, h.symm, ?_⟩
      have htok := skipWhile_le (fun d => decide (d ≠ charAt ep.data s)) hlt
      have htok' := le_skipWhile (fun d => decide (d ≠ charAt ep.data s)) ep.data (s + 1)
      generalize skipWhile (fun d => decide (d ≠ charAt ep.data s)) ep.data (s + 1) = e at *
      have hnext : ∀ i, s < i → i ≤ ep.data.length →
          ep.start < skipWhile eqnBlank ep.data i ∧
            skipWhile eqnBlank ep.data i ≤ ep.data.length := fun i hi hi' =>
        ⟨by have := le_skipWhile eqnBlank ep.data i; omega, skipWhile_le _ hi'⟩
      split
      · exact hnext e htok' htok
      · rename_i he
        exact hnext (e + 1) (Nat.lt_succ_of_lt htok') (lt_length_of_charAt_ne_nul he)
    · simp at h

/-- A token without quotes is not empty, and not blank. -/
theorem eqnDelimit_plain (h : eqnDelimit mode ep = (some false, ep')) :
    ∃ start toksz next, ep' = { ep with start := start, toksz := toksz, next := next } ∧
      ep.start ≤ start ∧ 0 < toksz ∧ start + toksz ≤ next ∧ next ≤ ep.data.length ∧
      (ep.data.drop ep.start).all eqnBlank = false := by
  by_cases hm : mode = .QUOTED
  · by_cases hc : charAt ep.data ep.start = NUL
    · simp [eqnDelimit, hm, hc] at h
    · simp [eqnDelimit, hm, hc] at h
  · set s := skipWhile eqnBlank ep.data ep.start with hs
    simp only [eqnDelimit, hm, if_false, ← hs, decide_false, Bool.false_or] at h
    by_cases hc : charAt ep.data s = NUL
    · simp [hc] at h
    · have hlt := lt_length_of_charAt_ne_nul hc
      rw [if_neg hc] at h
      split at h
      · simp at h
      · simp only [Prod.mk.injEq, true_and] at h
        refine ⟨_, _, _, h.symm, le_skipWhile _ _ _, ?_⟩
        have hall := not_all_of_skipWhile (hs ▸ hlt)
        have hrest : ∀ e, s < e → e ≤ ep.data.length → 0 < e - s ∧
            s + (e - s) ≤ skipWhile eqnBlank ep.data e ∧
            skipWhile eqnBlank ep.data e ≤ ep.data.length := fun e he he' =>
          ⟨by omega, by have := le_skipWhile eqnBlank ep.data e; omega, skipWhile_le _ he'⟩
        split
        · obtain ⟨h1, h2, h3⟩ := hrest (s + 1) (Nat.lt_succ_self s) hlt
          exact ⟨h1, h2, h3, hall⟩
        · obtain ⟨h1, h2, h3⟩ := hrest _ (le_skipWhile (fun c => !eqnBreak c) ep.data (s + 1))
            (skipWhile_le _ hlt)
          exact ⟨h1, h2, h3, hall⟩

/-! ## §3 Replacements -/

/-- A replacement does not bring more text behind the rightmost one, and takes the name
    away if it was there. -/
theorem eqnSubstitute_left (ep : EqnNode) (val : CStr) (hpos : 0 < ep.toksz)
    (hle : ep.start + ep.toksz ≤ ep.data.length) :
    (eqnSubstitute ep val).data.length - (eqnSubstitute ep val).sublen ≤
        ep.data.length - ep.sublen ∧
      (eqnSubstitute ep val).data.length - (eqnSubstitute ep val).sublen <
        ep.data.length - ep.start := by
  have hlen : (eqnSubstitute ep val).data.length =
      ep.start + val.length + (ep.data.length - (ep.start + ep.toksz)) := by
    simp [eqnSubstitute]
    omega
  have hsub : (eqnSubstitute ep val).sublen =
      max (ep.sublen + (val.length - ep.toksz)) (ep.start + val.length) := rfl
  rw [hlen, hsub]
  omega

theorem eqnSubstitute_clean {val : CStr} (h : ep.Clean) (hval : NUL ∉ val) :
    (eqnSubstitute ep val).Clean := by
  refine ⟨?_, h.defs⟩
  simp only [eqnSubstitute, List.mem_append, not_or]
  exact ⟨⟨fun hm => h.data (List.mem_of_mem_take hm), hval⟩,
    fun hm => h.data (List.mem_of_mem_drop hm)⟩

theorem EqnNode.Clean.token (h : ep.Clean) : NUL ∉ ep.token := fun hm =>
  h.data (List.mem_of_mem_drop (List.mem_of_mem_take hm))

/-- Classifying a token. -/
theorem eqnClassify_spec (mode : ParseMode) (q : Bool) (ep : EqnNode) :
    (eqnClassify mode q ep).ep = ep ∧ (eqnClassify mode q ep).tok ≠ .EOF ∧
      ((eqnClassify mode q ep).tok = .TOK__MAX → (eqnClassify mode q ep).text = ep.token) := by
  have hkey : ∀ tok, eqnKeyword ep.token = some tok → tok ≠ .EOF ∧ tok ≠ .TOK__MAX := by
    intro tok htok
    obtain ⟨x, hx, rfl⟩ := Option.map_eq_some_iff.mp htok
    have hall : ∀ x ∈ eqnToks, x.2 ≠ .EOF ∧ x.2 ≠ .TOK__MAX := by decide
    exact hall x (List.mem_of_find?_eq_some hx)
  unfold eqnClassify
  by_cases hq : q = true
  · simp [hq]
  · by_cases hm : mode = .TOK
    · cases hkw : eqnKeyword ep.token with
      | some tok =>
        obtain ⟨h1, h2⟩ := hkey tok hkw
        simp [hq, hm, hkw, h1, h2]
      | none =>
        cases hs : eqnsyms.find? (·.1.toList = ep.token) with
        | some sym => simp [hq, hm, hkw, hs]
        | none =>
          cases hf : eqnFunc.any (·.toList = ep.token) <;> simp [hq, hm, hkw, hs, hf]
    · simp [hq, hm]

/-! ## §4 One token of the equation -/

/-- What the loop of `eqn_next()` does when it begins to read at `ep.start`. -/
structure LoopResult (ep : EqnNode) (n : EqnNext) : Prop where
  clean : n.ep.Clean
  text : n.tok = .TOK__MAX → NUL ∉ n.text
  subcnt : ep.subcnt ≤ n.ep.subcnt
  gsize : n.ep.gsize = ep.gsize
  defs : n.ep.defs = ep.defs
  left : n.ep.data.length - n.ep.sublen ≤ ep.data.length - ep.sublen
  /-- Either nothing is replaced, and there is a token or nothing but blanks; or a name is
      replaced. -/
  read :
    (n.ep.data = ep.data ∧ n.ep.sublen = ep.sublen ∧
      (n.tok = .EOF ∧ n.ep.next = ep.next ∧ n.ep.subcnt = ep.subcnt ∧
          (ep.data.drop ep.start).all eqnBlank ∨
        n.tok ≠ .EOF ∧ ep.start < n.ep.next ∧ n.ep.next ≤ ep.data.length)) ∨
    (ep.subcnt < EQN_NEST_MAX ∧ ep.subcnt < n.ep.subcnt ∧
      (ep.data.drop ep.start).all eqnBlank = false ∧
      n.ep.data.length - n.ep.sublen < ep.data.length - ep.start)

/-- The loop of `eqn_next()` ends after at most `EQN_NEST_MAX` replacements. -/
theorem eqnNextLoop_spec (mode : ParseMode) (rounds : Nat) (moved : Bool) (hc : ep.Clean)
    (hrounds : EQN_NEST_MAX < ep.subcnt + rounds) (hpos : 0 < rounds) :
    ∃ n, eqnNextLoop mode rounds moved ep = .ok n ∧ LoopResult ep n := by
  -- By induction on the number of expansions that are still possible.
  induction rounds generalizing ep moved with
  | zero => exact absurd hpos (Nat.lt_irrefl 0)
  | succ rounds ih =>
    have hclean : ∀ start toksz next subcnt, EqnNode.Clean { ep with
        start := start, toksz := toksz, next := next, subcnt := subcnt } := fun _ _ _ _ =>
      ⟨hc.data, hc.defs⟩
    have hend : ∀ start, EqnNode.Clean { ep with
        start := start, toksz := 0, dangling := moved } := fun _ => ⟨hc.data, hc.defs⟩
    unfold eqnNextLoop
    split
    · -- The end of the text.
      rename_i ep' hdelim
      obtain ⟨⟨s, rfl⟩, hblank⟩ := eqnDelimit_none hc.data hdelim
      exact ⟨_, rfl, hend s, by simp, le_rfl, rfl, rfl, le_rfl,
        .inl ⟨rfl, rfl, .inl ⟨rfl, rfl, rfl, hblank⟩⟩⟩
    · -- A quoted token.
      rename_i ep' hdelim
      obtain ⟨start, toksz, next, rfl, hlt, hle⟩ := eqnDelimit_quoted hdelim
      obtain ⟨hep, htok, htext⟩ := eqnClassify_spec mode true
        { ep with start := start, toksz := toksz, next := next }
      have hcl := hclean start toksz next ep.subcnt
      refine ⟨_, rfl, by rwa [hep], fun ht => htext ht ▸ hcl.token, ?_, ?_, ?_, ?_,
        .inl ⟨?_, ?_, .inr ⟨htok, ?_, ?_⟩⟩⟩ <;> simp [hep, hlt, hle]
    · -- A token that may be a defined name.
      rename_i ep' hdelim
      obtain ⟨start, toksz, next, rfl, hstart, htoksz, hnext, hle, hblank⟩ :=
        eqnDelimit_plain hdelim
      have hlt : ep.start < next := by omega
      have hplain : ∀ subcnt, ep.subcnt ≤ subcnt → LoopResult ep (eqnClassify mode false
          { ep with start := start, toksz := toksz, next := next, subcnt := subcnt }) := by
        intro subcnt hsub
        obtain ⟨hep, htok, htext⟩ := eqnClassify_spec mode false
          { ep with start := start, toksz := toksz, next := next, subcnt := subcnt }
        have hcl := hclean start toksz next subcnt
        refine ⟨by rwa [hep], fun ht => htext ht ▸ hcl.token, ?_, ?_, ?_, ?_,
          .inl ⟨?_, ?_, .inr ⟨htok, ?_, ?_⟩⟩⟩ <;> simp [hep, hlt, hle, hsub]
      split
      · -- In the mode for definitions, names are not replaced.
        have hcl := hclean start toksz next ep.subcnt
        exact ⟨_, rfl, hcl, fun _ => hcl.token, le_rfl, rfl, rfl, le_rfl,
          .inl ⟨rfl, rfl, .inr ⟨by simp, hlt, hle⟩⟩⟩
      · split
        · -- It is not a defined name.
          exact ⟨_, rfl, hplain ep.subcnt le_rfl⟩
        · rename_i d hd
          -- Beyond the limit for expansions, the name is taken as it is.
          by_cases hmax : EQN_NEST_MAX < ep.subcnt + 1
          · simp only [hmax, if_true]
            exact ⟨_, rfl, hplain (ep.subcnt + 1) (Nat.le_succ _)⟩
          · simp only [hmax, if_false]
            -- The name is replaced by its value, and the loop starts again.
            have hval : NUL ∉ d.val := by
              obtain ⟨i, -, hi⟩ := Option.bind_eq_some_iff.mp hd
              exact hc.defs d (List.mem_of_getElem? hi)
            have hcl := eqnSubstitute_clean (hclean start toksz next (ep.subcnt + 1)) hval
            obtain ⟨n, hn, hr⟩ := ih _ hcl (by simp [eqnSubstitute]; omega) (by omega)
            obtain ⟨h1, h2⟩ := eqnSubstitute_left { ep with
              start := start, toksz := toksz, next := next, subcnt := ep.subcnt + 1 } d.val htoksz
              (Nat.le_trans hnext hle)
            have hsub := hr.subcnt
            have hleft := hr.left
            simp only [eqnSubstitute] at hsub hleft h1 h2
            exact ⟨n, hn, hr.clean, hr.text, by omega, hr.gsize, hr.defs, by omega,
              .inr ⟨by omega, by omega, hblank, by omega⟩⟩

theorem finished_mono (hdata : ep'.data = ep.data) (hnext : ep.next ≤ ep'.next)
    (h : ep.Finished = true) : ep'.Finished = true := by
  obtain ⟨k, hk⟩ := Nat.exists_eq_add_of_le hnext
  unfold EqnNode.Finished at h ⊢
  rw [hdata, hk, ← List.drop_drop]
  exact List.all_eq_true.mpr fun c hc => List.all_eq_true.mp h c (List.mem_of_mem_drop hc)

/-- As long as nothing is replaced, the budget only shrinks. -/
theorem budget_mono (hdata : ep'.data = ep.data) (hnext : ep.next ≤ ep'.next)
    (hsub : ep.subcnt ≤ ep'.subcnt) : ep'.budget ≤ ep.budget := by
  unfold EqnNode.budget
  by_cases h : ep.Finished = true
  · simp [h, finished_mono hdata hnext h]
  · simp only [h]
    split
    · exact Nat.zero_le _
    · simp
      omega

/-- The remaining text shrinks with every token, and never grows. -/
theorem LoopResult.left_le {n : EqnNext} {subcnt : Nat}
    (h : LoopResult { ep with subcnt := subcnt, start := ep.next } n)
    (hsub : subcnt = if ep.sublen ≤ ep.next then 0 else ep.subcnt) :
    n.ep.left ≤ ep.left ∧ (n.tok ≠ .EOF → n.ep.left < ep.left) := by
  have hcnt := h.subcnt
  have hleft := h.left
  simp only at hcnt hleft
  rcases h.read with ⟨hdata, hlen, hread⟩ | ⟨hmax, hless, hblank, hbehind⟩
  · simp only at hdata hlen
    rcases hread with ⟨htok, hnext, -, hall⟩ | ⟨-, hlt, hle⟩
    · -- At the end of the text, everything stays as it is.
      simp only at hnext
      have heq : n.ep.left = ep.left := by
        have h1 : ep.Finished = true := hall
        have h2 : n.ep.Finished = true := finished_mono hdata (Nat.le_of_eq hnext.symm) h1
        simp [EqnNode.left, EqnNode.budget, h1, h2, hdata, hlen, hnext]
      exact ⟨heq.le, fun hne => absurd htok hne⟩
    · -- A token is read. The counter may be reset if it is behind the last replacement.
      simp only at hlt hle
      have hlt' : n.ep.left < ep.left := by
        rw [left_lt_iff, hdata, hlen]
        by_cases hreset : ep.sublen ≤ ep.next
        · exact .inl (by omega)
        · rw [if_neg hreset] at hsub
          have hb := budget_mono hdata hlt.le (hsub ▸ hcnt)
          omega
      exact ⟨hlt'.le, fun _ => hlt'⟩
  · -- A name is replaced.
    simp only at hmax hless hblank hbehind
    have hlt : n.ep.left < ep.left := by
      rw [left_lt_iff]
      by_cases hreset : ep.sublen ≤ ep.next
      · exact .inl (by omega)
      · rw [if_neg hreset] at hsub
        have hb : n.ep.budget < ep.budget := by
          have hf : ep.Finished = false := hblank
          unfold EqnNode.budget
          rw [hf]
          split <;> simp <;> omega
        omega
    exact ⟨hlt.le, fun _ => hlt⟩

/-- **Progress of `eqn_next()`.** It always delivers a token, or finds the end of the text;
    the remaining text never grows, and shrinks with every token. -/
theorem eqnNext_spec (mode : ParseMode) (hc : ep.Clean) :
    Guarantees allowed (eqnNext mode ep) fun n => Advance ep n.ep ∧
      (n.tok ≠ .EOF → n.ep.left < ep.left) ∧ (n.tok = .TOK__MAX → NUL ∉ n.text) := by
  set subcnt := if ep.sublen ≤ ep.next then 0 else ep.subcnt with hsub
  have heq : eqnNext mode ep =
      eqnNextLoop mode (EQN_NEST_MAX + 1) false { ep with subcnt := subcnt, start := ep.next } := by
    unfold eqnNext
    by_cases hreset : ep.sublen ≤ ep.next <;> simp [hsub, hreset]
  have hclean : EqnNode.Clean { ep with subcnt := subcnt, start := ep.next } :=
    ⟨hc.data, hc.defs⟩
  obtain ⟨n, hn, hr⟩ := eqnNextLoop_spec mode (EQN_NEST_MAX + 1) false hclean (by omega) (by omega)
  obtain ⟨h1, h2⟩ := hr.left_le hsub
  exact Guarantees.of_eq (heq.trans hn) ⟨⟨h1, hr.clean⟩, h2, hr.text⟩

/-- The text is moved without another token being found only at the end of the text, and only
    in the modes in which names are replaced. So `end` can be used after a token, and after the
    other modes. -/
theorem eqnNextLoop_dangling {mode : ParseMode} {rounds : Nat} {moved : Bool} {n : EqnNext}
    (hd : ep.dangling = false) (hmoved : moved = true → mode = .SUB ∨ mode = .TOK)
    (hn : eqnNextLoop mode rounds moved ep = .ok n) (hdn : n.ep.dangling = true) :
    n.tok = .EOF ∧ (mode = .SUB ∨ mode = .TOK) := by
  induction rounds generalizing ep moved with
  | zero => cases hn
  | succ rounds ih =>
    have hdelimit : ∀ q ep', eqnDelimit mode ep = (q, ep') → ep'.dangling = false := by
      intro q ep' h
      have hkeep : (eqnDelimit mode ep).2.dangling = ep.dangling := by
        simp only [eqnDelimit]
        generalize (if mode = .QUOTED then ep.start else skipWhile eqnBlank ep.data ep.start) = start
        split
        · rfl
        · split <;> rfl
      rw [h] at hkeep
      exact hkeep.trans hd
    have hclassify : ∀ q ep', (eqnClassify mode q ep').ep.dangling = ep'.dangling := fun q ep' => by
      rw [(eqnClassify_spec mode q ep').1]
    rw [eqnNextLoop] at hn
    split at hn
    · -- The end of the text.
      cases hn
      exact ⟨rfl, hmoved hdn⟩
    · rename_i ep' hdelim
      cases hn
      rw [hclassify, hdelimit _ _ hdelim] at hdn
      cases hdn
    · rename_i ep' hdelim
      have hd' := hdelimit _ _ hdelim
      split at hn
      · cases hn
        rw [hd'] at hdn
        cases hdn
      rename_i hnosub
      split at hn
      · cases hn
        rw [hclassify, hd'] at hdn
        cases hdn
      simp only at hn
      split at hn
      · cases hn
        rw [hclassify] at hdn
        exact absurd (hd'.symm.trans hdn) Bool.false_ne_true
      · -- A name is replaced, and reading goes on.
        refine ih ?_ (fun _ => ?_) hn
        · exact hd'
        · cases mode with
          | QUOTED => exact absurd hdelim (by simp [eqnDelimit]; split <;> simp)
          | NOSUB => exact absurd rfl hnosub
          | SUB => exact .inl rfl
          | TOK => exact .inr rfl

/-- **The pointer to the end.** After `eqn_next()`, `end` points into a text that has been moved
    only if it did not deliver a token, in the modes in which names are replaced. -/
theorem eqnNext_dangling {mode : ParseMode} {n : EqnNext} (hd : ep.dangling = false)
    (hn : eqnNext mode ep = .ok n) (hdn : n.ep.dangling = true) :
    n.tok = .EOF ∧ (mode = .SUB ∨ mode = .TOK) := by
  refine eqnNextLoop_dangling ?_ (fun hf => by cases hf) hn hdn
  by_cases hreset : ep.sublen ≤ ep.next <;> simp [hreset, hd]

/-! ## §5 Control statements -/

/-- `eqn_delim()` skips a few bytes. -/
theorem eqnDelim_advance (hc : ep.Clean) : Advance ep (eqnDelim ep) := by
  -- What matters is that the position is not moved back.
  have hmove : ∀ ep' : EqnNode, ep'.data = ep.data → ep'.defs = ep.defs →
      ep'.sublen = ep.sublen → ep'.subcnt = ep.subcnt → ep.next ≤ ep'.next →
      Advance ep ep' := by
    intro ep' hdata hdefs hlen hsub hnext
    refine ⟨le_of_not_gt fun hlt => ?_, hdata ▸ hc.data, hdefs ▸ hc.defs⟩
    rw [left_lt_iff, hdata, hlen] at hlt
    have hb := budget_mono hdata hnext hsub.ge
    omega
  unfold eqnDelim
  simp only
  split
  · split
    · exact Advance.refl hc
    · exact hmove _ rfl rfl rfl rfl (Nat.le_add_right _ _)
  · split
    · exact hmove _ rfl rfl rfl rfl (Nat.le_add_right _ _)
    · split
      · exact hmove _ rfl rfl rfl rfl (Nat.le_add_right _ _)
      · exact hmove _ rfl rfl rfl rfl (Nat.le_add_right _ _)

theorem Advance.defs (h : Advance ep ep') {defs : List EqnDef} (hd : ∀ d ∈ defs, NUL ∉ d.val) :
    Advance ep { ep' with defs := defs } :=
  ⟨h.left, h.clean.data, hd⟩

theorem EqnNode.Clean.set (h : ep.Clean) (i : Nat) : ∀ d ∈ ep.defs.set i {}, NUL ∉ d.val := by
  intro d hd
  rcases List.mem_or_eq_of_mem_set hd with hd | rfl
  · exact h.defs d hd
  · simp

/-- Changing a definition. -/
theorem EqnNode.Clean.modify (h : ep.Clean) (i : Nat) {f : EqnDef → EqnDef}
    (hf : ∀ d, NUL ∉ d.val → NUL ∉ (f d).val) : ∀ d ∈ ep.defs.modify i f, NUL ∉ d.val := by
  intro d hd
  obtain ⟨j, hj⟩ := List.mem_iff_getElem?.mp hd
  rw [List.getElem?_modify] at hj
  obtain ⟨d', hd', rfl⟩ := Option.map_eq_some_iff.mp hj
  have hclean := h.defs d' (List.mem_of_getElem? hd')
  split
  · exact hf d' hclean
  · exact hclean

/-- `eqn_undef()` never fails. -/
theorem eqnUndef_spec (hc : ep.Clean) : Guarantees allowed (eqnUndef ep) (Advance ep) := by
  refine (eqnNext_spec .NOSUB hc).bind fun n ⟨hn, _, _⟩ => ?_
  refine Guarantees.ite (fun _ => Guarantees.pure_iff.mpr hn) fun _ => ?_
  cases eqnDefFind n.ep with
  | none => exact Guarantees.pure_iff.mpr hn
  | some i => exact Guarantees.pure_iff.mpr (hn.defs (hn.clean.set i))

/-- Finding a place for a definition. -/
theorem eqnDefPlace_advance (h : Advance ep ep') : Advance ep (eqnDefPlace ep').2 := by
  unfold eqnDefPlace
  split
  · exact h
  · split
    · exact h.defs (h.clean.modify _ fun _ hd => hd)
    · refine h.defs fun d hd => ?_
      rcases List.mem_append.mp hd with hd | hd
      · exact h.clean.defs d hd
      · rw [List.mem_singleton.mp hd]
        simp

/-- `eqn_def()` never fails. -/
theorem eqnDef_spec (hc : ep.Clean) : Guarantees allowed (eqnDef ep) (Advance ep) := by
  refine (eqnNext_spec .NOSUB hc).bind fun n ⟨hn, _, _⟩ => ?_
  refine Guarantees.ite (fun _ => Guarantees.pure_iff.mpr hn) fun _ => ?_
  have hplace := eqnDefPlace_advance hn
  refine (eqnNext_spec .QUOTED hplace.clean).bind fun n' ⟨hn', _, _⟩ => ?_
  have hadv := hplace.trans hn'
  refine Guarantees.ite (fun _ => Guarantees.pure_iff.mpr ?_) fun _ => Guarantees.pure_iff.mpr ?_
  · exact hadv.defs (hadv.clean.set _)
  · exact hadv.defs (hadv.clean.modify _ fun _ _ => hadv.clean.token)

end Mandoc
