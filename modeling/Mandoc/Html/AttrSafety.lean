import Mandoc.Html.EncodeScan

/-!
# Safety of Attribute Values

The values of attributes are printed with `print_encode()`, and document text must not be able to
end the attribute, or to inject markup. The main result, `printEncode_safe_iff`, says exactly for
which strings the text written is safe: the escape sequence `\p` requests a line break at the end
of the word, and that line break is written as an element, even within an attribute.
-/

namespace Mandoc

open Spacing

/-! ## §1 Line breaks -/

/-- At the index `i`, there is the escape sequence `\p`, and `j` is the index after it. -/
def BreakAt (buf : CStr) (pend i j : Nat) : Prop :=
  i < pend ∧ charAt buf i = '\\' ∧ ∃ r, mandocEscape buf i = .ok r ∧ r.rval = .BREAK ∧ r.rend = j

/-- At the index, there is a blank that ends a word, or an ordinary byte that ends the string. -/
def EndsWordAt (buf : CStr) (pend i : Nat) : Prop :=
  i < pend ∧ charAt buf i ≠ '\\' ∧
    (isWordEnd (charAt buf i) ∨ i + 1 = pend ∧ charAt buf i ∉ encodeRejs)

section

variable {buf : CStr} {pend i j : Nat} {skip brk : Bool}

/-- A requested line break will be printed. -/
def BreakPending (buf : CStr) (pend i : Nat) (skip : Bool) : Prop :=
  ∃ k, Scans buf pend (i, skip) (k, false) ∧ EndsWordAt buf pend k

/-- A line break will be requested, and it will be printed. -/
def PrintsBreak (buf : CStr) (pend i : Nat) (skip : Bool) : Prop :=
  ∃ j k, Scans buf pend (i, skip) (j, false) ∧ BreakAt buf pend j k ∧ BreakPending buf pend k false

/-- A line break will be printed, where `brk` says that one was already requested. -/
def Breaks (buf : CStr) (pend i : Nat) (skip brk : Bool) : Prop :=
  (brk = true ∧ BreakPending buf pend i skip) ∨ PrintsBreak buf pend i skip

/-- A byte ends a word, or it is left behind. -/
theorem breaks_byte (hi : i < pend) (hc : charAt buf i ≠ '\\') :
    Breaks buf pend i skip brk ↔
      (skip = false ∧ brk = true ∧ EndsWordAt buf pend i) ∨ Breaks buf pend (i + 1) false brk := by
  have hscan : ∀ u, Scans buf pend (i, skip) u ↔ (i, skip) = u ∨ Scans buf pend (i + 1, false) u :=
    fun u => scans_iff_of_step fun _ => scanStep_byte_iff hi hc
  have hnot : ∀ k, ¬ BreakAt buf pend i k := fun k h => hc h.2.1
  unfold Breaks PrintsBreak BreakPending
  simp only [hscan]
  grind

/-- An escape sequence requests a line break, or it is left behind. -/
theorem breaks_escape (hi : i < pend) (hc : charAt buf i = '\\') {r : EscResult}
    (hr : mandocEscape buf i = .ok r) : Breaks buf pend i skip brk ↔
      Breaks buf pend r.rend (skipAfter skip r.rval) (brk || (r.rval = .BREAK && !skip)) := by
  have hscan : ∀ u, Scans buf pend (i, skip) u ↔
      (i, skip) = u ∨ Scans buf pend (r.rend, skipAfter skip r.rval) u :=
    fun u => scans_iff_of_step fun _ => scanStep_escape_iff hi hc hr
  have hnot : ¬ EndsWordAt buf pend i := fun h => h.2.1 hc
  have hbreak : ∀ k, BreakAt buf pend i k ↔ r.rval = .BREAK ∧ r.rend = k := by
    intro k
    constructor
    · rintro ⟨-, -, r', hr', h⟩
      cases Except.ok.inj (hr.symm.trans hr')
      exact h
    · exact fun h => ⟨hi, hc, r, hr, h⟩
  have hskip : r.rval = .BREAK → skipAfter skip r.rval = false := fun h => by
    rw [h]
    rfl
  unfold Breaks PrintsBreak BreakPending
  simp only [hscan]
  grind

/-- A failure of the parser ends the scan. -/
theorem not_breaks_of_error (hc : charAt buf i = '\\') {e : Fault}
    (he : mandocEscape buf i = .error e) : ¬ Breaks buf pend i skip brk := by
  have hscan : ∀ u, Scans buf pend (i, skip) u ↔ (i, skip) = u := fun u =>
    scans_iff_of_none fun _ h => by
      cases h with
      | byte _ hbyte => exact hbyte hc
      | escape _ _ hr => exact absurd (he.symm.trans hr) (by simp)
  have hnot : ¬ EndsWordAt buf pend i := fun h => h.2.1 hc
  have hbreak : ∀ k, ¬ BreakAt buf pend i k := by
    rintro k ⟨-, -, r, hr, -⟩
    exact absurd (he.symm.trans hr) (by simp)
  unfold Breaks PrintsBreak BreakPending
  simp only [hscan]
  grind

/-- Behind the end, there are no line breaks. -/
theorem not_breaks_of_end (hi : pend ≤ i) : ¬ Breaks buf pend i skip brk := by
  have hscan : ∀ u, Scans buf pend (i, skip) u ↔ (i, skip) = u := fun u =>
    scans_iff_of_none fun _ h => by
      cases h with
      | byte hlt => exact absurd hlt (Nat.not_lt.mpr hi)
      | escape hlt => exact absurd hlt (Nat.not_lt.mpr hi)
  have hnot : ¬ EndsWordAt buf pend i := fun h => absurd h.1 (Nat.not_lt.mpr hi)
  have hbreak : ∀ k, ¬ BreakAt buf pend i k := fun k h => absurd h.1 (Nat.not_lt.mpr hi)
  unfold Breaks PrintsBreak BreakPending
  simp only [hscan]
  grind

/-- A run of ordinary bytes at the end of the string ends a word. -/
theorem breaks_run {i n : Nat} {brk : Bool}
    (h : ∀ k, k < n → i + k < pend ∧ charAt buf (i + k) ∉ encodeRejs) :
    Breaks buf pend i false brk ↔
      (brk = true ∧ 0 < n ∧ i + n = pend) ∨ Breaks buf pend (i + n) false brk := by
  induction n generalizing i with
  | zero => simp
  | succ n ih =>
    obtain ⟨hlt, hord⟩ := h 0 (Nat.succ_pos n)
    rw [Nat.add_zero] at hlt hord
    have hne : charAt buf i ≠ '\\' := fun heq => hord (heq ▸ by decide)
    have hend : EndsWordAt buf pend i ↔ i + 1 = pend := by
      have hblank : isWordEnd (charAt buf i) = false := by
        simp only [isWordEnd, Bool.or_eq_false_iff, decide_eq_false_iff_not]
        exact ⟨fun heq => hord (heq ▸ by decide), fun heq => hord (heq ▸ by decide)⟩
      unfold EndsWordAt
      simp [hlt, hne, hblank, hord]
    have hrest := ih (i := i + 1) fun k hk => by
      have := h (k + 1) (Nat.succ_lt_succ hk)
      rwa [Nat.add_comm k 1, ← Nat.add_assoc] at this
    have hn : 0 < n → i + 1 ≠ pend := fun hpos heq => by
      have := (h 1 (Nat.succ_lt_succ hpos)).1
      omega
    rw [breaks_byte hlt hne, hend, hrest, Nat.add_right_comm, Nat.add_assoc]
    grind

/-! ## §2 One iteration -/

/-- A line break will be printed in this or in a later iteration. -/
def EncodeState.Breaks (buf : CStr) (pend : Nat) (st : EncodeState) : Prop :=
  Mandoc.Breaks buf pend st.p st.h.flags.skipchar st.breakline

/-- What an iteration does, where the proposition says that a line break will be printed in this
    or in a later iteration: either it is printed now, or everything printed is safe, and the
    proposition remains as it is. -/
def StepSpec (buf : CStr) (pend : Nat) (st : EncodeState) (B : Prop) :
    Res (Loop.Next EncodeState (Html × Bool)) → Prop
  | .error _ => ¬ B
  | .ok (.done _) => ¬ B
  | .ok (.again st') =>
    (st.p < st'.p ∧ AttrSafe st.h st'.h ∧ (B ↔ st'.Breaks buf pend)) ∨
      (B ∧ ∃ ms, Emits st.h st'.h ms ∧ '<' ∈ syms ms)

variable {st : EncodeState}

/-- The second part of an iteration. -/
theorem EncodeSpecial.stepSpec {res : Res (Loop.Next EncodeState (Html × Bool))}
    (h : EncodeSpecial buf pend st res)
    (hskip : st.h.flags.skipchar = true → charAt buf st.p = '\\')
    (hstop : st.p < pend → charAt buf st.p ∈ encodeRejs) :
    StepSpec buf pend st ((st.breakline = true ∧ pend ≤ st.p) ∨ st.Breaks buf pend) res := by
  have hnoskip : charAt buf st.p ≠ '\\' → st.h.flags.skipchar = false :=
    fun hne => Bool.eq_false_iff.mpr fun htrue => hne (hskip htrue)
  have hB : st.p < pend → ((st.breakline = true ∧ pend ≤ st.p) ∨ st.Breaks buf pend ↔
      st.Breaks buf pend) := fun hlt => or_iff_right fun h => absurd h.2 (Nat.not_le.mpr hlt)
  cases h with
  -- A line break is printed.
  | breakline hbrk hend =>
    refine .inr ⟨?_, emits_printOtagBr st.h⟩
    by_cases hle : pend ≤ st.p
    · exact .inl ⟨hbrk, hle⟩
    · have hlt := Nat.lt_of_not_le hle
      have hblank := hend.resolve_left hle
      have hne : charAt buf st.p ≠ '\\' := fun heq => by
        rw [heq] at hblank
        exact absurd hblank (by decide)
      exact .inr ((breaks_byte hlt hne).mpr (.inl ⟨hnoskip hne, hbrk, hlt, hne, .inl hblank⟩))
  | finish hbrk hle =>
    rintro (⟨htrue, -⟩ | hbreaks)
    · exact absurd (htrue.symm.trans hbrk) (by simp)
    · exact not_breaks_of_end hle hbreaks
  | byte hnoend hlt hne hflag hsafe =>
    -- The byte is encoded, and the line is not broken there.
    refine .inl ⟨Nat.lt_succ_self _, hsafe, (hB hlt).trans ((breaks_byte hlt hne).trans ?_)⟩
    rw [EncodeState.Breaks, hflag, hnoskip hne]
    refine or_iff_right ?_
    rintro ⟨-, hbrk, -, -, hblank | ⟨-, hord⟩⟩
    · exact hnoend ⟨hbrk, hblank⟩
    · exact hord (hstop hlt)
  | escape hlt hc hr hprogress hdone hsafe =>
    refine .inl ⟨hdone.p ▸ hprogress, hsafe, (hB hlt).trans ?_⟩
    rw [EncodeState.Breaks, EncodeState.Breaks, hdone.p, hdone.skipchar, hdone.breakline]
    exact breaks_escape hlt hc hr
  | fail hlt hc hr => exact fun hbreaks => not_breaks_of_error hc hr ((hB hlt).mp hbreaks)

/-- One iteration. -/
theorem encodeStep_spec (spec2cp : CStr → Int) (hs : NUL ∉ buf) (st : EncodeState) :
    StepSpec buf buf.length st (st.Breaks buf buf.length) (encodeStep spec2cp buf buf.length st) := by
  have hcases := encodeStep_cases spec2cp hs (Nat.le_refl _) st
  generalize encodeStep spec2cp buf buf.length st = res at hcases
  cases hcases with
  | finish hle => exact not_breaks_of_end hle
  -- A byte is skipped, and nothing is printed.
  | skip hlt hflag hne =>
    refine .inl ⟨Nat.lt_succ_self _, attrSafe_setSkip st false, (breaks_byte hlt hne).trans ?_⟩
    exact or_iff_right fun h => absurd (hflag.symm.trans h.1) (by simp)
  -- A run of ordinary bytes is printed before the special one.
  | @special n h _ hlt hzero hrun hflag hords hstop hspecial =>
    have hsafe : AttrSafe st.h h := by
      have := attrSafe_encodeRun buf buf.length st
      rwa [hrun] at this
    -- The line may be broken in the run or behind it.
    have hB : st.Breaks buf buf.length ↔ (st.breakline = true ∧ buf.length ≤ st.p + n) ∨
        EncodeState.Breaks buf buf.length { st with h := h, p := st.p + n } := by
      rw [EncodeState.Breaks, EncodeState.Breaks, hflag]
      cases hst : st.h.flags.skipchar with
      | true =>
        rw [(hzero hst).1, Nat.add_zero]
        exact (or_iff_right fun h => absurd h.2 (Nat.not_le.mpr hlt)).symm
      | false =>
        have hend : buf.length ≤ st.p + n ↔ 0 < n ∧ st.p + n = buf.length := by
          constructor
          · intro hge
            have hpos : 0 < n := by omega
            have := (hords (n - 1) (Nat.sub_lt hpos Nat.one_pos)).1
            omega
          · exact fun h => h.2.ge
        rw [hend]
        exact breaks_run hords
    have hspec := hspecial.stepSpec (fun htrue => by
      obtain ⟨hn, hc⟩ := hzero (hflag ▸ htrue)
      rw [hn]
      exact hc) hstop
    -- What the special byte does is known; it follows the run.
    rw [← hB] at hspec
    cases res with
    | error e => exact hspec
    | ok next =>
      cases next with
      | done r => exact hspec
      | again st' =>
        obtain ⟨hp', hsafe', hB'⟩ | ⟨hbreaks, ms, hemits, hmarkup⟩ := hspec
        · exact .inl ⟨Nat.lt_of_le_of_lt (Nat.le_add_right _ _) hp', hsafe.trans hsafe', hB'⟩
        · obtain ⟨ms', -, hemits'⟩ := hsafe
          refine .inr ⟨hbreaks, ms' ++ ms, hemits'.trans hemits, ?_⟩
          rw [syms_append]
          exact List.mem_append_right _ hmarkup

/-! ## §3 The whole loop -/

/-- The output during a call of `print_encode()`: at the beginning of an iteration, and after the
    ordinary bytes printed there. -/
inductive Written (spec2cp : CStr → Int) (h : Html) (p : CStr) : Html → Prop where
  | begin {st : EncodeState} : Loop.Reaches (encodeStep spec2cp p p.length) { h, p := 0 } st →
      Written spec2cp h p st.h
  | run {st : EncodeState} : Loop.Reaches (encodeStep spec2cp p p.length) { h, p := 0 } st →
      (st.h.flags.skipchar = true → charAt p st.p = '\\') →
      Written spec2cp h p (encodeRun p p.length st).h

/-- What the function returns was written during the call. -/
theorem written_of_printEncode {spec2cp : CStr → Int} {h h' : Html} {p : CStr} {nospace : Bool}
    (hp : NUL ∉ p) (hres : printEncode spec2cp h p = .ok (h', nospace)) : Written spec2cp h p h' := by
  obtain ⟨st, hst, hdone⟩ := Loop.run_eq_ok hres
  have hcases := encodeStep_cases spec2cp hp (Nat.le_refl _) st
  rw [hdone] at hcases
  cases hcases with
  | finish => exact .begin hst
  | special _ hzero hrun _ _ _ hspecial =>
    cases hspecial with
    | finish =>
      have hwritten := Written.run hst fun htrue => (hzero htrue).2
      rwa [hrun] at hwritten

/-- As long as no line break is printed, everything that was written is safe. -/
theorem attrSafe_of_not_breaks (spec2cp : CStr → Int) {h : Html} {p : CStr} (hp : NUL ∉ p)
    (hbreaks : ¬ Breaks p p.length 0 h.flags.skipchar false) {st : EncodeState}
    (hst : Loop.Reaches (encodeStep spec2cp p p.length) { h, p := 0 } st) :
    AttrSafe h st.h ∧ ¬ st.Breaks p p.length := by
  induction hst with
  | refl => exact ⟨.refl h, hbreaks⟩
  | @tail st₁ st₂ _ hstep ih =>
    obtain ⟨hsafe, hno⟩ := ih
    have hspec : StepSpec p p.length st₁ (st₁.Breaks p p.length)
        (encodeStep spec2cp p p.length st₁) := encodeStep_spec spec2cp hp _
    rw [show encodeStep spec2cp p p.length st₁ = _ from hstep] at hspec
    obtain ⟨-, hsafe', hB⟩ | ⟨hyes, -⟩ := hspec
    · exact ⟨hsafe.trans hsafe', fun hyes => hno (hB.mpr hyes)⟩
    · exact absurd hyes hno

/-- A line break that will be printed is printed in one of the iterations. By induction on the
    number of bytes that are left. -/
theorem markup_of_breaks (spec2cp : CStr → Int) {p : CStr} (hp : NUL ∉ p) {st : EncodeState}
    (hbreaks : st.Breaks p p.length) :
    ∃ st' ms, Loop.Reaches (encodeStep spec2cp p p.length) st st' ∧ Emits st.h st'.h ms ∧
      '<' ∈ syms ms := by
  induction hn : p.length - st.p using Nat.strong_induction_on generalizing st with
  | _ n ih =>
    have hlt : st.p < p.length := Nat.lt_of_not_le fun hle => not_breaks_of_end hle hbreaks
    have hspec : StepSpec p p.length st (st.Breaks p p.length)
        (encodeStep spec2cp p p.length st) := encodeStep_spec spec2cp hp _
    cases hstep : encodeStep spec2cp p p.length st with
    | error e =>
      rw [hstep] at hspec
      exact absurd hbreaks hspec
    | ok res =>
      rw [hstep] at hspec
      cases res with
      | done r => exact absurd hbreaks hspec
      | again st₁ =>
        have hcont : Loop.Continues (encodeStep spec2cp p p.length) st st₁ := hstep
        obtain ⟨hprogress, ⟨ms₁, -, hemits₁⟩, hB⟩ | ⟨-, ms, hemits, hmarkup⟩ := hspec
        · obtain ⟨st', ms, hreach, hemits, hmarkup⟩ :=
            ih (p.length - st₁.p) (by omega) (hB.mp hbreaks) rfl
          refine ⟨st', ms₁ ++ ms, .head hcont hreach, hemits₁.trans hemits, ?_⟩
          rw [syms_append]
          exact List.mem_append_right _ hmarkup
        · exact ⟨st₁, ms, .single hcont, hemits, hmarkup⟩

/-- **Attribute safety.** Everything written by `print_encode()` for an attribute is safe if and
    only if the string does not contain an escape sequence `\p` that is interpreted, and that is
    followed by an interpreted blank, or by an ordinary byte at the end of the string. -/
theorem printEncode_safe_iff (spec2cp : CStr → Int) {p : CStr} (hp : NUL ∉ p) {h : Html}
    (hh : ∃ ms, Holds h ms) :
    (∀ h', Written spec2cp h p h' → AttrSafe h h') ↔
      ¬ PrintsBreak p p.length 0 h.flags.skipchar := by
  have hiff : Breaks p p.length 0 h.flags.skipchar false ↔
      PrintsBreak p p.length 0 h.flags.skipchar := or_iff_right fun h => absurd h.1 (by simp)
  rw [← hiff]
  constructor
  · intro hall hbreaks
    have hst : EncodeState.Breaks p p.length { h, p := 0 } := hbreaks
    obtain ⟨st', ms, hreach, hemits, hmarkup⟩ := markup_of_breaks spec2cp hp hst
    exact not_attrSafe_of_emits hh hemits hmarkup (hall _ (.begin hreach))
  · intro hbreaks h' hw
    cases hw with
    | begin hst => exact (attrSafe_of_not_breaks spec2cp hp hbreaks hst).1
    | run hst _ =>
      exact (attrSafe_of_not_breaks spec2cp hp hbreaks hst).1.trans (attrSafe_encodeRun _ _ _)

/-- Without escape sequences, the output is safe. -/
theorem printEncode_safe_plain : NUL ∉ "a<b".toList ∧ ∀ h',
    Written (fun _ => -1) {} "a<b".toList h' → AttrSafe {} h' := by
  refine ⟨by decide, (printEncode_safe_iff _ (by decide) ⟨[], holds_initial⟩).mpr ?_⟩
  rintro ⟨j, k, -, ⟨hj, hc, -⟩, -⟩
  have hmem : '\\' ∈ "a<b".toList := by
    rw [← hc, charAt_eq_getElem hj]
    exact List.getElem_mem hj
  exact absurd hmem (by decide)

/-- The line break after the word in `foo\pbar` is written into the attribute. -/
theorem printEncode_unsafe_break : ¬ ∀ (spec2cp : CStr → Int) (p : CStr) (h : Html), NUL ∉ p →
    (∃ ms, Holds h ms) → ∀ h', Written spec2cp h p h' → AttrSafe h h' := by
  intro hall
  have hres : printEncode (fun _ => -1) {} "foo\\pbar".toList = .ok
      ({ flags := { nospace := true }, out := "foobar\n<br/>\n".toList }, false) := by
    decide +kernel
  obtain ⟨ms, htext, hemits⟩ := hall _ _ _ (by decide) ⟨[], holds_initial⟩ _
    (written_of_printEncode (by decide) hres)
  have hvisible := (hemits [] holds_initial).visible_eq
  have hmem : '<' ∈ visible isspace (syms ms) := hvisible ▸ by decide
  exact (htext.noMarkup (List.mem_filter.mp hmem).1).1 rfl

end

end Mandoc
