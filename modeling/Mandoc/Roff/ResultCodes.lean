import Mandoc.Roff.RequestSpecs

/-!
# The Contract between the Parser and the Reader

The line reader `mparse_buf_r()` makes assertions about the result code that
`roff_parseln()` returns. This module determines for which parser states and lines these
assertions hold.

Each request handler on its own returns a code that the reader accepts. Inside a
conditional scope, `roff_cond_sub()` combines the code of the request with the code for
the end of a loop. That goes wrong when the line ends a `.while` loop and the request on
it is a `.return` from a macro or a string called as a macro, because the codes of these
two are only accepted alone.
-/

namespace Mandoc

variable {X : Type}

/-! ## §1 Accepted result codes -/

/-- The assertions of `mparse_buf_r()`: appending and returning from a macro happen only
    together with ignoring the line and without any loop flag, a macro call only together
    with reparsing, and both the loop flags and the main instruction are among those
    handled. -/
structure Code.Accepted (e : Code) : Prop where
  append : e.has ROFF_APPEND → e = ROFF_IGN ||| ROFF_APPEND
  usercall : e.has ROFF_USERCALL → e &&& ROFF_MASK = ROFF_REPARSE
  userret : e.has ROFF_USERRET → e = ROFF_IGN ||| ROFF_USERRET
  loop : e &&& ROFF_LOOPMASK ∈ [ROFF_IGN, ROFF_WHILE, ROFF_LOOPCONT, ROFF_LOOPEXIT]
  main : e &&& ROFF_MASK ∈ [ROFF_IGN, ROFF_CONT, ROFF_RERUN, ROFF_REPARSE, ROFF_SO]

instance (e : Code) : Decidable e.Accepted :=
  decidable_of_iff
    ((e.has ROFF_APPEND → e = ROFF_IGN ||| ROFF_APPEND) ∧
      (e.has ROFF_USERCALL → e &&& ROFF_MASK = ROFF_REPARSE) ∧
      (e.has ROFF_USERRET → e = ROFF_IGN ||| ROFF_USERRET) ∧
      e &&& ROFF_LOOPMASK ∈ [ROFF_IGN, ROFF_WHILE, ROFF_LOOPCONT, ROFF_LOOPEXIT] ∧
      e &&& ROFF_MASK ∈ [ROFF_IGN, ROFF_CONT, ROFF_RERUN, ROFF_REPARSE, ROFF_SO])
    ⟨fun ⟨h1, h2, h3, h4, h5⟩ => ⟨h1, h2, h3, h4, h5⟩,
      fun ⟨h1, h2, h3, h4, h5⟩ => ⟨h1, h2, h3, h4, h5⟩⟩

/-- Result codes that may be combined with the end of a loop. -/
def plainCodes : List Code :=
  [ROFF_IGN, ROFF_CONT, ROFF_RERUN, ROFF_RERUN ||| ROFF_WHILE, ROFF_REPARSE,
    ROFF_REPARSE ||| ROFF_USERCALL, ROFF_SO]

/-- Result codes that the reader accepts only alone. -/
def loneCodes : List Code := [ROFF_IGN ||| ROFF_APPEND, ROFF_IGN ||| ROFF_USERRET]

/-- Codes for the end of a loop. -/
def loopCodes : List Code := [ROFF_IGN, ROFF_LOOPCONT, ROFF_LOOPEXIT]

/-- What `roff_cond_sub()` makes of the codes for the end of a loop and of a request. -/
def combine (irc code : Code) : Code :=
  let irc := irc ||| code
  if irc.has ROFF_WHILE then irc &&& ~~~(ROFF_LOOPCONT ||| ROFF_LOOPEXIT) else irc

theorem accepted_of_lone : ∀ code ∈ loneCodes, code.Accepted := by
  intro code hc
  fin_cases hc <;> decide +kernel

theorem accepted_of_loop : ∀ irc ∈ loopCodes, irc.Accepted := by
  intro irc hi
  fin_cases hi <;> decide +kernel

theorem accepted_of_plain : ∀ code ∈ plainCodes, code.Accepted := by
  intro code hc
  fin_cases hc <;> decide +kernel

theorem accepted_combine : ∀ irc ∈ loopCodes, ∀ code ∈ plainCodes,
    (combine irc code).Accepted := by
  intro irc hi code hc
  fin_cases hi <;> fin_cases hc <;> decide +kernel

theorem accepted_combine_lone : ∀ irc ∈ loopCodes, ∀ code ∈ loneCodes,
    ((combine irc code).Accepted ↔ irc = ROFF_IGN) := by
  intro irc hi code hc
  fin_cases hi <;> fin_cases hc <;> decide +kernel

/-! ## §2 Codes of the request handlers -/

/-- The request or macro is a return from the current macro. -/
def MacroReturn (a : Args X) : Prop := a.tok = .ROFF_return ∧ a.r.mstack ≠ []

/-- The request or macro is a user-defined string that is called as a macro: its value is
    neither empty nor ends in a newline. -/
def StringCall (a : Args X) : Prop :=
  a.tok = .ROFF_USERDEF ∧
    ∃ value, a.r.currentString = some value ∧ value ≠ [] ∧ value.getLast? ≠ some '\n'

/-- A handler returns a code that is accepted only alone for these requests, and any other
    code for all others. -/
def CodeSpec (a : Args X) (out : Out X) : Prop :=
  (MacroReturn a ∨ StringCall a → out.code ∈ loneCodes) ∧
    (¬ (MacroReturn a ∨ StringCall a) → out.code ∈ plainCodes)

theorem codeSpec_of_plain {a : Args X} {out : Out X} (ht : a.tok ≠ .ROFF_return)
    (hu : a.tok ≠ .ROFF_USERDEF) (h : out.code ∈ plainCodes) : CodeSpec a out :=
  ⟨fun ha => absurd ha (by simp [MacroReturn, StringCall, ht, hu]), fun _ => h⟩

theorem Ignores.plain {a : Args X} {out : Out X} (h : Ignores a out) : out.code ∈ plainCodes := by
  simp [h.1, plainCodes]

theorem roffCond_code (env : Env X) (a : Args X) :
    Ensures (roffCond env a) fun out => out.code ∈ plainCodes := by
  unfold roffCond
  apply Ensures.call
  intro c
  apply Ensures.call
  intro _
  rw [Ensures.pure_iff]
  dsimp only
  split <;> simp [plainCodes]

theorem roffCblock_code (a : Args X) :
    Ensures (roffCblock a) fun out => out.code = ROFF_IGN := by
  unfold roffCblock
  split
  · exact Ensures.ok_iff.mpr rfl
  · split_ifs
    · simp
    · exact Ensures.ok_iff.mpr rfl
    · dsimp only
      split
      · exact Ensures.ok_iff.mpr rfl
      · apply Ensures.ite
        · exact fun _ => .call fun _ => Ensures.ok_iff.mpr rfl
        · exact fun _ => Ensures.ok_iff.mpr rfl

theorem roffUserdef_code (env : Env X) (fuel : Nat) (a : Args X) (ha : a.tok = .ROFF_USERDEF) :
    Ensures (roffUserdef env fuel a) (CodeSpec a) := by
  have hret : ¬ MacroReturn a := by simp [MacroReturn, ha]
  apply (roffUserdef_spec env fuel a).mono
  rintro out (⟨hs, hi⟩ | ⟨value, hs, hne, hc, -⟩)
  · refine ⟨fun h => ?_, fun _ => hi.plain⟩
    obtain ⟨-, value, hv, hne, -⟩ := h.resolve_left hret
    cases hs.symm.trans hv
    exact absurd rfl hne
  · split at hc
    · rename_i hlast
      refine ⟨fun h => ?_, fun _ => by simp [hc, plainCodes]⟩
      obtain ⟨-, value', hv, -, hnot⟩ := h.resolve_left hret
      cases hs.symm.trans hv
      exact absurd hlast hnot
    · rename_i hlast
      exact ⟨fun _ => by simp [hc, loneCodes],
        fun h => absurd (.inr ⟨ha, value, hs, hne, hlast⟩) h⟩

theorem roffReturn_code (a : Args X) (ha : a.tok = .ROFF_return) :
    Ensures (roffReturn a) (CodeSpec a) := by
  unfold roffReturn
  rw [Ensures.ok_iff]
  by_cases hm : a.r.mstack = []
  · refine ⟨fun h => ?_, fun _ => by simp [Args.out, hm, plainCodes]⟩
    rcases h with h | h
    · exact absurd hm h.2
    · exact absurd (ha.symm.trans h.1) (by simp)
  · exact ⟨fun _ => by simp [Args.out, hm, loneCodes], fun h => absurd (.inl ⟨ha, hm⟩) h⟩

theorem roffProc_code (env : Env X) (fuel : Nat) (a : Args X) :
    Ensures (roffProc env fuel a) (CodeSpec a) := by
  -- Codes of a restricted list do for every request but .return and macros.
  have hplain : ∀ {x : Res (Out X)}, a.tok ≠ .ROFF_return → a.tok ≠ .ROFF_USERDEF →
      Ensures x (fun out => out.code ∈ plainCodes) → Ensures x (CodeSpec a) :=
    fun ht hu h => h.mono fun _ => codeSpec_of_plain ht hu
  cases hp : a.tok.isPlain with
  | true =>
    -- Requests that have no function of their own are ignored.
    apply hplain
    · rintro ht
      simp [ht, Tok.isPlain] at hp
    · rintro ht
      simp [ht, Tok.isPlain] at hp
    · exact (roffProc_plain env fuel a hp).mono fun _ => Ignores.plain
  | false =>
    -- Each of the other functions returns codes of its own.
    have hs := roffProc_special env fuel a hp
    generalize roffProc env fuel a = x at hs ⊢
    cases hs with
    | block h =>
      apply hplain
      · rintro ht
        simp [ht, Tok.opensBlock, compatTok, Tok.isBlock] at h
      · rintro ht
        simp [ht, Tok.opensBlock, compatTok, Tok.isBlock] at h
      · exact (roffBlock_spec a).mono fun out ho => by simp [ho.1, plainCodes]
    | cblock h =>
      apply hplain (by simp [h]) (by simp [h])
      exact (roffCblock_code a).mono fun out ho => by simp [ho, plainCodes]
    | cond h =>
      apply hplain
      · rintro ht
        simp [ht, Tok.isCond] at h
      · rintro ht
        simp [ht, Tok.isCond] at h
      · exact roffCond_code env a
    | nop h =>
      apply hplain (by simp [h]) (by simp [h])
      exact Ensures.ok_iff.mpr (by simp [plainCodes])
    | «return» h => exact roffReturn_code a h
    | Dd h =>
      apply hplain (by rcases h with h | h <;> simp [h]) (by rcases h with h | h <;> simp [h])
      exact (roffDd_spec a).mono fun out ho => by simp [ho.1, plainCodes]
    | TE h =>
      apply hplain (by simp [h]) (by simp [h])
      exact (roffTE_spec env a).mono fun out ho => by
        rcases ho.1 with hc | hc <;> simp [hc, plainCodes]
    | so h =>
      apply hplain (by rcases h with h | h <;> simp [h]) (by rcases h with h | h <;> simp [h])
      exact (roffSo_spec a).mono fun out ho => by
        rcases ho.1 with hc | hc <;> simp [hc, plainCodes]
    | renamed h =>
      apply hplain (by simp [h]) (by simp [h])
      exact (roffRenamed_spec a).mono fun out ho => by simp [ho.1, plainCodes]
    | userdef h => exact roffUserdef_code env fuel a h
    | null => simp

theorem abortCe_fields (r : Roff X) (tok : Tok) :
    (abortCe r tok).mstack = r.mstack ∧ (abortCe r tok).currentString = r.currentString := by
  unfold abortCe
  split
  · split <;> exact ⟨rfl, rfl⟩
  · exact ⟨rfl, rfl⟩

theorem roffReqOrMacro_code (env : Env X) (fuel : Nat) (a : Args X) :
    Ensures (roffReqOrMacro env fuel a) (CodeSpec a) := by
  unfold roffReqOrMacro
  apply Ensures.ite
  · rintro ⟨-, ht⟩
    have hret : a.tok ≠ .ROFF_return := by
      intro h
      simp [h, Tok.inTable] at ht
    have huser : a.tok ≠ .ROFF_USERDEF := by
      intro h
      simp [h, Tok.inTable] at ht
    apply Ensures.ite
    · exact fun _ => Ensures.ok_iff.mpr
        (codeSpec_of_plain hret huser (by simp [Args.out, plainCodes]))
    · exact fun _ => .call fun _ => Ensures.ok_iff.mpr
        (codeSpec_of_plain hret huser (by simp [Args.out, plainCodes]))
  · intro _
    apply Ensures.ite
    · intro h
      exact Ensures.ok_iff.mpr
        (codeSpec_of_plain (by simp [h]) (by simp [h]) (by simp [Args.out, plainCodes]))
    · intro _
      obtain ⟨hm, hc⟩ := abortCe_fields a.r a.tok
      apply (roffProc_code env fuel { a with r := abortCe a.r a.tok }).mono
      intro out h
      simpa only [CodeSpec, MacroReturn, StringCall, hm, hc] using h

/-! ## §3 Conditional scopes -/

theorem roffCondCheckend_code (r : Roff X) (tok : Tok) (buf : Buf) (pos : Nat)
    (preserve : Bool) :
    Ensures (roffCondCheckend r tok buf pos preserve) fun c => c.irc ∈ loopCodes := by
  unfold roffCondCheckend
  split
  · simp
  · rw [Ensures.ok_iff]
    dsimp only
    split_ifs <;> simp [loopCodes]

/-- The line ends a loop, and the request on it leaves the current macro or is a string called
    as a macro. -/
def LeavesClosedLoop (a : Args X) : Prop :=
  ∃ c t, roffCondCheckend a.r a.tok a.buf a.pos false = .ok c ∧ c.irc ≠ ROFF_IGN ∧ c.rr = true ∧
    roffParse c.r c.buf a.pos = .ok t ∧
    (MacroReturn (a.request t) ∨ StringCall (a.request t))

theorem roffCondSub_accepted (env : Env X) (fuel : Nat) (a : Args X) :
    Ensures (roffCondSub env fuel a) fun out => out.code.Accepted ↔ ¬ LeavesClosedLoop a := by
  unfold roffCondSub
  apply Ensures.call_eq
  intro c hc
  have hirc := (roffCondCheckend_code a.r a.tok a.buf a.pos false).of_eq_ok hc
  apply Ensures.call_eq
  intro t ht
  -- The two calls determine whether the line goes wrong.
  have hleaves : LeavesClosedLoop a ↔ c.irc ≠ ROFF_IGN ∧ c.rr = true ∧
      (MacroReturn (a.request t) ∨ StringCall (a.request t)) := by
    constructor
    · rintro ⟨c', t', hc', hi, hr, ht', h⟩
      cases hc.symm.trans hc'
      cases ht.symm.trans ht'
      exact ⟨hi, hr, h⟩
    · rintro ⟨hi, hr, h⟩
      exact ⟨c, t, hc, hi, hr, ht, h⟩
  have hplain : ∀ code ∈ plainCodes, (combine c.irc code).Accepted :=
    accepted_combine c.irc hirc
  have hignored : c.irc.Accepted := accepted_of_loop c.irc hirc
  rw [hleaves]
  apply Ensures.ite
  · intro hbreak
    have hnot : ¬ (MacroReturn (a.request t) ∨ StringCall (a.request t)) := by
      simp [MacroReturn, StringCall, Args.request, hbreak]
    have hexit : (ROFF_IGN ||| ROFF_LOOPEXIT : Code).Accepted := by decide +kernel
    split_ifs <;> rw [Ensures.pure_iff] <;> simp only [hnot, and_false, not_false_iff, iff_true]
    · exact hexit
    · exact hignored
    · exact hignored
  · intro _
    apply Ensures.ite
    · intro hr
      apply (roffReqOrMacro_code ..).bind
      rintro out ⟨hlone, hplain'⟩
      rw [Ensures.pure_iff]
      change (combine c.irc out.code).Accepted ↔ _
      by_cases hl : MacroReturn (a.request t) ∨ StringCall (a.request t)
      · -- A return or a string call is not a structural request, so the scope is true.
        have hrr : c.rr = true := by
          apply hr.resolve_right
          rcases hl with h | h
          · simp [show t.tok = .ROFF_return from h.1, Tok.isStruct]
          · simp [show t.tok = .ROFF_USERDEF from h.1, Tok.isStruct]
        rw [accepted_combine_lone c.irc hirc out.code (hlone hl)]
        simp [hl, hrr]
      · simp only [hl, and_false, not_false_iff, iff_true]
        exact hplain out.code (hplain' hl)
    · intro hr
      rw [Ensures.pure_iff]
      exact ⟨fun _ h => hr (.inl h.2.1), fun _ => hignored⟩

/-! ## §4 Lines -/

theorem roffParseComment_code (r : Roff X) (buf : Buf) (ln pos : Nat) (ec : Char) :
    Ensures (roffParseComment r buf ln pos ec) fun p =>
      p.1 = ROFF_CONT ∨ p.1 = ROFF_IGN ||| ROFF_APPEND := by
  unfold roffParseComment
  apply Ensures.call
  rintro (i | i | i)
  · exact Ensures.ok_iff.mpr (.inl rfl)
  · exact Ensures.ok_iff.mpr (.inr rfl)
  · apply Ensures.call
    intro r'
    apply Ensures.ite
    · exact fun _ => Ensures.ok_iff.mpr (.inr rfl)
    · exact fun _ => Ensures.ok_iff.mpr (.inl rfl)

theorem expandStep_code (env : Env X) (ec : Char) (st : ExpandState X) :
    Ensures (expandStep env ec st) (Loop.Next.Sat (fun _ => True)
      fun e => e.code = ROFF_CONT ∨ e.code = ROFF_IGN) := by
  unfold expandStep
  apply Ensures.call
  intro c
  split_ifs
  · exact Ensures.ok_iff.mpr (.inl rfl)
  · exact Ensures.ok_iff.mpr trivial
  · exact Ensures.ok_iff.mpr trivial
  · apply Ensures.call
    intro s
    apply Ensures.ite
    · exact fun _ => Ensures.ok_iff.mpr trivial
    · intro _
      apply Ensures.call
      rintro (⟨r, res⟩ | ⟨r, buf, pos⟩)
      · apply Ensures.ite
        · exact fun _ => Ensures.ok_iff.mpr (.inr rfl)
        · exact fun _ => Ensures.ok_iff.mpr trivial
      · exact Ensures.ok_iff.mpr trivial

theorem roffExpand_code (env : Env X) (fuel : Nat) (r : Roff X) (buf : Buf) (pos : Nat)
    (ec : Char) : Ensures (roffExpand env fuel r buf pos ec) fun e =>
      e.code = ROFF_CONT ∨ e.code = ROFF_IGN :=
  Loop.run_invariant (fun st _ => expandStep_code env ec st) trivial

/-- The first stage of the line parser returns `ROFF_CONT` or an accepted code. -/
theorem roffPrepare_code (env : Env X) (fuel : Nat) (r : Roff X) (ln : Nat) (buf : Buf)
    (offs : Nat) : Ensures (roffPrepare env fuel r ln buf offs) fun p => p.code.Accepted := by
  have hcont : (ROFF_CONT : Code).Accepted := by decide +kernel
  have hign : (ROFF_IGN : Code).Accepted := by decide +kernel
  have happ : (ROFF_IGN ||| ROFF_APPEND : Code).Accepted := by decide +kernel
  have hrep : (ROFF_REPARSE : Code).Accepted := by decide +kernel
  unfold roffPrepare
  dsimp only
  split
  · exact Ensures.ok_iff.mpr hrep
  · apply (roffParseComment_code ..).bind
    rintro ⟨e, r', buf'⟩ he
    apply Ensures.ite
    · intro _
      rw [Ensures.pure_iff]
      rcases he with rfl | rfl
      · exact hcont
      · exact happ
    · intro _
      apply (roffExpand_code ..).bind
      intro x hx
      rw [Ensures.pure_iff]
      rcases hx with hx | hx
      · exact hx ▸ hcont
      · exact hx ▸ hign

/-- The line is a control line that is passed to the handler of the innermost scope. -/
structure GoesToSub (r : Roff X) (buf : CStr) (offs pos : Nat) (sc : Scope) : Prop where
  control : roffGetcontrol r buf offs = some pos
  eqn : r.eqn → (buf.drop offs).take 3 = ".EN".toList
  request : charAt buf pos ≠ '"' ∧ charAt buf pos ≠ NUL
  scope : r.last.head? = some sc

/-- After comments and escape sequences have been processed, the line is a control line in a
    conditional scope that ends a loop, and the request on it leaves the current macro or is
    a string called as a macro. -/
def LeavesClosingLoop (env : Env X) (fuel : Nat) (r : Roff X) (ln : Nat) (buf : Buf)
    (offs : Nat) : Prop :=
  ∃ p pos sc, roffPrepare env fuel r ln buf offs = .ok p ∧ p.code = ROFF_CONT ∧
    GoesToSub p.r p.buf.buf offs pos sc ∧ sc.tok.isCond ∧
    LeavesClosedLoop ⟨p.r, sc.tok, p.buf, ln, offs, pos, offs⟩

/-- A text line inside a scope is dropped or used, and may end a loop. -/
theorem roffText_code (a : Args X) :
    Ensures (roffText a) fun out =>
      out.code ∈ loopCodes ∨ ∃ irc ∈ loopCodes, out.code = irc ||| ROFF_CONT := by
  unfold roffText
  apply Ensures.ite
  · intro _
    unfold roffCondText
    apply (roffCondCheckend_code ..).bind
    intro c hc
    rw [Ensures.pure_iff]
    dsimp only
    split_ifs
    · exact .inr ⟨c.irc, hc, rfl⟩
    · exact .inl hc
  · intro _
    apply Ensures.ite
    · exact fun _ => .call fun _ => Ensures.ok_iff.mpr (.inl (by simp [Args.out, loopCodes]))
    · simp

theorem roffParsetext_code (r : Roff X) (buf : Buf) (pos offs : Nat) :
    Ensures (roffParsetext r buf pos offs) fun out =>
      out.code = ROFF_REPARSE ∨ out.code = ROFF_CONT := by
  unfold roffParsetext
  apply Ensures.ite
  · exact fun _ => Ensures.ok_iff.mpr (.inl rfl)
  · exact fun _ => .call fun _ => Ensures.ok_iff.mpr (.inr rfl)

theorem roffBlockSub_code (a : Args X) :
    Ensures (roffBlockSub a) fun out => out.code = ROFF_RERUN ∨ out.code = ROFF_IGN := by
  unfold roffBlockSub
  split
  · simp
  · split
    · apply Ensures.call
      intro t
      rw [Ensures.pure_iff]
      dsimp only
      split_ifs
      · exact .inl rfl
      · exact .inr rfl
    · apply Ensures.call
      intro t
      apply Ensures.ite
      · exact fun _ => (roffCblock_code ..).mono fun _ h => .inr h
      · exact fun _ => .call fun _ => Ensures.ok_iff.mpr (.inr rfl)

theorem accepted_text : ∀ irc ∈ loopCodes,
    (irc ||| ROFF_CONT) &&& ~~~ROFF_MASK = irc ∧ (ROFF_REPARSE ||| irc).Accepted ∧
      (ROFF_CONT ||| irc).Accepted ∧ irc &&& ROFF_MASK = ROFF_IGN := by
  intro irc hi
  fin_cases hi <;> decide +kernel

/-- Lines of text are always accepted. -/
theorem roffDispatch_text (env : Env X) (fuel : Nat) (r : Roff X) (ln : Nat) (buf : Buf)
    (offs : Nat) (hctl : roffGetcontrol r buf.buf offs = none) :
    Ensures (roffDispatch env fuel r ln buf offs) fun out => out.code.Accepted := by
  -- The filters for tables and equations ignore the line, or let it continue.
  have hfilter : Ensures (roffFilter r false ln buf offs offs) fun f =>
      f.code ∈ loopCodes ∨ ∃ irc ∈ loopCodes, f.code = irc ||| ROFF_CONT := by
    unfold roffFilter
    split
    · exact roffText_code _
    · exact Ensures.ok_iff.mpr (.inr ⟨ROFF_IGN, by simp [loopCodes], rfl⟩)
  unfold roffDispatch
  rw [hctl]
  apply hfilter.bind
  intro f hf
  apply Ensures.ite
  · intro hign
    rw [Ensures.pure_iff]
    rcases hf with hf | ⟨irc, hi, hf⟩
    · exact accepted_of_loop _ hf
    · exact hf ▸ BitVec.or_comm irc ROFF_CONT ▸ (accepted_text irc hi).2.2.1
  · -- If the line continues, its text is parsed, and the code of the filter is added.
    intro hcont
    obtain ⟨irc, hi, hf⟩ := hf.resolve_left fun h => hcont (accepted_text _ h).2.2.2
    have he : f.code &&& ~~~ROFF_MASK = irc := hf ▸ (accepted_text irc hi).1
    simp only [he]
    apply Ensures.ite
    · exact fun _ => Ensures.ok_iff.mpr (accepted_of_loop irc hi)
    · intro _
      apply Ensures.ite
      · exact fun _ => .call fun _ => Ensures.ok_iff.mpr (accepted_of_loop irc hi)
      · intro _
        apply (roffParsetext_code ..).bind
        intro out hout
        rw [Ensures.pure_iff]
        rcases hout with hout | hout
        · exact hout ▸ (accepted_text irc hi).2.1
        · exact hout ▸ (accepted_text irc hi).2.2.1

theorem roffControl_accepted (env : Env X) (fuel : Nat) (r : Roff X) (ln : Nat) (buf : Buf)
    (offs pos : Nat) (hctl : roffGetcontrol r buf.buf offs = some pos)
    (heqn : r.eqn → (buf.buf.drop offs).take 3 = ".EN".toList) :
    Ensures (roffControl env fuel r ln buf offs pos offs) fun out => out.code.Accepted ↔
      ¬ ∃ sc, GoesToSub r buf.buf offs pos sc ∧ sc.tok.isCond ∧
        LeavesClosedLoop ⟨r, sc.tok, buf, ln, offs, pos, offs⟩ := by
  have hign : (ROFF_IGN : Code).Accepted := accepted_of_loop _ (by simp [loopCodes])
  have hrerun : (ROFF_RERUN : Code).Accepted := by decide +kernel
  unfold roffControl
  apply Ensures.ite
  · -- Without a request, the line is ignored.
    intro hempty
    rw [Ensures.pure_iff]
    refine iff_of_true hign ?_
    rintro ⟨sc, hsub, -⟩
    exact hempty.elim hsub.request.1 hsub.request.2
  · intro hrequest
    push Not at hrequest
    split
    · -- Inside a scope, the line goes to the function for its innermost request.
      rename_i p parents hlast
      have hsub : GoesToSub r buf.buf offs pos p := ⟨hctl, heqn, hrequest, by simp [hlast]⟩
      have huniq : ∀ sc, GoesToSub r buf.buf offs pos sc → sc = p := by
        intro sc h
        have hsc := h.scope
        rw [hlast] at hsc
        exact (Option.some.inj hsc).symm
      unfold roffSub
      apply Ensures.ite
      · -- For a conditional, this is what is known about its lines.
        intro hcond
        apply (roffCondSub_accepted ..).mono
        intro out hout
        rw [hout, not_iff_not]
        constructor
        · exact fun h => ⟨p, hsub, hcond, h⟩
        · rintro ⟨sc, h, -, hl⟩
          rwa [huniq sc h] at hl
      · -- The functions for blocks return accepted codes.
        intro hcond
        apply Ensures.ite
        · intro _
          apply (roffBlockSub_code ..).mono
          intro out hout
          refine iff_of_true ?_ ?_
          · rcases hout with hout | hout
            · exact hout ▸ hrerun
            · exact hout ▸ hign
          · rintro ⟨sc, h, hc, -⟩
            exact hcond (huniq sc h ▸ hc)
        · simp
    · -- Outside all scopes, a request or a macro is executed.
      rename_i hlast
      apply Ensures.call
      intro t
      apply (roffReqOrMacro_code ..).mono
      rintro out ⟨hlone, hplain⟩
      refine iff_of_true ?_ ?_
      · by_cases hl : MacroReturn ⟨t.r, t.tok, t.buf, ln, pos, t.pos, offs⟩ ∨
            StringCall ⟨t.r, t.tok, t.buf, ln, pos, t.pos, offs⟩
        · exact accepted_of_lone _ (hlone hl)
        · exact accepted_of_plain _ (hplain hl)
      · rintro ⟨sc, h, -⟩
        simpa [hlast] using h.scope

theorem roffDispatch_accepted (env : Env X) (fuel : Nat) (r : Roff X) (ln : Nat) (buf : Buf)
    (offs : Nat) :
    Ensures (roffDispatch env fuel r ln buf offs) fun out => out.code.Accepted ↔
      ¬ ∃ pos sc, GoesToSub r buf.buf offs pos sc ∧ sc.tok.isCond ∧
        LeavesClosedLoop ⟨r, sc.tok, buf, ln, offs, pos, offs⟩ := by
  have hign : (ROFF_IGN : Code).Accepted := accepted_of_loop _ (by simp [loopCodes])
  cases hctl : roffGetcontrol r buf.buf offs with
  | none =>
    apply (roffDispatch_text env fuel r ln buf offs hctl).mono
    intro out hout
    refine iff_of_true hout ?_
    rintro ⟨pos, sc, h, -⟩
    simpa [hctl] using h.control
  | some pos =>
    -- The filter for text lines does nothing.
    have hfilter : roffFilter r true ln buf pos offs = .ok ⟨ROFF_CONT, r, buf, offs⟩ := by
      unfold roffFilter
      split <;> rfl
    unfold roffDispatch
    rw [hctl]
    simp only [Option.getD_some, Option.isSome_some, hfilter, Res.ok_bind]
    apply Ensures.ite
    · exact fun h => absurd h (by decide +kernel)
    · intro _
      apply Ensures.ite
      · rintro ⟨heqn, hne⟩
        refine Ensures.ok_iff.mpr (iff_of_true hign ?_)
        rintro ⟨pos', sc, h, -⟩
        exact hne (h.eqn heqn)
      · intro heqn
        apply Ensures.ite
        · rintro ⟨-, h⟩
          have hnul : charAt buf.buf pos = NUL := h.resolve_left (by simp)
          refine Ensures.call fun _ => Ensures.ok_iff.mpr (iff_of_true hign ?_)
          rintro ⟨pos', sc, h, -⟩
          cases hctl.symm.trans h.control
          exact h.request.2 hnul
        · intro _
          apply Ensures.ite
          · exact fun h => absurd h (by simp)
          · intro _
            have heqn' : r.eqn → (buf.buf.drop offs).take 3 = ".EN".toList := fun h =>
              not_not.mp fun hne => heqn ⟨h, hne⟩
            apply (roffControl_accepted env fuel r ln buf offs pos hctl heqn').mono
            intro out hout
            rw [hout, not_iff_not]
            constructor
            · exact fun ⟨sc, h⟩ => ⟨pos, sc, h⟩
            · rintro ⟨pos', sc, h, hc⟩
              cases hctl.symm.trans h.control
              exact ⟨sc, h, hc⟩

/-- The reader accepts the result code of a line if and only if the line does not end a loop
    with a request on it that leaves the current macro, or with a string called as a
    macro. -/
theorem roffParseln_accepted_iff (env : Env X) (fuel : Nat) (r : Roff X) (ln : Nat) (buf : Buf)
    (offs : Nat) (out : Out X) (h : roffParseln env fuel r ln buf offs = .ok out) :
    out.code.Accepted ↔ ¬ LeavesClosingLoop env fuel r ln buf offs := by
  obtain ⟨p, hp, h⟩ := Res.bind_eq_ok.mp h
  have hiff : LeavesClosingLoop env fuel r ln buf offs ↔ p.code = ROFF_CONT ∧
      ∃ pos sc, GoesToSub p.r p.buf.buf offs pos sc ∧ sc.tok.isCond ∧
        LeavesClosedLoop ⟨p.r, sc.tok, p.buf, ln, offs, pos, offs⟩ := by
    constructor
    · rintro ⟨p', pos, sc, hp', hc, hsub⟩
      cases hp.symm.trans hp'
      exact ⟨hc, pos, sc, hsub⟩
    · rintro ⟨hc, pos, sc, hsub⟩
      exact ⟨p, pos, sc, hp, hc, hsub⟩
  rw [hiff]
  split at h
  · rename_i hne
    cases h
    exact iff_of_true ((roffPrepare_code env fuel r ln buf offs).of_eq_ok hp) fun h => hne h.1
  · rename_i hcont
    rw [(roffDispatch_accepted env fuel p.r ln p.buf offs).of_eq_ok h]
    simp [not_not.mp hcont]

/-- A macro body with a loop: the state after `.while n ` in the line `.while n .return`. -/
def loopInMacro : Roff Unit :=
  { roffAlloc () with mstack := [[]], last := [⟨.ROFF_while, none, 1, 1, none, 1, true⟩] }

/-- `.nop` as the body of a loop on one line is accepted. -/
theorem roffParseln_nop_in_loop : ∃ out,
    roffParseln plainEnv 100 loopInMacro 1 (Buf.ofStr ".while n .nop".toList) 9 = .ok out ∧
      out.code.Accepted ∧
      ¬ LeavesClosingLoop plainEnv 100 loopInMacro 1 (Buf.ofStr ".while n .nop".toList) 9 := by
  have hcode : (roffParseln plainEnv 100 loopInMacro 1 (Buf.ofStr ".while n .nop".toList) 9).map
      (·.code) = .ok (ROFF_RERUN ||| ROFF_LOOPCONT) := by
    decide +kernel
  obtain ⟨out, hout, hcode⟩ := Res.map_eq_ok.mp hcode
  have haccepted : out.code.Accepted := by
    rw [hcode]
    decide
  exact ⟨out, hout, haccepted, (roffParseln_accepted_iff _ _ _ _ _ _ _ hout).mp haccepted⟩

/-- `.return` as the body of a loop on one line: the code says both to leave the macro and to
    iterate the loop. -/
theorem roffParseln_return_in_loop : ¬ ∀ (r : Roff Unit) (buf : Buf) (offs : Nat)
    (out : Out Unit), roffParseln plainEnv 100 r 1 buf offs = .ok out → out.code.Accepted := by
  intro h
  have hcode : (roffParseln plainEnv 100 loopInMacro 1 (Buf.ofStr ".while n .return".toList)
      9).map (·.code) = .ok (ROFF_LOOPCONT ||| ROFF_USERRET) := by
    decide +kernel
  obtain ⟨out, hout, hc⟩ := Res.map_eq_ok.mp hcode
  have hacc := h _ _ _ out hout
  rw [hc] at hacc
  exact absurd hacc (by decide +kernel)

end Mandoc
