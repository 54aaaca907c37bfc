import Mandoc.Lib.Ensures
import Mandoc.Roff.Parseln

/-!
# Specifications of the Request Handlers

What a handler does to the control stacks of the parser, and which result codes it returns.

- Most handlers *ignore* their line: they return `ROFF_IGN` and leave the stack of scopes,
  the stack of else-values, and the depth of the stack of macro contexts alone.
- `roffUserdef` and `roffCond` push, and `roffBlock` and `roffCblock` change the stack of
  scopes only.
-/

namespace Mandoc

variable {X : Type}

/-! ## §1 The control stacks -/

/-- The control stacks of the parser: the scopes, the else-values, and the number of macro
    contexts. -/
def Roff.stacks (r : Roff X) : List Scope × List Bool × Nat :=
  (r.last, r.rstack, r.mstack.length)

theorem Roff.stacks_eq (r : Roff X) : (r.last, r.rstack, r.mstack.length) = r.stacks := rfl

@[simp] theorem Roff.stacks_mk {man : RoffMan} {x : X} {last mstack rstack regtab strtab rentab
    xmbtab xtab currentString tbl lastEqn eqn eqnInline optComment optMdoc optQuick format
    control escape ceLines ceNode itLines itMacro} :
    (Roff.mk man x last mstack rstack regtab strtab rentab xmbtab xtab currentString tbl lastEqn
      eqn eqnInline optComment optMdoc optQuick format control escape ceLines ceNode itLines
      itMacro).stacks = (last, rstack, mstack.length) := rfl

@[simp] theorem stacks_roffSetstr (r : Roff X) (name : CStr) (s : Option CStr) (n : Nat) :
    (roffSetstr r name s n).stacks = r.stacks := rfl

@[simp] theorem stacks_roffGetstrn (r : Roff X) (name : CStr) (want : List DefType) :
    (roffGetstrn r name want).r.stacks = r.stacks := by
  unfold roffGetstrn
  dsimp only
  split_ifs <;> rfl

@[simp] theorem stacks_roffGetregn (r : Roff X) (name : CStr) (sign : Char) :
    (roffGetregn r name sign).2.stacks = r.stacks := by
  unfold roffGetregn
  split
  · rfl
  · split <;> rfl

@[simp] theorem stacks_breakscope (env : Env X) (r : Roff X) (tok : Tok) :
    (breakscope env r tok).stacks = r.stacks := rfl

@[simp] theorem stacks_leaveCe (r : Roff X) (n : Nat) : (leaveCe r n).stacks = r.stacks := rfl

@[simp] theorem stacks_finishElem (r : Roff X) (n : Nat) : (finishElem r n).stacks = r.stacks :=
  rfl

@[simp] theorem stacks_renameTo (g : GetStr X) (oldn newn : CStr) :
    (renameTo g oldn newn).stacks = g.r.stacks := by
  unfold renameTo
  split <;> rfl

@[simp] theorem stacks_unsetStrs (r : Roff X) (names : List String) :
    (unsetStrs r names).stacks = r.stacks := by
  unfold unsetStrs
  induction names generalizing r with
  | nil => rfl
  | cons name names ih => exact (ih _).trans (stacks_roffSetstr ..)

@[simp] theorem stacks_abortCe (r : Roff X) (tok : Tok) : (abortCe r tok).stacks = r.stacks := by
  unfold abortCe
  split
  · split <;> rfl
  · rfl

@[simp] theorem stacks_countCe (r : Roff X) : (countCe r).stacks = r.stacks := by
  unfold countCe
  split
  · split <;> rfl
  · rfl

@[simp] theorem stacks_resolveName (r : Roff X) (tok : Tok) (iname : CStr) :
    (resolveName r tok iname).2.stacks = r.stacks := by
  unfold resolveName
  split
  · exact stacks_roffGetstrn ..
  · rfl

@[simp] theorem stacks_prepareAppend (g : GetStr X) (name : CStr) :
    (prepareAppend g name).stacks = g.r.stacks := by
  unfold prepareAppend
  split <;> rfl

/-! ## §2 Functions producing nodes -/

theorem roffWordAlloc_stacks (r : Roff X) (line pos : Nat) (word : CStr) :
    Ensures (roffWordAlloc r line pos word) fun r' => r'.stacks = r.stacks := by
  simp [roffWordAlloc, Roff.stacks_eq]

theorem roffElemAlloc_stacks (r : Roff X) (line pos : Nat) (tok : Tok) :
    Ensures (roffElemAlloc r line pos tok) fun p => p.2.stacks = r.stacks := by
  simp [roffElemAlloc, Roff.stacks_eq]

theorem roffEndtbl_stacks (env : Env X) (r : Roff X) (stillOpen : Bool) :
    Ensures (roffEndtbl env r stillOpen) fun p => p.2.stacks = r.stacks := by
  unfold roffEndtbl
  simp [Roff.stacks_eq]

theorem allocWords_stacks (ln : Nat) (words : List (Nat × CStr)) (r : Roff X) :
    Ensures (allocWords ln words r) fun r' => r'.stacks = r.stacks := by
  induction words generalizing r with
  | nil => simp [allocWords]
  | cons w words ih =>
    unfold allocWords
    apply (roffWordAlloc_stacks r ln w.1 w.2).bind
    intro r' h
    exact (ih r').mono fun _ h' => h'.trans h

/-! ## §3 Handlers that ignore their line -/

/-- The handler returns `ROFF_IGN` and leaves the control stacks alone. -/
def Ignores (a : Args X) (out : Out X) : Prop := out.code = ROFF_IGN ∧ out.r.stacks = a.r.stacks

@[simp] theorem ignores_out (a : Args X) (r : Roff X) :
    Ignores a (a.out 0#12 r) ↔ r.stacks = a.r.stacks := by
  simp [Ignores, Args.out]

theorem roffIgnored_spec (a : Args X) : Ensures (roffIgnored a) (Ignores a) := by
  simp [roffIgnored]

theorem roffCc_spec (a : Args X) : Ensures (roffCc a) (Ignores a) := by
  simp [roffCc, Roff.stacks_eq]

theorem roffEc_spec (a : Args X) : Ensures (roffEc a) (Ignores a) := by
  simp [roffEc, Roff.stacks_eq]

theorem roffEo_spec (a : Args X) : Ensures (roffEo a) (Ignores a) := by
  simp [roffEo, Roff.stacks_eq]

theorem roffIt_spec (env : Env X) (a : Args X) : Ensures (roffIt env a) (Ignores a) := by
  unfold roffIt
  apply Ensures.call
  intro n
  apply Ensures.ite
  · exact fun _ => Ensures.ok_iff.mpr ⟨rfl, rfl⟩
  · exact fun _ => Ensures.ok_iff.mpr ⟨rfl, rfl⟩

theorem roffAls_spec (a : Args X) : Ensures (roffAls a) (Ignores a) := by
  simp [roffAls]

theorem roffDs_spec (a : Args X) : Ensures (roffDs a) (Ignores a) := by
  simp [roffDs]

theorem rmLoop_stacks (steps : Nat) (r : Roff X) (buf : CStr) (cp : Nat) :
    Ensures (rmLoop steps r buf cp) fun r' => r'.stacks = r.stacks := by
  induction steps generalizing r buf cp with
  | zero => simp [rmLoop]
  | succ steps ih =>
    unfold rmLoop
    apply Ensures.ite
    · intro _
      simp
    · intro _
      apply Ensures.call
      intro st
      apply Ensures.ite
      · intro _
        simp
      · intro _
        exact (ih ..).mono fun _ h => h.trans (stacks_roffSetstr ..)

theorem roffRm_spec (a : Args X) : Ensures (roffRm a) (Ignores a) := by
  unfold roffRm
  exact (rmLoop_stacks ..).bind fun r h => by simpa using h

theorem roffRn_spec (a : Args X) : Ensures (roffRn a) (Ignores a) := by
  simp [roffRn]

theorem roffStringup_spec (a : Args X) : Ensures (roffStringup a) (Ignores a) := by
  unfold roffStringup
  simp only [Ensures.bind_iff, Ensures.pure_iff]
  apply Ensures.of_forall
  intro st
  split <;> simp [Roff.stacks_eq]

theorem roffNr_spec (env : Env X) (a : Args X) : Ensures (roffNr env a) (Ignores a) := by
  simp [roffNr, Roff.stacks_eq]

theorem roffRr_spec (a : Args X) : Ensures (roffRr a) (Ignores a) := by
  simp [roffRr, Roff.stacks_eq]

theorem roffChar_spec (a : Args X) : Ensures (roffChar a) (Ignores a) := by
  unfold roffChar
  apply Ensures.call
  rintro (_ | p)
  · simp
  · apply Ensures.call
    intro font
    split
    · apply Ensures.ite
      · simp
      · simp [Roff.stacks_eq]
    · simp [Roff.stacks_eq]

theorem trLoop_stacks (buf : CStr) (steps : Nat) (r : Roff X) (p : Nat) :
    Ensures (trLoop buf steps r p) fun r' => r'.stacks = r.stacks := by
  induction steps generalizing r p with
  | zero => simp [trLoop]
  | succ steps ih =>
    unfold trLoop
    apply Ensures.call
    intro c
    apply Ensures.ite
    · intro _
      simp
    · intro _
      apply Ensures.call
      rintro (_ | q)
      · simp
      · apply Ensures.call
        intro d
        apply Ensures.call
        rintro (_ | e)
        · simp
        · -- Both branches only change the translation tables.
          apply Ensures.ite <;> exact fun _ => ih ..

theorem roffTr_spec (a : Args X) : Ensures (roffTr a) (Ignores a) := by
  unfold roffTr
  exact (trLoop_stacks ..).bind fun r h => by simpa using h

theorem roffNoarg_spec (env : Env X) (a : Args X) : Ensures (roffNoarg env a) (Ignores a) := by
  unfold roffNoarg
  apply (roffElemAlloc_stacks ..).bind
  rintro ⟨n, r⟩ h
  have hr : r.stacks = a.r.stacks := h.trans (by split <;> simp)
  simp [Roff.stacks_eq, hr]

theorem defaultCe_stacks (r : Roff X) (ln pos : Nat) :
    Ensures (defaultCe r ln pos) fun r' => r'.stacks = r.stacks := by
  unfold defaultCe
  apply Ensures.call
  intro last
  apply Ensures.ite
  · intro _
    apply (roffWordAlloc_stacks ..).bind
    intro r' h
    apply Ensures.call
    simp [Roff.stacks_eq, h]
  · simp

theorem startCe_stacks (env : Env X) (r : Roff X) (ln pos n : Nat) :
    Ensures (startCe env r ln pos n) fun r' => r'.stacks = r.stacks := by
  unfold startCe
  apply (defaultCe_stacks ..).bind
  intro r' h
  rw [← h]
  apply Ensures.call
  intro last
  split
  · simp
  · apply Ensures.call
    intro num
    apply Ensures.call
    intro parent
    rw [Ensures.pure_iff]
    dsimp only
    split_ifs <;> rfl

@[simp] theorem stacks_oneargStart (env : Env X) (a : Args X) :
    (oneargStart env a).stacks = a.r.stacks := by
  unfold oneargStart
  dsimp only
  split_ifs <;> split <;> rfl

theorem roffOnearg_spec (env : Env X) (a : Args X) : Ensures (roffOnearg env a) (Ignores a) := by
  unfold roffOnearg
  apply (roffElemAlloc_stacks ..).bind
  rintro ⟨n, r⟩ h
  have hr : r.stacks = a.r.stacks := h.trans (stacks_oneargStart env a)
  have hword : Ensures (if a.rest = [] then .ok r
      else roffWordAlloc r a.ln a.pos (a.rest.takeWhile (· ≠ ' ')) : Res (Roff X))
      fun r' => r'.stacks = a.r.stacks := by
    apply Ensures.ite
    · simp [hr]
    · intro _
      exact (roffWordAlloc_stacks ..).mono fun r' h' => h'.trans hr
  apply hword.bind
  intro r' h'
  apply Ensures.ite
  · intro _
    exact (startCe_stacks ..).bind fun r'' h'' => by simp [h'', h']
  · simp [h']

theorem roffManyarg_spec (a : Args X) : Ensures (roffManyarg a) (Ignores a) := by
  unfold roffManyarg
  apply (roffElemAlloc_stacks ..).bind
  rintro ⟨n, r⟩ h
  apply (allocWords_stacks ..).bind
  intro r' h'
  simp [h', h]

theorem roffMc_spec (a : Args X) : Ensures (roffMc a) (Ignores a) := by
  unfold roffMc
  apply Ensures.call
  intro word
  apply (roffElemAlloc_stacks ..).bind
  rintro ⟨n, r⟩ h
  have hword : Ensures (if word = [] then .ok r
      else roffWordAlloc r a.ln a.pos word : Res (Roff X)) fun r' => r'.stacks = a.r.stacks := by
    apply Ensures.ite
    · simp [h]
    · intro _
      exact (roffWordAlloc_stacks ..).mono fun r' h' => h'.trans h
  apply hword.bind
  intro r' h'
  simp [h']

theorem roffT_spec (env : Env X) (a : Args X) : Ensures (roffT_ env a) (Ignores a) := by
  unfold roffT_
  split <;> simp [Roff.stacks_eq]

theorem roffTS_spec (env : Env X) (a : Args X) : Ensures (roffTS env a) (Ignores a) := by
  have hend : Ensures (if a.r.tbl then roffEndtbl env a.r false
      else .ok (true, a.r) : Res (Bool × Roff X)) fun p => p.2.stacks = a.r.stacks := by
    apply Ensures.ite
    · intro _
      exact roffEndtbl_stacks ..
    · simp
  unfold roffTS
  apply hend.bind
  rintro ⟨irc, r⟩ h
  simp [Roff.stacks_eq, h]

theorem roffEQ_spec (env : Env X) (a : Args X) : Ensures (roffEQ env a) (Ignores a) := by
  have hr : (if a.r.man.macroset = .MAN then breakscope env a.r .ROFF_EQ else a.r).stacks =
      a.r.stacks := by
    split <;> simp
  unfold roffEQ
  apply Ensures.call
  intro last
  apply Ensures.call
  intro man
  apply Ensures.ite
  · simp
  · simp [Roff.stacks_eq, hr]

theorem roffEN_spec (env : Env X) (a : Args X) : Ensures (roffEN env a) (Ignores a) := by
  unfold roffEN
  split <;> simp [Roff.stacks_eq]

theorem roffShift_spec (env : Env X) (a : Args X) : Ensures (roffShift env a) (Ignores a) := by
  unfold roffShift
  apply Ensures.call
  intro n
  rw [Ensures.pure_iff]
  refine ⟨rfl, ?_⟩
  dsimp only [Args.out]
  split
  · rfl
  · rename_i hm
    simp [Roff.stacks, hm]

/-! ## §4 Expansion -/

/-- The state after an expansion. -/
def Expansion.r : Expansion X → Roff X
  | .paste r _ => r
  | .continue r _ _ => r

theorem expandString_stacks (r : Roff X) (buf : Buf) (name : CStr) (iend : Nat) :
    (expandString r buf name iend).r.stacks = r.stacks := by
  unfold expandString
  dsimp only
  split_ifs
  · rfl
  · split
    · exact stacks_roffGetstrn ..
    · exact stacks_roffGetstrn ..
  · split
    · exact stacks_roffGetstrn ..
    · exact stacks_roffGetstrn ..

theorem expandArg_stacks (r : Roff X) (buf : Buf) (pos : Nat) (c : Char) (iesc iend : Nat) :
    (expandArg r buf pos c iesc iend).r.stacks = r.stacks := by
  unfold expandArg
  split
  · rfl
  · split_ifs <;> rfl

theorem expandSeq_stacks (env : Env X) (r : Roff X) (buf : Buf) (pos : Nat) (s : EscResult)
    (iendarg : Nat) :
    Ensures (expandSeq env r buf pos s iendarg) fun e => e.r.stacks = r.stacks := by
  unfold expandSeq
  dsimp only
  split_ifs
  · exact Ensures.ok_iff.mpr (expandString_stacks ..)
  · exact Ensures.ok_iff.mpr (expandArg_stacks ..)
  · exact Ensures.ok_iff.mpr rfl
  · exact .call fun _ => Ensures.ok_iff.mpr rfl
  · exact Ensures.ok_iff.mpr rfl
  · exact Ensures.ok_iff.mpr rfl
  · exact Ensures.ok_iff.mpr (stacks_roffGetregn ..)
  · exact Ensures.ok_iff.mpr rfl
  · exact .call fun _ => Ensures.ok_iff.mpr rfl
  · exact Ensures.ok_iff.mpr rfl

theorem expandStep_stacks (env : Env X) (ec : Char) (st : ExpandState X) :
    Ensures (expandStep env ec st) (Loop.Next.Sat (fun st' => st'.r.stacks = st.r.stacks)
      fun e => e.r.stacks = st.r.stacks) := by
  unfold expandStep
  apply Ensures.call
  intro c
  split_ifs
  · exact Ensures.ok_iff.mpr rfl
  · exact Ensures.ok_iff.mpr rfl
  · exact Ensures.ok_iff.mpr rfl
  · apply Ensures.call
    intro s
    apply Ensures.ite
    · exact fun _ => Ensures.ok_iff.mpr rfl
    · intro _
      apply (expandSeq_stacks ..).bind
      intro e h
      cases e with
      | «continue» r buf pos => exact Ensures.ok_iff.mpr h
      | paste r res =>
        apply Ensures.ite
        · exact fun _ => Ensures.ok_iff.mpr h
        · exact fun _ => Ensures.ok_iff.mpr h

theorem roffExpand_stacks (env : Env X) (fuel : Nat) (r : Roff X) (buf : Buf) (pos : Nat)
    (ec : Char) : Ensures (roffExpand env fuel r buf pos ec) fun e => e.r.stacks = r.stacks := by
  apply Loop.run_invariant (I := fun st => st.r.stacks = r.stacks)
  · intro st hst
    apply (expandStep_stacks env ec st).mono
    rintro (st' | e) h
    · exact h.trans hst
    · exact h.trans hst
  · rfl

theorem roffGetarg_stacks (env : Env X) (fuel : Nat) (r : Roff X) (src : CStr)
    (pos : Nat) : Ensures (roffGetarg env fuel r src pos) fun g => g.r.stacks = r.stacks := by
  unfold roffGetarg
  apply Ensures.ite
  · intro _
    exact (roffExpand_stacks ..).bind fun e h => Ensures.ok_iff.mpr h
  · exact fun _ => Ensures.ok_iff.mpr rfl

/-! ## §5 The other handlers -/

theorem collectArgs_stacks (env : Env X) (fuel steps : Nat) (r : Roff X) (src : CStr)
    (pos : Nat) :
    Ensures (collectArgs env fuel steps r src pos) fun r' => r'.stacks = r.stacks := by
  induction steps generalizing r src pos with
  | zero => simp [collectArgs]
  | succ steps ih =>
    cases src with
    | nil => simp [collectArgs]
    | cons c src =>
      unfold collectArgs
      apply (roffGetarg_stacks ..).bind
      intro g h
      have hpush : (pushArg g.r (escapeQuotes g.arg)).stacks = g.r.stacks := by
        unfold pushArg
        split
        · rfl
        · rename_i hm
          simp [Roff.stacks, hm]
      exact (ih ..).mono fun r'' h' => (h'.trans hpush).trans h

/-- A user-defined macro or string that is not empty pushes a macro context. -/
theorem roffUserdef_spec (env : Env X) (fuel : Nat) (a : Args X) :
    Ensures (roffUserdef env fuel a) fun out =>
      (a.r.currentString = some [] ∧ Ignores a out) ∨
      ∃ value, a.r.currentString = some value ∧ value ≠ [] ∧
        out.code = (if value.getLast? = some '\n' then ROFF_REPARSE ||| ROFF_USERCALL
          else ROFF_IGN ||| ROFF_APPEND) ∧
        out.r.stacks = (a.r.last, a.r.rstack, a.r.mstack.length + 1) ∧
        out.buf = Buf.ofStr value ∧ out.offs = 0 := by
  unfold roffUserdef
  split
  · simp
  · rename_i h
    exact Ensures.ok_iff.mpr (.inl ⟨h, rfl, rfl⟩)
  · rename_i c cs h
    apply (collectArgs_stacks ..).bind
    intro r hr
    exact Ensures.ok_iff.mpr (.inr ⟨c :: cs, h, List.cons_ne_nil c cs, rfl, hr, rfl, rfl⟩)

theorem roffDd_spec (a : Args X) :
    Ensures (roffDd a) fun out => out.code = ROFF_CONT ∧ out.r.stacks = a.r.stacks := by
  unfold roffDd
  split
  · rw [Ensures.ok_iff]
    refine ⟨rfl, ?_⟩
    dsimp only [Args.out]
    split_ifs <;> simp [Roff.stacks_eq]
  · rw [Ensures.ok_iff]
    refine ⟨rfl, ?_⟩
    dsimp only [Args.out]
    split_ifs <;> simp [Roff.stacks_eq]
  · simp

theorem roffTE_spec (env : Env X) (a : Args X) :
    Ensures (roffTE env a) fun out =>
      (out.code = ROFF_IGN ∨ out.code = ROFF_REPARSE) ∧ out.r.stacks = a.r.stacks := by
  unfold roffTE
  apply Ensures.ite
  · intro _
    exact Ensures.ok_iff.mpr ⟨.inl rfl, rfl⟩
  · intro _
    apply (roffEndtbl_stacks ..).bind
    rintro ⟨irc, r⟩ h
    apply Ensures.ite
    · intro _
      exact Ensures.ok_iff.mpr ⟨.inl rfl, h⟩
    · intro _
      exact Ensures.ok_iff.mpr ⟨.inr rfl, h⟩

theorem roffSo_spec (a : Args X) :
    Ensures (roffSo a) fun out =>
      (out.code = ROFF_SO ∨ out.code = ROFF_REPARSE) ∧ out.r = a.r := by
  unfold roffSo
  dsimp only
  split_ifs
  · exact Ensures.ok_iff.mpr ⟨.inr rfl, rfl⟩
  · exact Ensures.ok_iff.mpr ⟨.inl rfl, rfl⟩

theorem roffRenamed_spec (a : Args X) :
    Ensures (roffRenamed a) fun out => out.code = ROFF_CONT ∧ out.r = a.r := by
  unfold roffRenamed
  split
  · simp
  · exact Ensures.ok_iff.mpr ⟨rfl, rfl⟩

theorem startBlock_stacks (r : Roff X) (tok : Tok) (iname name : CStr) :
    Ensures (startBlock r tok iname name) fun r' => r'.stacks = r.stacks := by
  unfold startBlock
  apply Ensures.ite
  · simp
  · intro _
    apply Ensures.ite
    · intro _
      unfold appendedDef
      split
      · simp
      · simp
    · simp

/-- A block request may push a scope that ends at an end marker. -/
theorem blockEnd_spec (a : Args X) (r : Roff X) (tok : Tok) (buf : CStr) (cp : Nat) :
    Ensures (blockEnd a r tok buf cp) fun out => out.code = ROFF_IGN ∧
      out.r.rstack = r.rstack ∧ out.r.mstack.length = r.mstack.length := by
  unfold blockEnd
  apply Ensures.ite
  · intro _
    exact Ensures.ok_iff.mpr ⟨rfl, rfl, rfl⟩
  · intro _
    apply Ensures.call
    intro st
    have hr := stacks_resolveName r tok (st.name cp)
    simp only [Roff.stacks, Prod.mk.injEq] at hr
    rw [Ensures.pure_iff]
    refine ⟨rfl, ?_⟩
    dsimp only [Args.out]
    unfold setEnd
    split
    · exact hr.2
    · exact hr.2

theorem roffBlock_spec (a : Args X) :
    Ensures (roffBlock a) fun out => out.code = ROFF_IGN ∧
      out.r.rstack = a.r.rstack ∧ out.r.mstack.length = a.r.mstack.length := by
  unfold roffBlock
  apply Ensures.ite
  · intro _
    exact blockEnd_spec ..
  · intro _
    apply Ensures.call
    intro st
    have hr := stacks_resolveName a.r (compatTok a.tok) (st.name a.pos)
    simp only [Roff.stacks, Prod.mk.injEq] at hr
    apply Ensures.ite
    · intro _
      exact Ensures.ok_iff.mpr ⟨rfl, hr.2⟩
    · intro _
      apply (startBlock_stacks ..).bind
      intro r h
      have hpush : r.rstack = a.r.rstack ∧ r.mstack.length = a.r.mstack.length := by
        simp only [Roff.stacks, roffnodePush, Prod.mk.injEq] at h
        exact ⟨h.2.1.trans hr.2.1, h.2.2.trans hr.2.2⟩
      apply Ensures.ite
      · intro _
        exact Ensures.ok_iff.mpr ⟨rfl, hpush⟩
      · intro _
        apply (blockEnd_spec ..).mono
        rintro out ⟨hc, h1, h2⟩
        exact ⟨hc, h1.trans hpush.1, h2.trans hpush.2⟩

/-! ## §6 The table of handlers -/

/-- Requests whose handlers ignore their line. -/
def Tok.isPlain : Tok → Bool
  | .ROFF_am | .ROFF_am1 | .ROFF_ami | .ROFF_ami1 | .ROFF_de | .ROFF_de1 | .ROFF_dei
  | .ROFF_dei1 | .ROFF_ig | .ROFF_cblock => false
  | .ROFF_el | .ROFF_ie | .ROFF_if | .ROFF_while | .ROFF_nop | .ROFF_return => false
  | .ROFF_Dd | .ROFF_TH | .ROFF_TE | .ROFF_so | .ROFF_soquiet => false
  | .ROFF_RENAMED | .ROFF_USERDEF | .TOKEN_NONE | .MDOC _ | .MAN _ => false
  | _ => true

theorem roffProc_plain (env : Env X) (fuel : Nat) (a : Args X) (h : a.tok.isPlain) :
    Ensures (roffProc env fuel a) (Ignores a) := by
  unfold roffProc
  split <;> rename_i htok <;> first
    | (rw [htok] at h; cases h; done)
    | exact roffNoarg_spec env a
    | exact roffOnearg_spec env a
    | exact roffMc_spec a
    | exact roffManyarg_spec a
    | exact roffAls_spec a
    | exact roffDs_spec a
    | exact roffIgnored_spec a
    | exact roffCc_spec a
    | exact roffChar_spec a
    | exact roffEc_spec a
    | exact roffEN_spec env a
    | exact roffEo_spec a
    | exact roffEQ_spec env a
    | exact roffIt_spec env a
    | exact roffNr_spec env a
    | exact roffRm_spec a
    | exact roffRn_spec a
    | exact roffRr_spec a
    | exact roffShift_spec env a
    | exact roffStringup_spec a
    | exact roffT_spec env a
    | exact roffTr_spec a
    | exact roffTS_spec env a

/-- Requests that open a macro definition or an ignored block. -/
def Tok.opensBlock (tok : Tok) : Bool := (compatTok tok).isBlock

/-- The handlers of the remaining tokens. -/
inductive Special (env : Env X) (fuel : Nat) (a : Args X) : Res (Out X) → Prop where
  | block (h : a.tok.opensBlock) : Special env fuel a (roffBlock a)
  | cblock (h : a.tok = .ROFF_cblock) : Special env fuel a (roffCblock a)
  | cond (h : a.tok.isCond) : Special env fuel a (roffCond env a)
  | nop (h : a.tok = .ROFF_nop) : Special env fuel a (roffNop a)
  | «return» (h : a.tok = .ROFF_return) : Special env fuel a (roffReturn a)
  | Dd (h : a.tok = .ROFF_Dd ∨ a.tok = .ROFF_TH) : Special env fuel a (roffDd a)
  | TE (h : a.tok = .ROFF_TE) : Special env fuel a (roffTE env a)
  | so (h : a.tok = .ROFF_so ∨ a.tok = .ROFF_soquiet) : Special env fuel a (roffSo a)
  | renamed (h : a.tok = .ROFF_RENAMED) : Special env fuel a (roffRenamed a)
  | userdef (h : a.tok = .ROFF_USERDEF) : Special env fuel a (roffUserdef env fuel a)
  | null : Special env fuel a (.error .null)

theorem roffProc_special (env : Env X) (fuel : Nat) (a : Args X) (h : a.tok.isPlain = false) :
    Special env fuel a (roffProc env fuel a) := by
  obtain ⟨r, tok, buf, ln, ppos, pos, offs⟩ := a
  cases tok <;> first
    | (cases h; done)
    | exact .block rfl
    | exact .cblock rfl
    | exact .cond rfl
    | exact .nop rfl
    | exact .«return» rfl
    | exact .Dd (.inl rfl)
    | exact .Dd (.inr rfl)
    | exact .TE rfl
    | exact .so (.inl rfl)
    | exact .so (.inr rfl)
    | exact .renamed rfl
    | exact .userdef rfl
    | exact .null

end Mandoc
