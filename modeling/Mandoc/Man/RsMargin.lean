import Mandoc.Man.Lines
import Mandoc.Roff.NumExpr

/-!
# The Register an-margin

Opening an `RS` block with a positive width increments the register by that width, and the macro
`RE` decrements it by the width of the block it is looking for. Blocks inside that one are closed
without being counted, and so are the blocks that other macros close.

The register is an `int`. `marginRun_tracks` says that it agrees with the open blocks as long as no
block with a positive width is closed without being counted, and the widths together are not too
large.
-/

namespace Mandoc

/-! ## §1 The register -/

/-- The value of the register. -/
def anMargin (regtab : List Reg) : Int := (roffGetreg regtab "an-margin").1

/-- The value of a register, where an undefined one counts as zero. -/
def regValue (name : CStr) (regtab : List Reg) : Int :=
  match regtab.find? (·.key = name) with
  | some reg => reg.val
  | none => 0

theorem anMargin_eq (regtab : List Reg) : anMargin regtab = regValue "an-margin".toList regtab := by
  unfold anMargin roffGetreg regValue
  cases regtab.find? (·.key = "an-margin".toList) <;> rfl

/-- The new value of a register. -/
def changed (old val : Int) (sign : Char) : Int :=
  if sign = '+' then wrapInt (old + val) else if sign = '-' then wrapInt (old - val) else val

/-- Changing the first register with the name. -/
theorem regValue_change (name : CStr) (val : Int) (sign : Char) (step : Option Int)
    (regtab : List Reg) (h : regtab.any (·.key = name) = true) :
    regValue name (roffSetregn.change name val sign step regtab) =
      changed (regValue name regtab) val sign := by
  induction regtab with
  | nil => cases h
  | cons reg regtab ih =>
    unfold roffSetregn.change
    by_cases hkey : reg.key = name
    · simp only [regValue, List.find?_cons_of_pos, hkey, decide_true, if_true]
      rfl
    · have hany : regtab.any (·.key = name) = true := by
        rw [List.any_cons, decide_eq_false hkey, Bool.false_or] at h
        exact h
      have htail : ∀ l, regValue name (reg :: l) = regValue name l := by
        intro l
        rw [regValue, List.find?_cons_of_neg]
        · rfl
        · rw [decide_eq_true_eq]
          exact hkey
      rw [if_neg hkey, htail, htail, ih hany]

/-- Setting a register. -/
theorem regValue_setregn (name : CStr) (val : Int) (sign : Char) (step : Option Int)
    (regtab : List Reg) :
    regValue name (roffSetregn regtab name val sign step) =
      changed (regValue name regtab) val sign := by
  unfold roffSetregn
  by_cases hany : regtab.any (·.key = name) = true
  · rw [if_pos hany]
    exact regValue_change name val sign step regtab hany
  · rw [if_neg hany]
    dsimp only
    rw [regValue_change]
    · have hnone : regtab.find? (·.key = name) = none := by
        rw [List.find?_eq_none]
        intro reg hreg hkey
        exact hany (List.any_eq_true.mpr ⟨reg, hreg, hkey⟩)
      have hnew : regValue name (⟨name, 0, 0⟩ :: regtab) = 0 := by
        rw [regValue, List.find?_cons_of_pos]
        exact decide_eq_true rfl
      rw [hnew, regValue, hnone]
    · rw [List.any_cons, decide_eq_true rfl, Bool.true_or]

theorem anMargin_setreg (regtab : List Reg) (val : Int) (sign : Char) :
    anMargin (roffSetreg regtab "an-margin" val sign) = changed (anMargin regtab) val sign := by
  rw [anMargin_eq, anMargin_eq]
  exact regValue_setregn _ val sign none regtab

/-- The part of a width that counts. -/
def positive (width : Int) : Int := if width > 0 then width else 0

theorem positive_nonneg (width : Int) : 0 ≤ positive width := by
  unfold positive
  split
  · next h => exact Int.le_of_lt h
  · exact Int.le_refl 0

/-- Reading the register may define it, but does not change its value. -/
theorem anMargin_getreg (regtab : List Reg) :
    anMargin (roffGetreg regtab "an-margin").2 = anMargin regtab := by
  cases hfind : regtab.find? (·.key = "an-margin".toList) with
  | some reg => rw [roffGetreg, hfind]
  | none =>
    have hzero : anMargin regtab = 0 := by
      rw [anMargin, roffGetreg, hfind]
    rw [hzero, roffGetreg, hfind]
    exact anMargin_setreg regtab 0 NUL

/-- Opening a block with the given width. -/
theorem anMargin_openMargin (width : Int) (regtab : List Reg) (hlo : 0 ≤ anMargin regtab)
    (hhi : (if anMargin regtab = 0 then 5 * 24 else anMargin regtab) + positive width < 2 ^ 31) :
    anMargin (openMargin width regtab) =
      (if anMargin regtab = 0 then 5 * 24 else anMargin regtab) + positive width := by
  have hget := anMargin_getreg regtab
  have hval : (roffGetreg regtab "an-margin").1 = anMargin regtab := rfl
  unfold openMargin
  generalize roffGetreg regtab "an-margin" = got at hget hval
  obtain ⟨val, regtab₁⟩ := got
  subst hval
  dsimp only at hget ⊢
  -- The default margin is set first.
  have hdefault : anMargin (if anMargin regtab = 0
      then roffSetreg regtab₁ "an-margin" (5 * 24) '=' else regtab₁) =
      if anMargin regtab = 0 then 5 * 24 else anMargin regtab := by
    split
    · exact anMargin_setreg regtab₁ (5 * 24) '='
    · exact hget
  unfold positive at hhi ⊢
  split
  · next hpos =>
    rw [if_pos hpos] at hhi
    rw [anMargin_setreg, hdefault]
    have hbase : 0 ≤ if anMargin regtab = 0 then 5 * 24 else anMargin regtab := by
      split
      · decide
      · exact hlo
    exact wrapInt_eq_iff.mpr ⟨by omega, hhi⟩
  · rw [hdefault, Int.add_zero]

/-- Closing a block with the given width. -/
theorem anMargin_closeMargin (width : Int) (regtab : List Reg)
    (hlo : 0 ≤ anMargin regtab - positive width) (hhi : anMargin regtab - positive width < 2 ^ 31) :
    anMargin (closeMargin width regtab) = anMargin regtab - positive width := by
  unfold closeMargin
  unfold positive at hlo hhi ⊢
  split
  · next hpos =>
    rw [if_pos hpos] at hlo hhi
    rw [anMargin_setreg]
    exact wrapInt_eq_iff.mpr ⟨by omega, hhi⟩
  · rw [Int.sub_zero]

/-! ## §2 The open blocks -/

/-- The width of a block that counts: that of its head. -/
def rsWidth (B : ManTree) : Int :=
  match B.head with
  | some hd => positive hd.aux
  | none => 0

/-- The total width of some blocks. -/
def totalWidth (l : List ManTree) : Int := (l.map rsWidth).sum

theorem totalWidth_cons (B : ManTree) (l : List ManTree) :
    totalWidth (B :: l) = rsWidth B + totalWidth l := by
  rw [totalWidth, List.map_cons, List.sum_cons]
  rfl

theorem totalWidth_append (l l' : List ManTree) :
    totalWidth (l ++ l') = totalWidth l + totalWidth l' := by
  rw [totalWidth, List.map_append, List.sum_append]
  rfl

theorem totalWidth_eq_zero {l : List ManTree} (h : ∀ B ∈ l, rsWidth B = 0) : totalWidth l = 0 := by
  induction l with
  | nil => rfl
  | cons B l ih =>
    obtain ⟨hB, hl⟩ := List.forall_mem_cons.mp h
    rw [totalWidth_cons, hB, ih hl, Int.add_zero]

theorem totalWidth_nonneg (l : List ManTree) : 0 ≤ totalWidth l := by
  induction l with
  | nil => exact Int.le_refl 0
  | cons B l ih =>
    have hB : 0 ≤ rsWidth B := by
      unfold rsWidth
      split
      · exact positive_nonneg _
      · exact Int.le_refl 0
    rw [totalWidth_cons]
    exact Int.add_nonneg hB ih

/-- The `RS` blocks that a line closes without counting them. -/
def uncounted (man : ManParser) : ManLine → List ManTree
  | .mac tok args =>
    if tok.isHeading then openRS man.spine
    else
      match tok.ntok, (closeTarget tok args (openBlocks man.spine)).1 with
      | some ntok, some nrew =>
        match findBlock ntok nrew (openBlocks man.spine) with
        | some below => openRS below
        | none => []
      | _, _ => []
  | _ => []

/-- The register agrees with the blocks that are open. -/
def MarginTracks (man : ManParser) : Prop :=
  anMargin man.regtab = 5 * 24 + totalWidth (openRS man.spine)

/-- The margin of the blocks that are open is an `int`. -/
def MarginFits (man : ManParser) : Prop := 5 * 24 + totalWidth (openRS man.spine) < 2 ^ 31

instance (man : ManParser) : Decidable (MarginFits man) := Int.decLt ..

/-- No `RS` block has had an argument yet. -/
structure Untouched (man : ManParser) : Prop where
  register : anMargin man.regtab = 0
  widths : ∀ B ∈ openRS man.spine, rsWidth B = 0

/-- The line is the macro `RS` with an argument. -/
def ManLine.opensMargin : ManLine → Bool
  | .mac .RS (_ :: _) => true
  | _ => false

section

variable {width : WidthOf} {man man' : ManParser} {line : ManLine}

/-- The blocks that are open in front of the one that is closed, that one if it counts, and the
    ones around it. -/
theorem Found.openRS {tok ntok : ManTok} {args : List ManArg} {ss below outer : List ManTree}
    {B hd : ManTree} (h : Found tok ntok args ss below B hd outer) (hntok : tok.ntok = some ntok) :
    openRS ss = openRS below ++ ((if tok = .RE then [B] else []) ++ openRS outer) ∧
      rsWidth B = positive hd.aux := by
  refine ⟨?_, ?_⟩
  · rw [h.nodes]
    refine (List.filter_append below (B :: outer)).trans (congrArg (Mandoc.openRS below ++ ·) ?_)
    have hB := h.isBlock
    by_cases hRE : tok = .RE
    · subst hRE
      obtain rfl : ManTok.RS = ntok := Option.some.inj hntok
      rw [if_pos rfl]
      exact List.filter_cons_of_pos hB
    · have hRS : ntok ≠ .RS := by
        rintro rfl
        revert hntok hRE
        cases tok <;> decide
      rw [if_neg hRE]
      rw [ManTree.isBlock, Bool.and_eq_true] at hB
      exact openRS_cons_of_tok (of_decide_eq_true hB.1) hRS outer
  · rw [rsWidth, h.head]

/-- The blocks that an explicit macro closes without counting them. -/
theorem Found.uncounted_eq {tok ntok : ManTok} {args : List ManArg} {below outer : List ManTree}
    {B hd : ManTree} (h : Found tok ntok args (Mandoc.openBlocks man.spine) below B hd outer)
    (hntok : tok.ntok = some ntok) : uncounted man (.mac tok args) = Mandoc.openRS below := by
  obtain ⟨nrew, htarget, hfind⟩ := h.find
  have hheading : tok.isHeading = false := by
    revert hntok
    cases tok <;> first | exact fun _ => rfl | exact fun h => (by cases h)
  rw [uncounted, hheading, hntok, htarget]
  simp only [hfind]
  rfl

theorem rsWidth_of_opens {args : List ManArg} {B hd : ManTree} (hhead : B.head = some hd)
    (haux : hd.aux = markWidth width args) : rsWidth B = positive (markWidth width args) := by
  rw [rsWidth, hhead, ← haux]

/-- One line keeps the register in agreement with the blocks, unless it closes a block with a
    positive width without counting it, or opens one that is too wide. -/
theorem MovesMargin.tracks (h : MovesMargin width man line man') (htracks : MarginTracks man)
    (hclosed : ∀ B ∈ uncounted man line, rsWidth B = 0) (hfits : MarginFits man') :
    MarginTracks man' := by
  unfold MarginTracks at htracks ⊢
  unfold MarginFits at hfits
  cases h with
  | keeps hline hkeeps => rw [hkeeps.regtab, hkeeps.blocks, htracks]
  | @opens args _ B hd hregtab hblocks hhead haux =>
    -- The width of the new block is added to the margin.
    rw [hblocks, totalWidth_cons, rsWidth_of_opens hhead haux] at hfits ⊢
    rw [hregtab]
    cases args with
    | nil =>
      rw [markRegs, htracks]
      exact congrArg (5 * 24 + ·) (Int.zero_add _).symm
    | cons a args =>
      have hnonneg := totalWidth_nonneg (openRS man.spine)
      have hne : anMargin man.regtab ≠ 0 := by
        rw [htracks]
        omega
      have hwidth : (if anMargin man.regtab = 0 then 5 * 24 else anMargin man.regtab) +
          positive (width a.p) = 5 * 24 + (positive (width a.p) + totalWidth (openRS man.spine)) := by
        rw [if_neg hne, htracks, Int.add_assoc]
        exact congrArg (5 * 24 + ·) (Int.add_comm _ _)
      rw [markRegs, anMargin_openMargin _ _ (by omega) (hwidth ▸ hfits)]
      exact hwidth
  | @heading tok args _ closed htok hblocks hregtab =>
    -- A section header closes blocks that the registers do not count.
    have hzero : totalWidth closed = 0 := by
      apply totalWidth_eq_zero
      intro B hB
      apply hclosed B
      rw [uncounted, if_pos htok, hblocks]
      exact List.mem_append_left _ hB
    rw [hregtab, htracks, hblocks, totalWidth_append, hzero, Int.zero_add]
  | @closes tok ntok args _ below outer B hd hntok hfound hblocks hregtab =>
    -- The blocks inside the one to be closed are not counted either.
    obtain ⟨hsplit, hB⟩ := hfound.openRS hntok
    rw [hfound.uncounted_eq hntok] at hclosed
    have hzero := totalWidth_eq_zero hclosed
    have hspine : openRS man.spine = openRS (openBlocks man.spine) :=
      (openRS_openBlocks man.spine).symm
    rw [hregtab, hblocks]
    rw [hspine, hsplit, totalWidth_append, hzero, Int.zero_add] at htracks
    by_cases hRE : tok = .RE
    · -- .RE takes back the width of the block that it closes.
      rw [if_pos hRE, List.singleton_append, totalWidth_cons, hB] at htracks
      have hnonneg := totalWidth_nonneg (openRS outer)
      rw [hblocks] at hfits
      have hmargin : anMargin man.regtab - positive hd.aux = 5 * 24 + totalWidth (openRS outer) := by
        rw [htracks]
        omega
      rw [if_pos hRE, anMargin_closeMargin _ _ (by omega) (by omega)]
      exact hmargin
    · rw [if_neg hRE, List.nil_append] at htracks
      rw [if_neg hRE, htracks]

/-- Before the first `RS` block with an argument, no line changes the register. -/
theorem MovesMargin.untouched (h : MovesMargin width man line man') (huntouched : Untouched man)
    (hline : line.opensMargin = false) : Untouched man' := by
  obtain ⟨hregister, hwidths⟩ := huntouched
  cases h with
  | keeps _ hkeeps =>
    refine ⟨?_, ?_⟩
    · rw [hkeeps.regtab, hregister]
    · rw [hkeeps.blocks]
      exact hwidths
  | @opens args _ B hd hregtab hblocks hhead haux =>
    cases args with
    | nil =>
      refine ⟨?_, ?_⟩
      · rw [hregtab, markRegs, hregister]
      · rw [hblocks]
        exact List.forall_mem_cons.mpr ⟨rsWidth_of_opens hhead haux, hwidths⟩
    | cons a args => cases hline
  | heading htok hblocks hregtab =>
    refine ⟨?_, fun B hB => hwidths B ?_⟩
    · rw [hregtab, hregister]
    · rw [hblocks]
      exact List.mem_append_right _ hB
  | @closes tok ntok args _ below outer B hd hntok hfound hblocks hregtab =>
    obtain ⟨hsplit, hB⟩ := hfound.openRS hntok
    rw [openRS_openBlocks] at hsplit
    rw [hsplit] at hwidths
    refine ⟨?_, fun B' hB' => hwidths B' ?_⟩
    · rw [hregtab]
      by_cases hRE : tok = .RE
      · -- The width of the block does not count.
        have hzero : rsWidth B = 0 := by
          apply hwidths
          rw [if_pos hRE]
          exact List.mem_append_right _ (List.mem_cons_self ..)
        have hmargin : anMargin man.regtab - positive hd.aux = 0 := by
          rw [hregister, ← hB, hzero]
          rfl
        rw [if_pos hRE, anMargin_closeMargin _ _ hmargin.ge (hmargin ▸ by decide)]
        exact hmargin
      · rw [if_neg hRE, hregister]
    · rw [hblocks] at hB'
      exact List.mem_append_right _ (List.mem_append_right _ hB')

/-- The first `RS` block with an argument brings the register into agreement with the blocks. -/
theorem MovesMargin.first (h : MovesMargin width man line man') (huntouched : Untouched man)
    (hline : line.opensMargin = true) (hfits : MarginFits man') : MarginTracks man' := by
  cases h with
  | keeps hother hkeeps =>
    unfold ManLine.opensMargin at hline
    split at hline
    · exact absurd rfl (hother _)
    · cases hline
  | @opens args _ B hd hregtab hblocks hhead haux =>
    cases args with
    | nil => cases hline
    | cons a args =>
      unfold MarginTracks
      unfold MarginFits at hfits
      -- No block was counted before, so the margin starts from its default.
      rw [hblocks, totalWidth_cons, rsWidth_of_opens hhead haux,
        totalWidth_eq_zero huntouched.widths, Int.add_zero] at hfits ⊢
      have hregister := huntouched.register
      rw [hregtab, markRegs, anMargin_openMargin _ _ hregister.ge (by rwa [if_pos hregister]),
        if_pos hregister]
      rfl
  | heading htok hblocks hregtab =>
    unfold ManLine.opensMargin at hline
    split at hline
    · next heq =>
      cases heq
      cases htok
    · cases hline
  | closes hntok hfound hblocks hregtab =>
    unfold ManLine.opensMargin at hline
    split at hline
    · next heq =>
      cases heq
      cases hntok
    · cases hline

end

/-! ## §3 Runs -/

/-- Runs in which no `RS` block with a positive width is closed without being counted, and the margin
    is an `int` all the time. -/
inductive MarginRun (width : WidthOf) : List ManLine → ManParser → Prop
  | init : MarginRun width [] ManParser.init
  | step {lines : List ManLine} {line : ManLine} {man man' : ManParser}
      (h : MarginRun width lines man) (hclosed : ∀ B ∈ uncounted man line, rsWidth B = 0)
      (hline : manLine width man line = .ok man') (hfits : MarginFits man') :
      MarginRun width (lines ++ [line]) man'

/-- In such a run, the register is zero up to the first `RS` block with an argument, and from then
    on, it agrees with the blocks. By induction on the run. -/
theorem MarginRun.good {width : WidthOf} {lines : List ManLine} {man : ManParser}
    (h : MarginRun width lines man) :
    Good man ∧ if lines.any (·.opensMargin) then MarginTracks man else Untouched man := by
  induction h with
  | init => exact ⟨init_plain.good, ⟨rfl, fun B hB => (by cases hB)⟩⟩
  | @step lines line man man' h hclosed hline hfits ih =>
    obtain ⟨hgood, hinv⟩ := ih
    obtain ⟨man₁, hline₁, hgood₁, hmoves⟩ := exists_manLine hgood width line
    obtain rfl : man' = man₁ := Except.ok.inj (hline.symm.trans hline₁)
    refine ⟨hgood₁, ?_⟩
    rw [List.any_append, List.any_cons, List.any_nil, Bool.or_false]
    by_cases hopened : lines.any (·.opensMargin) = true
    · rw [if_pos hopened] at hinv
      rw [hopened, Bool.true_or, if_pos rfl]
      exact hmoves.tracks hinv hclosed hfits
    · rw [if_neg hopened] at hinv
      rw [Bool.eq_false_iff.mpr hopened, Bool.false_or]
      by_cases hopens : line.opensMargin = true
      · rw [if_pos hopens]
        exact hmoves.first hinv hopens hfits
      · rw [if_neg hopens]
        exact hmoves.untouched hinv (Bool.eq_false_iff.mpr hopens)

/-- In runs in which no `RS` block with a positive width is closed without being counted, and in which
    the margin is always an `int`, after the first `RS` block with an argument, the register is the
    sum of the default margin and the positive widths of the blocks that are open. -/
theorem marginRun_tracks {width : WidthOf} {lines : List ManLine} {man : ManParser}
    (h : MarginRun width lines man) (hopened : lines.any (·.opensMargin) = true) :
    anMargin man.regtab = 5 * 24 + totalWidth (openRS man.spine) := by
  have hinv := h.good.2
  rw [if_pos hopened] at hinv
  exact hinv

/-- `.RS 5` -/
def rsFive : ManLine := .mac .RS [⟨['5'], ['5']⟩]

/-- Two `RS` blocks are opened, and the inner one is closed. -/
theorem marginRun_tracks_nested :
    ∃ man, manLines (fun _ => 120) [rsFive, rsFive, .mac .RE []] = .ok man ∧
      totalWidth (openRS man.spine) = 120 ∧ anMargin man.regtab = 5 * 24 + 120 := by
  have h₁ := @MarginRun.step (fun _ => 120) [] rsFive _ _ .init (by decide) rfl (by decide)
  have h₂ := @MarginRun.step (fun _ => 120) [rsFive] rsFive _ _ h₁ (by decide) rfl (by decide)
  have h₃ := @MarginRun.step (fun _ => 120) [rsFive, rsFive] (.mac .RE []) _ _ h₂ (by decide) rfl (by decide)
  exact ⟨_, rfl, rfl, marginRun_tracks h₃ rfl⟩

/-- `SH` closes an `RS` block, but the register still contains the width of that block. -/
theorem anMargin_drifts :
    ¬∀ (width : WidthOf) (lines : List ManLine) (man : ManParser),
      manLines width lines = .ok man → lines.any (·.opensMargin) = true →
      anMargin man.regtab = 5 * 24 + totalWidth (openRS man.spine) := by
  intro h
  have hrun : (match manLines (fun _ => 120) [rsFive, .mac .SH [⟨['x'], ['x']⟩]] with
    | .ok man => decide (anMargin man.regtab ≠ 5 * 24 + totalWidth (openRS man.spine))
    | .error _ => false) = true := by
    decide +kernel
  split at hrun
  · next man hman => exact of_decide_eq_true hrun (h _ _ man hman rfl)
  · cases hrun

end Mandoc
