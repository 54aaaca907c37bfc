import Mandoc.Man.NextLine

/-!
# Blocks of the man(7) Parser

While no next-line scope is open, the open nodes are the bodies of blocks up to the root. Macros
close some of these blocks, and then they may open another one.

- `exists_unscopeBlock` is about closing a block together with all that is open inside it.
- `exists_rewScope` says which blocks a macro closes implicitly.
-/

namespace Mandoc

/-! ## §1 The blocks that move text to the right -/

/-- The `RS` blocks among some nodes. -/
def openRS (l : List ManTree) : List ManTree := l.filter (·.isBlock .RS)

/-- Neither the `RS` blocks that are open nor the registers change. -/
structure KeepsRS (man man' : ManParser) : Prop where
  blocks : openRS man'.spine = openRS man.spine
  regtab : man'.regtab = man.regtab

theorem KeepsRS.refl (man : ManParser) : KeepsRS man man := ⟨rfl, rfl⟩

theorem KeepsRS.trans {man₁ man₂ man₃ : ManParser} (h : KeepsRS man₁ man₂)
    (h' : KeepsRS man₂ man₃) : KeepsRS man₁ man₃ :=
  ⟨h'.blocks.trans h.blocks, h'.regtab.trans h.regtab⟩

/-- `RS` blocks are among the blocks that stay open. -/
theorem openRS_openBlocks (l : List ManTree) : openRS (openBlocks l) = openRS l := by
  rw [openRS, openBlocks, List.filter_filter, openRS]
  congr
  funext n
  by_cases hn : n.isBlock .RS = true
  · rw [hn, Bool.true_and]
    rw [ManTree.isBlock, Bool.and_eq_true] at hn
    rw [hn.2, of_decide_eq_true hn.1]
    rfl
  · rw [Bool.eq_false_iff.mpr hn, Bool.false_and]

theorem Kept.keepsRS {man man' : ManParser} (h : Kept man man') : KeepsRS man man' := by
  refine ⟨?_, h.regtab⟩
  rw [← openRS_openBlocks, h.blocks, openRS_openBlocks]

theorem openRS_cons_of_ne {s : ManTree} (h : s.type ≠ .BLOCK) (ss : List ManTree) :
    openRS (s :: ss) = openRS ss := by
  rw [openRS, List.filter_cons_of_neg]
  · rfl
  · rw [ManTree.isBlock, Bool.and_eq_true, not_and, decide_eq_true_eq, decide_eq_true_eq]
    exact fun _ => h

theorem openRS_cons_of_tok {s : ManTree} {t : ManTok} (htok : s.tok = .MAN t) (h : t ≠ .RS)
    (ss : List ManTree) : openRS (s :: ss) = openRS ss := by
  rw [openRS, List.filter_cons_of_neg]
  · rfl
  · rw [ManTree.isBlock, Bool.and_eq_true, not_and, decide_eq_true_eq, htok]
    exact fun heq => absurd (ManNodeTok.MAN.inj heq) h

/-! ## §2 Closing one block -/

/-- The block `B`, after it has been closed. -/
structure ClosedBlock (B n : ManTree) : Prop where
  tok : n.tok = B.tok
  type : n.type = .BLOCK
  valid : n.valid = true
  head : n.head = B.head

theorem ClosedBlock.done {B n : ManTree} (h : ClosedBlock B n) : n.Done := by
  refine ⟨?_, fun _ => h.valid⟩
  rw [h.type]
  decide

/-- Going up to a block completes it, and the other children of its parent stay as they are. By
    induction on the nodes that are passed: the innermost one becomes a child of the next one. -/
theorem exists_rewind {n B : ManTree} {below outer : List ManTree} (hB : B.type = .BLOCK)
    (hn : n.type ≠ .HEAD) (hbelow : ∀ m ∈ below, m.type ≠ .HEAD) :
    ∃ n', rewind (below.length + 1) n (below ++ B :: outer) = .ok (n', outer) ∧
      ClosedBlock B n' := by
  induction below generalizing n with
  | nil =>
    refine ⟨(B.add n.complete).complete, rfl, rfl, hB, rfl, ?_⟩
    rw [ManTree.head, ManTree.complete_child, ManTree.add_child, List.find?_cons_of_neg]
    · rfl
    · rw [ManTree.complete_type, decide_eq_true_eq]
      exact hn
  | cons p below ih =>
    obtain ⟨hp, hbelow⟩ := List.forall_mem_cons.mp hbelow
    exact ih (n := p.add n.complete) hp hbelow

section

variable {man : ManParser} {s B : ManTree} {ss below outer : List ManTree}

/-- Going up starts at the innermost open node. -/
theorem unscope_add (h : man.spine = s :: ss) (k : Nat) :
    manUnscope man (man.steps + k) = (rewind k man.top ss).bind fun x =>
      .ok { man with last := x.1, parents := x.2, next := .SIBLING } := by
  rcases spine_cases h with ⟨hnext, -, rfl⟩ | ⟨hnext, q, hparents, -⟩
  · rw [manUnscope, ManParser.steps, ManParser.top, hnext, Nat.zero_add]
    rfl
  · rw [manUnscope, ManParser.steps, ManParser.top, hnext, hparents, Nat.add_comm 1 k]
    rfl

/-- The bodies outside of a block that is open, and the nodes inside it. By induction on the
    bodies. -/
theorem Sections.split {l : List ManTree} (h : Sections l) (hl : l = s :: (below ++ B :: outer))
    (hB : B.type = .BLOCK) :
    (∀ m ∈ below, m.type ≠ .HEAD) ∧ B.head.isSome = true ∧ Sections outer := by
  induction h generalizing s below with
  | root h =>
    have hnil := (List.cons.inj hl).2
    exact absurd hnil.symm (List.append_ne_nil_of_right_ne_nil _ (List.cons_ne_nil _ _))
  | @block b B' l h hl' ih =>
    have hl := (List.cons.inj hl).2
    cases below with
    | nil =>
      obtain ⟨rfl, rfl⟩ := List.cons.inj (show B' :: l = B :: outer from hl)
      exact ⟨fun m hm => (by cases hm), h.head, hl'⟩
    | cons m below =>
      obtain ⟨rfl, rfl⟩ := List.cons.inj (show B' :: l = m :: (below ++ B :: outer) from hl)
      cases below with
      | nil => exact absurd hB (hl'.type_ne (by decide) (by decide))
      | cons m' below =>
        obtain ⟨hbelow, hhead, houter⟩ := ih rfl
        refine ⟨List.forall_mem_cons.mpr ⟨?_, List.forall_mem_cons.mpr ⟨?_, hbelow⟩⟩, hhead,
          houter⟩
        · rw [h.blockType]
          decide
        · exact hl'.type_ne (by decide) (by decide)

/-- A block is closed: the innermost open node is now the body around it. -/
structure Closes (man : ManParser) (B : ManTree) (outer : List ManTree) (man' : ManParser) :
    Prop where
  plain : Unscoped man'
  block : ClosedBlock B man'.last
  next : man'.next = .SIBLING
  spine : ∃ o os, outer = o :: os ∧ man'.spine = o.add man'.last :: os
  regtab : man'.regtab = man.regtab

/-- Closing a block, and what is open inside it. -/
theorem exists_unscopeBlock (h : Unscoped man) (hspine : man.spine = s :: (below ++ B :: outer))
    (hB : B.type = .BLOCK) :
    ∃ man', manUnscope man (man.steps + (below.length + 1)) = .ok man' ∧
      Closes man B outer man' := by
  obtain ⟨hbelow, hhead, houter⟩ := h.sections.split hspine hB
  obtain ⟨o, os, rfl⟩ := houter.exists_cons
  obtain ⟨-, htop, -⟩ := top_eq hspine
  have htop' : man.top.type ≠ .HEAD := by
    have hsections := h.sections
    rw [hspine] at hsections
    rw [htop]
    exact hsections.type_ne (by decide) (by decide)
  obtain ⟨n, hrewind, hn⟩ := @exists_rewind man.top B below (o :: os) hB htop' hbelow
  refine ⟨{ man with last := n, parents := o :: os, next := .SIBLING }, ?_,
    ⟨houter.add hn.done, h.eline, h.bline, h.ce⟩, hn, rfl, ⟨o, os, rfl, rfl⟩, rfl⟩
  rw [unscope_add hspine, hrewind]
  rfl

/-- Outside of a block that is closed, the same `RS` blocks are open. -/
theorem Closes.openRS {man' : ManParser} (h : Closes man B outer man') :
    openRS man'.spine = openRS outer := by
  obtain ⟨o, os, rfl, hspine⟩ := h.spine
  have hplain := h.plain.sections
  rw [hspine] at hplain ⊢
  have htype : (o.add man'.last).type ≠ .BLOCK := hplain.type_ne (by decide) (by decide)
  rw [openRS_cons_of_ne htype, openRS_cons_of_ne (show o.type ≠ .BLOCK from htype)]

/-! ## §3 Closing blocks implicitly -/

/-- What is left of the path from the last node to the root, from the innermost open node on. -/
theorem exists_path (h : man.spine = s :: ss) :
    ∃ n, (man.last :: man.parents).drop man.steps = n :: ss ∧ n.tok = s.tok ∧ n.type = s.type ∧
      n.valid = s.valid := by
  rcases spine_cases h with ⟨hnext, rfl, rfl⟩ | ⟨hnext, q, hparents, rfl⟩
  · refine ⟨man.last, ?_, rfl, rfl, rfl⟩
    rw [ManParser.steps, hnext, List.drop_zero]
  · refine ⟨q, ?_, rfl, rfl, rfl⟩
    rw [ManParser.steps, hnext, hparents, List.drop_one, List.tail_cons]

/-- Whether closing stops depends on the macro that opened the block. -/
theorem exists_stops (tok : ManTok) {t : ManTok} (h : B.tok = .MAN t) :
    ∃ stop, stops tok B = .ok stop := by
  unfold stops
  rw [h]
  by_cases hSH : tok = .SH
  · exact ⟨false, if_pos hSH⟩
  · rw [if_neg hSH]
    by_cases hnSH : ManNodeTok.MAN t = .MAN .SH
    · exact ⟨true, if_pos hnSH⟩
    · rw [if_neg hnSH]
      by_cases hSS : tok = .SS
      · exact ⟨false, if_pos hSS⟩
      · rw [if_neg hSS]
        by_cases hnSS : ManNodeTok.MAN t = .MAN .SS
        · exact ⟨true, if_pos hnSS⟩
        · rw [if_neg hnSS]
          exact ⟨_, rfl⟩

/-- Some of the open blocks are closed: only such that do not stop the macro. -/
structure Rewinds (tok : ManTok) (man man' : ManParser) : Prop where
  plain : Unscoped man'
  blocks : ∃ closed, openRS man.spine = closed ++ openRS man'.spine ∧
    ∀ B ∈ closed, stops tok B = .ok false
  regtab : man'.regtab = man.regtab

theorem Unscoped.rewinds (h : Unscoped man) (tok : ManTok) : Rewinds tok man man :=
  ⟨h, ⟨[], rfl, fun B hB => (by cases hB)⟩, rfl⟩

theorem Unscoped.last_done (h : Unscoped man) {q : ManTree}
    (hspine : man.spine = q.add man.last :: ss) :
    man.last.Done := by
  have hsections := h.sections
  rw [hspine] at hsections
  exact hsections.kids man.last (List.mem_cons_self ..)

/-- At the root, nothing is closed. -/
theorem rewScopeLoop_root (h : Unscoped man) (hspine : man.spine = [s]) (hs : s.type = .ROOT)
    (tok : ManTok) (fuel : Nat) :
    ∃ man', rewScopeLoop tok (fuel + 2) man 0 = .ok man' ∧ Rewinds tok man man' := by
  rcases spine_cases hspine with ⟨hnext, rfl, hparents⟩ | ⟨hnext, q, hparents, rfl⟩
  · refine ⟨man, ?_, h.rewinds tok⟩
    rw [rewScopeLoop, List.drop_zero]
    exact if_pos hs
  · have hlast := h.last_done hspine
    have hq : q.type = .ROOT := hs
    rw [rewScopeLoop, List.drop_zero, hparents]
    dsimp only
    rw [if_neg hlast.1]
    by_cases hvalid : man.last.valid = true
    · refine ⟨man, ?_, h.rewinds tok⟩
      rw [if_pos hvalid, rewScopeLoop, hparents]
      exact if_pos hq
    · -- The last node is completed, but stays where it is.
      have hblock : man.last.type ≠ .BLOCK := fun htype => hvalid (hlast.2 htype)
      rw [if_neg hvalid, if_pos hblock, if_pos hq, manUnscope, hparents]
      have hsections := h.sections
      rw [hspine] at hsections
      have hplain : Sections [q.add man.last.complete] :=
        hsections.withKids (List.forall_mem_cons.mpr
          ⟨⟨hlast.1, fun _ => rfl⟩, (List.forall_mem_cons.mp hsections.kids).2⟩)
      have hroot : ∀ c : ManTree, (q.add c).type ≠ .BLOCK := by
        intro c
        rw [ManTree.add_type, hq]
        decide
      refine ⟨_, rfl, ⟨hplain, h.eline, h.bline, h.ce⟩, ⟨[], ?_, fun B hB => (by cases hB)⟩, rfl⟩
      rw [hspine, openRS_cons_of_ne (hroot _)]
      exact (openRS_cons_of_ne (hroot _) []).symm

/-- The loop gets to the innermost open node. -/
theorem rewScopeLoop_up (h : Unscoped man) (hspine : man.spine = s :: ss) (hs : s.type ≠ .ROOT)
    (tok : ManTok) (fuel : Nat) :
    ∃ fuel', fuel ≤ fuel' ∧
      rewScopeLoop tok (fuel + 1) man 0 = rewScopeLoop tok fuel' man man.steps := by
  rcases spine_cases hspine with ⟨hnext, -, -⟩ | ⟨hnext, q, hparents, rfl⟩
  · refine ⟨fuel + 1, Nat.le_add_right _ _, ?_⟩
    rw [ManParser.steps, hnext]
  · refine ⟨fuel, Nat.le_refl _, ?_⟩
    have hlast := h.last_done hspine
    rw [ManParser.steps, hnext, rewScopeLoop, List.drop_zero, hparents]
    dsimp only
    rw [if_neg hlast.1]
    by_cases hvalid : man.last.valid = true
    · rw [if_pos hvalid]
    · have hblock : man.last.type ≠ .BLOCK := fun htype => hvalid (hlast.2 htype)
      rw [if_neg hvalid, if_pos hblock, if_neg (show q.type ≠ .ROOT from hs)]

/-- At the body of a block, the block is closed unless it stops the macro. -/
theorem rewScopeLoop_block (h : Unscoped man) (hspine : man.spine = s :: B :: ss) (hs : IsBody s B)
    (tok : ManTok) (fuel : Nat) :
    (stops tok B = .ok true ∧ rewScopeLoop tok (fuel + 2) man man.steps = .ok man) ∨
      (stops tok B = .ok false ∧ ∃ man', Closes man B ss man' ∧
        rewScopeLoop tok (fuel + 2) man man.steps = rewScopeLoop tok fuel man' 0) := by
  obtain ⟨n, hpath, -, hntype, hnvalid⟩ := exists_path hspine
  obtain ⟨t, -, hBtok, -⟩ := hs.tok
  obtain ⟨stop, hstop⟩ := exists_stops tok hBtok
  have hdrop : (man.last :: man.parents).drop (man.steps + 1) = B :: ss := by
    rw [← List.drop_drop, hpath, List.drop_one, List.tail_cons]
  -- The body is passed, and then the block is reached.
  have hloop : rewScopeLoop tok (fuel + 2) man man.steps = (do
      let stop ← stops tok B
      if stop then return man
      else
        let man ← manUnscope man (man.steps + 1)
        rewScopeLoop tok fuel man 0) := by
    have hbody : n.type = .BODY := hntype.trans hs.type
    have hblock := hs.blockType
    rw [rewScopeLoop, hpath]
    simp only [hbody, hnvalid, hs.valid, hblock]
    rw [rewScopeLoop, hdrop]
    simp [hblock, hs.blockValid]
  rw [hloop, hstop, Res.ok_bind]
  cases stop with
  | true => exact .inl ⟨rfl, rfl⟩
  | false =>
    obtain ⟨man', hunscope, hcloses⟩ := @exists_unscopeBlock man s B [] ss h hspine hs.blockType
    have hunscope' : manUnscope man (man.steps + 1) = .ok man' := hunscope
    refine .inr ⟨rfl, man', hcloses, ?_⟩
    rw [hunscope']
    rfl

/-- After one block has been closed, more blocks may be. -/
theorem Closes.rewinds {tok : ManTok} {man₁ man₂ : ManParser} (h : Closes man B ss man₁)
    (hspine : man.spine = s :: B :: ss) (hs : s.type ≠ .BLOCK) (hB : stops tok B = .ok false)
    (hrewinds : Rewinds tok man₁ man₂) : Rewinds tok man man₂ := by
  obtain ⟨closed, hclosed, hstops⟩ := hrewinds.blocks
  refine ⟨hrewinds.plain, ⟨Mandoc.openRS [B] ++ closed, ?_, fun B' hB' => ?_⟩,
    hrewinds.regtab.trans h.regtab⟩
  · rw [hspine, openRS_cons_of_ne hs, List.append_assoc, ← hclosed, h.openRS]
    exact List.filter_append [B] ss
  · rcases List.mem_append.mp hB' with hB' | hB'
    · rw [List.mem_singleton.mp (List.mem_filter.mp hB').1]
      exact hB
    · exact hstops B' hB'

/-- The loop of `rew_scope()`. By induction on the number of open nodes, because every block that
    is closed makes them fewer. -/
theorem exists_rewScopeLoop (tok : ManTok) {k : Nat} (h : Unscoped man) (hk : man.spine.length ≤ k)
    {fuel : Nat} (hfuel : 3 * k ≤ fuel) :
    ∃ man', rewScopeLoop tok fuel man 0 = .ok man' ∧ Rewinds tok man man' := by
  -- By induction on the number of open nodes; three steps are enough for each of them.
  induction k generalizing man fuel with
  | zero =>
    obtain ⟨s, l, hspine⟩ := h.sections.exists_cons
    rw [hspine] at hk
    exact absurd hk (Nat.not_succ_le_zero _)
  | succ k ih =>
    obtain ⟨fuel, rfl⟩ := Nat.exists_eq_add_of_le' (Nat.le_trans (Nat.le_add_left 3 (3 * k)) hfuel)
    have hsections := h.sections
    generalize hspine : man.spine = l at hsections
    cases hsections with
    | root hr => exact rewScopeLoop_root h hspine hr.type tok (fuel + 1)
    | @block b B l hb hl =>
      have hroot : b.type ≠ .ROOT := by
        rw [hb.type]
        decide
      obtain ⟨fuel', hle, hup⟩ := rewScopeLoop_up h hspine hroot tok (fuel + 2)
      obtain ⟨fuel', rfl⟩ := Nat.exists_eq_add_of_le' (Nat.le_trans (Nat.le_add_left 2 fuel) hle)
      rw [show fuel + 3 = fuel + 2 + 1 from rfl, hup]
      -- The loop stops at a block that may stay open, or closes it and goes on.
      rcases rewScopeLoop_block h hspine hb tok fuel' with ⟨-, hstay⟩ | ⟨hstop, man₁, hcloses, hloop⟩
      · exact ⟨man, hstay, h.rewinds tok⟩
      · rw [hspine] at hk
        obtain ⟨o, os, rfl, hspine₁⟩ := hcloses.spine
        have hk₁ : man₁.spine.length ≤ k := by
          rw [hspine₁]
          exact Nat.le_of_succ_le_succ (Nat.le_of_succ_le hk)
        have hfuel' : 3 * k ≤ fuel' :=
          Nat.le_trans (Nat.le_of_add_le_add_right hfuel) (Nat.le_of_add_le_add_right hle)
        obtain ⟨man₂, hloop₂, hrewinds⟩ := ih hcloses.plain hk₁ hfuel'
        refine ⟨man₂, hloop.trans hloop₂, hcloses.rewinds hspine ?_ hstop hrewinds⟩
        rw [hb.type]
        decide

/-- `rew_scope()` -/
theorem exists_rewScope (h : Unscoped man) (tok : ManTok) :
    ∃ man', rewScope man tok = .ok man' ∧ Rewinds tok man man' := by
  unfold rewScope
  split
  · exact ⟨man, rfl, h.rewinds tok⟩
  · have hlen : man.spine.length ≤ man.parents.length + 1 := by
      obtain ⟨s, ss, hspine⟩ := h.sections.exists_cons
      rw [hspine]
      rcases spine_cases hspine with ⟨-, -, rfl⟩ | ⟨-, q, hparents, -⟩
      · exact Nat.le_refl _
      · rw [hparents]
        exact Nat.le_add_right _ 1
    exact exists_rewScopeLoop tok h hlen (Nat.le_of_eq (Nat.mul_add 3 _ 1))

/-- Only section macros close `RS` blocks implicitly. -/
theorem Rewinds.openRS {tok : ManTok} {man' : ManParser} (h : Rewinds tok man man')
    (htok : tok.isHeading = false) : openRS man'.spine = openRS man.spine := by
  obtain ⟨closed, hclosed, hstops⟩ := h.blocks
  cases closed with
  | nil => exact hclosed.symm
  | cons B closed =>
    have hB : B.isBlock .RS = true := by
      have hmem : B ∈ Mandoc.openRS man.spine := by
        rw [hclosed]
        exact List.mem_cons_self ..
      exact (List.mem_filter.mp hmem).2
    have hBtok : B.tok = .MAN .RS := by
      rw [ManTree.isBlock, Bool.and_eq_true] at hB
      exact of_decide_eq_true hB.1
    have hstop := hstops B (List.mem_cons_self ..)
    obtain ⟨hSH, hSS⟩ : tok ≠ .SH ∧ tok ≠ .SS := by
      rw [ManTok.isHeading, Bool.or_eq_false_iff] at htok
      exact ⟨of_decide_eq_false htok.1, of_decide_eq_false htok.2⟩
    rw [stops, if_neg hSH, if_neg hSS, hBtok] at hstop
    exact absurd hstop (by decide)

end

/-! ## §4 Opening blocks -/

theorem flags_of_blkImp {t : ManTok} (h : (manMacros t).fp = .blkImp) :
    (manMacros t).escoped = false ∧ (manMacros t).nscoped = false ∧
      (manMacros t).xscope = true ∧ t ≠ .RS := by
  revert h
  cases t <;> decide

theorem flags_of_blkExp {t : ManTok} (h : (manMacros t).fp = .blkExp) :
    (manMacros t).escoped = false ∧ (manMacros t).nscoped = false ∧
      (manMacros t).xscope = true := by
  revert h
  cases t <;> decide

section

variable {man : ManParser} {s B : ManTree} {ss below outer : List ManTree}

/-- The words of a line become the last children of the innermost open node. -/
theorem exists_wordsLoop (args : List ManArg) (hspine : man.spine = s :: ss) :
    ∃ man' kids, wordsLoop args man = .ok man' ∧
      man'.spine = { s with child := kids ++ s.child } :: ss ∧ (∀ c ∈ kids, c.InHead) ∧
      SameFlags man man' ∧ man'.regtab = man.regtab ∧
      man'.steps = if args.isEmpty then man.steps else 1 := by
  induction args generalizing man s with
  | nil =>
    refine ⟨man, [], rfl, ?_, fun c hc => (by cases hc), ⟨rfl, rfl, rfl⟩, rfl, rfl⟩
    rw [hspine]
    cases s
    rfl
  | cons a args ih =>
    -- Each argument becomes a text node, and these are in front of the later ones.
    have hword := appendLeaf_eq hspine { type := .TEXT, string := a.p, valid := true }
    set man₁ : ManParser := { man with
      last := { type := .TEXT, string := a.p, valid := true }, parents := s :: ss
      next := .SIBLING } with hman₁
    obtain ⟨man', kids, hloop, hspine', hkids, hflags, hregtab, hsteps⟩ :=
      @ih man₁ (s.add { type := .TEXT, string := a.p, valid := true }) rfl
    refine ⟨man', kids ++ [{ type := .TEXT, string := a.p, valid := true }], ?_, ?_, ?_,
      ⟨hflags.eline, hflags.bline, hflags.ce⟩, hregtab, ?_⟩
    · rw [wordsLoop, ManParser.wordAlloc, hword, Res.ok_bind, hloop]
    · rw [hspine', List.append_assoc]
      rfl
    · intro c hc
      rcases List.mem_append.mp hc with hc | hc
      · exact hkids c hc
      · rw [List.mem_singleton.mp hc]
        exact word_inHead a.p
    · rw [hsteps]
      exact ite_self 1

/-- A block that has been opened, before anything is in it. -/
def openedBlock (tok : ManTok) : ManTree := { tok := .MAN tok, type := .BLOCK }

/-- The head of such a block. -/
def openedHead (tok : ManTok) : ManTree := { tok := .MAN tok, type := .HEAD }

theorem alloc_block (hspine : man.spine = s :: ss) (tok : ManTok) :
    ∃ man₁, man.alloc .BLOCK (.MAN tok) = .ok man₁ ∧ man₁.alloc .HEAD (.MAN tok) =
      .ok { man with
        last := openedHead tok, parents := openedBlock tok :: s :: ss, next := .CHILD } :=
  ⟨_, alloc_eq hspine _ _, @alloc_eq _ (openedBlock tok) (s :: ss) rfl _ _⟩

/-- The head of a new block is closed, and its body is opened. -/
theorem exists_newBody {hd : ManTree} {tok : ManTok}
    (hspine : man.spine = hd :: openedBlock tok :: outer) (htype : hd.type = .HEAD)
    (htok : hd.tok = .MAN tok) (hescoped : (manMacros tok).escoped = false)
    (houter : Sections outer) (heline : man.eline = false) (hbline : man.bline = false)
    (hce : man.ce = none) :
    ∃ man' n, (do
        let man ← manUnscope man man.steps
        man.alloc .BODY (.MAN tok) : Res ManParser) = .ok man' ∧ Unscoped man' ∧
      man'.regtab = man.regtab ∧ n.aux = hd.aux ∧ ((openedBlock tok).add n).head = some n ∧
      openRS man'.spine = openRS ((openedBlock tok).add n :: outer) := by
  obtain ⟨man₁, man₂, n, b, hunscope, -, halloc, hspine₂, hb, hhead, haux, hflags, hregtab⟩ :=
    exists_openBody hspine htype htok rfl rfl rfl hescoped
  refine ⟨man₂, n, ?_, ⟨?_, hflags.eline.trans heline, hflags.bline.trans hbline,
    hflags.ce.trans hce⟩, hregtab, haux, hhead, ?_⟩
  · rw [hunscope, Res.ok_bind, halloc]
  · exact hspine₂ ▸ Sections.block hb houter
  · rw [hspine₂, openRS_cons_of_ne]
    rw [hb.type]
    decide

/-- `blk_imp()`: some blocks are closed, and then another one is opened. -/
theorem exists_blkImp (h : Unscoped man) {tok : ManTok} (hfp : (manMacros tok).fp = .blkImp)
    (args : List ManArg) :
    ∃ man₁ man', blkImp tok args man = .ok man' ∧ Rewinds tok man man₁ ∧ KeepsRS man₁ man' ∧
      Good man' ∧ ((manMacros tok).bscoped = false → Unscoped man') := by
  obtain ⟨hescoped, -, -, hRS⟩ := flags_of_blkImp hfp
  -- Blocks that end before this one are closed, and the new block and its head are opened.
  obtain ⟨man₁, hrew, hrewinds⟩ := exists_rewScope h tok
  obtain ⟨s, ss, hspine₁⟩ := hrewinds.plain.sections.exists_cons
  have hsections : Sections (s :: ss) := hspine₁ ▸ hrewinds.plain.sections
  obtain ⟨_, hblock, hhead⟩ :=
    @alloc_block { man₁ with nofill := man₁.nofill && !tok.isHeading } s ss hspine₁ tok
  set man₂ : ManParser := { man₁ with
    nofill := man₁.nofill && !tok.isHeading, last := openedHead tok
    parents := openedBlock tok :: s :: ss, next := .CHILD } with hman₂
  -- The arguments become children of the head.
  obtain ⟨man₃, kids, hwords, hspine₃, hkids, hflags, hregtab, hsteps⟩ :=
    @exists_wordsLoop man₂ (openedHead tok) (openedBlock tok :: s :: ss) args rfl
  have heline : man₃.eline = false := hflags.eline.trans hrewinds.plain.eline
  have hbline : man₃.bline = false := hflags.bline.trans hrewinds.plain.bline
  have hce : man₃.ce = none := hflags.ce.trans hrewinds.plain.ce
  have hstart : blkImp tok args man = (
      if (manMacros tok).bscoped && (tok = .TP || tok = .TQ || args.isEmpty) then
        .ok { man₃ with bline := true }
      else do
        let man ← manUnscope man₃ (ownerOf args)
        man.alloc .BODY (.MAN tok) : Res ManParser) := by
    rw [blkImp, hrew, Res.ok_bind]
    dsimp only
    rw [hblock, Res.ok_bind, hhead, Res.ok_bind, hwords, Res.ok_bind]
    rfl
  rw [hstart]
  by_cases hscope : ((manMacros tok).bscoped && (tok = .TP || tok = .TQ || args.isEmpty)) = true
  · -- The head stays open.
    rw [if_pos hscope]
    have hbscoped := (Bool.and_eq_true_iff.mp hscope).1
    have hhead : IsHead { openedHead tok with child := kids ++ (openedHead tok).child }
        (openedBlock tok) := by
      refine ⟨rfl, rfl, rfl, rfl, ⟨tok, rfl, rfl, hbscoped⟩, fun c hc => ?_⟩
      rcases List.mem_append.mp hc with hc | hc
      · exact hkids c hc
      · cases hc
    refine ⟨man₁, _, rfl, hrewinds, ⟨?_, hregtab⟩, ?_, fun hb => ?_⟩
    · change Mandoc.openRS man₃.spine = _
      rw [hspine₃, ← openRS_openBlocks, hhead.openBlocks, openRS_openBlocks, hspine₁]
    · exact Loose.good ⟨[], [_, _], s :: ss, ⟨hspine₃, eline_iff_nil heline,
        fun e he => (by cases he), .head rfl hce hhead, hsections⟩⟩ heline
    · rw [hbscoped] at hb
      cases hb
  · -- The head is closed, and the body is opened.
    rw [if_neg hscope]
    have howner : ownerOf args = man₃.steps := hsteps.symm
    obtain ⟨man', n, hbody, hplain, hregtab', -, -, hblocks⟩ := exists_newBody hspine₃ rfl rfl
      hescoped hsections heline hbline hce
    rw [howner, hbody]
    refine ⟨man₁, man', rfl, hrewinds, ⟨?_, hregtab'.trans hregtab⟩, hplain.good, fun _ => hplain⟩
    have hadd : Mandoc.openRS ((openedBlock tok).add n :: s :: ss) = Mandoc.openRS (s :: ss) :=
      @openRS_cons_of_tok ((openedBlock tok).add n) tok rfl hRS (s :: ss)
    rw [hblocks, hadd, hspine₁]

/-- The width of an `RS` block with the given arguments. -/
def markWidth (width : WidthOf) (args : List ManArg) : Int :=
  match args with
  | [] => 0
  | a :: _ => width a.p

/-- The registers after an `RS` block with the given arguments has been opened. -/
def markRegs (width : WidthOf) (args : List ManArg) (regtab : List Reg) : List Reg :=
  match args with
  | [] => regtab
  | a :: _ => openMargin (width a.p) regtab

/-- The argument of an explicit block goes into its head. -/
theorem exists_expArg (width : WidthOf) (tok : ManTok) (args : List ManArg)
    (hlast : man.last = openedHead tok) (hparents : man.parents = ss)
    (hnext : man.next = .CHILD) :
    ∃ man' hd, expArg width tok args man = .ok man' ∧ man'.spine = hd :: ss ∧
      hd.type = .HEAD ∧ hd.tok = .MAN tok ∧ SameFlags man man' ∧ man'.steps = ownerOf args ∧
      hd.aux = (if tok = .RS then markWidth width args else 0) ∧
      man'.regtab = if tok = .RS then markRegs width args man.regtab else man.regtab := by
  have hspine : man.spine = openedHead tok :: ss := by
    rw [ManParser.spine, hnext, hlast, hparents]
  cases args with
  | nil =>
    refine ⟨man, openedHead tok, rfl, hspine, rfl, rfl, ⟨rfl, rfl, rfl⟩, ?_, ?_, ?_⟩
    · rw [ManParser.steps, hnext]
      rfl
    · exact (ite_self 0).symm
    · exact (ite_self man.regtab).symm
  | cons a args =>
    have hword := appendLeaf_eq hspine { type := .TEXT, string := a.p, valid := true }
    rw [expArg, ManParser.wordAlloc, hword, Res.ok_bind]
    by_cases hRS : tok = .RS
    · rw [if_pos hRS, if_pos hRS, if_pos hRS]
      exact ⟨_, _, rfl, rfl, rfl, rfl, ⟨rfl, rfl, rfl⟩, rfl, rfl, rfl⟩
    · rw [if_neg hRS, if_neg hRS, if_neg hRS]
      exact ⟨_, _, rfl, rfl, rfl, rfl, ⟨rfl, rfl, rfl⟩, rfl, rfl, rfl⟩

/-- `blk_exp()`: blocks inside of which an `RS` block cannot be are closed, and then another block
    is opened. -/
theorem exists_blkExp (h : Unscoped man) (width : WidthOf) {tok : ManTok}
    (hfp : (manMacros tok).fp = .blkExp) (args : List ManArg) :
    ∃ man', blkExp width tok args man = .ok man' ∧ Unscoped man' ∧ (tok ≠ .RS → KeepsRS man man') ∧
      (tok = .RS → man'.regtab = markRegs width args man.regtab ∧
        ∃ B n, openRS man'.spine = B :: openRS man.spine ∧ B.head = some n ∧
          n.aux = markWidth width args) := by
  obtain ⟨hescoped, -, -⟩ := flags_of_blkExp hfp
  -- .RS closes the blocks that are open; the other macros do not.
  obtain ⟨man₁, hrew, hplain₁, hkept⟩ : ∃ man₁,
      (if tok = .RS then rewScope man tok else .ok man : Res ManParser) = .ok man₁ ∧ Unscoped man₁ ∧
        KeepsRS man man₁ := by
    by_cases hRS : tok = .RS
    · obtain ⟨man₁, hrew, hrewinds⟩ := exists_rewScope h tok
      rw [if_pos hRS]
      refine ⟨man₁, hrew, hrewinds.plain, hrewinds.openRS ?_, hrewinds.regtab⟩
      rw [hRS]
      rfl
    · rw [if_neg hRS]
      exact ⟨man, rfl, h, .refl man⟩
  -- The new block and its head are opened inside a section.
  obtain ⟨s, ss, hspine₁⟩ := hplain₁.sections.exists_cons
  have hsections : Sections (s :: ss) := hspine₁ ▸ hplain₁.sections
  obtain ⟨_, hblock, hhead⟩ := alloc_block hspine₁ tok
  set man₂ : ManParser := { man₁ with
    last := openedHead tok, parents := openedBlock tok :: s :: ss, next := .CHILD } with hman₂
  obtain ⟨man₃, hd, harg, hspine₃, hdtype, hdtok, hflags, hsteps, hdaux, hregtab⟩ :=
    @exists_expArg man₂ (openedBlock tok :: s :: ss) width tok args rfl rfl rfl
  -- The arguments are in the head, and the body is opened behind it.
  obtain ⟨man', n, hbody, hplain, hregtab', haux, hBhead, hblocks⟩ := exists_newBody hspine₃ hdtype
    hdtok hescoped hsections (hflags.eline.trans hplain₁.eline) (hflags.bline.trans hplain₁.bline)
    (hflags.ce.trans hplain₁.ce)
  have hregs : man₂.regtab = man.regtab := hkept.regtab
  rw [hregs] at hregtab
  refine ⟨man', ?_, hplain, fun hRS => ?_, fun hRS => ?_⟩
  · rw [blkExp, hrew, Res.ok_bind, hblock, Res.ok_bind, hhead, Res.ok_bind, harg, Res.ok_bind,
      ← hsteps, hbody]
  · rw [if_neg hRS] at hregtab
    refine ⟨?_, hregtab'.trans hregtab⟩
    have hadd : Mandoc.openRS ((openedBlock tok).add n :: s :: ss) = Mandoc.openRS (s :: ss) :=
      @openRS_cons_of_tok ((openedBlock tok).add n) tok rfl hRS (s :: ss)
    rw [hblocks, hadd, ← hspine₁, hkept.blocks]
  · subst hRS
    rw [if_pos rfl] at hregtab hdaux
    refine ⟨hregtab'.trans hregtab, (openedBlock .RS).add n, n, ?_, hBhead, haux.trans hdaux⟩
    rw [hblocks, ← hkept.blocks, hspine₁]
    rfl

end

/-! ## §5 Closing blocks explicitly -/

/-- The block that is found, and the nodes that are passed. -/
theorem findBlock_eq_some {tok : ManTok} {nrew : Nat} {l below : List ManTree}
    (h : findBlock tok nrew l = some below) :
    ∃ B outer, l = below ++ B :: outer ∧ B.isBlock tok = true := by
  induction l generalizing nrew below with
  | nil => cases h
  | cons n l ih =>
    rw [findBlock] at h
    split at h
    · next hn =>
      split at h
      · obtain rfl := Option.some.inj h
        exact ⟨n, l, rfl, hn⟩
      · obtain ⟨below, hbelow, rfl⟩ := Option.map_eq_some_iff.mp h
        obtain ⟨B, outer, rfl, hB⟩ := ih hbelow
        exact ⟨B, outer, rfl, hB⟩
    · obtain ⟨below, hbelow, rfl⟩ := Option.map_eq_some_iff.mp h
      obtain ⟨B, outer, rfl, hB⟩ := ih hbelow
      exact ⟨B, outer, rfl, hB⟩

theorem findBlock_cons_of_ne {tok : ManTok} {n : ManTree} (h : n.type ≠ .BLOCK) (nrew : Nat)
    (l : List ManTree) : findBlock tok nrew (n :: l) = (findBlock tok nrew l).map (n :: ·) := by
  rw [findBlock, if_neg]
  rw [ManTree.isBlock, Bool.and_eq_true, not_and, decide_eq_true_eq, decide_eq_true_eq]
  exact fun _ => h

section

variable {man : ManParser} {s B : ManTree} {ss below outer : List ManTree}

/-- The innermost open node is not a block, so it does not matter for the search. -/
theorem findBlock_parents (hspine : man.spine = s :: ss) (hs : s.type ≠ .BLOCK) (tok : ManTok)
    (nrew : Nat) :
    (findBlock tok nrew ss = none ∧ findBlock tok nrew man.parents = none) ∨
      ∃ below below', findBlock tok nrew ss = some below ∧
        findBlock tok nrew man.parents = some below' ∧
        below'.length = man.steps + below.length := by
  rcases spine_cases hspine with ⟨hnext, -, rfl⟩ | ⟨hnext, q, hparents, rfl⟩
  · rw [ManParser.steps, hnext]
    cases hfind : findBlock tok nrew man.parents with
    | none => exact .inl ⟨rfl, rfl⟩
    | some below => exact .inr ⟨below, below, rfl, rfl, (Nat.zero_add _).symm⟩
  · rw [ManParser.steps, hnext, hparents, findBlock_cons_of_ne (show q.type ≠ .BLOCK from hs)]
    cases hfind : findBlock tok nrew ss with
    | none => exact .inl ⟨rfl, rfl⟩
    | some below => exact .inr ⟨below, q :: below, rfl, rfl, Nat.add_comm _ 1⟩

/-- All the open `RS` blocks are counted. -/
theorem countP_parents (hspine : man.spine = s :: ss) (hs : s.type ≠ .BLOCK) :
    man.parents.countP (·.isBlock .RS) = (openRS ss).length := by
  rw [openRS, ← List.countP_eq_length_filter]
  rcases spine_cases hspine with ⟨hnext, -, rfl⟩ | ⟨hnext, q, hparents, rfl⟩
  · rfl
  · rw [hparents, List.countP_cons_of_neg]
    rw [ManTree.isBlock, Bool.and_eq_true, not_and, decide_eq_true_eq, decide_eq_true_eq]
    exact fun _ => hs

theorem Unscoped.gets {man' : ManParser} {n : ManTree} (h : Unscoped man) (hgets : Gets man n man')
    (hn : n.Done) : Unscoped man' :=
  (h.good.loose.gets hgets (fun _ hb => absurd hb (by rw [h.bline]; decide))
    fun _ _ => hn).plain (hgets.eline.trans h.eline) (hgets.bline.trans h.bline)
    (hgets.ce.trans h.ce)

theorem Unscoped.exists_wordAlloc (h : Unscoped man) (word : CStr) :
    ∃ man', man.wordAlloc word = .ok man' ∧ Unscoped man' ∧ KeepsRS man man' := by
  obtain ⟨man', hword, hloose, hflags, hkept, -⟩ := Mandoc.exists_wordAlloc h.good.loose word
  exact ⟨man', hword, hloose.plain (hflags.eline.trans h.eline) (hflags.bline.trans h.bline)
    (hflags.ce.trans h.ce), hkept.keepsRS⟩

theorem Unscoped.exists_emptyElem (h : Unscoped man) (tok : ManNodeTok) :
    ∃ man', man.emptyElem tok = .ok man' ∧ Unscoped man' ∧ KeepsRS man man' := by
  obtain ⟨man', hleaf, hgets, -, -⟩ :=
    exists_appendLeaf h.good.loose { tok := tok, type := .ELEM, valid := true }
  exact ⟨man', hleaf, h.gets hgets (done_of_type (by simp) (by simp)),
    (hgets.kept h.good.loose).keepsRS⟩

theorem alloc_unscope (hspine : man.spine = s :: ss) (tok : ManNodeTok) :
    (do
      let man ← man.alloc .ELEM tok
      manUnscope man 0 : Res ManParser) = man.emptyElem tok := by
  rw [alloc_eq hspine, Res.ok_bind, ManParser.emptyElem, appendLeaf_eq hspine]
  rfl

theorem flags_of_isPar {t : ManTok} (h : ManNodeTok.isPar (.MAN t) = true) :
    (manMacros t).fp = .blkImp ∧ (manMacros t).bscoped = false ∧ t.isHeading = false := by
  revert h
  cases t <;> decide

/-- A trailing paragraph moves behind the block that has been closed. -/
theorem exists_movePar (h : Unscoped man) (ctok : ManNodeTok) :
    ∃ man', movePar ctok man = .ok man' ∧ Unscoped man' ∧ KeepsRS man man' := by
  cases ctok with
  | MAN tok =>
    rw [movePar]
    by_cases hpar : ManNodeTok.isPar (.MAN tok) = true
    · obtain ⟨hfp, hbscoped, hheading⟩ := flags_of_isPar hpar
      obtain ⟨man₁, man', himp, hrewinds, hkeeps, -, hplain⟩ := exists_blkImp h hfp []
      rw [if_pos hpar]
      exact ⟨man', himp, hplain hbscoped,
        .trans ⟨hrewinds.openRS hheading, hrewinds.regtab⟩ hkeeps⟩
    · rw [if_neg hpar]
      exact ⟨man, rfl, h, .refl man⟩
  | _ => exact ⟨man, rfl, h, .refl man⟩

theorem exists_trailText (h : Unscoped man) (args : List ManArg) :
    ∃ man', trailText args man = .ok man' ∧ Unscoped man' ∧ KeepsRS man man' := by
  cases args with
  | nil => exact ⟨man, rfl, h, .refl man⟩
  | cons a args => exact h.exists_wordAlloc a.text

/-- If no block to close has been found, paragraphs are closed. -/
theorem exists_notOpen (h : Unscoped man) (tok : ManTok) :
    ∃ man', notOpen tok man = .ok man' ∧ Unscoped man' ∧ KeepsRS man man' := by
  obtain ⟨man₁, hrew, hrewinds⟩ := exists_rewScope h .PP
  have hkeeps : KeepsRS man man₁ := ⟨hrewinds.openRS rfl, hrewinds.regtab⟩
  rw [notOpen, hrew, Res.ok_bind]
  by_cases hRE : tok = .RE
  · obtain ⟨man', helem, hplain, hkeeps'⟩ := hrewinds.plain.exists_emptyElem .ROFF_br
    rw [if_pos hRE]
    exact ⟨man', helem, hplain, hkeeps.trans hkeeps'⟩
  · rw [if_neg hRE]
    exact ⟨man₁, rfl, hrewinds.plain, hkeeps⟩

/-- What follows after a block has been closed does not open or close an `RS` block. -/
theorem exists_closeBlock (h : Unscoped man) {tok ntok : ManTok} (args : List ManArg)
    (hspine : man.spine = s :: (below ++ B :: outer)) (hB : B.isBlock ntok = true) :
    ∃ man' hd, closeBlock tok args (man.steps + (below.length + 1)) man = .ok man' ∧
      Unscoped man' ∧ B.head = some hd ∧ openRS man'.spine = openRS outer ∧
      man'.regtab = if tok = .RE then closeMargin hd.aux man.regtab else man.regtab := by
  rw [ManTree.isBlock, Bool.and_eq_true] at hB
  have hBtype : B.type = .BLOCK := of_decide_eq_true hB.2
  obtain ⟨-, hBhead, -⟩ := h.sections.split hspine hBtype
  obtain ⟨hd, hhd⟩ := Option.isSome_iff_exists.mp hBhead
  obtain ⟨man₁, hunscope, hcloses⟩ := exists_unscopeBlock h hspine hBtype
  set regtab := if tok = .RE then closeMargin hd.aux man.regtab else man.regtab with hregs
  -- The register is updated.
  have hsub : (if tok = .RE then subMargin man₁ else .ok man₁ : Res ManParser) =
      .ok { man₁ with regtab := regtab } := by
    by_cases hRE : tok = .RE
    · rw [hregs, if_pos hRE, if_pos hRE, subMargin, hcloses.block.head, hhd, hcloses.regtab]
    · rw [hregs, if_neg hRE, if_neg hRE, ← hcloses.regtab]
  have hplain₁ : Unscoped { man₁ with regtab := regtab } :=
    ⟨hcloses.plain.sections, hcloses.plain.eline, hcloses.plain.bline, hcloses.plain.ce⟩
  obtain ⟨man₂, htext, hplain₂, hkeeps₂⟩ := exists_trailText hplain₁ args
  obtain ⟨man₃, hpar, hplain₃, hkeeps₃⟩ := exists_movePar hplain₂ man.last.tok
  have hkeeps := hkeeps₂.trans hkeeps₃
  have hblocks : Mandoc.openRS man₃.spine = Mandoc.openRS outer :=
    hkeeps.blocks.trans hcloses.openRS
  rw [closeBlock, hunscope, Res.ok_bind, hsub, Res.ok_bind, htext, Res.ok_bind, hpar, Res.ok_bind]
  by_cases hYS : (tok = .YS && args.isEmpty && !man.last.tok.isPar) = true
  · obtain ⟨s₃, ss₃, hspine₃⟩ := hplain₃.sections.exists_cons
    obtain ⟨man', helem, hplain', hkeeps'⟩ := hplain₃.exists_emptyElem (.MAN tok)
    rw [if_pos hYS, alloc_unscope hspine₃]
    exact ⟨man', hd, helem, hplain', hhd, hkeeps'.blocks.trans hblocks,
      hkeeps'.regtab.trans hkeeps.regtab⟩
  · rw [if_neg hYS]
    exact ⟨man₃, hd, rfl, hplain₃, hhd, hblocks, hkeeps.regtab⟩

/-- The macro finds a block to close. -/
structure Found (tok ntok : ManTok) (args : List ManArg) (ss : List ManTree)
    (below : List ManTree) (B hd : ManTree) (outer : List ManTree) : Prop where
  nodes : ss = below ++ B :: outer
  isBlock : B.isBlock ntok = true
  head : B.head = some hd
  find : ∃ nrew, (closeTarget tok args ss).1 = some nrew ∧ findBlock ntok nrew ss = some below

/-- `blk_close()` -/
theorem exists_blkClose (h : Unscoped man) {tok ntok : ManTok} (hntok : tok.ntok = some ntok)
    (args : List ManArg) (hspine : man.spine = s :: ss) :
    ∃ man', blkClose tok args man = .ok man' ∧ Unscoped man' ∧
      (KeepsRS man man' ∨ ∃ below B hd outer, Found tok ntok args ss below B hd outer ∧
        openRS man'.spine = openRS outer ∧
        man'.regtab = if tok = .RE then closeMargin hd.aux man.regtab else man.regtab) := by
  have hsections := h.sections
  rw [hspine] at hsections
  have hs : s.type ≠ .BLOCK := hsections.type_ne (by decide) (by decide)
  -- The request that closes is not inside a block, so counting from here makes no difference.
  have htarget : closeTarget tok args man.parents = closeTarget tok args ss := by
    have hcount : man.parents.countP (·.isBlock .RS) = ss.countP (·.isBlock .RS) := by
      rw [countP_parents hspine hs, openRS, List.countP_eq_length_filter]
    cases args with
    | nil => rfl
    | cons a args => simp only [closeTarget, reTarget, hcount]
  obtain ⟨nrew, args', hnrew⟩ : ∃ nrew args', closeTarget tok args ss = (nrew, args') :=
    ⟨_, _, rfl⟩
  rw [blkClose, hntok]
  dsimp only
  rw [htarget, hnrew]
  cases nrew with
  | none => exact ⟨man, rfl, h, .inl (.refl man)⟩
  | some nrew =>
    dsimp only
    -- Without an open block, the request is reported and dropped.
    rcases findBlock_parents hspine hs ntok nrew with ⟨-, hnone⟩ | ⟨below, below', hss, hps, hlen⟩
    · obtain ⟨man', hopen, hplain, hkeeps⟩ := exists_notOpen h tok
      rw [hnone]
      exact ⟨man', hopen, hplain, .inl hkeeps⟩
    · -- Otherwise, the blocks inside and the block itself are closed.
      obtain ⟨B, outer, hnodes, hB⟩ := findBlock_eq_some hss
      obtain ⟨man', hd, hclose, hplain, hhd, hblocks, hregtab⟩ :=
        @exists_closeBlock man s B below outer h tok ntok args' (hnodes ▸ hspine) hB
      rw [hps]
      dsimp only
      rw [hlen, Nat.add_assoc, hclose]
      exact ⟨man', rfl, hplain, .inr ⟨below, B, hd, outer, ⟨hnodes, hB, hhd, nrew, by rw [hnrew],
        hss⟩, hblocks, hregtab⟩⟩

end

/-! ## §6 Searching among the blocks that stay open -/

/-- A block that does not have next-line scope for its head counts. -/
theorem openBlocks_cons_of_isBlock {tok : ManTok} (h : (manMacros tok).bscoped = false)
    {n : ManTree} (hn : n.isBlock tok = true) (l : List ManTree) :
    openBlocks (n :: l) = n :: openBlocks l := by
  rw [ManTree.isBlock, Bool.and_eq_true] at hn
  rw [openBlocks, List.filter_cons_of_pos]
  · rfl
  · rw [hn.2, of_decide_eq_true hn.1, ManNodeTok.orMacro, h]
    rfl

/-- The search only depends on the blocks that stay open. -/
theorem findBlock_openBlocks {tok : ManTok} (h : (manMacros tok).bscoped = false) (nrew : Nat)
    (l : List ManTree) :
    findBlock tok nrew (openBlocks l) = (findBlock tok nrew l).map openBlocks := by
  induction l generalizing nrew with
  | nil => rfl
  | cons n l ih =>
    by_cases hn : n.isBlock tok = true
    · have hcons := openBlocks_cons_of_isBlock h hn
      rw [hcons, findBlock, findBlock, if_pos hn, if_pos hn]
      split
      · rfl
      · rw [ih, Option.map_map, Option.map_map]
        congr 1
        funext below
        exact (hcons below).symm
    · rw [findBlock, if_neg hn]
      by_cases hopen : (n.type = .BLOCK && n.tok.orMacro (!·.bscoped)) = true
      · have hcons : ∀ l, openBlocks (n :: l) = n :: openBlocks l := fun l =>
          List.filter_cons_of_pos hopen
        rw [hcons, findBlock, if_neg hn, ih, Option.map_map, Option.map_map]
        congr 1
        funext below
        exact (hcons below).symm
      · have hcons : ∀ l, openBlocks (n :: l) = openBlocks l := fun l =>
          List.filter_cons_of_neg hopen
        rw [hcons, ih, Option.map_map]
        congr 1
        funext below
        exact (hcons below).symm

theorem flags_of_ntok {tok ntok : ManTok} (h : tok.ntok = some ntok) :
    (manMacros ntok).bscoped = false := by
  revert h
  cases tok <;> cases ntok <;> decide

/-- The block is also found among the blocks that stay open. -/
theorem Found.openBlocks {tok ntok : ManTok} {args : List ManArg} {ss below outer : List ManTree}
    {B hd : ManTree} (h : Found tok ntok args ss below B hd outer) (hntok : tok.ntok = some ntok) :
    Found tok ntok args (openBlocks ss) (openBlocks below) B hd (openBlocks outer) := by
  obtain ⟨nrew, htarget, hfind⟩ := h.find
  have hbscoped := flags_of_ntok hntok
  refine ⟨?_, h.isBlock, h.head, nrew, ?_, ?_⟩
  · rw [h.nodes]
    rw [← openBlocks_cons_of_isBlock hbscoped h.isBlock]
    exact List.filter_append below (B :: outer)
  · rw [← htarget]
    have hcount : (Mandoc.openBlocks ss).countP (·.isBlock .RS) = ss.countP (·.isBlock .RS) := by
      rw [List.countP_eq_length_filter, List.countP_eq_length_filter]
      exact congrArg List.length (openRS_openBlocks ss)
    cases args with
    | nil => rfl
    | cons a args => simp only [closeTarget, reTarget, hcount]
  · rw [findBlock_openBlocks hbscoped, hfind]
    rfl

end Mandoc
