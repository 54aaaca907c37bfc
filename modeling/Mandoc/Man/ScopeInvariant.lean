import Mandoc.Man.Lines

/-!
# The Next-line Scope Invariant of the man(7) Parser

The flags always agree with what is open in the syntax tree: the elements in next-line scope, then
at most one head in next-line scope with its block. At the end of the document, all of them are
deleted, and both flags are cleared.

`manLines_scoped` states this for all sequences of lines. There is no bound on the number of
elements between the parse point and the head, see `headNear_fails`.
-/

namespace Mandoc

/-! ## §1 The end of the document -/

section

variable {man : ManParser} {n s : ManTree} {ss elems : List ManTree}

/-- Without next-line scopes, nothing is deleted. By induction on the ancestors. -/
theorem endLoop_clear (heline : man.eline = false) (hbline : man.bline = false)
    (n : ManTree) (ps : List ManTree) {fuel : Nat} (hfuel : ps.length < fuel) :
    ∃ man', endLoop fuel man n ps = .ok man' ∧ man'.eline = false ∧ man'.bline = false := by
  induction ps generalizing n fuel with
  | nil =>
    obtain ⟨fuel, rfl⟩ := Nat.exists_eq_add_one.mpr hfuel
    have hbroken : breaksAtEnd man n = .ok false := by
      rw [breaksAtEnd, heline, hbline]
      exact ite_self _
    simp only [endLoop, hbroken, Res.ok_bind]
    exact ⟨_, rfl, heline, hbline⟩
  | cons p ps ih =>
    obtain ⟨fuel, rfl⟩ := Nat.exists_eq_add_one.mpr (Nat.zero_lt_of_lt hfuel)
    have hbroken : breaksAtEnd man n = .ok false := by
      rw [breaksAtEnd, heline, hbline]
      exact ite_self _
    simp only [endLoop, hbroken, Res.ok_bind]
    exact ih (p.add n.complete) (Nat.lt_of_succ_lt_succ hfuel)

theorem breaksAtEnd_eq {t : ManTok} (hvalid : n.valid = false) (htok : n.tok = .MAN t)
    (hflag : (man.bline || man.eline) = true)
    (ht : ((manMacros t).bscoped || (manMacros t).nscoped) = true) :
    breaksAtEnd man n = .ok true := by
  rw [breaksAtEnd, hvalid, if_neg Bool.false_ne_true, if_pos hflag, htok, manMacro, Res.ok_bind, ht]
  rfl

/-- A head in next-line scope is deleted together with its block. -/
theorem endLoop_head {hd B : ManTree} (hhead : IsHead hd B) (heline : man.eline = false)
    (hbline : man.bline = true) (hss : ss ≠ []) {fuel : Nat} (hfuel : ss.length < fuel)
    (hn : n.type = hd.type ∧ n.tok = hd.tok ∧ n.valid = hd.valid) :
    ∃ man', endLoop (fuel + 1) man n (B :: ss) = .ok man' ∧ man'.eline = false ∧
      man'.bline = false := by
  obtain ⟨q, ps, rfl⟩ := List.exists_cons_of_ne_nil hss
  obtain ⟨t, htok, -, hbscoped⟩ := hhead.tok
  obtain ⟨hntype, hntok, hnvalid⟩ := hn
  have hbroken : breaksAtEnd man n = .ok true :=
    breaksAtEnd_eq (hnvalid.trans hhead.valid) (hntok.trans htok) (by rw [hbline]; rfl)
      (by rw [hbscoped]; rfl)
  have htype : ¬n.type ≠ .HEAD := not_not.mpr (hntype.trans hhead.type)
  have heline' : ¬man.eline = true := by
    rw [heline]
    exact Bool.false_ne_true
  simp only [endLoop, hbroken, Res.ok_bind, if_true, if_neg heline', if_neg htype]
  exact @endLoop_clear { man with bline := false } heline rfl q ps fuel (Nat.lt_of_succ_lt hfuel)

/-- An element inside another one in next-line scope is not the outermost one. -/
theorem isOuter_elem {e : ManTree} (h : IsElem e) : isOuter e = .ok false := by
  obtain ⟨t, htok, hescoped⟩ := h.tok
  have htype : e.type ≠ .ROOT := by
    rw [h.type]
    decide
  rw [isOuter, if_neg htype, htok, manMacro, Res.ok_bind, hescoped]
  rfl

/-- The outermost element in next-line scope is inside something else. -/
theorem isOuter_other
    (h : s.type = .ROOT ∨ ∃ t, s.tok = .MAN t ∧ (manMacros t).escoped = false) :
    isOuter s = .ok true := by
  by_cases hroot : s.type = .ROOT
  · exact if_pos hroot
  · obtain ⟨t, htok, hescoped⟩ := h.resolve_left hroot
    rw [isOuter, if_neg hroot, htok, manMacro, Res.ok_bind, hescoped]
    rfl

/-- The elements in next-line scope are deleted. By induction on the elements. -/
theorem endLoop_elems (hn : IsElem n) (helems : ∀ e ∈ elems, IsElem e)
    (hs : s.type = .ROOT ∨ ∃ t, s.tok = .MAN t ∧ (manMacros t).escoped = false) (fuel : Nat) :
    endLoop (fuel + (elems.length + 1)) { man with eline := true } n (elems ++ s :: ss) =
      endLoop fuel { man with eline := false } s ss := by
  have hbroken : ∀ {n}, IsElem n → breaksAtEnd { man with eline := true } n = .ok true := by
    intro n hn
    obtain ⟨t, htok, hescoped⟩ := hn.tok
    refine breaksAtEnd_eq hn.valid htok (Bool.or_true _) ?_
    rw [(flags_of_escoped hescoped).2.1, Bool.or_true]
  induction elems generalizing n with
  | nil =>
    simp only [List.nil_append, List.length_nil, endLoop, hbroken hn, Res.ok_bind,
      isOuter_other hs]
    rfl
  | cons e elems ih =>
    obtain ⟨he, helems⟩ := List.forall_mem_cons.mp helems
    rw [← ih he helems, List.length_cons, ← Nat.add_assoc fuel]
    simp only [List.cons_append, endLoop, hbroken hn, Res.ok_bind, isOuter_elem he]
    rfl

/-- The loop passes the last node if that is complete. -/
theorem manEndparse_eq (hspine : man.spine = s :: ss)
    (hvalid : man.next = .SIBLING → man.last.valid = true) :
    manEndparse man = endLoop (ss.length + 1) man man.top ss := by
  rcases spine_cases hspine with ⟨hnext, -, rfl⟩ | ⟨hnext, q, hparents, -⟩
  · rw [manEndparse, ManParser.top, hnext]
  · have hbroken : breaksAtEnd man man.last = .ok false := by
      rw [breaksAtEnd, hvalid hnext, if_pos rfl]
    rw [manEndparse, ManParser.top, hnext, hparents]
    simp only [List.length_cons, endLoop, hbroken, Res.ok_bind]
    rfl

theorem top_valid (hspine : man.spine = s :: ss) : man.top.valid = s.valid := by
  rcases spine_cases hspine with ⟨hnext, rfl, -⟩ | ⟨hnext, q, hparents, rfl⟩
  · rw [ManParser.top, hnext]
  · rw [ManParser.top, hnext, hparents]
    rfl

/-- `man_endparse()` -/
theorem exists_manEndparse (h : Good man) :
    ∃ man', manEndparse man = .ok man' ∧ man'.eline = false ∧ man'.bline = false := by
  obtain ⟨elems, scope, outer, h⟩ := h
  -- A node at which siblings are to be added has been validated, like all children of open nodes.
  have hlast : ∀ {s ss}, man.spine = s :: ss → (∀ c ∈ s.child, c.valid = true) →
      man.next = .SIBLING → man.last.valid = true := by
    intro s ss hspine hkids hnext
    rcases spine_cases hspine with ⟨hchild, -, -⟩ | ⟨-, q, -, rfl⟩
    · rw [hnext] at hchild
      cases hchild
    · exact hkids man.last (List.mem_cons_self ..)
  by_cases heline : man.eline = true
  · -- First the elements in next-line scope.
    obtain ⟨e, elems, rfl⟩ := List.exists_cons_of_ne_nil (h.eline_iff.mp heline)
    obtain ⟨s, ss, hs, -, -, hselem⟩ := h.scopeAt.not_elem heline h.sections
    obtain ⟨he, helems⟩ := List.forall_mem_cons.mp h.isElem
    have hspine : man.spine = e :: (elems ++ s :: ss) := by
      rw [h.spine_eq, hs]
      rfl
    obtain ⟨htoptok, htoptype, -⟩ := top_eq hspine
    have htop : IsElem man.top :=
      ⟨htoptype.trans he.type, (top_valid hspine).trans he.valid, htoptok ▸ he.tok⟩
    have hman : man = { man with eline := true } := by
      cases man
      cases heline
      rfl
    have hfuel : (elems ++ s :: ss).length + 1 = ss.length + 1 + (elems.length + 1) := by
      rw [List.length_append, List.length_cons, Nat.add_comm elems.length, Nat.add_assoc]
    have hstart : manEndparse man = endLoop (ss.length + 1) { man with eline := false } s ss := by
      rw [manEndparse_eq hspine (hlast hspine fun c hc => (h.inElem e rfl c hc).valid), hfuel]
      have hloop := @endLoop_elems man man.top s ss elems htop helems hselem (ss.length + 1)
      rw [← hman] at hloop
      exact hloop
    rw [hstart]
    -- Then the block in next-line scope, if there is one.
    cases h.scopeAt with
    | none hb hc =>
      exact @endLoop_clear { man with eline := false } rfl hb s ss _ (Nat.lt_succ_self _)
    | @head hd B hb hc hhead =>
      obtain ⟨rfl, rfl⟩ := List.cons.inj hs
      obtain ⟨b, l, hbl⟩ := h.sections.exists_cons
      refine @endLoop_head { man with eline := false } hd outer hd B hhead rfl hb ?_
        (outer.length + 1) (Nat.lt_succ_self _) ⟨rfl, rfl, rfl⟩
      rw [hbl]
      exact List.cons_ne_nil _ _
    | ce hb hel hc htype hne hkids =>
      rw [heline] at hel
      cases hel
  · -- No element is in next-line scope, only the head of a block can be.
    have heline' := Bool.eq_false_iff.mpr heline
    have hspine := h.spine_eq
    rw [h.elems_eq_nil heline', List.nil_append] at hspine
    cases h.scopeAt with
    | none hb hc => exact endLoop_clear heline' hb _ _ (Nat.lt_succ_self _)
    | ce hb hel hc htype hne hkids => exact endLoop_clear heline' hb _ _ (Nat.lt_succ_self _)
    | @head hd B hb hc hhead =>
      obtain ⟨htoptok, htoptype, -⟩ := top_eq hspine
      obtain ⟨b, l, hbl⟩ := h.sections.exists_cons
      rw [manEndparse_eq hspine (hlast hspine fun c hc => (hhead.kids c hc).valid)]
      refine @endLoop_head man man.top outer hd B hhead heline' hb ?_ (outer.length + 1)
        (Nat.lt_succ_self _) ⟨htoptype, htoptok, top_valid hspine⟩
      rw [hbl]
      exact List.cons_ne_nil _ _

end

/-! ## §2 The invariant -/

/-- The nodes from the current parse point up to the root. -/
def ManParser.path (man : ManParser) : List ManTree := man.last :: man.parents

/-- Apart from the last node, which may be complete, the path consists of the nodes that are
    open. -/
theorem exists_openPath {man : ManParser} {s : ManTree} {ss : List ManTree}
    (hspine : man.spine = s :: ss) :
    ∃ k n, k ≤ 1 ∧ man.path.drop k = n :: ss ∧ (s = n ∨ ∃ c, s = n.add c) := by
  rcases spine_cases hspine with ⟨-, rfl, rfl⟩ | ⟨-, q, hparents, rfl⟩
  · exact ⟨0, man.last, Nat.zero_le _, rfl, .inl rfl⟩
  · refine ⟨1, q, Nat.le_refl _, ?_, .inr ⟨_, rfl⟩⟩
    rw [ManParser.path, hparents, List.drop_one, List.tail_cons]

theorem IsElem.of_add {n s : ManTree} (h : IsElem s) (hn : s = n ∨ ∃ c, s = n.add c) :
    IsElem n := by
  rcases hn with rfl | ⟨c, rfl⟩
  · exact h
  · exact ⟨h.type, h.valid, h.tok⟩

theorem IsHead.of_add {n s B : ManTree} (h : IsHead s B) (hn : s = n ∨ ∃ c, s = n.add c) :
    IsHead n B := by
  rcases hn with rfl | ⟨c, rfl⟩
  · exact h
  · exact ⟨h.type, h.valid, h.blockType, h.blockValid, h.tok,
      (List.forall_mem_cons.mp h.kids).2⟩

/-- What a head in next-line scope means for the path. -/
theorem Good.head_path {man : ManParser} (h : Good man) (hbline : man.bline = true) :
    ∃ k elems hd B outer, k ≤ 1 ∧ man.path.drop k = elems ++ hd :: B :: outer ∧
      (∀ e ∈ elems, IsElem e) ∧ (man.eline = false → elems = []) ∧ IsHead hd B := by
  obtain ⟨elems, scope, outer, h⟩ := h
  have hspine := h.spine_eq
  cases h.scopeAt with
  | none hb hc =>
    rw [hbline] at hb
    cases hb
  | ce hb hel hc htype hne hkids =>
    rw [hbline] at hb
    cases hb
  | @head hd B hb hc hhead =>
    cases elems with
    | nil =>
      obtain ⟨k, n, hk, hpath, hn⟩ := exists_openPath hspine
      exact ⟨k, [], n, B, outer, hk, hpath, fun e he => (by cases he), fun _ => rfl,
        hhead.of_add hn⟩
    | cons e elems =>
      obtain ⟨he, helems⟩ := List.forall_mem_cons.mp h.isElem
      obtain ⟨k, n, hk, hpath, hn⟩ := exists_openPath hspine
      refine ⟨k, n :: elems, hd, B, outer, hk, hpath,
        List.forall_mem_cons.mpr ⟨he.of_add hn, helems⟩, fun hel => ?_, hhead⟩
      exact absurd (h.elems_eq_nil hel) (List.cons_ne_nil _ _)

theorem Good.elem_path {man : ManParser} (h : Good man) (heline : man.eline = true) :
    ∃ k e outer, k ≤ 1 ∧ man.path.drop k = e :: outer ∧ IsElem e := by
  obtain ⟨elems, scope, outer, h⟩ := h
  obtain ⟨e, elems, rfl⟩ := List.exists_cons_of_ne_nil (h.eline_iff.mp heline)
  obtain ⟨k, n, hk, hpath, hn⟩ := exists_openPath h.spine_eq
  exact ⟨k, n, _, hk, hpath, (h.isElem e (List.mem_cons_self ..)).of_add hn⟩

/-- For every sequence of lines, no assertion fails and only open nodes are closed, because the
    parser does not return an error. What is open always agrees with the flags: apart from the last
    node, the path begins with the elements in next-line scope, and then there is the head in
    next-line scope and its block. At the end of the document, both flags are cleared. -/
theorem manLines_scoped (width : WidthOf) (lines : List ManLine) :
    ∃ man, manLines width lines = .ok man ∧
      (man.bline = true → ∃ k elems hd B outer, k ≤ 1 ∧
        man.path.drop k = elems ++ hd :: B :: outer ∧ (∀ e ∈ elems, IsElem e) ∧
        (man.eline = false → elems = []) ∧ IsHead hd B) ∧
      (man.eline = true → ∃ k e outer, k ≤ 1 ∧ man.path.drop k = e :: outer ∧ IsElem e) ∧
      ∃ man', manEndparse man = .ok man' ∧ man'.eline = false ∧ man'.bline = false := by
  obtain ⟨man, hlines, hgood⟩ := exists_manLines width lines
  exact ⟨man, hlines, hgood.head_path, hgood.elem_path, exists_manEndparse hgood⟩

/-! ## §3 The distance to the head -/

/-- Step out of the first node if it has the given type. -/
def stepOut (type : RoffType) : List ManTree → List ManTree
  | n :: ps => if n.type = type then ps else n :: ps
  | [] => []

/-- After stepping out of at most one text node and one element, the head is the node itself or
    its parent. -/
def headNear (man : ManParser) : Bool :=
  match stepOut .ELEM (stepOut .TEXT man.path) with
  | n :: p :: _ => n.type = .HEAD || p.type = .HEAD
  | _ => false

/-- Three elements in next-line scope can be inside the head. -/
theorem headNear_fails :
    ¬∀ (width : WidthOf) (lines : List ManLine) (man : ManParser),
      manLines width lines = .ok man → man.bline = true → headNear man = true := by
  intro h
  have hrun : (match manLines (fun _ => 0)
      [.mac .TP [], .mac .B [], .mac .I [], .mac .SM []] with
    | .ok man => man.bline && !headNear man
    | .error _ => false) = true := by
    decide +kernel
  split at hrun
  · next man hman =>
    obtain ⟨hbline, hnear⟩ := Bool.and_eq_true_iff.mp hrun
    rw [h _ _ man hman hbline] at hnear
    cases hnear
  · cases hrun

end Mandoc
