import Mandoc.Mdoc.Containers

/-!
# Container Balance

This file connects `md_node()` to the roles of the nodes. The nodes that are printed form a tree of
containers, and the handlers in the table `md_acts[]` do what the roles say.

The containers are not always balanced. When an end macro breaks a list item in which a display
ends, the item is no longer counted like at its beginning, and an item that remains without a body
until the end of the file leaves a tab in the stack.
-/

namespace Mandoc

/-! ## §1 The roles of nodes -/

/-- The items of the list begin with a list mark. -/
def MdocList.marked : MdocList → Bool
  | .bullet | .dash | .hyphen | .enum => true
  | _ => false

/-- The role of the head or the body of an item. -/
def itRole (anc : List MdInfo) (n : MdInfo) : Role :=
  match n.type, listType anc with
  | .HEAD, .ok type => if type.marked then .itemHead else .plain
  | .BODY, .ok type =>
    if type.marked then .itemBody else if type = .tag ∨ type = .hang then .quote else .plain
  | _, _ => .plain

/-- What the handlers of an entry do. -/
def MdAct.role (act : MdAct) (anc : List MdInfo) (n : MdInfo) : Role :=
  if act.applies n then
    match act.pre with
    | some .D1 => .quote
    | some .Dl => .code
    | some .Bd => if n.norm = .Bd .unfilled ∨ n.norm = .Bd .literal then .code else .quote
    | some .Bl => if n.norm = .Bl .column then .code else .plain
    | some .It => itRole anc n
    | some .raw => if hasTick act.before then .tick else .plain
    | _ => .plain
  else .plain

/-- The role of a node. -/
def MdInfo.role (anc : List MdInfo) (n : MdInfo) : Role :=
  if n.type = .TEXT then .plain
  else
    match n.tok with
    | .roff => .plain
    | .none => .table
    | .mdoc tok => (mdActs tok).role anc n

/-- Which children are processed if the handler is called. -/
def MdPre.kids (anc : List MdInfo) (n : MdInfo) (child : List MdNode) : MdPre → MdKids
  | .skip | .Ap | .Lk | .Mt | .Ns | .Pp | .Sm => .skip
  | .An => if n.norm = .An .none then .all else .skip
  | .Bk => if n.type = .BLOCK ∨ n.type = .BODY then .all else .skip
  | .Fn => .args
  | .Fo => if n.type = .HEAD ∧ child.isEmpty then .skip else .all
  | .It =>
    match n.type, listType anc with
    | .HEAD, .ok type => if type.marked ∨ type = .item ∨ type = .column then .skip else .all
    | .BLOCK, _ | .BODY, _ => .all
    | _, _ => .skip
  | .Vt => if n.type = .BLOCK ∨ n.type = .BODY ∨ n.type = .ELEM then .all else .skip
  | .Xr => .two
  | ._R => if child.head?.any fun arg => isRfc arg.info.string then .skip else .all
  | _ => .all

/-- Which children of a node are processed. -/
def MdInfo.kids (anc : List MdInfo) (n : MdInfo) (child : List MdNode) : MdKids :=
  if n.type = .TEXT then .all
  else
    match n.tok with
    | .roff | .none => .skip
    | .mdoc tok =>
      match (mdActs tok).pre with
      | some pre =>
        if (mdActs tok).applies n ∧ (n.endBody = none ∨ !child.isEmpty) then pre.kids anc n child
        else .all
      | none => .all

mutual

/-- The containers that a node and the nodes below it form. -/
def MdNode.containers (anc : List MdInfo) : MdNode → List Container
  | .mk n child =>
    if n.hidden then []
    else
      [.mk (n.role anc) n.id n.endBody <|
        match n.kids anc child with
        | .all => containersAll (n :: anc) child
        | .skip => []
        | .args => containersFn (n :: anc) child
        | .two => containersXr (n :: anc) child]

/-- The containers in a list of nodes. -/
def containersAll (anc : List MdInfo) : List MdNode → List Container
  | [] => []
  | n :: l => n.containers anc ++ containersAll anc l

/-- The containers in the arguments of a function. -/
def containersFn (anc : List MdInfo) : List MdNode → List Container
  | [] => []
  | n :: l => n.containers anc ++ containersFa anc l

/-- The containers behind the name of a function. -/
def containersFa (anc : List MdInfo) : List MdNode → List Container
  | [] => []
  | n :: l =>
    if n.info.tok = .mdoc .Fa then n.childContainers anc
    else n.containers anc ++ containersAll anc l

/-- The containers in the children of a node. -/
def MdNode.childContainers (anc : List MdInfo) : MdNode → List Container
  | .mk n child => containersAll (n :: anc) child

/-- The containers in a cross reference. -/
def containersXr (anc : List MdInfo) : List MdNode → List Container
  | [] => []
  | n :: l => n.containers anc ++ containersFirst anc l

/-- The containers in the section number of a cross reference. -/
def containersFirst (anc : List MdInfo) : List MdNode → List Container
  | [] => []
  | n :: _ => n.containers anc

end

/-! ## §2 Validated trees -/

/-- The data of a node that its handler relies on. -/
def MdPre.Typed (anc : List MdInfo) (n : MdInfo) (child : List MdNode) : MdPre → Prop
  | .abort => False
  | .An => match n.norm with | .An _ => True | _ => False
  | .Bd => match n.norm with | .Bd _ => True | _ => False
  | .Bl => match n.norm with | .Bl _ => True | _ => False
  | .It =>
    n.endBody = none ∧
      (n.type = .HEAD ∨ n.type = .BODY → match listType anc with | .ok _ => True | .error _ => False)
  | ._R => child ≠ []
  | _ => True

/-- The obsolete macros have been replaced, the arguments have been normalized, and only the marker
    for `Eo` has got children. -/
def MdInfo.Typed (anc : List MdInfo) (n : MdInfo) (child : List MdNode) : Prop :=
  match n.tok with
  | .mdoc tok =>
    match (mdActs tok).pre with
    | some pre =>
      pre.Typed anc n child ∧ (n.endBody ≠ none → child ≠ [] → pre = .Eo)
    | none => True
  | _ => True

mutual

/-- A node and all nodes below it have the data that their handlers rely on. -/
def MdNode.Typed (anc : List MdInfo) : MdNode → Prop
  | .mk n child => n.Typed anc child ∧ typedAll (n :: anc) child

/-- The nodes in a list have the data that their handlers rely on. -/
def typedAll (anc : List MdInfo) : List MdNode → Prop
  | [] => True
  | n :: l => n.Typed anc ∧ typedAll anc l

end

/-- What the parser and the validator guarantee: the data of each node fits its macro, each node has
    an identity of its own, and an end marker ends an open body. -/
structure Validated (root : MdInfo) (doc : List MdNode) : Prop where
  typed : typedAll [root] doc
  nodup : (idsAll (containersAll [root] doc)).Nodup
  nested : nestedAll [] false (containersAll [root] doc)

/-! ## §3 The table -/

/-- The two handlers of an entry belong together. -/
def MdAct.Paired (act : MdAct) : Bool :=
  match act.pre with
  | some .D1 | some .Dl | some .Bd => act.post = some .D1
  | some .Bl => act.post = some .Bl
  | some .It => act.post = some .It
  | some .raw =>
    (act.post = some .raw ∨ act.post = some .Fl ∨ act.post = some .pc) ∧
      hasTick act.after = hasTick act.before
  | _ =>
    (act.post ≠ some .D1 ∧ act.post ≠ some .Bl ∧ act.post ≠ some .It) ∧
      hasTick act.before = false ∧ hasTick act.after = false

theorem mdActs_paired (tok : MdocTok) : (mdActs tok).Paired = true := by
  cases tok <;> rfl

/-! ## §4 The handlers and the roles -/

section Handlers

variable {act : MdAct} {anc : List MdInfo} {n : MdInfo} {child : List MdNode} (st : MdState)

theorem mdPreRaw_eq : mdPreRaw act st = (if hasTick act.before then Role.tick else .plain).begin st := by
  rw [mdPreRaw]
  split <;> rfl

theorem mdPreRaw_of_not (h : hasTick act.before = false) : mdPreRaw act st = st := by
  rw [mdPreRaw, h]
  rfl

theorem mdPostRaw_of_not (h : hasTick act.after = false) : mdPostRaw act st = st := by
  rw [mdPostRaw, h]
  rfl

theorem mdPreBd_eq (ht : MdPre.Bd.Typed anc n child) :
    mdPreBd n st =
      .ok ((if n.norm = .Bd .unfilled ∨ n.norm = .Bd .literal then Role.code else .quote).begin st) := by
  cases hnorm : n.norm with
  | Bd type => cases type <;> simp [mdPreBd, hnorm, Role.begin]
  | _ => simp [MdPre.Typed, hnorm] at ht

theorem mdPreBl_eq (ht : MdPre.Bl.Typed anc n child) :
    mdPreBl n st = .ok ((if n.norm = .Bl .column then Role.code else .plain).begin st) := by
  cases hnorm : n.norm with
  | Bl type => cases type <;> simp [mdPreBl, hnorm, Role.begin]
  | _ => simp [MdPre.Typed, hnorm] at ht

theorem mdPostBl_eq (ht : MdPre.Bl.Typed anc n child) :
    mdPostBl n st = (if n.norm = .Bl .column then Role.code else .plain).finish st := by
  cases hnorm : n.norm with
  | Bl type => cases type <;> simp [mdPostBl, hnorm, Role.finish]
  | _ => simp [MdPre.Typed, hnorm] at ht

theorem MdPre.Typed.listType_eq (ht : MdPre.It.Typed anc n child)
    (htype : n.type = .HEAD ∨ n.type = .BODY) : ∃ type, listType anc = .ok type := by
  have h := ht.2 htype
  cases hlist : listType anc with
  | ok type => exact ⟨type, rfl⟩
  | error e => simp [hlist] at h

/-- The heads of items with list marks are indented. -/
theorem mdPreIt_eq (ht : MdPre.It.Typed anc n child) :
    mdPreIt anc n st = .ok ((itRole anc n).begin st, MdPre.It.kids anc n child) := by
  cases htype : n.type with
  | HEAD =>
    obtain ⟨type, hlist⟩ := ht.listType_eq (.inl htype)
    cases type <;> simp [mdPreIt, itRole, MdPre.kids, htype, hlist, Except.map, mdPreItHead,
      MdocList.marked, Role.begin]
  | BODY =>
    obtain ⟨type, hlist⟩ := ht.listType_eq (.inr htype)
    cases type <;> simp [mdPreIt, itRole, MdPre.kids, htype, hlist, Except.map, mdPreItBody,
      MdocList.marked, Role.begin]
  | _ => simp [mdPreIt, itRole, MdPre.kids, htype, Role.begin]

/-- The bodies of items with list marks end the indentation. -/
theorem mdPostIt_eq (ht : MdPre.It.Typed anc n child) : mdPostIt anc n st = (itRole anc n).finish st := by
  cases htype : n.type with
  | BODY =>
    obtain ⟨type, hlist⟩ := ht.listType_eq (.inr htype)
    cases type <;> simp [mdPostIt, itRole, htype, hlist, MdocList.marked, Role.finish]
    all_goals cases st.pop <;> rfl
  | HEAD =>
    obtain ⟨type, hlist⟩ := ht.listType_eq (.inl htype)
    cases type <;> simp [mdPostIt, itRole, htype, hlist, MdocList.marked, Role.finish]
  | _ => simp [mdPostIt, itRole, htype, Role.finish]

/-- What the handler `pre` does. -/
theorem mdPre_eq {pre : MdPre} (hp : act.Paired) (hpre : act.pre = some pre) (happ : act.applies n)
    (ht : pre.Typed anc n child) :
    mdPre act anc n child st pre = .ok ((act.role anc n).begin st, pre.kids anc n child) := by
  rw [MdAct.role, if_pos happ, hpre]
  rw [MdAct.Paired, hpre] at hp
  cases pre with
  | abort => exact ht.elim
  | raw => exact congrArg (fun st => Except.ok (st, MdKids.all)) (mdPreRaw_eq st)
  | Bd => exact congrArg (Except.map fun st => (st, MdKids.all)) (mdPreBd_eq st ht)
  | Bl => exact congrArg (Except.map fun st => (st, MdKids.all)) (mdPreBl_eq st ht)
  | It => exact mdPreIt_eq st ht
  | An =>
    cases hnorm : n.norm with
    | An auth => cases auth <;> simp [mdPre, MdPre.kids, hnorm, Role.begin]
    | _ => simp [MdPre.Typed, hnorm] at ht
  | Fd =>
    have hb : hasTick act.before = false := (of_decide_eq_true hp).2.1
    exact congrArg (fun st => Except.ok (st, MdKids.all)) (mdPreRaw_of_not st hb)
  | Nm =>
    have hb : hasTick act.before = false := (of_decide_eq_true hp).2.1
    simp [mdPre, MdPre.kids, mdPreRaw_of_not st hb, Role.begin]
  | Fo =>
    have hb : hasTick act.before = false := (of_decide_eq_true hp).2.1
    by_cases htype : n.type = .HEAD <;> cases child <;>
      simp [mdPre, MdPre.kids, mdPreRaw_of_not st hb, htype, Role.begin]
  | Vt =>
    have hb : hasTick act.before = false := (of_decide_eq_true hp).2.1
    cases htype : n.type <;> simp [mdPre, MdPre.kids, mdPreRaw_of_not st hb, htype, Role.begin]
  | _R =>
    cases child with
    | nil => exact absurd rfl ht
    | cons arg l => rfl
  | _ => rfl

/-- The other handlers neither change the stack nor the counters. -/
theorem mdPost_of_plain {post : MdPost}
    (hpost : some post ≠ some .D1 ∧ some post ≠ some .Bl ∧ some post ≠ some .It)
    (ha : hasTick act.after = false) : mdPost act anc n child st post = .ok st := by
  obtain ⟨hD1, hBl, hIt⟩ := hpost
  cases post with
  | D1 => exact absurd rfl hD1
  | Bl => exact absurd rfl hBl
  | It => exact absurd rfl hIt
  | _ => simp [mdPost, mdPostRaw_of_not st ha]

/-- What the handler `post` does. -/
theorem mdPost_eq {post : MdPost} (hp : act.Paired) (hpost : act.post = some post)
    (happ : act.applies n) (ht : ∀ pre, act.pre = some pre → pre.Typed anc n child) :
    mdPost act anc n child st post = (act.role anc n).finish st := by
  rw [MdAct.role, if_pos happ]
  rw [MdAct.Paired, hpost] at hp
  cases hpre : act.pre with
  -- Without a function before the children, the one behind them has no effect on the state.
  | none =>
    rw [hpre] at hp
    obtain ⟨hplain, -, ha⟩ := of_decide_eq_true hp
    exact mdPost_of_plain st hplain ha
  | some pre =>
    rw [hpre] at hp
    have ht := ht pre hpre
    -- Otherwise, the table pairs each function with the one that undoes it.
    cases pre with
    | D1 | Dl =>
      obtain rfl := Option.some.inj (of_decide_eq_true hp)
      rfl
    | Bd =>
      obtain rfl := Option.some.inj (of_decide_eq_true hp)
      by_cases hcode : n.norm = .Bd .unfilled ∨ n.norm = .Bd .literal <;>
        simp only [hcode, if_true, if_false] <;> rfl
    | Bl =>
      obtain rfl := Option.some.inj (of_decide_eq_true hp)
      exact mdPostBl_eq st ht
    | It =>
      obtain rfl := Option.some.inj (of_decide_eq_true hp)
      exact mdPostIt_eq st ht
    | raw =>
      obtain ⟨hraw, hticks⟩ := of_decide_eq_true hp
      have hrole : Except.ok (mdPostRaw act st) =
          (if hasTick act.before then Role.tick else .plain).finish st := by
        rw [mdPostRaw, hticks]
        split <;> rfl
      obtain h | h | h := hraw <;> obtain rfl := Option.some.inj h <;> exact hrole
    | _ =>
      obtain ⟨hplain, -, ha⟩ := of_decide_eq_true hp
      exact mdPost_of_plain st hplain ha

theorem MdAct.role_ne_table (act : MdAct) (anc : List MdInfo) (n : MdInfo) :
    act.role anc n ≠ .table := by
  rw [role, itRole]
  repeat' split
  all_goals exact Role.noConfusion

/-- Without a handler `post`, there is nothing to undo. -/
theorem MdAct.role_of_post_none (hp : act.Paired) (hpost : act.post = none) :
    act.role anc n = .plain := by
  rw [Paired, hpost] at hp
  rw [role]
  split
  · cases hpre : act.pre with
    | none => rfl
    | some pre =>
      rw [hpre] at hp
      cases pre with
      | D1 | Dl | Bd | Bl | It | raw => simp at hp
      | _ => rfl
  · rfl

/-- Only nodes without a token have no handlers. -/
theorem mdOpen_of_table (hrole : n.role anc = .table) : mdOpen anc n child st = .error .abort := by
  rw [MdInfo.role] at hrole
  rw [mdOpen]
  split at hrole
  · cases hrole
  · rename_i htext
    rw [if_neg htext]
    cases htok : n.tok with
    | roff => simp [htok] at hrole
    | none => rfl
    | mdoc tok =>
      rw [htok] at hrole
      exact absurd hrole (MdAct.role_ne_table _ anc n)

/-- What is done before the children of a node are processed. -/
theorem mdOpen_eq (ht : n.Typed anc child) (hrole : n.role anc ≠ .table) :
    mdOpen anc n child st =
      .ok (if n.endBody = none then (n.role anc).begin st else st, n.kids anc child) := by
  have hplain : (if n.endBody = none then Role.plain.begin st else st) = st := by
    split <;> rfl
  rw [MdInfo.role] at hrole ⊢
  rw [mdOpen, MdInfo.kids]
  by_cases htext : n.type = .TEXT
  · rw [if_pos htext, if_pos htext, if_pos htext, hplain]
  · rw [if_neg htext] at hrole ⊢
    rw [if_neg htext, if_neg htext]
    rw [MdInfo.Typed] at ht
    cases htok : n.tok with
    | roff => exact congrArg (fun st => Except.ok (st, MdKids.skip)) hplain.symm
    | none => simp [htok] at hrole
    | mdoc tok =>
      rw [htok] at ht
      cases hpre : (mdActs tok).pre with
      | none =>
        have hr : (mdActs tok).role anc n = .plain := by
          rw [MdAct.role, hpre]
          split <;> rfl
        simp only [hpre, hr, hplain]
      | some pre =>
        simp only [hpre] at ht ⊢
        by_cases happ : (mdActs tok).applies n
        · by_cases hmark : n.endBody = none
          · simp only [happ, hmark, true_or, and_true, if_true]
            exact mdPre_eq st (mdActs_paired tok) hpre happ ht.1
          · by_cases hchild : child = []
            · simp [happ, hmark, hchild]
            · -- Only the marker for `Eo` has got children, and its handler counts nothing.
              obtain rfl := ht.2 hmark hchild
              simp [happ, hmark, hchild, mdPre, MdPre.kids]
        · have hr : (mdActs tok).role anc n = .plain := by rw [MdAct.role, if_neg happ]
          simp only [happ, hr, hplain, Bool.false_eq_true, false_and, if_false]

/-- What is done behind the children of a node. -/
theorem mdClose_eq (ht : n.Typed anc child) (hrole : n.role anc ≠ .table) :
    mdClose anc n child st = (n.role anc).finish st := by
  rw [MdInfo.role] at hrole ⊢
  rw [mdClose]
  by_cases htext : n.type = .TEXT
  · rw [if_pos htext, if_pos htext]
    rfl
  · rw [if_neg htext] at hrole ⊢
    rw [if_neg htext]
    rw [MdInfo.Typed] at ht
    cases htok : n.tok with
    | roff => rfl
    | none => simp [htok] at hrole
    | mdoc tok =>
      -- For macros, the function at the end is the one paired with that at the beginning.
      rw [htok] at ht
      have hpaired := mdActs_paired tok
      cases hpost : (mdActs tok).post with
      | none =>
        simp only [hpost, MdAct.role_of_post_none hpaired hpost]
        rfl
      | some post =>
        by_cases happ : (mdActs tok).applies n
        · simp only [hpost, happ, if_true]
          refine mdPost_eq st hpaired hpost happ ?_
          intro pre hpre
          simp only [hpre] at ht
          exact ht.1
        · have hr : (mdActs tok).role anc n = .plain := by rw [MdAct.role, if_neg happ]
          simp only [hpost, happ, hr, Bool.false_eq_true, if_false]
          rfl

end Handlers

/-! ## §5 The simulation -/

/-- Lists of containers can be processed one after the other. -/
theorem runAll_append (l l' : List Container) (st : MdState) :
    runAll (l ++ l') st = runAll l st >>= runAll l' := by
  induction l generalizing st with
  | nil => rfl
  | cons c l ih =>
    rw [List.cons_append, runAll, runAll, bind_assoc]
    exact congrArg (c.run st >>= ·) (funext ih)

theorem runAll_singleton (c : Container) (st : MdState) : runAll [c] st = c.run st := by
  rw [runAll]
  exact bind_pure (c.run st)

mutual

/-- The formatter does with a node what the roles say. -/
theorem mdNode_eq (anc : List MdInfo) (st : MdState) :
    ∀ t : MdNode, t.Typed anc → mdNode anc t st = runAll (t.containers anc) st
  | .mk n child, ⟨ht, htc⟩ => by
    rw [mdNode, MdNode.containers]
    by_cases hhidden : n.hidden
    · rw [if_pos hhidden, if_pos hhidden]
      rfl
    rw [if_neg hhidden, if_neg hhidden, runAll_singleton, Container.run]
    by_cases hrole : n.role anc = .table
    · rw [if_pos hrole, mdOpen_of_table _ hrole]
      rfl
    rw [if_neg hrole, mdOpen_eq _ ht hrole]
    have hclose (st : MdState) : mdClose anc n child st = (n.role anc).finish st := mdClose_eq st ht hrole
    simp only [Res.ok_bind, hclose]
    cases n.kids anc child with
    | all => rw [← mdNodelist_eq _ _ child htc]
    | skip => rfl
    | args => rw [← mdFn_eq _ _ child htc]
    | two => rw [← mdXr_eq _ _ child htc]

theorem mdNodelist_eq (anc : List MdInfo) (st : MdState) :
    ∀ l : List MdNode, typedAll anc l → mdNodelist anc l st = runAll (containersAll anc l) st
  | [], _ => rfl
  | n :: l, ⟨hn, hl⟩ => by
    rw [mdNodelist, containersAll, runAll_append, mdNode_eq anc st n hn]
    exact congrArg _ (funext fun st => mdNodelist_eq anc st l hl)

theorem mdFn_eq (anc : List MdInfo) (st : MdState) :
    ∀ l : List MdNode, typedAll anc l → mdFn anc l st = runAll (containersFn anc l) st
  | [], _ => rfl
  | n :: l, ⟨hn, hl⟩ => by
    rw [mdFn, containersFn, runAll_append, mdNode_eq anc st n hn]
    exact congrArg _ (funext fun st => mdFa_eq anc st l hl)

/-- The arguments behind the name of a function. -/
theorem mdFa_eq (anc : List MdInfo) (st : MdState) :
    ∀ l : List MdNode, typedAll anc l → mdFa anc l st = runAll (containersFa anc l) st
  | [], _ => rfl
  | n :: l, ⟨hn, hl⟩ => by
    rw [mdFa, containersFa]
    split
    · exact mdChild_eq anc st n hn
    · rw [runAll_append, mdNode_eq anc st n hn]
      exact congrArg _ (funext fun st => mdNodelist_eq anc st l hl)

theorem mdChild_eq (anc : List MdInfo) (st : MdState) :
    ∀ t : MdNode, t.Typed anc → mdChild anc t st = runAll (t.childContainers anc) st
  | .mk n child, ⟨_, htc⟩ => mdNodelist_eq (n :: anc) st child htc

theorem mdXr_eq (anc : List MdInfo) (st : MdState) :
    ∀ l : List MdNode, typedAll anc l → mdXr anc l st = runAll (containersXr anc l) st
  | [], _ => rfl
  | n :: l, ⟨hn, hl⟩ => by
    rw [mdXr, containersXr, runAll_append, mdNode_eq anc st n hn]
    exact congrArg _ (funext fun st => mdFirst_eq anc st l hl)

theorem mdFirst_eq (anc : List MdInfo) (st : MdState) :
    ∀ l : List MdNode, typedAll anc l → mdFirst anc l st = runAll (containersFirst anc l) st
  | [], _ => rfl
  | n :: _, ⟨hn, _⟩ => mdNode_eq anc st n hn

end

/-! ## §6 Balance -/

/-- The items with list marks in the document are complete: each has got a body, and if it begins
    inside a display or literal text, then it also ends inside one. -/
def ItemsKept (root : MdInfo) (doc : List MdNode) : Prop := keepsAll [] false (containersAll [root] doc)

/-- The document neither contains tables nor equations that are printed. -/
def NoTables (root : MdInfo) (doc : List MdNode) : Prop := noTableAll (containersAll [root] doc)

/-- The formatter leaves the stack empty and the counters at zero if and only if there are no tables
    and equations, and all items with list marks are kept. -/
theorem mdNodelist_balanced_iff (root : MdInfo) (doc : List MdNode) (h : Validated root doc) :
    (∃ st, mdNodelist [root] doc .init = .ok st ∧ st.Balanced) ↔
      NoTables root doc ∧ ItemsKept root doc := by
  rw [mdNodelist_eq [root] .init doc h.typed]
  exact runAll_balanced_iff h.nested h.nodup

/-- The root node. -/
def mdRoot : MdInfo := ⟨0, .ROOT, .none, false, none, .none, []⟩

/-- A node that is printed and that is not a marker. -/
def mdPlain (id : Nat) (type : RoffType) (tok : MdTok) (norm : MdocData) : MdInfo :=
  ⟨id, type, tok, false, none, norm, []⟩

/-- A display that is ended inside a list item:
    `.Bd -filled`, `.Bl -bullet`, `.It`, text, `.Ed`, `.El`. -/
def brokenDisplay : List MdNode :=
  [.mk (mdPlain 1 .BLOCK (.mdoc .Bd) (.Bd .filled))
    [.mk (mdPlain 2 .HEAD (.mdoc .Bd) (.Bd .filled)) [],
     .mk (mdPlain 3 .BODY (.mdoc .Bd) (.Bd .filled))
      [.mk (mdPlain 4 .BLOCK (.mdoc .Bl) (.Bl .bullet))
        [.mk (mdPlain 5 .HEAD (.mdoc .Bl) (.Bl .bullet)) [],
         .mk (mdPlain 6 .BODY (.mdoc .Bl) (.Bl .bullet))
          [.mk (mdPlain 7 .BLOCK (.mdoc .It) .none)
            [.mk (mdPlain 8 .HEAD (.mdoc .It) .none) [],
             .mk (mdPlain 9 .BODY (.mdoc .It) .none)
              [.mk (mdPlain 10 .TEXT .none .none) [],
               .mk ⟨11, .BODY, .mdoc .Bd, false, some 3, .Bd .filled, []⟩ []]]]]]]]

/-- A display that is ended inside an enclosure, and a list: `.D1 Ao`, text, `.Ac`, `.Bl -bullet`,
    `.It`, text, `.El`. -/
def brokenLine : List MdNode :=
  [.mk (mdPlain 1 .BLOCK (.mdoc .D1) .none)
    [.mk (mdPlain 2 .HEAD (.mdoc .D1) .none) [],
     .mk (mdPlain 3 .BODY (.mdoc .D1) .none)
      [.mk (mdPlain 4 .BLOCK (.mdoc .Ao) .none)
        [.mk (mdPlain 5 .HEAD (.mdoc .Ao) .none) [],
         .mk (mdPlain 6 .BODY (.mdoc .Ao) .none)
          [.mk ⟨7, .BODY, .mdoc .D1, false, some 3, .none, []⟩ [],
           .mk (mdPlain 8 .TEXT .none .none) []]]]],
   .mk (mdPlain 9 .BLOCK (.mdoc .Bl) (.Bl .bullet))
    [.mk (mdPlain 10 .HEAD (.mdoc .Bl) (.Bl .bullet)) [],
     .mk (mdPlain 11 .BODY (.mdoc .Bl) (.Bl .bullet))
      [.mk (mdPlain 12 .BLOCK (.mdoc .It) .none)
        [.mk (mdPlain 13 .HEAD (.mdoc .It) .none) [],
         .mk (mdPlain 14 .BODY (.mdoc .It) .none) [.mk (mdPlain 15 .TEXT .none .none) []]]]]]

/-- The containers of the broken display. -/
theorem brokenDisplay_containers :
    containersAll [mdRoot] brokenDisplay =
      [.mk .plain 1 none
        [.mk .plain 2 none [],
         .mk .quote 3 none
          [.mk .plain 4 none
            [.mk .plain 5 none [],
             .mk .plain 6 none
              [.mk .plain 7 none
                [.mk .itemHead 8 none [],
                 .mk .itemBody 9 none
                  [.mk .plain 10 none [], .mk .quote 11 (some 3) []]]]]]]] := rfl

/-- The containers of the broken line. -/
theorem brokenLine_containers :
    containersAll [mdRoot] brokenLine =
      [.mk .plain 1 none
        [.mk .plain 2 none [],
         .mk .quote 3 none
          [.mk .plain 4 none
            [.mk .plain 5 none [],
             .mk .plain 6 none [.mk .quote 7 (some 3) [], .mk .plain 8 none []]]]],
       .mk .plain 9 none
        [.mk .plain 10 none [],
         .mk .plain 11 none
          [.mk .plain 12 none
            [.mk .itemHead 13 none [], .mk .itemBody 14 none [.mk .plain 15 none []]]]]] := rfl

/-- The display is well formed. -/
theorem brokenDisplay_validated : Validated mdRoot brokenDisplay where
  typed := by
    simp [brokenDisplay, mdRoot, mdPlain, typedAll, MdNode.Typed, MdInfo.Typed, mdActs, MdPre.Typed,
      listType]
  nodup := by decide
  nested := by
    rw [brokenDisplay_containers]
    simp [nestedAll, Container.Nested, Container.role, Container.ends, endsAll, NodeScope.without,
      NodeScope.ticks, Role.ticks, Role.displays]

/-- The line is well formed. -/
theorem brokenLine_validated : Validated mdRoot brokenLine where
  typed := by
    simp [brokenLine, mdRoot, mdPlain, typedAll, MdNode.Typed, MdInfo.Typed, mdActs, MdPre.Typed,
      listType]
  nodup := by decide
  nested := by
    rw [brokenLine_containers]
    simp [nestedAll, Container.Nested, Container.role, Container.ends, endsAll, NodeScope.without,
      NodeScope.ticks, Role.ticks, Role.displays]

/-- A display that is ended inside an enclosure does no harm, and the item is kept. -/
theorem brokenLine_balanced : ∃ st, mdNodelist [mdRoot] brokenLine .init = .ok st ∧ st.Balanced := by
  apply (mdNodelist_balanced_iff mdRoot brokenLine brokenLine_validated).mpr
  rw [NoTables, ItemsKept, brokenLine_containers]
  simp [noTableAll, Container.NoTable, keepsAll, Container.Keeps, Container.role, endsAll,
    Container.ends, NodeScope.without_nil]

/-- When a display is ended inside a list item, one list block remains. -/
theorem brokenDisplay_lists :
    ¬ ∀ root doc, Validated root doc → ∃ st, mdNodelist [root] doc .init = .ok st ∧ st.Balanced := by
  intro h
  obtain ⟨st, hrun, hst⟩ := h mdRoot brokenDisplay brokenDisplay_validated
  have hlist : st.listBlocks = 1 := by
    obtain rfl := Except.ok.inj (hrun.symm.trans rfl)
    rfl
  exact absurd (hlist.symm.trans hst.list) one_ne_zero

end Mandoc
