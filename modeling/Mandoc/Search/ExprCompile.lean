import Mandoc.Search.ExprStructure

/-!
# The trees that `exprcomp` returns

The loops of `exprcomp` and `expr_and` read one level of parentheses together: `Seen` is what they
have read, and `OrTracks` and `AndTracks` relate it to their variables.  By induction on the
arguments, the functions return `ExprArgs.compiled`, which is the tree that is wanted if and only if
everything that stands between two terms is harmless.
-/

namespace Mandoc

/-! ## §1 What has been read of a level -/

/-- Members in front of the first clause. -/
def prependFirst {α : Type} (c : List α) : List (List α) → List (List α)
  | [] => [c]
  | d :: ds => (c ++ d) :: ds

/-- The part of a level that has been read. -/
inductive Seen where
  /-- There has not been any term. -/
  | nothing
  /-- Some clauses, the clause of the last term, and the phase behind that term. -/
  | terms (pre : List (List (Expr DbmMatch))) (cur : List (Expr DbmMatch)) (phase : Phase)

namespace Seen

/-- Something that is not a term. -/
def push (g : Gap) : Seen → Seen
  | .nothing => .nothing
  | .terms pre cur phase => .terms pre cur (phase.next g)

/-- Another term. -/
def add (e : Expr DbmMatch) : Seen → Seen
  | .nothing => .terms [] [e] (.clause false)
  | .terms pre cur (.clause true) => .terms pre (cur ++ [e]) (.clause false)
  | .terms pre cur .lost => .terms pre cur .lost
  | .terms pre cur _ => .terms (pre ++ [cur]) [e] (.clause false)

/-- Another call of `expr_and`. -/
def enter : Seen → Seen
  | .nothing => .nothing
  | .terms pre cur .lost => .terms pre cur .lost
  | .terms pre cur _ => .terms pre cur .pending

/-- All clauses that are returned, if the rest of the level is known. -/
def clauses : Seen → Level → List (List (Expr DbmMatch))
  | .nothing, l => keptClauses l.2
  | .terms pre cur phase, l =>
    match l.1.foldl Phase.next phase with
    | .clause true => pre ++ prependFirst cur (keptClauses l.2)
    | .lost => pre ++ [cur]
    | _ => pre ++ cur :: keptClauses l.2

end Seen

theorem prependFirst_consFirst {α : Type} (c : List α) (e : α) (cs : List (List α)) :
    prependFirst c (consFirst e cs) = prependFirst (c ++ [e]) cs := by
  cases cs with
  | nil => rfl
  | cons d cs => simp [prependFirst, consFirst]

theorem clauses_push (σ : Seen) (g : Gap) (l : Level) :
    σ.clauses (l.push g) = (σ.push g).clauses l := by
  cases σ <;> rfl

/-- A term begins a clause, or it is the next one of its clause. -/
theorem clauses_add (σ : Seen) (e : Expr DbmMatch) (l : Level) :
    σ.clauses (l.add (some e)) = (σ.add e).clauses l := by
  -- The clauses of the rest of the level, behind the new term.
  have hkept : keptClauses ((e, l.1) :: l.2) =
      (Seen.terms [] [e] (.clause false)).clauses l := by
    rw [keptClauses, Seen.clauses, Phase.after]
    cases l.1.foldl Phase.next (.clause false) with
    | clause b =>
      cases b with
      | true => cases keptClauses l.2 <;> rfl
      | false => rfl
    | pending => rfl
    | between => rfl
    | lost => rfl
  -- The same behind other clauses.
  have hpre : ∀ (pre : List (List (Expr DbmMatch))) (cur : List (Expr DbmMatch)),
      pre ++ cur :: keptClauses ((e, l.1) :: l.2) =
        (Seen.terms (pre ++ [cur]) [e] (.clause false)).clauses l := by
    intro pre cur
    rw [hkept]
    simp only [Seen.clauses]
    split <;> simp
  cases σ with
  | nothing => exact hkept
  | terms pre cur phase =>
    cases phase with
    | clause b =>
      cases b with
      | true =>
        simp only [Seen.clauses, Seen.add, Level.add, List.foldl_nil, keptClauses, Phase.after]
        cases l.1.foldl Phase.next (.clause false) with
        | clause b =>
          cases b with
          | true => simp only [prependFirst_consFirst]
          | false => rfl
        | pending => rfl
        | between => rfl
        | lost => rfl
      | false => exact hpre pre cur
    | pending => exact hpre pre cur
    | between => exact hpre pre cur
    | lost =>
      simp only [Seen.clauses, Seen.add, foldl_next_lost]

/-! ## §2 The variables of the functions -/

/-- Some clauses are the ones that can be returned. -/
structure OrState.Keeps (st : OrState DbmMatch) (clauses : List (List (Expr DbmMatch))) : Prop where
  trees : st.clauses.map Expr.simplify = clauses.filterMap (joinList .and)
  single : st.parent = true ∨ st.clauses.length = 1

/-- Some terms are the clause. -/
structure AndState.Keeps (a : AndState DbmMatch) (cur : List (Expr DbmMatch)) : Prop where
  terms : a.terms.map Expr.simplify = cur
  ne_nil : a.terms ≠ []
  single : a.parent = true ∨ a.terms.length = 1

/-- The variables of `exprcomp` when it is not in the middle of a clause. -/
inductive OrTracks : Seen → OrState DbmMatch → Prop where
  | nothing : OrTracks .nothing {}
  | between {pre : List (List (Expr DbmMatch))} {cur : List (Expr DbmMatch)}
      {st : OrState DbmMatch} (hst : st.Keeps (pre ++ [cur])) (hchild : st.child = .attached) :
      OrTracks (.terms pre cur .between) st
  | lost {pre : List (List (Expr DbmMatch))} {cur : List (Expr DbmMatch)}
      {st : OrState DbmMatch} (hst : st.Keeps (pre ++ [cur])) (hparent : st.parent = true)
      (hchild : st.child ≠ .attached) : OrTracks (.terms pre cur .lost) st

/-- The variables of `exprcomp` and of the call of `expr_and`. -/
inductive AndTracks : Seen → OrState DbmMatch → AndState DbmMatch → Prop where
  | nothing : AndTracks .nothing {} {}
  /-- The first clause. -/
  | first {cur : List (Expr DbmMatch)} {a : AndState DbmMatch} {needterm : Bool}
      (ha : a.Keeps cur) (hneed : a.needterm = needterm) :
      AndTracks (.terms [] cur (.clause needterm)) {} a
  | next {pre : List (List (Expr DbmMatch))} {cur : List (Expr DbmMatch)}
      {st : OrState DbmMatch} {a : AndState DbmMatch} {needterm : Bool} (hst : st.Keeps pre)
      (hchild : st.child = .attached) (ha : a.Keeps cur) (hneed : a.needterm = needterm) :
      AndTracks (.terms pre cur (.clause needterm)) st a
  | pending {pre : List (List (Expr DbmMatch))} {cur : List (Expr DbmMatch)}
      {st : OrState DbmMatch} (hst : st.Keeps (pre ++ [cur])) (hchild : st.child = .attached) :
      AndTracks (.terms pre cur .pending) st {}
  | lost {pre : List (List (Expr DbmMatch))} {cur : List (Expr DbmMatch)}
      {st : OrState DbmMatch} {a : AndState DbmMatch} (hst : st.Keeps (pre ++ [cur]))
      (hparent : st.parent = true) (hchild : st.child ≠ .attached) :
      AndTracks (.terms pre cur .lost) st a

/-- What `exprcomp` returns. -/
theorem OrState.Keeps.result {st : OrState DbmMatch} {clauses : List (List (Expr DbmMatch))}
    (h : st.Keeps clauses) : st.result.map Expr.simplify = treeOf clauses := by
  rw [OrState.result, treeOf, ← h.trees]
  split
  · exact simplify_groupOf_or _
  · obtain ⟨e, heq⟩ := List.length_eq_one_iff.mp (h.single.resolve_left ‹_›)
    rw [heq]
    rfl

/-- What `expr_and` returns. -/
theorem AndState.Keeps.result {a : AndState DbmMatch} {cur : List (Expr DbmMatch)}
    (h : a.Keeps cur) : ∃ e, a.result = some e ∧ joinList .and cur = some e.simplify := by
  have hmap : a.result.map Expr.simplify = joinList .and cur := by
    rw [AndState.result, ← h.terms]
    split
    · exact simplify_groupOf_and _
    · obtain ⟨e, heq⟩ := List.length_eq_one_iff.mp (h.single.resolve_left ‹_›)
      rw [heq]
      rfl
  have hsome : ∃ e, a.result = some e := by
    obtain ⟨e, es, heq⟩ := List.exists_cons_of_ne_nil h.ne_nil
    rw [AndState.result, heq]
    split
    · exact ⟨_, rfl⟩
    · exact ⟨e, rfl⟩
  obtain ⟨e, he⟩ := hsome
  refine ⟨e, he, ?_⟩
  rw [← hmap, he]
  rfl

theorem keeps_first {e : Expr DbmMatch} {cur : List (Expr DbmMatch)}
    (he : joinList .and cur = some e.simplify) :
    (OrState.add {} (some e)).Keeps [cur] ∧ (OrState.add {} (some e)).child = .attached := by
  refine ⟨⟨?_, .inr rfl⟩, rfl⟩
  rw [List.filterMap_cons_some he]
  rfl

/-- Another clause. -/
theorem OrState.Keeps.add {st : OrState DbmMatch} {pre : List (List (Expr DbmMatch))}
    {e : Expr DbmMatch} {cur : List (Expr DbmMatch)} (h : st.Keeps pre)
    (hchild : st.child = .attached) (he : joinList .and cur = some e.simplify) :
    (st.add (some e)).Keeps (pre ++ [cur]) ∧ (st.add (some e)).child = .attached := by
  rw [OrState.add, hchild]
  refine ⟨⟨?_, .inl rfl⟩, rfl⟩
  rw [List.filterMap_append, List.filterMap_cons_some he, ← h.trees, Option.toList_some,
    List.map_append]
  rfl

/-- A clause without any terms: what follows is lost. -/
theorem OrState.Keeps.add_none {st : OrState DbmMatch} {pre : List (List (Expr DbmMatch))}
    (h : st.Keeps pre) (hchild : st.child = .attached) :
    (st.add none).Keeps pre ∧ (st.add none).parent = true ∧ (st.add none).child ≠ .attached := by
  rw [OrState.add, hchild]
  refine ⟨⟨?_, .inl rfl⟩, rfl, nofun⟩
  rw [Option.toList_none, List.append_nil]
  exact h.trees

/-- A clause that is lost. -/
theorem OrState.Keeps.add_lost {st : OrState DbmMatch} {pre : List (List (Expr DbmMatch))}
    (h : st.Keeps pre) (hparent : st.parent = true) (hchild : st.child ≠ .attached)
    (e : Option (Expr DbmMatch)) :
    (st.add e).Keeps pre ∧ (st.add e).parent = true ∧ (st.add e).child ≠ .attached := by
  rw [OrState.add]
  cases hc : st.child with
  | null =>
    rw [if_pos hparent]
    refine ⟨⟨h.trees, .inl hparent⟩, hparent, ?_⟩
    cases e <;> exact nofun
  | attached => exact absurd hc hchild
  | detached =>
    refine ⟨⟨h.trees, .inl hparent⟩, hparent, ?_⟩
    cases e <;> exact nofun

theorem keeps_add (e : Expr DbmMatch) :
    (AndState.add {} (some e)).Keeps [e.simplify] ∧ (AndState.add {} (some e)).needterm = false :=
  ⟨⟨rfl, List.cons_ne_nil e [], .inr rfl⟩, rfl⟩

/-- Another term of a clause, or one that cannot be compiled. -/
theorem AndState.Keeps.add {a : AndState DbmMatch} {cur : List (Expr DbmMatch)} (h : a.Keeps cur)
    (e : Option (Expr DbmMatch)) :
    (a.add e).Keeps (cur ++ (e.map Expr.simplify).toList) ∧ (a.add e).needterm = false := by
  obtain ⟨t, ts, heq⟩ := List.exists_cons_of_ne_nil h.ne_nil
  have hadd : a.add e = { terms := a.terms ++ e.toList, parent := true, needterm := false } := by
    simp only [AndState.add, heq]
  rw [hadd]
  refine ⟨⟨?_, ?_, .inl rfl⟩, rfl⟩
  · rw [List.map_append, h.terms]
    cases e <;> rfl
  · exact List.append_ne_nil_of_left_ne_nil h.ne_nil _

/-! ## §3 Single arguments -/

/-- A clause ends. -/
theorem AndTracks.sep {σ : Seen} {st : OrState DbmMatch} {a : AndState DbmMatch}
    (h : AndTracks σ st a) {g : Gap} (hg : g.isSep = true) :
    OrTracks (σ.push g) (st.add a.result) := by
  have hclause : ∀ b, Phase.next (.clause b) g = .between := by
    intro b
    cases g with
    | and => cases hg
    | invalid => cases hg
    | or => cases b <;> rfl
    | close => cases b <;> rfl
  cases h with
  | nothing => exact .nothing
  | first ha hneed =>
    obtain ⟨e, he, hjoin⟩ := ha.result
    rw [Seen.push, hclause, he]
    exact .between (keeps_first hjoin).1 (keeps_first hjoin).2
  | next hst hchild ha hneed =>
    obtain ⟨e, he, hjoin⟩ := ha.result
    rw [Seen.push, hclause, he]
    exact .between (hst.add hchild hjoin).1 (hst.add hchild hjoin).2
  | pending hst hchild =>
    obtain ⟨hkeeps, hparent, hnot⟩ := hst.add_none hchild
    rw [Seen.push, Phase.next, if_pos hg]
    exact .lost hkeeps hparent hnot
  | lost hst hparent hchild =>
    obtain ⟨hkeeps, hparent', hnot⟩ := hst.add_lost hparent hchild a.result
    exact .lost hkeeps hparent' hnot

/-- Arguments that end a clause are skipped between clauses. -/
theorem OrTracks.sep {σ : Seen} {st : OrState DbmMatch} (h : OrTracks σ st) {g : Gap}
    (hg : g.isSep = true) : OrTracks (σ.push g) st := by
  cases h with
  | nothing => exact .nothing
  | between hst hchild =>
    rw [Seen.push, Phase.next, if_pos hg]
    exact .between hst hchild
  | lost hst hparent hchild => exact .lost hst hparent hchild

/-- The operator `-a`. -/
theorem AndTracks.and {σ : Seen} {st : OrState DbmMatch} {a : AndState DbmMatch}
    (h : AndTracks σ st a) : AndTracks (σ.push .and) st { a with needterm := true } := by
  cases h with
  | nothing => exact .nothing
  | first ha hneed => exact .first ⟨ha.terms, ha.ne_nil, ha.single⟩ rfl
  | next hst hchild ha hneed => exact .next hst hchild ⟨ha.terms, ha.ne_nil, ha.single⟩ rfl
  | pending hst hchild => exact .pending hst hchild
  | lost hst hparent hchild => exact .lost hst hparent hchild

/-- A term that is needed, but that cannot be compiled. -/
theorem AndTracks.invalid {σ : Seen} {st : OrState DbmMatch} {a : AndState DbmMatch}
    (h : AndTracks σ st a) (hneed : a.needterm = true) :
    AndTracks (σ.push .invalid) st (a.add none) := by
  cases h with
  | nothing => exact .nothing
  | first ha hneed' =>
    subst hneed'
    obtain ⟨hkeeps, hno⟩ := ha.add none
    rw [Option.map_none, Option.toList_none, List.append_nil] at hkeeps
    rw [hneed]
    exact .first hkeeps hno
  | next hst hchild ha hneed' =>
    subst hneed'
    obtain ⟨hkeeps, hno⟩ := ha.add none
    rw [Option.map_none, Option.toList_none, List.append_nil] at hkeeps
    rw [hneed]
    exact .next hst hchild hkeeps hno
  | pending hst hchild => exact .pending hst hchild
  | lost hst hparent hchild => exact .lost hst hparent hchild

/-- A term that is needed. -/
theorem AndTracks.add {σ : Seen} {st : OrState DbmMatch} {a : AndState DbmMatch}
    (h : AndTracks σ st a) (hneed : a.needterm = true) (e : Expr DbmMatch) :
    AndTracks (σ.add e.simplify) st (a.add (some e)) := by
  cases h with
  | nothing => exact .first (keeps_add e).1 (keeps_add e).2
  | first ha hneed' =>
    subst hneed'
    rw [hneed]
    exact .first (ha.add (some e)).1 (ha.add (some e)).2
  | next hst hchild ha hneed' =>
    subst hneed'
    rw [hneed]
    exact .next hst hchild (ha.add (some e)).1 (ha.add (some e)).2
  | pending hst hchild => exact .next hst hchild (keeps_add e).1 (keeps_add e).2
  | lost hst hparent hchild => exact .lost hst hparent hchild

theorem OrTracks.enter {σ : Seen} {st : OrState DbmMatch} (h : OrTracks σ st) :
    AndTracks σ.enter st {} := by
  cases h with
  | nothing => exact .nothing
  | between hst hchild => exact .pending hst hchild
  | lost hst hparent hchild => exact .lost hst hparent hchild

/-- The next call of `expr_and`, when a clause ends because no term is needed. -/
theorem AndTracks.enter {σ : Seen} {st : OrState DbmMatch} {a : AndState DbmMatch}
    (h : AndTracks σ st a) (hneed : a.needterm = false) :
    AndTracks σ.enter (st.add a.result) {} := by
  cases h with
  | nothing => cases hneed
  | first ha _ =>
    obtain ⟨e, he, hjoin⟩ := ha.result
    rw [he]
    exact .pending (keeps_first hjoin).1 (keeps_first hjoin).2
  | next hst hchild ha _ =>
    obtain ⟨e, he, hjoin⟩ := ha.result
    rw [he]
    exact .pending (hst.add hchild hjoin).1 (hst.add hchild hjoin).2
  | pending _ _ => cases hneed
  | lost hst hparent hchild =>
    obtain ⟨hkeeps, hparent', hnot⟩ := hst.add_lost hparent hchild a.result
    exact .lost hkeeps hparent' hnot

theorem OrTracks.result {σ : Seen} {st : OrState DbmMatch} (h : OrTracks σ st) :
    st.result.map Expr.simplify = treeOf (σ.clauses ([], [])) := by
  cases h with
  | nothing => rfl
  | between hst _ => exact hst.result
  | lost hst _ _ => exact hst.result

/-- At the end of a level, it does not matter whether the last clause has ended. -/
theorem clauses_push_nil (σ : Seen) (g : Gap) :
    (σ.push g).clauses ([], []) = σ.clauses ([], []) := by
  have hall : ∀ (pre : List (List (Expr DbmMatch))) (cur : List (Expr DbmMatch)) (phase : Phase),
      (Seen.terms pre cur phase).clauses ([], []) = pre ++ [cur] := by
    intro pre cur phase
    cases phase with
    | clause b => cases b <;> rfl
    | pending => rfl
    | between => rfl
    | lost => rfl
  cases σ with
  | nothing => rfl
  | terms pre cur phase => rw [Seen.push, hall, hall]

/-- A call of `expr_and` between two clauses does not change what is returned. -/
theorem OrTracks.clauses_enter {σ : Seen} {st : OrState DbmMatch} (h : OrTracks σ st) (l : Level) :
    σ.enter.clauses (l.push .and) = σ.clauses (l.push .and) ∧
      ∀ e, σ.enter.clauses (l.add e) = σ.clauses (l.add e) := by
  cases h with
  | nothing => exact ⟨rfl, fun _ => rfl⟩
  | between _ _ =>
    refine ⟨rfl, fun e => ?_⟩
    cases e <;> rfl
  | lost _ _ _ => exact ⟨rfl, fun _ => rfl⟩

/-- The same when a clause ends because no term is needed. -/
theorem AndTracks.clauses_enter {σ : Seen} {st : OrState DbmMatch} {a : AndState DbmMatch}
    (h : AndTracks σ st a) (hneed : a.needterm = false) (l : Level) (e : Option (Expr DbmMatch)) :
    σ.enter.clauses (l.add e) = σ.clauses (l.add e) := by
  cases h with
  | nothing => rfl
  | first _ hneed' =>
    subst hneed'
    rw [hneed]
    cases e <;> rfl
  | next _ _ _ hneed' =>
    subst hneed'
    rw [hneed]
    cases e <;> rfl
  | pending _ _ => rfl
  | lost _ _ _ => rfl

/-! ## §4 All arguments -/

section

variable {env : SearchEnv}

/-- From the loop of `exprcomp` on, the right tree is returned for a level. -/
def OrReturns (env : SearchEnv) (nested : Bool) (argv rest : List Str) (l : Level) : Prop :=
  ∀ (m : Nat) (st : OrState DbmMatch) (σ : Seen), 4 * argv.length + 4 ≤ m → OrTracks σ st →
    ∃ e, exprcompLoop env m nested st argv = .ok (e, rest) ∧
      e.map Expr.simplify = treeOf (σ.clauses l)

/-- The rest of a call of `expr_and`, and then the loop of `exprcomp`. -/
def exprAndThen (env : SearchEnv) (n m : Nat) (nested : Bool) (st : OrState DbmMatch)
    (a : AndState DbmMatch) (argv : List Str) : Res Compiled := do
  let (e, argv) ← exprAnd env n a argv
  exprcompLoop env m nested (st.add e) argv

/-- From the loop of `expr_and` on, the right tree is returned for a level.  If a clause ends at
    once because no term is needed, the depth of the calls does not decrease. -/
def AndReturns (env : SearchEnv) (nested : Bool) (argv rest : List Str) (l : Level) : Prop :=
  ∀ (n m : Nat) (st : OrState DbmMatch) (a : AndState DbmMatch) (σ : Seen),
    4 * argv.length + 3 ≤ n →
    (if a.needterm then 4 * argv.length + 1 else 4 * argv.length + 4) ≤ m → AndTracks σ st a →
    ∃ e, exprAndThen env n m nested st a argv = .ok (e, rest) ∧
      e.map Expr.simplify = treeOf (σ.clauses l)

/-- Simplifying does not change a single term. -/
theorem simplify_compileTerm (env : SearchEnv) (cs : Bool) (a : Str) :
    (compileTerm env cs a).map Expr.simplify = compileTerm env cs a := by
  have hterm : ∀ (cs : Bool) (val : Str) (bits : BitVec 64),
      (compileRegex env cs val bits).map Expr.simplify = compileRegex env cs val bits := by
    intro cs val bits
    rw [compileRegex, Option.map_map]
    rfl
  rw [compileTerm]
  split
  · rfl
  · exact hterm _ _ _
  · dsimp only
    split
    · exact hterm _ _ _
    · split
      · rfl
      · exact hterm _ _ _

/-- Where the level ends. -/
theorem returns_end {nested : Bool} {argv : List Str}
    (hloop : ∀ m st, exprcompLoop env (m + 1) nested st argv = .ok (st.result, argv))
    (hand : ∀ n a, exprAnd env (n + 1) a argv = .ok (a.result, argv)) :
    OrReturns env nested argv argv ([], []) ∧ AndReturns env nested argv argv ([], []) := by
  constructor
  · intro m st σ hm hσ
    obtain ⟨m, rfl⟩ := Nat.exists_eq_add_one.mpr (Nat.lt_of_lt_of_le (Nat.succ_pos _) hm)
    exact ⟨_, hloop m st, hσ.result⟩
  · intro n m st a σ hn hm hσ
    obtain ⟨n, rfl⟩ := Nat.exists_eq_add_one.mpr (Nat.lt_of_lt_of_le (Nat.succ_pos _) hn)
    have hpos : 0 < m := by
      refine Nat.lt_of_lt_of_le ?_ hm
      split <;> exact Nat.succ_pos _
    obtain ⟨m, rfl⟩ := Nat.exists_eq_add_one.mpr hpos
    refine ⟨_, ?_, (@AndTracks.sep _ _ _ hσ .or rfl).result.trans ?_⟩
    · rw [exprAndThen, hand]
      exact hloop m _
    · rw [clauses_push_nil]

/-- An argument that ends a clause. -/
theorem returns_sep {nested : Bool} {b : Str} {argv rest : List Str} {l : Level} {g : Gap}
    (hg : g.isSep = true)
    (hloop : ∀ m st, exprcompLoop env (m + 1) nested st (b :: argv) =
      exprcompLoop env m nested st argv)
    (hand : ∀ n a, exprAnd env (n + 1) a (b :: argv) = .ok (a.result, b :: argv))
    (ih : OrReturns env nested argv rest l) :
    OrReturns env nested (b :: argv) rest (l.push g) ∧
      AndReturns env nested (b :: argv) rest (l.push g) := by
  constructor
  · intro m st σ hm hσ
    rw [List.length_cons] at hm
    obtain ⟨m, rfl⟩ := Nat.exists_eq_add_one.mpr (Nat.lt_of_lt_of_le (Nat.succ_pos _) hm)
    rw [hloop, clauses_push]
    exact ih m st _ (by omega) (hσ.sep hg)
  · intro n m st a σ hn hm hσ
    rw [List.length_cons] at hm
    obtain ⟨n, rfl⟩ := Nat.exists_eq_add_one.mpr (Nat.lt_of_lt_of_le (Nat.succ_pos _) hn)
    have hle : 4 * argv.length + 5 ≤ m := by
      split at hm <;> omega
    obtain ⟨m, rfl⟩ := Nat.exists_eq_add_one.mpr (Nat.lt_of_lt_of_le (Nat.succ_pos _) hle)
    rw [exprAndThen, hand, clauses_push]
    obtain ⟨e, heq, he⟩ := ih m _ _ (by omega) (hσ.sep hg)
    exact ⟨e, (hloop m _).trans heq, he⟩

theorem needed_le {a : AndState DbmMatch} {k m : Nat} (h : 4 * k + 4 ≤ m) :
    (if a.needterm then 4 * k + 1 else 4 * k + 4) ≤ m := by
  split <;> omega

theorem exprcompLoop_enter {b : Str} (hb : b ≠ bytesOf ")" ∧ b ≠ bytesOf "-o") (m : Nat)
    (nested : Bool) (st : OrState DbmMatch) (argv : List Str) :
    exprcompLoop env (m + 1) nested st (b :: argv) =
      exprAndThen env m m nested st {} (b :: argv) := by
  rw [exprcompLoop, if_neg hb.1, if_neg hb.2]
  rfl

/-- The operator `-a`. -/
theorem returns_and {nested : Bool} {argv rest : List Str} {l : Level}
    (ih : AndReturns env nested argv rest l) :
    OrReturns env nested (bytesOf "-a" :: argv) rest (l.push .and) ∧
      AndReturns env nested (bytesOf "-a" :: argv) rest (l.push .and) := by
  have hne : bytesOf "-a" ≠ bytesOf ")" ∧ bytesOf "-a" ≠ bytesOf "-o" := by decide +kernel
  have hand : AndReturns env nested (bytesOf "-a" :: argv) rest (l.push .and) := by
    intro n m st a σ hn hm hσ
    rw [List.length_cons] at hn hm
    obtain ⟨n, rfl⟩ := Nat.exists_eq_add_one.mpr (Nat.lt_of_lt_of_le (Nat.succ_pos _) hn)
    have hle : 4 * argv.length + 4 ≤ m := by
      split at hm <;> omega
    have hstep : exprAndThen env (n + 1) m nested st a (bytesOf "-a" :: argv) =
        exprAndThen env n m nested st { a with needterm := true } argv := by
      rw [exprAndThen, exprAnd, if_neg (not_or.mpr hne), if_pos rfl]
      rfl
    rw [clauses_push, hstep]
    exact ih n m st _ _ (by omega) (needed_le hle) hσ.and
  refine ⟨fun m st σ hm hσ => ?_, hand⟩
  obtain ⟨m, rfl⟩ := Nat.exists_eq_add_one.mpr (Nat.lt_of_lt_of_le (Nat.succ_pos _) hm)
  rw [← (hσ.clauses_enter l).1, exprcompLoop_enter hne]
  exact hand m m st {} _ (by omega) (by rw [if_pos rfl]; omega) hσ.enter

/-- A term, or something in parentheses. -/
theorem returns_term {nested : Bool} {b : Str} {argv argv' rest : List Str} {l : Level}
    {e' : Option (Expr DbmMatch)} (hb : b ≠ bytesOf ")" ∧ b ≠ bytesOf "-o")
    (hand : b ≠ bytesOf "-a") (hlen : argv'.length ≤ argv.length)
    (hterm : ∀ n, 4 * argv.length + 6 ≤ n →
      ∃ e, exprterm env n (b :: argv) = .ok (e, argv') ∧ e.map Expr.simplify = e')
    (ih : AndReturns env nested argv' rest l) :
    OrReturns env nested (b :: argv) rest (l.add e') ∧
      AndReturns env nested (b :: argv) rest (l.add e') := by
  have hlen' : 4 * argv'.length ≤ 4 * argv.length := Nat.mul_le_mul_left 4 hlen
  -- The calls if a term is needed.
  have hneeded : ∀ (n m : Nat) (st : OrState DbmMatch) (a : AndState DbmMatch) (σ : Seen),
      4 * argv.length + 7 ≤ n → 4 * argv.length + 4 ≤ m → a.needterm = true →
      AndTracks σ st a → ∃ e, exprAndThen env n m nested st a (b :: argv) = .ok (e, rest) ∧
        e.map Expr.simplify = treeOf (σ.clauses (l.add e')) := by
    intro n m st a σ hn hm hneed hσ
    obtain ⟨n, rfl⟩ := Nat.exists_eq_add_one.mpr (Nat.lt_of_lt_of_le (Nat.succ_pos _) hn)
    obtain ⟨e, he, hsimp⟩ := hterm n (by omega)
    have hstep : exprAndThen env (n + 1) m nested st a (b :: argv) =
        exprAndThen env n m nested st (a.add e) argv' := by
      rw [exprAndThen, exprAnd, if_neg (not_or.mpr hb), if_neg hand, hneed, Bool.not_true,
        if_neg Bool.false_ne_true, he]
      rfl
    have hn' : 4 * argv'.length + 3 ≤ n := by omega
    have hm' := @needed_le (a.add e) _ _ (Nat.le_trans (Nat.add_le_add_right hlen' 4) hm)
    rw [hstep, ← hsimp]
    cases e with
    | none =>
      rw [Option.map_none, Level.add, clauses_push]
      exact ih n m st _ _ hn' hm' (hσ.invalid hneed)
    | some e =>
      rw [Option.map_some, clauses_add]
      exact ih n m st _ _ hn' hm' (hσ.add hneed e)
  have hloop : OrReturns env nested (b :: argv) rest (l.add e') := by
    intro m st σ hm hσ
    rw [List.length_cons] at hm
    obtain ⟨m, rfl⟩ := Nat.exists_eq_add_one.mpr (Nat.lt_of_lt_of_le (Nat.succ_pos _) hm)
    rw [← (hσ.clauses_enter l).2, exprcompLoop_enter hb]
    exact hneeded m m st {} _ (by omega) (by omega) rfl hσ.enter
  refine ⟨hloop, fun n m st a σ hn hm hσ => ?_⟩
  rw [List.length_cons] at hn
  cases hneed : a.needterm with
  | true =>
    rw [hneed, if_pos rfl, List.length_cons] at hm
    exact hneeded n m st a σ (by omega) (by omega) hneed hσ
  | false =>
    -- The clause ends, and the loop of `exprcomp` begins another one.
    rw [hneed, if_neg Bool.false_ne_true] at hm
    obtain ⟨n, rfl⟩ := Nat.exists_eq_add_one.mpr (Nat.lt_of_lt_of_le (Nat.succ_pos _) hn)
    obtain ⟨m, rfl⟩ := Nat.exists_eq_add_one.mpr (Nat.lt_of_lt_of_le (Nat.succ_pos _) hm)
    have hstep : exprAndThen env (n + 1) (m + 1) nested st a (b :: argv) =
        exprAndThen env m m nested (st.add a.result) {} (b :: argv) := by
      rw [exprAndThen, exprAnd, if_neg (not_or.mpr hb), if_neg hand, hneed, Bool.not_false,
        if_pos rfl, ← exprcompLoop_enter hb]
      rfl
    rw [List.length_cons] at hm
    rw [hstep, ← hσ.clauses_enter hneed]
    exact hneeded m m _ {} _ (by omega) (by omega) rfl (hσ.enter hneed)

/-- One argument that is compiled. -/
theorem exprterm_single {b : Str} {argv : List Str} (hopen : b ≠ bytesOf "(")
    (hi : b = bytesOf "-i" → argv = []) (n : Nat) :
    exprterm env (n + 1) (b :: argv) = .ok (compileTerm env true b, argv) := by
  unfold exprterm
  rw [if_neg hopen]
  cases argv with
  | nil => rfl
  | cons c argv => exact if_neg fun heq => nomatch hi heq

/-- From the start of a level, the right tree is returned. -/
theorem OrReturns.exprcomp {nested : Bool} {argv rest : List Str} {as : ExprArgs}
    (hreads : Reads env nested argv as rest)
    (h : OrReturns env nested argv rest (as.level keptClauses)) {n : Nat}
    (hn : 4 * argv.length + 5 ≤ n) :
    ∃ e, exprcomp env n nested argv = .ok (e, rest) ∧ e.map Expr.simplify = as.compiled := by
  obtain ⟨n, rfl⟩ := Nat.exists_eq_add_one.mpr (Nat.lt_of_lt_of_le (Nat.succ_pos _) hn)
  cases argv with
  | nil =>
    cases hreads with
    | nil => exact ⟨none, rfl, rfl⟩
  | cons b argv =>
    obtain ⟨e, he, hsimp⟩ := h n {} .nothing (Nat.le_of_succ_le_succ hn) .nothing
    refine ⟨e, ?_, hsimp⟩
    rw [Mandoc.exprcomp, if_neg (List.cons_ne_nil b argv)]
    exact he

/-- The functions return the right trees for all arguments. -/
theorem returns_of_reads {nested : Bool} {argv rest : List Str} {as : ExprArgs}
    (h : Reads env nested argv as rest) :
    OrReturns env nested argv rest (as.level keptClauses) ∧
      AndReturns env nested argv rest (as.level keptClauses) := by
  -- By induction on how the arguments are read; one case for each kind of argument.
  induction h with
  | nil => exact returns_end (fun _ _ => rfl) fun _ _ => rfl
  | stop =>
    apply returns_end
    · intro m st
      rw [exprcompLoop, if_pos rfl, if_pos rfl]
    · intro n a
      rw [exprAnd, if_pos (.inl rfl)]
  | close _ ih =>
    apply returns_sep (g := .close) rfl _ _ ih.1
    · intro m st
      rw [exprcompLoop, if_pos rfl, if_neg Bool.false_ne_true]
    · intro n a
      rw [exprAnd, if_pos (.inl rfl)]
  | or _ ih =>
    apply returns_sep (g := .or) rfl _ _ ih.1
    · intro m st
      rw [exprcompLoop, if_neg (by decide +kernel), if_pos rfl]
    · intro n a
      rw [exprAnd, if_pos (.inr rfl)]
  | and _ ih => exact returns_and ih.2
  | group hinner _ ihinner ih =>
    -- A group: the expression inside is compiled first, and a closing parenthesis is skipped.
    refine returns_term (by decide +kernel) (by decide +kernel) ?_ (fun n hn => ?_) ih.2
    · rw [List.length_drop]
      exact Nat.le_trans (Nat.sub_le ..) hinner.length_le
    · obtain ⟨n, rfl⟩ := Nat.exists_eq_add_one.mpr (Nat.lt_of_lt_of_le (Nat.succ_pos _) hn)
      obtain ⟨e, he, hsimp⟩ := OrReturns.exprcomp hinner ihinner.1 (Nat.le_of_succ_le_succ hn)
      refine ⟨e, ?_, hsimp⟩
      unfold exprterm
      rw [if_pos rfl, he]
      rcases hinner.rest_eq with rfl | ⟨-, argv', rfl⟩
      · rfl
      · exact if_pos rfl
  | icase _ ih =>
    -- -i takes the argument that follows it.
    refine returns_term (by decide +kernel) (by decide +kernel) (Nat.le_succ _)
      (fun n hn => ?_) ih.2
    obtain ⟨n, rfl⟩ := Nat.exists_eq_add_one.mpr (Nat.lt_of_lt_of_le (Nat.succ_pos _) hn)
    refine ⟨_, ?_, simplify_compileTerm env false _⟩
    unfold exprterm
    rw [if_neg (by decide +kernel)]
    exact if_pos rfl
  | term ha hi _ ih =>
    obtain ⟨hclose, hor, hand, hopen⟩ := ha
    refine returns_term ⟨hclose, hor⟩ hand (Nat.le_refl _) (fun n hn => ?_) ih.2
    obtain ⟨n, rfl⟩ := Nat.exists_eq_add_one.mpr (Nat.lt_of_lt_of_le (Nat.succ_pos _) hn)
    exact ⟨_, exprterm_single hopen hi n, simplify_compileTerm env true _⟩

end

/-! ## §5 The value of `exprcomp` -/

theorem exprcompArgs_compiled (env : SearchEnv) (argv : List Str) :
    ∃ e, exprcompArgs env argv = .ok (e, []) ∧
      e.map Expr.simplify = (syntaxOf env argv).compiled := by
  have hreads := reads_syntaxOf env argv
  exact OrReturns.exprcomp hreads (returns_of_reads hreads).1 (Nat.le_refl _)

theorem termsOf_simplify (e : Option (Expr DbmMatch)) :
    termsOf (e.map Expr.simplify) = termsOf e := by
  cases e with
  | none => rfl
  | some e => exact e.terms_simplify

/-- There is always a tree unless there is no term that can be compiled. -/
theorem exprcompArgs_none_iff (env : SearchEnv) (argv : List Str) :
    exprcompArgs env argv = .ok (none, []) ↔ (syntaxOf env argv).terms = [] := by
  obtain ⟨e, he, hsimp⟩ := exprcompArgs_compiled env argv
  obtain ⟨⟨-, hsmaller⟩, -⟩ := sameGaps_level (syntaxOf env argv)
  have hnone : e = none ↔ (syntaxOf env argv).wanted = none := by
    rw [← @Option.map_eq_none_iff _ _ _ Expr.simplify, hsimp]
    exact (Smaller.treeOf hsmaller).1
  have hterms := (syntaxOf env argv).termsOf_wanted
  rw [he, Except.ok.injEq, Prod.mk.injEq, and_iff_left rfl, hnone, ← hterms]
  cases (syntaxOf env argv).wanted with
  | none => exact iff_of_true rfl rfl
  | some w =>
    refine iff_of_false nofun fun hnil => ?_
    exact absurd (congrArg List.length hnil) (Nat.ne_of_gt w.size_pos)

/-- The tree that `exprcomp` ought to return for some arguments: it has all terms that can be
    compiled, structured as the arguments say, and it is only missing if there are no terms. -/
structure ExprArgs.CompiledTo (as : ExprArgs) (e : Option (Expr DbmMatch)) : Prop where
  structured : e.map Expr.simplify = as.wanted
  complete : termsOf e = as.terms
  null : e = none → as.terms = []

/-- `exprcomp` returns the tree that is wanted if and only if, on every level of parentheses,
    everything that stands between two terms is harmless. -/
theorem exprcomp_structure_iff (env : SearchEnv) (argv : List Str) :
    (∃ e, exprcompArgs env argv = .ok (e, []) ∧ (syntaxOf env argv).CompiledTo e) ↔
      (syntaxOf env argv).Harmless := by
  obtain ⟨e, he, hsimp⟩ := exprcompArgs_compiled env argv
  rw [← ExprArgs.compiled_eq_wanted_iff, ← hsimp]
  constructor
  · rintro ⟨e', he', hcomp⟩
    obtain ⟨rfl, -⟩ := Prod.mk.inj (Except.ok.inj (he.symm.trans he'))
    exact hcomp.structured
  · intro hwanted
    have hcomplete : termsOf e = (syntaxOf env argv).terms := by
      rw [← termsOf_simplify, hwanted, ExprArgs.termsOf_wanted]
    refine ⟨e, he, hwanted, hcomplete, ?_⟩
    rintro rfl
    exact hcomplete.symm

/-- An environment in which only a left bracket is an invalid regular expression. -/
def bracketEnv : SearchEnv where
  argmode := .EXPR
  rewb := .bsd
  regcomp val _ := if val = bytesOf "[" then none else some fun s => decide (val <:+: s)

/-- The clause behind an empty one is lost in `a -o [ -o b`. -/
theorem exprcomp_loses_clause :
    ¬ ∃ e, exprcompArgs bracketEnv (["a", "-o", "[", "-o", "b"].map bytesOf) = .ok (e, []) ∧
      (syntaxOf bracketEnv (["a", "-o", "[", "-o", "b"].map bytesOf)).CompiledTo e := by
  rintro ⟨e, he, hcomp⟩
  have hcode : (exprcompArgs bracketEnv (["a", "-o", "[", "-o", "b"].map bytesOf)).map
      (fun p => (termsOf p.1).length) = .ok 1 := by decide +kernel
  have hwanted : (syntaxOf bracketEnv (["a", "-o", "[", "-o", "b"].map bytesOf)).terms.length =
      2 := by decide +kernel
  rw [he] at hcode
  rw [← hcomp.complete] at hwanted
  exact nomatch hwanted.symm.trans (Except.ok.inj hcode)

end Mandoc
