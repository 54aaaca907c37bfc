import Mandoc.Search.Exprcomp

/-!
# The structure of a search expression

What the expression tree for the arguments of a search ought to be, and when `exprcomp` returns it.

- `ExprArgs` are the arguments with their parentheses; `syntaxOf` reads them.
- `ExprArgs.wanted` is the tree for the terms that can be compiled: two terms next to each other are
  joined by `AND` if `-a` stands between them and `-o` does not, as if terms that cannot be
  compiled, parentheses without any other terms, and unmatched parentheses were absent.
- `HarmlessGap` says what may stand between two terms such that `exprcomp` returns that tree.
-/

namespace Mandoc

/-! ## §1 Trees without superfluous groups -/

section

variable {μ : Type}

mutual

/-- A group with one child is the same as the child. -/
def Expr.simplify : Expr μ → Expr μ
  | .term m bits => .term m bits
  | .or child =>
    match child.simplify with
    | .last e => e
    | es => .or es
  | .and child =>
    match child.simplify with
    | .last e => e
    | es => .and es

/-- Each of the siblings. -/
def Exprs.simplify : Exprs μ → Exprs μ
  | .last e => .last e.simplify
  | .link e next => .link e.simplify next.simplify

end

mutual

/-- The terms of a tree, from left to right. -/
def Expr.terms : Expr μ → List (Expr μ)
  | .term m bits => [.term m bits]
  | .or child => child.terms
  | .and child => child.terms

/-- The terms of all siblings. -/
def Exprs.terms : Exprs μ → List (Expr μ)
  | .last e => e.terms
  | .link e next => e.terms ++ next.terms

end

/-- The terms of a tree that may be `NULL`. -/
def termsOf (e : Option (Expr μ)) : List (Expr μ) := (e.map Expr.terms).getD []

/-- The number of terms. -/
def Expr.size (e : Expr μ) : Nat := e.terms.length

mutual

theorem Expr.size_pos : ∀ e : Expr μ, 0 < e.size
  | .term _ _ => Nat.one_pos
  | .or child => child.length_terms_pos
  | .and child => child.length_terms_pos

theorem Exprs.length_terms_pos : ∀ es : Exprs μ, 0 < es.terms.length
  | .last e => e.size_pos
  | .link e next => by
    rw [Exprs.terms, List.length_append]
    exact Nat.add_pos_left e.size_pos _

end

mutual

/-- Simplifying does not change the terms. -/
theorem Expr.terms_simplify : ∀ e : Expr μ, e.simplify.terms = e.terms
  | .term _ _ => rfl
  | .or child => by
    rw [Expr.simplify, Expr.terms, ← child.terms_simplify]
    split <;> simp [*, Expr.terms, Exprs.terms]
  | .and child => by
    rw [Expr.simplify, Expr.terms, ← child.terms_simplify]
    split <;> simp [*, Expr.terms, Exprs.terms]

theorem Exprs.terms_simplify : ∀ es : Exprs μ, es.simplify.terms = es.terms
  | .last e => e.terms_simplify
  | .link e next => by
    rw [Exprs.simplify, Exprs.terms, e.terms_simplify, next.terms_simplify, Exprs.terms]

end

/-- Some trees as one tree: a group is made for two or more of them. -/
def joinList (type : Exprs μ → Expr μ) : List (Expr μ) → Option (Expr μ)
  | [] => none
  | [e] => some e
  | e :: e' :: es => some (type (.link e (.ofList e' es)))

/-- A tree for some clauses. -/
def treeOf (clauses : List (List (Expr μ))) : Option (Expr μ) :=
  joinList .or (clauses.filterMap (joinList .and))

theorem simplify_ofList (e : Expr μ) (es : List (Expr μ)) :
    (Exprs.ofList e es).simplify = .ofList e.simplify (es.map Expr.simplify) := by
  induction es generalizing e with
  | nil => rfl
  | cons e' es ih => rw [Exprs.ofList, Exprs.simplify, ih]; rfl

theorem simplify_groupOf_and (es : List (Expr μ)) :
    (groupOf .and es).map Expr.simplify = joinList .and (es.map Expr.simplify) := by
  rcases es with _ | ⟨e, _ | ⟨e', es⟩⟩
  · rfl
  · rfl
  · simp [groupOf, joinList, Exprs.ofList, Expr.simplify, Exprs.simplify, simplify_ofList]

theorem simplify_groupOf_or (es : List (Expr μ)) :
    (groupOf .or es).map Expr.simplify = joinList .or (es.map Expr.simplify) := by
  rcases es with _ | ⟨e, _ | ⟨e', es⟩⟩
  · rfl
  · rfl
  · simp [groupOf, joinList, Exprs.ofList, Expr.simplify, Exprs.simplify, simplify_ofList]

end

/-! ## §2 Arguments and parentheses -/

/-- The arguments of a search, with their parentheses. -/
inductive ExprArgs where
  | nil
  /-- A term, unless it cannot be compiled. -/
  | term (e : Option (Expr DbmMatch)) (rest : ExprArgs)
  /-- Some arguments in parentheses; the right one may be missing at the end. -/
  | group (inner rest : ExprArgs)
  /-- The operator `-a`. -/
  | and (rest : ExprArgs)
  /-- The operator `-o`. -/
  | or (rest : ExprArgs)
  /-- A right parenthesis without a left one. -/
  | close (rest : ExprArgs)

/-- The terms that can be compiled. -/
def ExprArgs.terms : ExprArgs → List (Expr DbmMatch)
  | .nil => []
  | .term e rest => termsOf e ++ rest.terms
  | .group inner rest => inner.terms ++ rest.terms
  | .and rest | .or rest | .close rest => rest.terms

/-- Reading the arguments, up to a right parenthesis if there has been a left one. -/
inductive Reads (env : SearchEnv) : Bool → List Str → ExprArgs → List Str → Prop where
  | nil {nested : Bool} : Reads env nested [] .nil []
  | stop {argv : List Str} : Reads env true (bytesOf ")" :: argv) .nil (bytesOf ")" :: argv)
  | close {argv rest : List Str} {as : ExprArgs} (h : Reads env false argv as rest) :
      Reads env false (bytesOf ")" :: argv) (.close as) rest
  | or {nested : Bool} {argv rest : List Str} {as : ExprArgs} (h : Reads env nested argv as rest) :
      Reads env nested (bytesOf "-o" :: argv) (.or as) rest
  | and {nested : Bool} {argv rest : List Str} {as : ExprArgs} (h : Reads env nested argv as rest) :
      Reads env nested (bytesOf "-a" :: argv) (.and as) rest
  | group {nested : Bool} {argv argv' rest : List Str} {inner as : ExprArgs}
      (hinner : Reads env true argv inner argv') (h : Reads env nested (argv'.drop 1) as rest) :
      Reads env nested (bytesOf "(" :: argv) (.group inner as) rest
  /-- A term in which the case of letters does not matter. -/
  | icase {nested : Bool} {a : Str} {argv rest : List Str} {as : ExprArgs}
      (h : Reads env nested argv as rest) :
      Reads env nested (bytesOf "-i" :: a :: argv) (.term (compileTerm env false a) as) rest
  | term {nested : Bool} {a : Str} {argv rest : List Str} {as : ExprArgs}
      (ha : a ≠ bytesOf ")" ∧ a ≠ bytesOf "-o" ∧ a ≠ bytesOf "-a" ∧ a ≠ bytesOf "(")
      (hi : a = bytesOf "-i" → argv = []) (h : Reads env nested argv as rest) :
      Reads env nested (a :: argv) (.term (compileTerm env true a) as) rest

/-- Reading the arguments, with a bound on the depth of the calls. -/
def readArgs (env : SearchEnv) : Nat → Bool → List Str → ExprArgs × List Str
  | 0, _, argv => (.nil, argv)
  | _ + 1, _, [] => (.nil, [])
  | n + 1, nested, a :: argv =>
    if a = bytesOf ")" then
      if nested then (.nil, a :: argv) else (readArgs env n nested argv).map .close id
    else if a = bytesOf "-o" then (readArgs env n nested argv).map .or id
    else if a = bytesOf "-a" then (readArgs env n nested argv).map .and id
    else if a = bytesOf "(" then
      let (inner, argv) := readArgs env n true argv
      (readArgs env n nested (argv.drop 1)).map (.group inner) id
    else
      match argv with
      | [] => (.term (compileTerm env true a) .nil, [])
      | b :: rest =>
        if a = bytesOf "-i" then
          (readArgs env n nested rest).map (.term (compileTerm env false b)) id
        else (readArgs env n nested argv).map (.term (compileTerm env true a)) id

/-- The structure of all arguments. -/
def syntaxOf (env : SearchEnv) (argv : List Str) : ExprArgs :=
  (readArgs env (argv.length + 1) false argv).1

section

variable {env : SearchEnv}

/-- Reading does not add arguments. -/
theorem Reads.length_le {nested : Bool} {argv rest : List Str} {as : ExprArgs}
    (h : Reads env nested argv as rest) : rest.length ≤ argv.length := by
  induction h with
  | nil => exact Nat.le_refl _
  | stop => exact Nat.le_refl _
  | close _ ih => exact Nat.le_succ_of_le ih
  | or _ ih => exact Nat.le_succ_of_le ih
  | and _ ih => exact Nat.le_succ_of_le ih
  | group _ _ ihinner ih =>
    rw [List.length_drop] at ih
    rw [List.length_cons]
    omega
  | icase _ ih => exact Nat.le_succ_of_le (Nat.le_succ_of_le ih)
  | term _ _ _ ih => exact Nat.le_succ_of_le ih

/-- What is left starts with the right parenthesis. -/
theorem Reads.rest_eq {nested : Bool} {argv rest : List Str} {as : ExprArgs}
    (h : Reads env nested argv as rest) :
    rest = [] ∨ nested = true ∧ ∃ argv', rest = bytesOf ")" :: argv' := by
  induction h with
  | nil => exact .inl rfl
  | stop => exact .inr ⟨rfl, _, rfl⟩
  | close _ ih => exact ih
  | or _ ih => exact ih
  | and _ ih => exact ih
  | group _ _ _ ih => exact ih
  | icase _ ih => exact ih
  | term _ _ _ ih => exact ih

/-- The function reads the arguments. -/
theorem reads_readArgs {n : Nat} (nested : Bool) {argv : List Str} (hn : argv.length < n) :
    Reads env nested argv (readArgs env n nested argv).1 (readArgs env n nested argv).2 := by
  induction n generalizing nested argv with
  | zero => exact absurd hn (Nat.not_lt_zero _)
  | succ n ih =>
    cases argv with
    | nil => exact .nil
    | cons a argv =>
      rw [List.length_cons] at hn
      have hlt : argv.length < n := Nat.lt_of_succ_lt_succ hn
      unfold readArgs
      -- The cases are the branches of the reader.
      split_ifs with hclose hnested hor hand hopen hi
      · subst hclose hnested
        exact .stop
      · rw [Bool.not_eq_true] at hnested
        subst hclose hnested
        exact .close (ih false hlt)
      · subst hor
        exact .or (ih nested hlt)
      · subst hand
        exact .and (ih nested hlt)
      · subst hopen
        -- The group leaves fewer arguments, and the closing parenthesis is dropped.
        have hinner := ih true hlt
        have hle := hinner.length_le
        have hrest : ((readArgs env n true argv).2.drop 1).length < n := by
          rw [List.length_drop]
          omega
        exact .group hinner (ih nested hrest)
      · cases argv with
        | nil => exact .term ⟨hclose, hor, hand, hopen⟩ (fun _ => rfl) .nil
        | cons b rest =>
          subst hi
          exact .icase (ih nested (Nat.lt_of_succ_lt hlt))
      · cases argv with
        | nil => exact .term ⟨hclose, hor, hand, hopen⟩ (fun _ => rfl) .nil
        | cons b rest =>
          exact .term ⟨hclose, hor, hand, hopen⟩ (fun heq => absurd heq hi) (ih nested hlt)

/-- All arguments are read. -/
theorem reads_syntaxOf (env : SearchEnv) (argv : List Str) :
    Reads env false argv (syntaxOf env argv) [] := by
  have h := @reads_readArgs env _ false _ (Nat.lt_succ_self argv.length)
  rcases h.rest_eq with hnil | ⟨hfalse, -⟩
  · rw [hnil] at h
    exact h
  · cases hfalse

end

/-! ## §3 The tree that is wanted -/

/-- What can stand between two terms that can be compiled. -/
inductive Gap where
  | and | or | close
  /-- A term that cannot be compiled, or parentheses without a term that can. -/
  | invalid
deriving DecidableEq, Repr

/-- A level of parentheses: what stands in front of the first term that can be compiled, and the
    terms, each of them with what stands behind it. -/
abbrev Level := List Gap × List (Expr DbmMatch × List Gap)

namespace Level

/-- Something that is not a term in front of a level. -/
def push (g : Gap) (l : Level) : Level := (g :: l.1, l.2)

/-- A term in front of a level, if it can be compiled. -/
def add : Option (Expr DbmMatch) → Level → Level
  | none, l => l.push .invalid
  | some e, l => ([], (e, l.1) :: l.2)

end Level

/-- The arguments as a level, where parentheses are compiled to trees in some way. -/
def ExprArgs.level (clauses : List (Expr DbmMatch × List Gap) → List (List (Expr DbmMatch))) :
    ExprArgs → Level
  | .nil => ([], [])
  | .term e rest => (rest.level clauses).add e
  | .group inner rest => (rest.level clauses).add (treeOf (clauses (inner.level clauses).2))
  | .and rest => (rest.level clauses).push .and
  | .or rest => (rest.level clauses).push .or
  | .close rest => (rest.level clauses).push .close

/-- Another term at the beginning of the first clause. -/
def consFirst {α : Type} (e : α) : List (List α) → List (List α)
  | [] => [[e]]
  | c :: cs => (e :: c) :: cs

/-- The clauses that are wanted: terms are in the same clause if `-a` stands between them and `-o`
    does not. -/
def wantedClauses : List (Expr DbmMatch × List Gap) → List (List (Expr DbmMatch))
  | [] => []
  | (e, w) :: l =>
    if .and ∈ w ∧ .or ∉ w then consFirst e (wantedClauses l) else [e] :: wantedClauses l

/-- The tree that is wanted. -/
def ExprArgs.wanted (as : ExprArgs) : Option (Expr DbmMatch) :=
  treeOf (wantedClauses (as.level wantedClauses).2)

/-! ## §4 What may stand between two terms -/

/-- Only operators `-a` and terms that cannot be compiled, each of which directly follows `-a`.  The
    flag says that `-a` stands in front. -/
def Chained : Bool → List Gap → Prop
  | _, [] => True
  | _, .and :: w => Chained true w
  | b, .invalid :: w => b = true ∧ Chained false w
  | _, _ :: _ => False

/-- Terms that cannot be compiled stand between two operators `-a`. -/
def Connected (w : List Gap) : Prop := Chained false w ∧ w.getLast? = some .and

/-- Clauses end at `-o`, and at a parenthesis without a left one. -/
def Gap.isSep : Gap → Bool
  | .or | .close => true
  | .and | .invalid => false

/-- Every term that cannot be compiled directly follows `-a` up to the first place where a clause
    ends, and nothing is between there and the last such place. -/
def BrokenOnce (b : Bool) (w : List Gap) : Prop :=
  ∃ a s t, w = a ++ (s ++ t) ∧ Chained b a ∧ s ≠ [] ∧ (∀ g ∈ s, g.isSep = true) ∧
    ∀ g ∈ t, g.isSep = false

/-- No clause ends, or every clause that ends contains one of the terms. -/
def Unbroken (w : List Gap) : Prop := (∀ g ∈ w, g.isSep = false) ∨ BrokenOnce false w

/-- What stands between two terms does not mislead `exprcomp`: either it joins them by `-a`, or it
    does not contain `-a` without `-o` and no clause in it gets lost. -/
def HarmlessGap (w : List Gap) : Prop :=
  Connected w ∨ (.or ∈ w ∨ .and ∉ w) ∧ Unbroken w

/-- What stands between the terms of a level is harmless. -/
def HarmlessLevel : List (Expr DbmMatch × List Gap) → Prop
  | [] | [_] => True
  | (_, w) :: x :: l => HarmlessGap w ∧ HarmlessLevel (x :: l)

/-- The same in all parentheses. -/
def ExprArgs.HarmlessGroups : ExprArgs → Prop
  | .nil => True
  | .term _ rest | .and rest | .or rest | .close rest => rest.HarmlessGroups
  | .group inner rest =>
    (HarmlessLevel (inner.level wantedClauses).2 ∧ inner.HarmlessGroups) ∧ rest.HarmlessGroups

/-- On every level of parentheses, what stands between two terms is harmless. -/
def ExprArgs.Harmless (as : ExprArgs) : Prop :=
  HarmlessLevel (as.level wantedClauses).2 ∧ as.HarmlessGroups

/-! ## §5 Reading a gap -/

/-- Where the functions are while they read what stands behind a term. -/
inductive Phase where
  /-- In the clause of the term: is another term needed? -/
  | clause (needterm : Bool)
  /-- In another clause, which is still empty. -/
  | pending
  /-- Between two clauses. -/
  | between
  /-- Behind an empty clause. -/
  | lost
deriving DecidableEq, Repr

/-- One more argument. -/
def Phase.next : Phase → Gap → Phase
  | .clause _, .and => .clause true
  | .clause true, .invalid => .clause false
  | .clause false, .invalid => .pending
  | .clause _, _ => .between
  | .pending, g => if g.isSep then .lost else .pending
  | .between, g => if g.isSep then .between else .pending
  | .lost, _ => .lost

/-- The phase behind a gap. -/
def Phase.after (w : List Gap) : Phase := w.foldl Phase.next (.clause false)

theorem foldl_next_lost (w : List Gap) : w.foldl Phase.next .lost = .lost := by
  induction w with
  | nil => rfl
  | cons g w ih => exact ih

/-- Behind the beginning of another clause, everything depends on whether that clause ends. -/
theorem foldl_next_pending (w : List Gap) :
    w.foldl Phase.next .pending = if ∀ g ∈ w, g.isSep = false then .pending else .lost := by
  induction w with
  | nil => rfl
  | cons g w ih =>
    rw [List.foldl_cons, Phase.next]
    cases hg : g.isSep with
    | false => simp [hg, ih]
    | true => simp [hg, foldl_next_lost]

/-- Between two clauses, ends of clauses may follow, and then the beginning of one clause. -/
theorem foldl_next_between (w : List Gap) :
    w.foldl Phase.next .between = .lost ↔
      ¬ ∃ s t, w = s ++ t ∧ (∀ g ∈ s, g.isSep = true) ∧ ∀ g ∈ t, g.isSep = false := by
  -- By induction on the sequence; whether a separator comes first decides.
  induction w with
  | nil => simp
  | cons g w ih =>
    rw [List.foldl_cons, Phase.next]
    cases hg : g.isSep with
    | true =>
      rw [if_pos rfl, ih, not_iff_not]
      constructor
      · rintro ⟨s, t, rfl, hs, ht⟩
        exact ⟨g :: s, t, rfl, List.forall_mem_cons.mpr ⟨hg, hs⟩, ht⟩
      · rintro ⟨s, t, heq, hs, ht⟩
        cases s with
        | nil =>
          subst heq
          exact absurd (ht g (List.mem_cons_self ..)) (by simp [hg])
        | cons g' s =>
          obtain ⟨rfl, rfl⟩ := List.cons.inj heq
          exact ⟨s, t, rfl, fun x hx => hs x (List.mem_cons_of_mem _ hx), ht⟩
    | false =>
      -- Behind the first other argument, a separator loses a clause.
      rw [if_neg (by simp), foldl_next_pending]
      constructor
      · intro hlost hex
        obtain ⟨s, t, heq, hs, ht⟩ := hex
        cases s with
        | nil =>
          subst heq
          rw [if_pos fun x hx => ht x (List.mem_cons_of_mem _ hx)] at hlost
          cases hlost
        | cons g' s =>
          obtain ⟨rfl, -⟩ := List.cons.inj heq
          exact absurd (hs g (List.mem_cons_self ..)) (by simp [hg])
      · intro hno
        rw [if_neg]
        exact fun hall => hno ⟨[], g :: w, rfl, fun x hx => absurd hx List.not_mem_nil,
          List.forall_mem_cons.mpr ⟨hg, hall⟩⟩

/-- In the clause of the term, as long as every term that cannot be compiled follows `-a`. -/
theorem foldl_next_chained {b : Bool} {w : List Gap} (h : Chained b w) :
    ∃ b', w.foldl Phase.next (.clause b) = .clause b' ∧
      (b' = true ↔ w = [] ∧ b = true ∨ w.getLast? = some .and) := by
  induction w generalizing b with
  | nil => exact ⟨b, rfl, by simp⟩
  | cons g w ih =>
    have hlast : w ≠ [] → (g :: w).getLast? = w.getLast? := by
      intro hw
      obtain ⟨x, xs, rfl⟩ := List.exists_cons_of_ne_nil hw
      rw [List.getLast?_cons_cons]
    cases g with
    | and =>
      obtain ⟨b', hfold, hb'⟩ := @ih true h
      refine ⟨b', hfold, hb'.trans ?_⟩
      cases w with
      | nil => simp
      | cons x xs => simp [hlast]
    | invalid =>
      obtain ⟨rfl, hrest⟩ := h
      obtain ⟨b', hfold, hb'⟩ := ih hrest
      refine ⟨b', hfold, hb'.trans ?_⟩
      cases w with
      | nil => simp
      | cons x xs => simp [hlast]
    | or => exact h.elim
    | close => exact h.elim

/-- The clause of the term is not continued once it has been left. -/
theorem foldl_next_left {p : Phase} (hp : ∀ b, p ≠ .clause b) (w : List Gap) (b : Bool) :
    w.foldl Phase.next p ≠ .clause b := by
  induction w generalizing p with
  | nil => exact hp b
  | cons g w ih =>
    apply ih
    intro b'
    cases p with
    | clause b => exact absurd rfl (hp b)
    | pending => cases hg : g.isSep <;> simp [Phase.next, hg]
    | between => cases hg : g.isSep <;> simp [Phase.next, hg]
    | lost => exact fun h => by cases h

/-- If the clause of the term is not left, every term that cannot be compiled follows `-a`. -/
theorem chained_of_foldl_next {b b' : Bool} {w : List Gap}
    (h : w.foldl Phase.next (.clause b) = .clause b') : Chained b w := by
  induction w generalizing b with
  | nil => trivial
  | cons g w ih =>
    rw [List.foldl_cons] at h
    cases g with
    | and => exact ih h
    | invalid =>
      cases b with
      | true => exact ⟨rfl, ih h⟩
      | false => exact absurd h (foldl_next_left (fun _ heq => by cases heq) w b')
    | or =>
      cases b <;> exact absurd h (foldl_next_left (fun _ heq => by cases heq) w b')
    | close =>
      cases b <;> exact absurd h (foldl_next_left (fun _ heq => by cases heq) w b')

/-- Two terms are joined if what stands between them connects them. -/
theorem after_eq_clause_iff {w : List Gap} : Phase.after w = .clause true ↔ Connected w := by
  constructor
  · intro h
    have hchain := chained_of_foldl_next h
    obtain ⟨b', hfold, hb'⟩ := foldl_next_chained hchain
    obtain rfl : b' = true := Phase.clause.inj (hfold.symm.trans h)
    exact ⟨hchain, (hb'.mp rfl).resolve_left fun hand => by cases hand.2⟩
  · rintro ⟨hchain, hlast⟩
    obtain ⟨b', hfold, hb'⟩ := foldl_next_chained hchain
    rw [Phase.after, hfold, hb'.mpr (.inr hlast)]

/-- An argument that does not end a clause belongs to the first part. -/
theorem brokenOnce_cons {b : Bool} {g : Gap} {w : List Gap} (hg : g.isSep = false) :
    BrokenOnce b (g :: w) ↔ ∃ a s t, w = a ++ (s ++ t) ∧ Chained b (g :: a) ∧ s ≠ [] ∧
      (∀ g ∈ s, g.isSep = true) ∧ ∀ g ∈ t, g.isSep = false := by
  constructor
  · rintro ⟨a, s, t, heq, ha, hs, hsep, ht⟩
    cases a with
    | nil =>
      obtain ⟨x, xs, rfl⟩ := List.exists_cons_of_ne_nil hs
      obtain ⟨rfl, -⟩ := List.cons.inj heq
      exact absurd (hsep g (List.mem_cons_self ..)) (by simp [hg])
    | cons x a =>
      obtain ⟨rfl, rfl⟩ := List.cons.inj heq
      exact ⟨a, s, t, rfl, ha, hs, hsep, ht⟩
  · rintro ⟨a, s, t, rfl, ha, hs, hsep, ht⟩
    exact ⟨g :: a, s, t, rfl, ha, hs, hsep, ht⟩

/-- The first end of a clause. -/
theorem brokenOnce_sep {b : Bool} {g : Gap} {w : List Gap} (hg : g.isSep = true) :
    BrokenOnce b (g :: w) ↔
      ∃ s t, w = s ++ t ∧ (∀ g ∈ s, g.isSep = true) ∧ ∀ g ∈ t, g.isSep = false := by
  constructor
  · rintro ⟨a, s, t, heq, ha, hs, hsep, ht⟩
    cases a with
    | nil =>
      obtain ⟨x, xs, rfl⟩ := List.exists_cons_of_ne_nil hs
      obtain ⟨-, rfl⟩ := List.cons.inj heq
      exact ⟨xs, t, rfl, fun y hy => hsep y (List.mem_cons_of_mem x hy), ht⟩
    | cons x a =>
      obtain ⟨rfl, -⟩ := List.cons.inj heq
      cases g with
      | and => cases hg
      | invalid => cases hg
      | or => exact ha.elim
      | close => exact ha.elim
  · rintro ⟨s, t, rfl, hsep, ht⟩
    exact ⟨[], g :: s, t, rfl, trivial, List.cons_ne_nil g s,
      List.forall_mem_cons.mpr ⟨hg, hsep⟩, ht⟩

/-- A clause is lost if it is empty although it has been begun. -/
theorem foldl_next_eq_lost_iff {b : Bool} {w : List Gap} :
    w.foldl Phase.next (.clause b) = .lost ↔
      ¬ ((∀ g ∈ w, g.isSep = false) ∨ BrokenOnce b w) := by
  -- By induction on the sequence; in each case, one argument moves to the next phase.
  induction w generalizing b with
  | nil => simp
  | cons g w ih =>
    rw [List.foldl_cons]
    cases hg : g.isSep with
    | true =>
      have hnext : Phase.next (.clause b) g = .between := by
        cases g with
        | and => cases hg
        | invalid => cases hg
        | or => cases b <;> rfl
        | close => cases b <;> rfl
      rw [hnext, foldl_next_between, brokenOnce_sep hg, or_iff_right]
      exact fun hall => by simp [hall g (List.mem_cons_self ..)] at hg
    | false =>
      -- An argument that is no separator keeps the phase, unless it ends a clause without a term.
      rw [brokenOnce_cons hg, List.forall_mem_cons, and_iff_right hg]
      cases g with
      | and => exact ih
      | invalid =>
        cases b with
        | true =>
          refine ih.trans (not_congr (or_congr_right ?_))
          exact exists_congr fun a => exists_congr fun s => exists_congr fun t =>
            and_congr_right fun _ => and_congr_left fun _ => (and_iff_right rfl).symm
        | false =>
          rw [Phase.next, foldl_next_pending, or_iff_left]
          · cases Classical.em (∀ g ∈ w, g.isSep = false) with
            | inl hall => simp [if_pos hall]; exact hall
            | inr hsome => simp [if_neg hsome]; simpa using hsome
          · rintro ⟨a, s, t, -, ha, -⟩
            cases ha.1
      | or => cases hg
      | close => cases hg

theorem after_eq_lost_iff {w : List Gap} : Phase.after w = .lost ↔ ¬ Unbroken w :=
  foldl_next_eq_lost_iff

/-- Terms are only joined if that is wanted. -/
theorem Connected.wanted {w : List Gap} (h : Connected w) : .and ∈ w ∧ .or ∉ w := by
  refine ⟨List.mem_of_getLast? h.2, ?_⟩
  have hno : ∀ (b : Bool) (w : List Gap), Chained b w → .or ∉ w := by
    intro b w hw
    induction w generalizing b with
    | nil => exact List.not_mem_nil
    | cons g w ih =>
      cases g with
      | and => exact fun hmem => ih true hw ((List.mem_cons.mp hmem).resolve_left nofun)
      | invalid => exact fun hmem => ih false hw.2 ((List.mem_cons.mp hmem).resolve_left nofun)
      | or => exact hw.elim
      | close => exact hw.elim
  exact hno false w h.1

/-- What a harmless gap does: nothing is lost, and the terms are joined if that is wanted. -/
theorem harmlessGap_iff {w : List Gap} :
    HarmlessGap w ↔ Phase.after w ≠ .lost ∧
      (.and ∈ w ∧ .or ∉ w → Phase.after w = .clause true) := by
  rw [HarmlessGap, ne_eq, after_eq_lost_iff, not_not, after_eq_clause_iff]
  constructor
  · rintro (hconn | ⟨hops, hunb⟩)
    · refine ⟨?_, fun _ => hconn⟩
      rw [← not_not (a := Unbroken w), ← after_eq_lost_iff, after_eq_clause_iff.mpr hconn]
      exact nofun
    · refine ⟨hunb, fun hand => ?_⟩
      exact (hops.elim hand.2 fun hno => hno hand.1).elim
  · rintro ⟨hunb, hjoin⟩
    cases Classical.em (Connected w) with
    | inl hconn => exact .inl hconn
    | inr hnot =>
      refine .inr ⟨?_, hunb⟩
      cases Classical.em (.or ∈ w) with
      | inl hor => exact .inl hor
      | inr hor => exact .inr fun hand => hnot (hjoin ⟨hand, hor⟩)

/-! ## §6 The clauses that the functions return -/

/-- The clauses that `exprcomp` returns: nothing behind a clause that is lost. -/
def keptClauses : List (Expr DbmMatch × List Gap) → List (List (Expr DbmMatch))
  | [] => []
  | (e, w) :: l =>
    match Phase.after w with
    | .clause true => consFirst e (keptClauses l)
    | .lost => [[e]]
    | _ => [e] :: keptClauses l

/-- No clause is empty. -/
theorem consFirst_ne_nil {α : Type} {e : α} {cs : List (List α)} (h : ∀ c ∈ cs, c ≠ []) :
    ∀ c ∈ consFirst e cs, c ≠ [] := by
  intro c hc
  cases cs with
  | nil =>
    obtain rfl := List.mem_singleton.mp hc
    exact List.cons_ne_nil e []
  | cons c' cs =>
    rcases List.mem_cons.mp hc with rfl | hmem
    · exact List.cons_ne_nil e c'
    · exact h c (List.mem_cons_of_mem c' hmem)

theorem wantedClauses_ne_nil (l : List (Expr DbmMatch × List Gap)) :
    ∀ c ∈ wantedClauses l, c ≠ [] := by
  induction l with
  | nil => exact fun _ h => absurd h List.not_mem_nil
  | cons x l ih =>
    rw [wantedClauses]
    split
    · exact consFirst_ne_nil ih
    · exact List.forall_mem_cons.mpr ⟨List.cons_ne_nil _ _, ih⟩

theorem keptClauses_ne_nil (l : List (Expr DbmMatch × List Gap)) :
    ∀ c ∈ keptClauses l, c ≠ [] := by
  induction l with
  | nil => exact fun _ h => absurd h List.not_mem_nil
  | cons x l ih =>
    rw [keptClauses]
    split
    · exact consFirst_ne_nil ih
    · intro c hc
      obtain rfl := List.mem_singleton.mp hc
      exact List.cons_ne_nil _ _
    · exact List.forall_mem_cons.mpr ⟨List.cons_ne_nil _ _, ih⟩

theorem flatten_consFirst {α : Type} (e : α) (cs : List (List α)) :
    (consFirst e cs).flatten = e :: cs.flatten := by
  cases cs <;> rfl

theorem flatten_wantedClauses (l : List (Expr DbmMatch × List Gap)) :
    (wantedClauses l).flatten = l.map Prod.fst := by
  induction l with
  | nil => rfl
  | cons x l ih =>
    rw [wantedClauses]
    split
    · rw [flatten_consFirst, ih]
      rfl
    · rw [List.flatten_cons, ih]
      rfl

/-- The number of terms in some trees. -/
def totalSize (es : List (Expr DbmMatch)) : Nat := (es.flatMap Expr.terms).length

theorem totalSize_cons (e : Expr DbmMatch) (es : List (Expr DbmMatch)) :
    totalSize (e :: es) = e.size + totalSize es := by
  rw [totalSize, List.flatMap_cons, List.length_append]
  rfl

theorem terms_ofList (e : Expr DbmMatch) (es : List (Expr DbmMatch)) :
    (Exprs.ofList e es).terms = (e :: es).flatMap Expr.terms := by
  induction es generalizing e with
  | nil => exact (List.append_nil _).symm
  | cons e' es ih =>
    rw [Exprs.ofList, Exprs.terms, ih]
    rfl

/-- Joining trees preserves their terms. -/
theorem termsOf_joinList {type : Exprs DbmMatch → Expr DbmMatch}
    (htype : ∀ es, (type es).terms = es.terms) (es : List (Expr DbmMatch)) :
    termsOf (joinList type es) = es.flatMap Expr.terms := by
  rcases es with _ | ⟨e, _ | ⟨e', es⟩⟩
  · rfl
  · exact (List.append_nil _).symm
  · rw [joinList, termsOf, Option.map_some, Option.getD_some, htype, Exprs.terms, terms_ofList]
    rfl

/-- The clauses as trees. -/
theorem flatMap_terms_clauses (cs : List (List (Expr DbmMatch))) :
    (cs.filterMap (joinList .and)).flatMap Expr.terms = cs.flatten.flatMap Expr.terms := by
  induction cs with
  | nil => rfl
  | cons c cs ih =>
    have hjoin := @termsOf_joinList Expr.and (fun _ => rfl) c
    rw [List.flatten_cons, List.flatMap_append, ← ih, ← hjoin]
    cases h : joinList Expr.and c with
    | none => rw [List.filterMap_cons_none h]; rfl
    | some e => rw [List.filterMap_cons_some h]; rfl

theorem termsOf_treeOf (cs : List (List (Expr DbmMatch))) :
    termsOf (treeOf cs) = cs.flatten.flatMap Expr.terms := by
  rw [treeOf, termsOf_joinList fun _ => rfl, flatMap_terms_clauses]

/-- A level contains the terms of the arguments. -/
theorem terms_level (as : ExprArgs) :
    ((as.level wantedClauses).2.map Prod.fst).flatMap Expr.terms = as.terms := by
  have hadd : ∀ (l : Level) (e : Option (Expr DbmMatch)),
      ((l.add e).2.map Prod.fst).flatMap Expr.terms =
        termsOf e ++ (l.2.map Prod.fst).flatMap Expr.terms := by
    intro l e
    cases e <;> rfl
  induction as with
  | nil => rfl
  | term e rest ih => rw [ExprArgs.level, hadd, ih, ExprArgs.terms]
  | group inner rest ihinner ih =>
    rw [ExprArgs.level, hadd, ih, termsOf_treeOf, flatten_wantedClauses, ihinner, ExprArgs.terms]
  | and rest ih => exact ih
  | or rest ih => exact ih
  | close rest ih => exact ih

theorem ExprArgs.termsOf_wanted (as : ExprArgs) : termsOf as.wanted = as.terms := by
  rw [ExprArgs.wanted, termsOf_treeOf, flatten_wantedClauses, terms_level]

/-! ## §7 Comparing the clauses -/

/-- Two versions of a level with the same gaps, the first of which may have lost some terms in
    parentheses. -/
abbrev Smaller : List (Expr DbmMatch × List Gap) → List (Expr DbmMatch × List Gap) → Prop :=
  List.Forall₂ fun x y => x.2 = y.2 ∧ x.1.size ≤ y.1.size

/-- Only the terms can be different. -/
theorem Smaller.eq_of_map_fst {lc li : List (Expr DbmMatch × List Gap)} (h : Smaller lc li)
    (hfst : lc.map Prod.fst = li.map Prod.fst) : lc = li := by
  induction h with
  | nil => rfl
  | cons hxy hrest ih =>
    obtain ⟨hhead, htail⟩ := List.cons.inj hfst
    rw [ih htail, Prod.ext hhead hxy.1]

/-- No clause of a level gets lost. -/
def NoneLost : List (Expr DbmMatch × List Gap) → Prop
  | [] | [_] => True
  | (_, w) :: x :: l => Phase.after w ≠ .lost ∧ NoneLost (x :: l)

/-- There are no more terms than there should be. -/
theorem totalSize_keptClauses_le {lc li : List (Expr DbmMatch × List Gap)} (h : Smaller lc li) :
    totalSize (keptClauses lc).flatten ≤ totalSize (li.map Prod.fst) ∧
      (totalSize (keptClauses lc).flatten = totalSize (li.map Prod.fst) → NoneLost lc) := by
  induction h with
  | nil => exact ⟨Nat.le_refl _, fun _ => trivial⟩
  | @cons x y lc li hxy hrest ih =>
    obtain ⟨e, w⟩ := x
    obtain ⟨e', w'⟩ := y
    obtain ⟨rfl, hle⟩ : w = w' ∧ e.size ≤ e'.size := hxy
    obtain ⟨ihle, iheq⟩ := ih
    -- The first term and the others, if nothing is lost.
    have hkept : Phase.after w ≠ .lost →
        (keptClauses ((e, w) :: lc)).flatten = e :: (keptClauses lc).flatten := by
      intro hlost
      rw [keptClauses]
      split
      · exact flatten_consFirst e _
      · exact absurd ‹_› hlost
      · rfl
    rw [List.map_cons, totalSize_cons]
    change _ ≤ e'.size + _ ∧ (_ = e'.size + _ → _)
    cases decEq (Phase.after w) .lost with
    | isFalse hlost =>
      rw [hkept hlost, totalSize_cons]
      refine ⟨Nat.add_le_add hle ihle, fun heq => ?_⟩
      have hnone := iheq (by omega)
      cases lc with
      | nil => trivial
      | cons x lc => exact ⟨hlost, hnone⟩
    | isTrue hlost =>
      have hone : (keptClauses ((e, w) :: lc)).flatten = [e] := by
        rw [keptClauses, hlost]
        rfl
      rw [hone, totalSize_cons]
      refine ⟨Nat.add_le_add hle (Nat.zero_le _), fun heq => ?_⟩
      cases hrest with
      | nil => trivial
      | @cons x y lc li hxy hrest =>
        -- The terms that are lost are missing.
        have hpos := y.1.size_pos
        rw [List.map_cons, totalSize_cons] at heq
        have hzero : totalSize ([] : List (Expr DbmMatch)) = 0 := rfl
        omega

/-- If nothing is lost, all terms are there. -/
theorem flatten_keptClauses {l : List (Expr DbmMatch × List Gap)} (h : NoneLost l) :
    (keptClauses l).flatten = l.map Prod.fst := by
  induction l with
  | nil => rfl
  | cons x l ih =>
    obtain ⟨e, w⟩ := x
    cases l with
    | nil =>
      rw [keptClauses]
      split <;> rfl
    | cons y l =>
      obtain ⟨hlost, hrest⟩ := h
      rw [keptClauses]
      split
      · rw [flatten_consFirst, ih hrest]
        rfl
      · exact absurd ‹_› hlost
      · rw [List.flatten_cons, ih hrest]
        rfl

theorem length_consFirst {α : Type} (e : α) {cs : List (List α)} (h : cs ≠ []) :
    (consFirst e cs).length = cs.length := by
  obtain ⟨c, cs, rfl⟩ := List.exists_cons_of_ne_nil h
  rfl

theorem wantedClauses_cons_ne_nil (x : Expr DbmMatch × List Gap)
    (l : List (Expr DbmMatch × List Gap)) : wantedClauses (x :: l) ≠ [] := by
  intro hnil
  have hflat := flatten_wantedClauses (x :: l)
  rw [hnil] at hflat
  cases hflat

theorem keptClauses_cons_ne_nil (x : Expr DbmMatch × List Gap)
    (l : List (Expr DbmMatch × List Gap)) : keptClauses (x :: l) ≠ [] := by
  rw [keptClauses]
  split
  · cases keptClauses l <;> exact List.cons_ne_nil _ _
  · exact List.cons_ne_nil _ _
  · exact List.cons_ne_nil _ _

/-- If nothing is lost, there are at least as many clauses as there should be, and exactly as
    many if all terms are joined that should be. -/
theorem length_keptClauses {lc li : List (Expr DbmMatch × List Gap)} (h : Smaller lc li)
    (hnone : NoneLost lc) :
    (wantedClauses li).length ≤ (keptClauses lc).length ∧
      ((wantedClauses li).length = (keptClauses lc).length → HarmlessLevel li) := by
  induction h with
  | nil => exact ⟨Nat.le_refl _, fun _ => trivial⟩
  | @cons x y lc li hxy hrest ih =>
    obtain ⟨e, w⟩ := x
    obtain ⟨e', w'⟩ := y
    obtain ⟨rfl, -⟩ : w = w' ∧ e.size ≤ e'.size := hxy
    cases hrest with
    | nil =>
      have hwanted : (wantedClauses [(e', w)]).length = 1 := by
        rw [wantedClauses]
        split <;> rfl
      have hkept : (keptClauses [(e, w)]).length = 1 := by
        rw [keptClauses]
        split <;> rfl
      rw [hwanted, hkept]
      exact ⟨Nat.le_refl 1, fun _ => trivial⟩
    | @cons x y lc li hxy hrest =>
      obtain ⟨hlost, hnone⟩ := hnone
      obtain ⟨ihle, iheq⟩ := ih hnone
      have hw := wantedClauses_cons_ne_nil y li
      have hk := keptClauses_cons_ne_nil x lc
      have hharmless : ∀ hjoin : (.and ∈ w ∧ .or ∉ w → Phase.after w = .clause true),
          (wantedClauses (y :: li)).length = (keptClauses (x :: lc)).length →
          HarmlessLevel ((e', w) :: y :: li) :=
        fun hjoin heq => ⟨harmlessGap_iff.mpr ⟨hlost, hjoin⟩, iheq heq⟩
      -- The terms are not joined: that is right, or there is one clause too many.
      have hmore : Phase.after w ≠ .clause true → ∀ cs : List (List (Expr DbmMatch)),
          cs = [e] :: keptClauses (x :: lc) →
          (wantedClauses ((e', w) :: y :: li)).length ≤ cs.length ∧
            ((wantedClauses ((e', w) :: y :: li)).length = cs.length →
              HarmlessLevel ((e', w) :: y :: li)) := by
        rintro hphase _ rfl
        rw [wantedClauses, List.length_cons]
        split
        · rw [length_consFirst e' hw]
          exact ⟨Nat.le_succ_of_le ihle, fun heq =>
            absurd heq (Nat.ne_of_lt (Nat.lt_succ_of_le ihle))⟩
        · rw [List.length_cons]
          exact ⟨Nat.succ_le_succ ihle, fun heq =>
            hharmless (fun hand => absurd hand ‹_›) (Nat.succ.inj heq)⟩
      rw [keptClauses]
      cases hphase : Phase.after w with
      | clause b =>
        cases b with
        | true =>
          have hand := (after_eq_clause_iff.mp hphase).wanted
          rw [wantedClauses, if_pos hand, length_consFirst e' hw]
          simp only [length_consFirst e hk]
          exact ⟨ihle, hharmless fun _ => hphase⟩
        | false => exact hmore (by simp [hphase]) _ rfl
      | pending => exact hmore (by simp [hphase]) _ rfl
      | between => exact hmore (by simp [hphase]) _ rfl
      | lost => exact absurd hphase hlost

/-! ## §8 When the trees are the same -/

theorem keptClauses_singleton (e : Expr DbmMatch) (w : List Gap) :
    keptClauses [(e, w)] = [[e]] := by
  rw [keptClauses]
  split <;> rfl

theorem wantedClauses_singleton (e : Expr DbmMatch) (w : List Gap) :
    wantedClauses [(e, w)] = [[e]] := by
  rw [wantedClauses]
  split <;> rfl

/-- Terms on both sides of a harmless gap. -/
theorem keptClauses_cons_harmless {e : Expr DbmMatch} {w : List Gap}
    {l : List (Expr DbmMatch × List Gap)} (hw : HarmlessGap w) :
    keptClauses ((e, w) :: l) =
      if .and ∈ w ∧ .or ∉ w then consFirst e (keptClauses l) else [e] :: keptClauses l := by
  obtain ⟨hlost, hjoin⟩ := harmlessGap_iff.mp hw
  rw [keptClauses]
  split
  · next heq => rw [if_pos (after_eq_clause_iff.mp heq).wanted]
  · next heq => exact absurd heq hlost
  · next hnot _ => rw [if_neg fun hand => hnot (hjoin hand)]

/-- On a harmless level, the clauses are the ones that are wanted. -/
theorem keptClauses_eq_wantedClauses {l : List (Expr DbmMatch × List Gap)}
    (h : HarmlessLevel l) : keptClauses l = wantedClauses l := by
  induction l with
  | nil => rfl
  | cons x l ih =>
    obtain ⟨e, w⟩ := x
    cases l with
    | nil => rw [keptClauses_singleton, wantedClauses_singleton]
    | cons y l => rw [keptClauses_cons_harmless h.1, wantedClauses, ih h.2]

/-- Clauses with the same numbers of terms. -/
abbrev SameShape : List (List (Expr DbmMatch)) → List (List (Expr DbmMatch)) → Prop :=
  List.Forall₂ fun c d => c ≠ [] ∧ c.length = d.length

theorem SameShape.consFirst {e e' : Expr DbmMatch} {cs ds : List (List (Expr DbmMatch))}
    (h : SameShape cs ds) : SameShape (consFirst e cs) (consFirst e' ds) := by
  cases h with
  | nil => exact .cons ⟨List.cons_ne_nil e [], rfl⟩ .nil
  | cons hcd hrest => exact .cons ⟨List.cons_ne_nil _ _, congrArg Nat.succ hcd.2⟩ hrest

/-- On a harmless level, the numbers of terms are right. -/
theorem sameShape_keptClauses {lc li : List (Expr DbmMatch × List Gap)} (h : Smaller lc li)
    (hharmless : HarmlessLevel li) : SameShape (keptClauses lc) (wantedClauses li) := by
  induction h with
  | nil => exact .nil
  | @cons x y lc li hxy hrest ih =>
    obtain ⟨e, w⟩ := x
    obtain ⟨e', w'⟩ := y
    obtain ⟨rfl, -⟩ : w = w' ∧ e.size ≤ e'.size := hxy
    cases hrest with
    | nil =>
      rw [keptClauses_singleton, wantedClauses_singleton]
      exact .cons ⟨List.cons_ne_nil e [], rfl⟩ .nil
    | cons hxy hrest =>
      rw [keptClauses_cons_harmless hharmless.1, wantedClauses]
      split
      · exact (ih hharmless.2).consFirst
      · exact .cons ⟨List.cons_ne_nil e [], rfl⟩ (ih hharmless.2)

/-- The members of a chain. -/
theorem ofList_inj {e e' : Expr DbmMatch} {es es' : List (Expr DbmMatch)}
    (h : Exprs.ofList e es = .ofList e' es') : e :: es = e' :: es' := by
  induction es generalizing e e' es' with
  | nil =>
    cases es' with
    | nil => rw [Exprs.last.inj h]
    | cons d es' => cases h
  | cons d es ih =>
    cases es' with
    | nil => cases h
    | cons d' es' =>
      obtain ⟨rfl, hrest⟩ := Exprs.link.inj h
      rw [ih hrest]

/-- The trees that have been joined, if their number is known. -/
theorem joinList_inj {type : Exprs DbmMatch → Expr DbmMatch} (htype : Function.Injective type)
    {es es' : List (Expr DbmMatch)} (hlen : es.length = es'.length)
    (h : joinList type es = joinList type es') : es = es' := by
  rcases es with _ | ⟨e, _ | ⟨d, es⟩⟩
  · exact (List.length_eq_zero_iff.mp hlen.symm).symm
  · obtain ⟨e', rfl⟩ := List.length_eq_one_iff.mp hlen.symm
    rw [Option.some.inj h]
  · rcases es' with _ | ⟨e', _ | ⟨d', es'⟩⟩
    · cases hlen
    · cases hlen
    · obtain ⟨rfl, hrest⟩ := Exprs.link.inj (htype (Option.some.inj h))
      rw [ofList_inj hrest]

/-- A clause that is not empty is a tree. -/
theorem filterMap_joinList {c : List (Expr DbmMatch)} (hc : c ≠ [])
    (cs : List (List (Expr DbmMatch))) :
    ∃ e, joinList Expr.and c = some e ∧
      (c :: cs).filterMap (joinList .and) = e :: cs.filterMap (joinList .and) := by
  have hsome : ∃ e, joinList Expr.and c = some e := by
    rcases c with _ | ⟨e, _ | ⟨d, es⟩⟩
    · exact absurd rfl hc
    · exact ⟨e, rfl⟩
    · exact ⟨_, rfl⟩
  obtain ⟨e, he⟩ := hsome
  exact ⟨e, he, List.filterMap_cons_some he⟩

theorem length_filterMap_joinList {cs : List (List (Expr DbmMatch))} (h : ∀ c ∈ cs, c ≠ []) :
    (cs.filterMap (joinList .and)).length = cs.length := by
  induction cs with
  | nil => rfl
  | cons c cs ih =>
    obtain ⟨hc, hrest⟩ := List.forall_mem_cons.mp h
    obtain ⟨e, -, heq⟩ := filterMap_joinList hc cs
    rw [heq, List.length_cons, List.length_cons, ih hrest]

/-- Both clauses of the same shape are trees. -/
theorem SameShape.trees {c d : List (Expr DbmMatch)} {cs ds : List (List (Expr DbmMatch))}
    (h : SameShape (c :: cs) (d :: ds)) :
    ∃ e e', joinList Expr.and c = some e ∧ joinList Expr.and d = some e' ∧
      (c :: cs).filterMap (joinList .and) = e :: cs.filterMap (joinList .and) ∧
      (d :: ds).filterMap (joinList .and) = e' :: ds.filterMap (joinList .and) := by
  obtain ⟨⟨hc, hlen⟩, -⟩ := List.forall₂_cons.mp h
  have hd : d ≠ [] := fun hnil => hc (List.length_eq_zero_iff.mp (by rw [hlen, hnil]; rfl))
  obtain ⟨e, he, hcs⟩ := filterMap_joinList hc cs
  obtain ⟨e', he', hds⟩ := filterMap_joinList hd ds
  exact ⟨e, e', he, he', hcs, hds⟩

theorem SameShape.length_trees {cs ds : List (List (Expr DbmMatch))} (h : SameShape cs ds) :
    (cs.filterMap (joinList .and)).length = (ds.filterMap (joinList .and)).length := by
  induction h with
  | nil => rfl
  | cons hcd hrest ih =>
    obtain ⟨e, e', -, -, hcs, hds⟩ := SameShape.trees (.cons hcd hrest)
    rw [hcs, hds, List.length_cons, List.length_cons, ih]

/-- Trees of the same shape are only the same if all their terms are. -/
theorem treeOf_inj {cs ds : List (List (Expr DbmMatch))} (hshape : SameShape cs ds)
    (h : treeOf cs = treeOf ds) : cs = ds := by
  have heq := joinList_inj (fun _ _ => Expr.or.inj) hshape.length_trees h
  clear h
  induction hshape with
  | nil => rfl
  | @cons c d cs ds hcd hrest ih =>
    obtain ⟨e, e', he, he', hcs, hds⟩ := SameShape.trees (.cons hcd hrest)
    rw [hcs, hds] at heq
    obtain ⟨rfl, hmore⟩ := List.cons.inj heq
    rw [joinList_inj (fun _ _ => Expr.and.inj) hcd.2 (he.trans he'.symm), ih hmore]

/-- The type of the tree tells whether there is one clause. -/
theorem treeOf_of_two {cs : List (List (Expr DbmMatch))} (hne : ∀ c ∈ cs, c ≠ [])
    (hlen : 2 ≤ cs.flatten.length) :
    (cs.length = 1 ∧ ∃ es, treeOf cs = some (.and es)) ∨
      ∃ e e' es, treeOf cs = some (.or (.link e (.ofList e' es))) ∧ cs.length = es.length + 2 := by
  rcases cs with _ | ⟨c, _ | ⟨d, cs⟩⟩
  · simp at hlen
  · refine .inl ⟨rfl, ?_⟩
    rcases c with _ | ⟨e, _ | ⟨e', es⟩⟩
    · simp at hlen
    · simp at hlen
    · exact ⟨_, rfl⟩
  · obtain ⟨hc, hd, hcs⟩ : c ≠ [] ∧ d ≠ [] ∧ ∀ c ∈ cs, c ≠ [] := by
      simpa only [List.forall_mem_cons] using hne
    obtain ⟨e, -, hfirst⟩ := filterMap_joinList hc (d :: cs)
    obtain ⟨e', -, hsecond⟩ := filterMap_joinList hd cs
    refine .inr ⟨e, e', cs.filterMap (joinList .and), ?_, ?_⟩
    · rw [treeOf, hfirst, hsecond]
      rfl
    · rw [length_filterMap_joinList hcs]
      rfl

/-- The same tree has the same number of clauses. -/
theorem length_eq_of_treeOf {cs ds : List (List (Expr DbmMatch))} (hcs : ∀ c ∈ cs, c ≠ [])
    (hds : ∀ d ∈ ds, d ≠ []) (hlen : 2 ≤ cs.flatten.length)
    (hlen' : cs.flatten.length = ds.flatten.length) (h : treeOf cs = treeOf ds) :
    cs.length = ds.length := by
  rcases treeOf_of_two hcs hlen with ⟨hone, es, hc⟩ | ⟨c, c', es, hc, htwo⟩
  · rcases treeOf_of_two hds (hlen' ▸ hlen) with ⟨hone', es', hd⟩ | ⟨d, d', es', hd, htwo'⟩
    · exact hone.trans hone'.symm
    · exact nomatch hc.symm.trans (h.trans hd)
  · rcases treeOf_of_two hds (hlen' ▸ hlen) with ⟨hone', es', hd⟩ | ⟨d, d', es', hd, htwo'⟩
    · exact nomatch hc.symm.trans (h.trans hd)
    · have heq := Expr.or.inj (Option.some.inj (hc.symm.trans (h.trans hd)))
      obtain ⟨-, hrest⟩ := Exprs.link.inj heq
      have hes := congrArg List.length (ofList_inj hrest)
      rw [htwo, htwo']
      exact congrArg Nat.succ hes

/-- The functions make the tree that is wanted if everything in the level is harmless and all
    terms in parentheses are right. -/
theorem treeOf_keptClauses_eq_iff {lc li : List (Expr DbmMatch × List Gap)} (h : Smaller lc li) :
    treeOf (keptClauses lc) = treeOf (wantedClauses li) ↔ HarmlessLevel li ∧ lc = li := by
  constructor
  · intro heq
    -- No terms are missing.
    have hsize := congrArg (fun e => (termsOf e).length) heq
    simp only [termsOf_treeOf, flatten_wantedClauses] at hsize
    have hnone := (totalSize_keptClauses_le h).2 hsize
    have hflat := flatten_keptClauses hnone
    have hlen : (keptClauses lc).flatten.length = (wantedClauses li).flatten.length := by
      rw [hflat, flatten_wantedClauses, List.length_map, List.length_map, h.length_eq]
    have hharmless : HarmlessLevel li := by
      rcases h with _ | ⟨hxy, _ | ⟨hxy', hrest⟩⟩
      · trivial
      · trivial
      · refine (length_keptClauses (.cons hxy (.cons hxy' hrest)) hnone).2 ?_
        refine (length_eq_of_treeOf (keptClauses_ne_nil _) (wantedClauses_ne_nil _) ?_ hlen
          heq).symm
        rw [hflat, List.length_map]
        exact Nat.le_add_left 2 _
    have hclauses := treeOf_inj (sameShape_keptClauses h hharmless) heq
    have hfst : lc.map Prod.fst = li.map Prod.fst := by
      rw [← hflat, hclauses, flatten_wantedClauses]
    exact ⟨hharmless, Smaller.eq_of_map_fst h hfst⟩
  · rintro ⟨hharmless, rfl⟩
    rw [keptClauses_eq_wantedClauses hharmless]

/-! ## §9 Parentheses in parentheses -/

/-- The tree that `exprcomp` returns. -/
def ExprArgs.compiled (as : ExprArgs) : Option (Expr DbmMatch) :=
  treeOf (keptClauses (as.level keptClauses).2)

/-- Two versions of the same level. -/
def SameGaps (lc li : Level) : Prop := lc.1 = li.1 ∧ Smaller lc.2 li.2

theorem SameGaps.push {lc li : Level} (h : SameGaps lc li) (g : Gap) :
    SameGaps (lc.push g) (li.push g) := ⟨congrArg (g :: ·) h.1, h.2⟩

/-- Another term in front of both. -/
theorem SameGaps.add {lc li : Level} (h : SameGaps lc li) {e e' : Option (Expr DbmMatch)}
    (hsome : e = none ↔ e' = none) (hsize : (termsOf e).length ≤ (termsOf e').length) :
    SameGaps (lc.add e) (li.add e') ∧
      ((lc.add e).2 = (li.add e').2 ↔ e = e' ∧ lc.2 = li.2) := by
  cases e with
  | none =>
    obtain rfl := hsome.mp rfl
    exact ⟨h.push .invalid, (and_iff_right rfl).symm⟩
  | some e =>
    cases e' with
    | none => cases hsome.mpr rfl
    | some e' =>
      refine ⟨⟨rfl, .cons ⟨h.1, hsize⟩ h.2⟩, ?_⟩
      simp only [Level.add, List.cons.injEq, Prod.mk.injEq, Option.some.injEq]
      exact and_congr_left fun _ => and_iff_left h.1

/-- There is a tree if there is a term. -/
theorem treeOf_eq_none_iff {cs : List (List (Expr DbmMatch))} (h : ∀ c ∈ cs, c ≠ []) :
    treeOf cs = none ↔ cs = [] := by
  constructor
  · intro hnone
    have hzero := congrArg List.length (termsOf_treeOf cs)
    rw [hnone] at hzero
    cases cs with
    | nil => rfl
    | cons c cs =>
      obtain ⟨e, c, rfl⟩ := List.exists_cons_of_ne_nil (h c (List.mem_cons_self ..))
      have htotal : 0 = e.size + totalSize (c ++ cs.flatten) := hzero.trans (totalSize_cons e _)
      exact absurd htotal (Nat.ne_of_lt (Nat.add_pos_left e.size_pos _))
  · rintro rfl
    rfl

/-- The trees of two versions of the same level. -/
theorem Smaller.treeOf {lc li : List (Expr DbmMatch × List Gap)} (h : Smaller lc li) :
    (treeOf (keptClauses lc) = none ↔ treeOf (wantedClauses li) = none) ∧
      (termsOf (treeOf (keptClauses lc))).length ≤ (termsOf (treeOf (wantedClauses li))).length := by
  constructor
  · rw [treeOf_eq_none_iff (keptClauses_ne_nil lc), treeOf_eq_none_iff (wantedClauses_ne_nil li)]
    cases h with
    | nil => exact Iff.rfl
    | cons _ _ => exact iff_of_false (keptClauses_cons_ne_nil _ _) (wantedClauses_cons_ne_nil _ _)
  · rw [termsOf_treeOf, termsOf_treeOf, flatten_wantedClauses]
    exact (totalSize_keptClauses_le h).1

/-- The levels of the arguments only differ in parentheses that are not harmless. -/
theorem sameGaps_level (as : ExprArgs) :
    SameGaps (as.level keptClauses) (as.level wantedClauses) ∧
      ((as.level keptClauses).2 = (as.level wantedClauses).2 ↔ as.HarmlessGroups) := by
  induction as with
  | nil => exact ⟨⟨rfl, .nil⟩, iff_of_true rfl trivial⟩
  | term e rest ih =>
    obtain ⟨hsame, hiff⟩ := ih
    obtain ⟨hadd, heq⟩ := @SameGaps.add _ _ hsame e e Iff.rfl (Nat.le_refl _)
    exact ⟨hadd, heq.trans ((and_iff_right rfl).trans hiff)⟩
  | group inner rest ihinner ih =>
    obtain ⟨⟨-, hinner⟩, hinneriff⟩ := ihinner
    obtain ⟨hsame, hiff⟩ := ih
    obtain ⟨hsome, hsize⟩ := Smaller.treeOf hinner
    obtain ⟨hadd, heq⟩ := hsame.add hsome hsize
    refine ⟨hadd, heq.trans (and_congr ?_ hiff)⟩
    rw [treeOf_keptClauses_eq_iff hinner, hinneriff]
  | and rest ih => exact ⟨ih.1.push .and, ih.2⟩
  | or rest ih => exact ⟨ih.1.push .or, ih.2⟩
  | close rest ih => exact ⟨ih.1.push .close, ih.2⟩

theorem ExprArgs.compiled_eq_wanted_iff (as : ExprArgs) : as.compiled = as.wanted ↔ as.Harmless := by
  obtain ⟨⟨-, hsmaller⟩, hiff⟩ := sameGaps_level as
  rw [ExprArgs.compiled, ExprArgs.wanted, treeOf_keptClauses_eq_iff hsmaller, hiff,
    ExprArgs.Harmless]

end Mandoc
