import Mandoc.Roff.NodeMoves
import Mandoc.Lib.SiblingSort

/-!
# Bibliographic References

Model of `post_rs()` in `mdoc_validate.c`, which orders the children of an `Rs` body by the
positions of their macros in `rsord`. Children with other macros and text come first. On the way,
the titles of journals and books are counted because articles in them are quoted.

- `postRsLoop_ok` is the result of the insertion sort for any list of children.
- `postRs_run` says what the validation does to an `Rs` body.
-/

namespace Mandoc

open OrderedForest

/-! ## §1 The order -/

/-- `rsord[]` -/
def rsord : List Tok := [
  .MDOC "%A", .MDOC "%T", .MDOC "%B", .MDOC "%I", .MDOC "%J", .MDOC "%R", .MDOC "%N", .MDOC "%V",
  .MDOC "%U", .MDOC "%P", .MDOC "%Q", .MDOC "%C", .MDOC "%D", .MDOC "%O"]

/-- The order number of a macro, which is -1 if it is not in the table. -/
def rsOrder (tok : Tok) : Int :=
  match rsord.findIdx? (· = tok) with
  | some i => i
  | none => -1

/-- The title of a journal or a book. -/
def isBookTitle (tok : Tok) : Bool := tok = .MDOC "%J" || tok = .MDOC "%B"

theorem rsOrder_of_isBookTitle {tok : Tok} (h : isBookTitle tok = true) : rsOrder tok ≠ -1 := by
  rcases Bool.or_eq_true_iff.mp h with hj | hb
  · rw [of_decide_eq_true hj]
    decide
  · rw [of_decide_eq_true hb]
    decide

/-! ## §2 Validation -/

/-- The syntax tree with the values of `Rs.quote_T` in the normalized arguments. -/
structure RsMan where
  man : RoffMan
  quoteT : Nat → Nat

/-- A child with the order number `i` is counted if it is a title: `np->norm->Rs.quote_T++` -/
def RsMan.countTitle (s : RsMan) (np nch : Nat) (i : Int) : Res RsMan :=
  if i ≠ -1 ∧ isBookTitle (s.man.node nch).tok then
    match (s.man.node np).norm with
    | none => .error .null
    | some a => .ok { s with quoteT := Function.update s.quoteT a (s.quoteT a + 1) }
  else .ok s

/-- The body of the loop in `post_rs()`, for one child. -/
def postRsRound (s : RsMan) (np nch : Nat) : Res RsMan := do
  -- Determine order number of this child.
  let i := rsOrder (s.man.node nch).tok
  let s ← s.countTitle np nch i
  -- Remove this child from the chain, but remember what was before it.
  let prev := (s.man.links nch).prev
  let links := detach s.man.links nch
  -- Scan back until we reach a node that is to be ordered before this child.
  match scanBack (fun prev => decide (rsOrder (s.man.node prev).tok ≤ i)) links s.man.count prev with
  | none => .error .fuel
  | some prev =>
    match putBack links np nch prev with
    | none => .error .null
    | some links => .ok { s with man := { s.man with links := links } }

/-- The loop in `post_rs()`. -/
def postRsLoop : Nat → RsMan → Nat → Option Nat → Res RsMan
  | _, s, _, none => .ok s
  | 0, _, _, some _ => .error .fuel
  | steps + 1, s, np, some nch => do
    let next := (s.man.links nch).next
    let s ← postRsRound s np nch
    postRsLoop steps s np next

/-- `post_rs()` -/
def postRs (s : RsMan) : Res RsMan :=
  match s.man.last with
  | none => .error .null
  | some np =>
    if (s.man.node np).type ≠ .BODY then .ok s
    else
      match (s.man.links np).child with
      | none => .ok s
      | some c => postRsLoop s.man.count s np (s.man.links c).next

/-! ## §3 The sort -/

section

variable {s : RsMan} {np nch a : Nat} {l d t : List Nat}

/-- The order number of a child. -/
def RoffMan.rsKey (man : RoffMan) (n : Nat) : Int := rsOrder (man.node n).tok

/-- The child is a title that is counted. -/
def RoffMan.rsTitle (man : RoffMan) (n : Nat) : Bool := isBookTitle (man.node n).tok

/-- The state after the nodes `l` have been looked at, and the links have been changed. -/
def RsMan.after (s : RsMan) (a : Nat) (l : List Nat) (links : Nat → Links Nat) : RsMan where
  man := { s.man with links := links }
  quoteT := Function.update s.quoteT a (s.quoteT a + l.countP s.man.rsTitle)

theorem RsMan.after_nil : s.after a [] s.man.links = s := by
  simp [RsMan.after]

theorem RsMan.after_after {l' : List Nat} {links links' : Nat → Links Nat} :
    (s.after a l links).after a l' links' = s.after a (l ++ l') links' := by
  simp [RsMan.after, Nat.add_assoc, Function.update_idem]
  rfl

/-- Counting comes before the links are changed. -/
theorem countTitle_eq (nch : Nat) (hnorm : (s.man.node np).norm = some a) :
    s.countTitle np nch (s.man.rsKey nch) = .ok (s.after a [nch] s.man.links) := by
  cases htitle : s.man.rsTitle nch with
  | true =>
    rw [RsMan.countTitle, if_pos ⟨rsOrder_of_isBookTitle htitle, htitle⟩, hnorm]
    simp [RsMan.after, htitle]
  | false =>
    rw [RsMan.countTitle, if_neg fun h => absurd (htitle.symm.trans h.2) Bool.false_ne_true]
    simp [RsMan.after, htitle]

/-- One round takes the next child into the sorted part. -/
theorem postRsRound_ok (hnorm : (s.man.node np).norm = some a)
    (hc : Chain s.man.links np (d ++ nch :: t)) (hl : (d ++ nch :: t).Nodup) (hd : d ≠ [])
    (hsorted : StableSorted s.man.rsKey l d) (hcount : d.length ≤ s.man.count) :
    ∃ links d', postRsRound s np nch = .ok (s.after a [nch] links) ∧
      StableSorted s.man.rsKey (l ++ [nch]) d' ∧ Chain links np (d' ++ t) ∧
      ∀ x, (links x).last = (s.man.links x).last := by
  obtain ⟨prev, links, d', hscan, hput, hsorted', hchain, hframe⟩ := hc.round hl hd hsorted hcount
  refine ⟨links, d', ?_, hsorted', hchain, fun x => (hframe x).1⟩
  have hback : scanBack (fun prev => decide (rsOrder (s.man.node prev).tok ≤
      rsOrder (s.man.node nch).tok)) (detach s.man.links nch) s.man.count (s.man.links nch).prev =
        some prev := hscan
  have hcountTitle := countTitle_eq nch hnorm
  simp only [RoffMan.rsKey] at hcountTitle
  simp only [postRsRound, hcountTitle, Res.ok_bind, RsMan.after, hback, hput]

/-- The loop sorts the children. The list `l` holds the children that have been looked at, in
    their original order, and `d` holds them in the order of the chain. -/
theorem postRsLoop_ok (steps : Nat) (hnorm : (s.man.node np).norm = some a)
    (hc : Chain s.man.links np (d ++ t)) (hl : (d ++ t).Nodup) (hd : d ≠ [])
    (hsorted : StableSorted s.man.rsKey l d) (hcount : (d ++ t).length ≤ s.man.count)
    (hsteps : t.length ≤ steps) :
    ∃ links d', postRsLoop steps s np t.head? = .ok (s.after a t links) ∧
      StableSorted s.man.rsKey (l ++ t) d' ∧ Chain links np d' ∧
      ∀ x, (links x).last = (s.man.links x).last := by
  -- By induction on the children that are not sorted yet.
  induction t generalizing s d l steps with
  | nil =>
    refine ⟨s.man.links, d, ?_, ?_, ?_, fun x => rfl⟩
    · rw [RsMan.after_nil]
      cases steps <;> rfl
    · rwa [List.append_nil]
    · rwa [List.append_nil] at hc
  | cons nch t ih =>
    obtain ⟨steps, rfl⟩ : ∃ m, steps = m + 1 :=
      Nat.exists_eq_add_one.mpr (lt_of_lt_of_le (by simp) hsteps)
    obtain ⟨links, d', hround, hsorted', hchain, hlast⟩ :=
      postRsRound_ok hnorm hc hl hd hsorted (le_trans (by simp) hcount)
    -- One round puts the next child among the sorted ones, and loses none.
    have hperm : (d' ++ t).Perm (d ++ nch :: t) := by
      refine ((hsorted'.perm.trans (hsorted.perm.symm.append_right [nch])).append_right t).trans ?_
      simp
    have hd' : d' ≠ [] := by
      rintro rfl
      exact absurd hsorted'.perm.symm.eq_nil (by simp)
    obtain ⟨links', d'', hloop, hsorted'', hchain', hlast'⟩ :=
      ih (s := s.after a [nch] links) steps hnorm hchain (hperm.nodup_iff.mpr hl) hd' hsorted'
        (hperm.length_eq.trans_le hcount) (Nat.le_of_succ_le_succ hsteps)
    refine ⟨links', d'', ?_, ?_, hchain', fun x => (hlast' x).trans (hlast x)⟩
    · -- The loop goes on with the sibling from before the round.
      have hnext : (s.man.links nch).next = t.head? := by
        simpa using (segment_mid.mp hc.segment).2.2.2.1
      rw [RsMan.after_after] at hloop
      rw [List.head?_cons, postRsLoop, hround, hnext]
      exact hloop
    · rwa [List.append_assoc] at hsorted''

end

/-! ## §4 The result -/

section

variable {s : RsMan} {np : Nat} {l : List Nat}

/-- An `Rs` body with the children `l`, ready for being validated. -/
structure RsBody (s : RsMan) (np : Nat) (l : List Nat) : Prop where
  last : s.man.last = some np
  type : (s.man.node np).type = .BODY
  /-- The counter is zero when the block is allocated. -/
  norm : ∃ a, (s.man.node np).norm = some a ∧ s.quoteT a = 0
  children : Children s.man.links np l
  nodup : l.Nodup
  bound : ∀ c ∈ l, c < s.man.count

/-- In a syntax tree, the links of the body are as required. -/
theorem Represents.rsBody {kids : Nat → List Nat} {a : Nat} (h : Represents s.man kids)
    (hlast : s.man.last = some np) (htype : (s.man.node np).type = .BODY)
    (hnorm : (s.man.node np).norm = some a) (hzero : s.quoteT a = 0) : RsBody s np (kids np) := by
  have hnp := h.last np hlast
  refine ⟨hlast, htype, ⟨a, hnorm, hzero⟩, h.linked.children np hnp,
    h.linked.forest.nodup np hnp, fun c hc => ?_⟩
  exact h.count c (mem_nodes_child hnp hc)

theorem RsBody.length_le (h : RsBody s np l) : l.length ≤ s.man.count :=
  length_le_of_nodup h.nodup h.bound

/-- The children are sorted, but the pointer to the last child stays the same, and the first
    child is not looked at for the sake of counting titles. -/
theorem postRs_run {a : Nat} (h : RsBody s np l) (hnorm : (s.man.node np).norm = some a) :
    ∃ links l', postRs s = .ok (s.after a l.tail links) ∧ StableSorted s.man.rsKey l l' ∧
      Chain links np l' ∧ (links np).last = l.getLast? := by
  have hchildren := h.children
  have hnodup := h.nodup
  have hlength := h.length_le
  cases l with
  | nil =>
    refine ⟨s.man.links, [], ?_, stableSorted_nil, hchildren.chain, hchildren.last⟩
    have hchild := hchildren.child
    rw [List.head?_nil] at hchild
    rw [List.tail_nil, RsMan.after_nil, postRs, h.last]
    simp only [h.type, ne_eq, not_true_eq_false, if_false, hchild]
  | cons c t =>
    obtain ⟨links, l', hloop, hsorted, hchain, hlast⟩ := postRsLoop_ok (d := [c]) s.man.count hnorm
      hchildren.chain hnodup (List.cons_ne_nil c []) (stableSorted_singleton c) hlength
      (le_trans (Nat.le_succ _) hlength)
    refine ⟨links, l', ?_, hsorted, hchain, (hlast np).trans hchildren.last⟩
    have hchild := hchildren.child
    have hnext : (s.man.links c).next = t.head? := by
      simpa using hchildren.segment.2.2.1
    rw [List.head?_cons] at hchild
    rw [List.tail_cons, postRs, h.last]
    simp only [h.type, ne_eq, not_true_eq_false, if_false, hchild, hnext]
    exact hloop

/-- The children of a validated `Rs` body: they are sorted, the links between them and the
    pointers from the body to the first and the last one are right, and all titles of journals
    and books are counted. -/
structure RsSorted (s s' : RsMan) (np : Nat) (l : List Nat) : Prop where
  children : ∃ l', StableSorted s.man.rsKey l l' ∧ Children s'.man.links np l'
  quoteT : ∀ a, (s.man.node np).norm = some a → s'.quoteT a = l.countP s.man.rsTitle

/-- The validation succeeds for a body if the first child is not a title that should have been
    counted, and if the last child stays the last one. -/
theorem postRs_sorts_iff (h : RsBody s np l) :
    ∃ s', postRs s = .ok s' ∧ (RsSorted s s' np l ↔
      (∀ c ∈ l.head?, s.man.rsTitle c = false) ∧
        ∀ b ∈ l.getLast?, ∀ c ∈ l, s.man.rsKey c ≤ s.man.rsKey b) := by
  obtain ⟨a, hnorm, hzero⟩ := h.norm
  obtain ⟨links, l', hrun, hsorted, hchain, hlast⟩ := postRs_run h hnorm
  refine ⟨_, hrun, ?_⟩
  rw [← hsorted.getLast?_eq_iff]
  -- One part of the condition is about the counter, and the other one about the end of the chain.
  have hquote : (s.after a l.tail links).quoteT a = l.countP s.man.rsTitle ↔
      ∀ c ∈ l.head?, s.man.rsTitle c = false := by
    simp only [RsMan.after, Function.update_self, hzero, Nat.zero_add]
    cases l with
    | nil => simp
    | cons c t => cases htitle : s.man.rsTitle c <;> simp [htitle]
  constructor
  · rintro ⟨⟨l'', hsorted', hchildren⟩, hcount⟩
    refine ⟨hquote.mp (hcount a hnorm), ?_⟩
    rw [hsorted.unique hsorted', ← hchildren.last]
    exact hlast
  · rintro ⟨hhead, hend⟩
    refine ⟨⟨l', hsorted, hchain.children (hlast.trans hend.symm)⟩, fun b hb => ?_⟩
    obtain rfl : a = b := Option.some.inj (hnorm.symm.trans hb)
    exact hquote.mpr hhead

end

/-- A body with the number 0 and children made of the given macros. -/
def rsSample (toks : List Tok) : RsMan where
  man := {
    links := fun n =>
      if n = 0 then
        { child := if toks = [] then none else some 1
          last := if toks = [] then none else some toks.length }
      else
        { parent := some 0
          prev := if n = 1 then none else some (n - 1)
          next := if n = toks.length then none else some (n + 1) }
    node := fun n =>
      if n = 0 then { tok := .MDOC "Rs", type := .BODY, norm := some 0 }
      else { tok := toks.getD (n - 1) .TOKEN_NONE, type := .ELEM }
    count := toks.length + 1
    last := some 0 }
  quoteT := fun _ => 0

theorem rsBody_rsSample_two (tok₁ tok₂ : Tok) : RsBody (rsSample [tok₁, tok₂]) 0 [1, 2] :=
  ⟨rfl, rfl, ⟨0, rfl, rfl⟩, ⟨rfl, rfl, ⟨rfl, rfl, rfl, rfl, rfl, rfl, trivial⟩⟩, by decide, by
    intro c hc
    rcases List.mem_pair.mp hc with rfl | rfl <;> simp [rsSample]⟩

/-- An author and a title in the right order. -/
theorem postRs_sorts_sample : ∃ s', postRs (rsSample [.MDOC "%A", .MDOC "%T"]) = .ok s' ∧
    RsSorted (rsSample [.MDOC "%A", .MDOC "%T"]) s' 0 [1, 2] := by
  obtain ⟨s', hrun, hiff⟩ := postRs_sorts_iff (rsBody_rsSample_two (.MDOC "%A") (.MDOC "%T"))
  refine ⟨s', hrun, hiff.mpr ⟨fun c hc => ?_, fun b hb c hc => ?_⟩⟩
  · obtain rfl := Option.some.inj hc
    decide
  · obtain rfl := Option.some.inj hb
    rcases List.mem_pair.mp hc with rfl | rfl <;> decide

/-- The title of a journal comes before its author. The author is moved to the beginning, but
    remains the last child of the body, and the title is not counted. -/
theorem postRs_not_sorted : RsBody (rsSample [.MDOC "%J", .MDOC "%A"]) 0 [1, 2] ∧
    ∃ s', postRs (rsSample [.MDOC "%J", .MDOC "%A"]) = .ok s' ∧
      (s'.man.links 0).child = some 2 ∧ (s'.man.links 0).last = some 2 ∧
      (s'.man.links 2).next = some 1 ∧ s'.quoteT 0 = 0 ∧
      (¬ ∃ l', Children s'.man.links 0 l') ∧
      ¬ RsSorted (rsSample [.MDOC "%J", .MDOC "%A"]) s' 0 [1, 2] := by
  have hview : (postRs (rsSample [.MDOC "%J", .MDOC "%A"])).map
      (fun s => ((s.man.links 0).child, (s.man.links 0).last, (s.man.links 2).next, s.quoteT 0)) =
        .ok (some 2, some 2, some 1, 0) := by
    decide +kernel
  obtain ⟨s', hrun, heq⟩ := Res.map_eq_ok.mp hview
  obtain ⟨hchild, heq⟩ := Prod.mk.inj heq
  obtain ⟨hlast, heq⟩ := Prod.mk.inj heq
  obtain ⟨hnext, hquote⟩ := Prod.mk.inj heq
  -- The last child must not be followed by another one.
  have hlinks : ¬ ∃ l', Children s'.man.links 0 l' := by
    rintro ⟨l', hc⟩
    exact absurd (hnext.symm.trans (hc.last_iff.mp hlast).2) (Option.some_ne_none 1)
  refine ⟨rsBody_rsSample_two _ _, s', hrun, hchild, hlast, hnext, hquote, hlinks, fun h => ?_⟩
  obtain ⟨l', -, hc⟩ := h.children
  exact hlinks ⟨l', hc⟩

end Mandoc
