import Mathlib.Data.BitVec
import Mathlib.Data.List.Nodup

/-!
# Merging the results of a search expression

`manmerge` of `mansearch.c` evaluates the expression tree of an `apropos(1)` search.  A term
starts one filtered iteration over the database for every key it selects; the groups combine
the page tables of their members.  The iterations are a parameter here: `iterate it m` lists
what `dbm_page_next` returns after the iteration `it` has been started with the match
criterion `m`, up to the final `-1`.

The result table is an `ohash` keyed by the page number.  Its iteration order never shows in
what is proved below: the results are about the set of the pages and the bits of each page.
-/

namespace Mandoc

/-! ## §1 The page table -/

/-- `struct dbm_res`: a page found by an iteration, and the quality of the match. -/
structure DbmRes where
  /-- Index of the page in the database. -/
  page : Nat
  /-- Name mask of the matching name, zero for the other iterations. -/
  bits : BitVec 32
deriving DecidableEq, Repr

/-- `struct ohash`, keyed by the page: no page has two entries. -/
structure Ohash where
  /-- The entries, in an order that nothing depends on. -/
  entries : List DbmRes
  /-- Each page has one slot. -/
  nodup : (entries.map DbmRes.page).Nodup

namespace Ohash

/-- The pages of the table. -/
def pages (h : Ohash) : List Nat := h.entries.map DbmRes.page

/-- `mandoc_ohash_init`: the empty table. -/
def init : Ohash := ⟨[], List.nodup_nil⟩

/-- `ohash_find`: the entry in the slot of a page. -/
def find (h : Ohash) (page : Nat) : Option DbmRes := h.entries.find? (·.page == page)

/-- `rp->bits |= res.bits` on the entry in the slot of a page. -/
def orBits (h : Ohash) (res : DbmRes) : Ohash where
  entries := h.entries.map fun rp =>
    if rp.page = res.page then { rp with bits := rp.bits ||| res.bits } else rp
  nodup := by
    have same : (h.entries.map fun rp =>
        if rp.page = res.page then { rp with bits := rp.bits ||| res.bits } else rp).map
          DbmRes.page = h.entries.map DbmRes.page := by
      rw [List.map_map]
      apply List.map_congr_left
      intro rp _
      simp only [Function.comp_apply]
      split <;> rfl
    rw [same]
    exact h.nodup

/-- `ohash_insert` into the slot that `ohash_lookup_memory` returned for the page: the slot of
    an entry for the same page, which is overwritten, or a free one. -/
def insert (h : Ohash) (res : DbmRes) : Ohash where
  entries := h.entries.filter (fun rp => rp.page ≠ res.page) ++ [res]
  nodup := by
    rw [List.map_append]
    apply List.Nodup.append
    · exact h.nodup.sublist (List.filter_sublist.map _)
    · exact List.nodup_singleton _
    · intro p hp hres
      obtain ⟨rp, hrp, rfl⟩ := List.mem_map.mp hp
      have hne := (List.mem_filter.mp hrp).2
      have heq : rp.page = res.page := by simpa using hres
      simp [heq] at hne

/-- `ohash_entries`. -/
def size (h : Ohash) : Nat := h.entries.length

/-- The bits stored with a page, if the page is in the table. -/
def bitsOf (h : Ohash) (page : Nat) : Option (BitVec 32) := (h.find page).map DbmRes.bits

@[simp] theorem pages_init : init.pages = [] := rfl

@[simp] theorem bitsOf_init (p : Nat) : init.bitsOf p = none := rfl

theorem find_isSome_iff (h : Ohash) (p : Nat) : (h.find p).isSome ↔ p ∈ h.pages := by
  simp [find, pages, List.find?_isSome]

theorem find_eq_none_iff (h : Ohash) (p : Nat) : h.find p = none ↔ p ∉ h.pages := by
  rw [← find_isSome_iff, Option.not_isSome_iff_eq_none]

theorem find_page {h : Ohash} {p : Nat} {rp : DbmRes} (hf : h.find p = some rp) :
    rp.page = p := by
  simpa using List.find?_some hf

/-- The entry of a page is the only one with its number. -/
theorem find_of_mem {h : Ohash} {rp : DbmRes} (hmem : rp ∈ h.entries) :
    h.find rp.page = some rp := by
  have found : (h.find rp.page).isSome := by
    rw [find_isSome_iff]
    exact List.mem_map_of_mem hmem
  obtain ⟨other, hother⟩ := Option.isSome_iff_exists.mp found
  have same : other = rp :=
    List.inj_on_of_nodup_map h.nodup (List.mem_of_find?_eq_some hother) hmem (find_page hother)
  rw [hother, same]

theorem bitsOf_of_mem {h : Ohash} {rp : DbmRes} (hmem : rp ∈ h.entries) :
    h.bitsOf rp.page = some rp.bits := by
  rw [bitsOf, find_of_mem hmem, Option.map_some]

/-- Inserting adds the page of the entry. -/
@[simp] theorem mem_pages_insert (h : Ohash) (res : DbmRes) (p : Nat) :
    p ∈ (h.insert res).pages ↔ p ∈ h.pages ∨ p = res.page := by
  simp only [pages, insert, List.map_append, List.mem_append, List.map_cons, List.map_nil,
    List.mem_singleton, List.mem_map, List.mem_filter]
  constructor
  · rintro (⟨rp, ⟨hmem, -⟩, rfl⟩ | heq)
    · exact .inl ⟨rp, hmem, rfl⟩
    · exact .inr heq
  · rintro (⟨rp, hmem, rfl⟩ | heq)
    · cases decEq rp.page res.page with
      | isTrue heq => exact .inr heq
      | isFalse hne => exact .inl ⟨rp, ⟨hmem, by simpa using hne⟩, rfl⟩
    · exact .inr heq

@[simp] theorem pages_orBits (h : Ohash) (res : DbmRes) : (h.orBits res).pages = h.pages := by
  simp only [pages, orBits, List.map_map]
  apply List.map_congr_left
  intro rp _
  simp only [Function.comp_apply]
  split <;> rfl

/-- Inserting an entry stores its bits for its page and changes nothing else. -/
theorem bitsOf_insert (h : Ohash) (res : DbmRes) (p : Nat) :
    (h.insert res).bitsOf p = if p = res.page then some res.bits else h.bitsOf p := by
  simp only [bitsOf, find, insert, List.find?_append, List.find?_filter]
  split
  case isTrue heq =>
    have hnone : h.entries.find? (fun rp =>
        decide (decide (rp.page ≠ res.page) = true ∧ (rp.page == p) = true)) = none := by
      simp [heq]
    rw [hnone, Option.none_or]
    simp [heq]
  case isFalse hne =>
    have hfilter : (fun rp : DbmRes =>
        decide (decide (rp.page ≠ res.page) = true ∧ (rp.page == p) = true)) =
        fun rp => rp.page == p := by
      funext rp
      cases hrp : rp.page == p with
      | false => simp
      | true =>
        have heq : rp.page = p := by simpa using hrp
        simpa [heq] using hne
    have hlast : List.find? (fun rp : DbmRes => rp.page == p) [res] = none := by
      simpa using fun heq => hne heq.symm
    rw [hfilter, hlast, Option.or_none]

/-- `rp->bits |= res.bits` changes the bits of one page. -/
theorem bitsOf_orBits (h : Ohash) (res : DbmRes) (p : Nat) :
    (h.orBits res).bitsOf p =
      if p = res.page then (h.bitsOf p).map (· ||| res.bits) else h.bitsOf p := by
  have key : ∀ rp : DbmRes, ((fun rp : DbmRes => rp.page == p) ∘ fun rp =>
      if rp.page = res.page then { rp with bits := rp.bits ||| res.bits } else rp) rp =
      (rp.page == p) := by
    intro rp
    simp only [Function.comp_apply]
    split <;> rfl
  simp only [bitsOf, find, orBits, List.find?_map, funext key, Option.map_map]
  cases hf : h.entries.find? (fun rp => rp.page == p) with
  | none => simp
  | some rp =>
    have hp : rp.page = p := by simpa using List.find?_some hf
    simp only [Option.map_some, Function.comp_apply, hp]
    split <;> rfl

end Ohash

/-! ## §2 The expression tree -/

/-- The iterations over the manual pages that `dbm_page_by*` can start. -/
inductive Iter where
  | arch
  | sect
  | name
  | desc
  | byMacro (im : Nat)
deriving DecidableEq, Repr

/-- `KEY_MAX`: the number of search keys. -/
def keyMax : Nat := 40

/-- The iteration started for the key with the bit number `im` (`TYPE_arch` is bit 0,
    `TYPE_sec` bit 1, `TYPE_Nm` bit 38 and `TYPE_Nd` bit 39). -/
def Iter.ofKey (im : Nat) : Iter :=
  if im = 0 then .arch
  else if im = 1 then .sect
  else if im = 38 then .name
  else if im = 39 then .desc
  else .byMacro (im - 2)

mutual

/-- `struct expr`.  A group is never empty: `exprcomp` links at least one child to it. -/
inductive Expr (μ : Type) where
  /-- `EXPR_TERM`: a match criterion and the mask of the keys to look at. -/
  | term (match_ : μ) (bits : BitVec 64)
  /-- `EXPR_OR`. -/
  | or (child : Exprs μ)
  /-- `EXPR_AND`. -/
  | and (child : Exprs μ)

/-- The chain of the siblings that starts at a `child` or `next` pointer. -/
inductive Exprs (μ : Type) where
  /-- The last sibling: its `next` pointer is `NULL`. -/
  | last (e : Expr μ)
  /-- A sibling followed by another one. -/
  | link (e : Expr μ) (next : Exprs μ)

end

/-! ## §3 The code -/

section Manmerge

variable {μ : Type} (iterate : Iter → μ → List DbmRes)

/-- One result of an iteration: OR its bits into the entry of the page, or add one. -/
def mergeRes (htab : Ohash) (res : DbmRes) : Ohash :=
  match htab.find res.page with
  | some _ => htab.orBits res
  | none => htab.insert res

/-- `manmerge_term`: run the iteration of every selected key. -/
def manmergeTerm (m : μ) (bits : BitVec 64) (htab : Option Ohash) : Ohash :=
  (List.range keyMax).foldl
    (fun htab im =>
      if bits.getLsbD im then (iterate (Iter.ofKey im) m).foldl mergeRes htab else htab)
    (htab.getD .init)

/-- One round of the loop in `manmerge_and`: keep the entries of the smaller table whose pages
    are in the other one. -/
def andTables (hand h2 : Ohash) : Ohash :=
  let (h1, h2) := if h2.size < hand.size then (h2, hand) else (hand, h2)
  h1.entries.foldl (fun hand res =>
    match h2.find res.page with
    | none => hand
    | some _ => hand.insert res) .init

/-- The end of `manmerge_and`: add the pages that are not in the table yet. -/
def mergeInto (htab : Option Ohash) (hand : Ohash) : Ohash :=
  match htab with
  | none => hand
  | some htab => hand.entries.foldl (fun htab res =>
      match htab.find res.page with
      | none => htab.insert res
      | some _ => htab) htab

mutual

/-- `manmerge`. -/
def manmerge : Expr μ → Option Ohash → Ohash
  | .term m bits, htab => manmergeTerm iterate m bits htab
  | .or child, htab => manmergeOr child htab
  | .and child, htab => manmergeAnd child htab

/-- `manmerge_or`: every member adds to the same table. -/
def manmergeOr : Exprs μ → Option Ohash → Ohash
  | .last e, htab => manmerge e htab
  | .link e next, htab => manmergeOr next (some (manmerge e htab))

/-- `manmerge_and`: the members get tables of their own. -/
def manmergeAnd : Exprs μ → Option Ohash → Ohash
  | .last e, htab => mergeInto htab (manmerge e none)
  | .link e next, htab => mergeInto htab (manmergeAndNext next (manmerge e none))

/-- The loop of `manmerge_and` over the members after the first. -/
def manmergeAndNext : Exprs μ → Ohash → Ohash
  | .last e, hand => andTables hand (manmerge e none)
  | .link e next, hand => manmergeAndNext next (andTables hand (manmerge e none))

end

end Manmerge

/-! ## §4 The meaning of an expression -/

section Meaning

variable {μ : Type} (Matches : Iter → μ → Nat → Prop)

mutual

/-- A page satisfies an expression: a term by one of its selected keys, `AND` and `OR` as
    connectives. -/
def Expr.Sat : Expr μ → Nat → Prop
  | .term m bits, p => ∃ im < keyMax, bits.getLsbD im ∧ Matches (Iter.ofKey im) m p
  | .or child, p => child.Any p
  | .and child, p => child.All p

/-- A page satisfies one of the siblings. -/
def Exprs.Any : Exprs μ → Nat → Prop
  | .last e, p => e.Sat p
  | .link e next, p => e.Sat p ∨ next.Any p

/-- A page satisfies all siblings. -/
def Exprs.All : Exprs μ → Nat → Prop
  | .last e, p => e.Sat p
  | .link e next, p => e.Sat p ∧ next.All p

end

mutual

/-- No `AND` group anywhere in the tree. -/
def Expr.AndFree : Expr μ → Prop
  | .term _ _ => True
  | .or child => child.AndFree
  | .and _ => False

/-- No `AND` group in any of the siblings. -/
def Exprs.AndFree : Exprs μ → Prop
  | .last e => e.AndFree
  | .link e next => e.AndFree ∧ next.AndFree

end

variable (iterate : Iter → μ → List DbmRes)

/-- Everything the iterations of a term find. -/
def termMatches (m : μ) (bits : BitVec 64) : List DbmRes :=
  ((List.range keyMax).filter bits.getLsbD).flatMap fun im => iterate (Iter.ofKey im) m

mutual

/-- Everything the iterations of all terms of a tree find. -/
def Expr.allMatches : Expr μ → List DbmRes
  | .term m bits => termMatches iterate m bits
  | .or child => child.allMatches
  | .and child => child.allMatches

/-- Everything the iterations of all terms of the siblings find. -/
def Exprs.allMatches : Exprs μ → List DbmRes
  | .last e => e.allMatches
  | .link e next => e.allMatches ++ next.allMatches

end

/-- The bitwise OR of the bits of all matches of one page. -/
def orOfBits (found : List DbmRes) (page : Nat) : BitVec 32 :=
  (found.filter (·.page = page)).foldl (fun bits res => bits ||| res.bits) 0

end Meaning

/-! ## §5 What one table operation does -/

/-- Add one more match to the bits stored for a page, if any. -/
def orInto (bits : Option (BitVec 32)) (res : DbmRes) : Option (BitVec 32) :=
  some (bits.getD 0 ||| res.bits)

/-- A result adds its page. -/
@[simp] theorem mem_pages_mergeRes (htab : Ohash) (res : DbmRes) (p : Nat) :
    p ∈ (mergeRes htab res).pages ↔ p ∈ htab.pages ∨ p = res.page := by
  unfold mergeRes
  split
  case h_1 found =>
    have hmem : res.page ∈ htab.pages := by
      rw [← Ohash.find_isSome_iff, found]
      rfl
    rw [Ohash.pages_orBits]
    constructor
    · exact .inl
    · rintro (h | rfl)
      · exact h
      · exact hmem
  case h_2 => exact Ohash.mem_pages_insert htab res p

/-- A result adds its bits to its page. -/
theorem bitsOf_mergeRes (htab : Ohash) (res : DbmRes) (p : Nat) :
    (mergeRes htab res).bitsOf p =
      if res.page = p then orInto (htab.bitsOf p) res else htab.bitsOf p := by
  unfold mergeRes
  split
  case h_1 rp found =>
    rw [Ohash.bitsOf_orBits]
    split
    case isTrue heq =>
      subst heq
      simp [Ohash.bitsOf, found, orInto]
    case isFalse hne => rw [if_neg (Ne.symm hne)]
  case h_2 absent =>
    rw [Ohash.bitsOf_insert]
    split
    case isTrue heq =>
      subst heq
      simp [Ohash.bitsOf, absent, orInto]
    case isFalse hne => rw [if_neg (Ne.symm hne)]

theorem mem_pages_foldl_mergeRes (found : List DbmRes) (htab : Ohash) (p : Nat) :
    p ∈ (found.foldl mergeRes htab).pages ↔ p ∈ htab.pages ∨ p ∈ found.map DbmRes.page := by
  induction found generalizing htab with
  | nil => simp
  | cons res found ih =>
    rw [List.foldl_cons, ih, mem_pages_mergeRes, List.map_cons, List.mem_cons, or_assoc]

/-- A whole iteration adds the bits it finds. -/
theorem bitsOf_foldl_mergeRes (found : List DbmRes) (htab : Ohash) (p : Nat) :
    (found.foldl mergeRes htab).bitsOf p =
      (found.filter (·.page = p)).foldl orInto (htab.bitsOf p) := by
  induction found generalizing htab with
  | nil => rfl
  | cons res found ih =>
    rw [List.foldl_cons, ih, bitsOf_mergeRes]
    cases decEq res.page p with
    | isTrue heq => rw [if_pos heq, List.filter_cons_of_pos (by simpa using heq), List.foldl_cons]
    | isFalse hne => rw [if_neg hne, List.filter_cons_of_neg (by simpa using hne)]

/-- The loop over the keys is one long iteration. -/
theorem manmergeTerm_eq {μ : Type} (iterate : Iter → μ → List DbmRes) (m : μ)
    (bits : BitVec 64) (htab : Option Ohash) :
    manmergeTerm iterate m bits htab =
      (termMatches iterate m bits).foldl mergeRes (htab.getD .init) := by
  unfold manmergeTerm termMatches
  generalize htab.getD .init = htab
  generalize List.range keyMax = keys
  induction keys generalizing htab with
  | nil => rfl
  | cons im keys ih =>
    rw [List.foldl_cons, ih]
    cases selected : bits.getLsbD im with
    | false => rw [List.filter_cons_of_neg (by simp [selected])]; rfl
    | true =>
      rw [List.filter_cons_of_pos (by simp [selected]), List.flatMap_cons, List.foldl_append]
      rfl

/-- Keeping entries that are found in another table keeps the common pages. -/
theorem mem_pages_foldl_keep (entries : List DbmRes) (h2 hand : Ohash) (p : Nat) :
    p ∈ (entries.foldl (fun hand res =>
        match h2.find res.page with
        | none => hand
        | some _ => hand.insert res) hand).pages ↔
      p ∈ hand.pages ∨ (p ∈ entries.map DbmRes.page ∧ p ∈ h2.pages) := by
  induction entries generalizing hand with
  | nil => simp
  | cons res entries ih =>
    rw [List.foldl_cons, ih]
    cases found : h2.find res.page with
    | none =>
      have hmem : res.page ∉ h2.pages := (h2.find_eq_none_iff _).mp found
      simp only [List.map_cons, List.mem_cons]
      grind
    | some rp =>
      have hmem : res.page ∈ h2.pages := by
        rw [← Ohash.find_isSome_iff, found]
        rfl
      simp only [Ohash.mem_pages_insert, List.map_cons, List.mem_cons]
      grind

/-- One round of `manmerge_and` intersects, whichever table is the smaller one. -/
theorem mem_pages_andTables (hand h2 : Ohash) (p : Nat) :
    p ∈ (andTables hand h2).pages ↔ p ∈ hand.pages ∧ p ∈ h2.pages := by
  unfold andTables
  split
  next h1 h2' heq =>
    rw [mem_pages_foldl_keep]
    cases Nat.decLt h2.size hand.size with
    | isTrue hlt =>
      rw [if_pos hlt, Prod.mk.injEq] at heq
      obtain ⟨rfl, rfl⟩ := heq
      simp only [Ohash.pages_init, List.not_mem_nil, false_or]
      exact and_comm
    | isFalse hge =>
      rw [if_neg hge, Prod.mk.injEq] at heq
      obtain ⟨rfl, rfl⟩ := heq
      simp only [Ohash.pages_init, List.not_mem_nil, false_or]
      exact Iff.rfl

/-- The end of `manmerge_and` adds the pages of the intersection. -/
theorem mem_pages_mergeInto (htab : Option Ohash) (hand : Ohash) (p : Nat) :
    p ∈ (mergeInto htab hand).pages ↔ p ∈ (htab.getD .init).pages ∨ p ∈ hand.pages := by
  cases htab with
  | none => simp [mergeInto]
  | some htab =>
    simp only [mergeInto, Option.getD_some]
    show _ ↔ _ ∨ p ∈ hand.entries.map DbmRes.page
    generalize hand.entries = entries
    induction entries generalizing htab with
    | nil => simp
    | cons res entries ih =>
      rw [List.foldl_cons, ih]
      cases found : htab.find res.page with
      | none => simp [or_assoc]
      | some rp =>
        have hmem : res.page ∈ htab.pages := by
          rw [← Ohash.find_isSome_iff, found]
          rfl
        simp only [List.map_cons, List.mem_cons]
        grind

/-! ## §6 Whole expressions -/

section Correctness

variable {μ : Type} {iterate : Iter → μ → List DbmRes} {Matches : Iter → μ → Nat → Prop}

/-- A term adds the pages that one of its selected keys matches. -/
theorem mem_pages_manmergeTerm
    (exact : ∀ it m p, p ∈ (iterate it m).map DbmRes.page ↔ Matches it m p)
    (m : μ) (bits : BitVec 64) (htab : Option Ohash) (p : Nat) :
    p ∈ (manmergeTerm iterate m bits htab).pages ↔
      p ∈ (htab.getD .init).pages ∨
        ∃ im < keyMax, bits.getLsbD im ∧ Matches (Iter.ofKey im) m p := by
  rw [manmergeTerm_eq, mem_pages_foldl_mergeRes]
  apply or_congr_right
  simp only [termMatches, List.map_flatMap, List.mem_flatMap, List.mem_filter, List.mem_range,
    exact, and_assoc]

mutual

/-- `manmerge` adds the pages that satisfy the expression. -/
theorem mem_pages_manmerge
    (exact : ∀ it m p, p ∈ (iterate it m).map DbmRes.page ↔ Matches it m p)
    (e : Expr μ) (htab : Option Ohash) (p : Nat) :
    p ∈ (manmerge iterate e htab).pages ↔ p ∈ (htab.getD .init).pages ∨ e.Sat Matches p := by
  match e with
  | .term m bits =>
    rw [manmerge, Expr.Sat]
    exact mem_pages_manmergeTerm exact m bits htab p
  | .or child =>
    rw [manmerge, Expr.Sat]
    exact mem_pages_manmergeOr exact child htab p
  | .and child =>
    rw [manmerge, Expr.Sat]
    exact mem_pages_manmergeAnd exact child htab p

/-- `manmerge_or` adds the pages that satisfy one of the members. -/
theorem mem_pages_manmergeOr
    (exact : ∀ it m p, p ∈ (iterate it m).map DbmRes.page ↔ Matches it m p)
    (es : Exprs μ) (htab : Option Ohash) (p : Nat) :
    p ∈ (manmergeOr iterate es htab).pages ↔ p ∈ (htab.getD .init).pages ∨ es.Any Matches p := by
  match es with
  | .last e =>
    rw [manmergeOr, Exprs.Any]
    exact mem_pages_manmerge exact e htab p
  | .link e next =>
    rw [manmergeOr, Exprs.Any, mem_pages_manmergeOr exact next, Option.getD_some,
      mem_pages_manmerge exact e, or_assoc]

/-- `manmerge_and` adds the pages that satisfy all members. -/
theorem mem_pages_manmergeAnd
    (exact : ∀ it m p, p ∈ (iterate it m).map DbmRes.page ↔ Matches it m p)
    (es : Exprs μ) (htab : Option Ohash) (p : Nat) :
    p ∈ (manmergeAnd iterate es htab).pages ↔ p ∈ (htab.getD .init).pages ∨ es.All Matches p := by
  match es with
  | .last e =>
    rw [manmergeAnd, Exprs.All, mem_pages_mergeInto, mem_pages_manmerge exact e]
    simp
  | .link e next =>
    rw [manmergeAnd, Exprs.All, mem_pages_mergeInto, mem_pages_manmergeAndNext exact next,
      mem_pages_manmerge exact e]
    simp

/-- The loop keeps the pages that satisfy all members that follow. -/
theorem mem_pages_manmergeAndNext
    (exact : ∀ it m p, p ∈ (iterate it m).map DbmRes.page ↔ Matches it m p)
    (es : Exprs μ) (hand : Ohash) (p : Nat) :
    p ∈ (manmergeAndNext iterate es hand).pages ↔ p ∈ hand.pages ∧ es.All Matches p := by
  match es with
  | .last e =>
    rw [manmergeAndNext, Exprs.All, mem_pages_andTables, mem_pages_manmerge exact e]
    simp
  | .link e next =>
    rw [manmergeAndNext, Exprs.All, mem_pages_manmergeAndNext exact next, mem_pages_andTables,
      mem_pages_manmerge exact e]
    simp [and_assoc]

end

mutual

/-- Without `AND` groups, the bits of all matches are collected. -/
theorem bitsOf_manmerge (e : Expr μ) (free : e.AndFree) (htab : Option Ohash) (p : Nat) :
    (manmerge iterate e htab).bitsOf p =
      ((e.allMatches iterate).filter (·.page = p)).foldl orInto
        ((htab.getD .init).bitsOf p) := by
  match e with
  | .term m bits =>
    rw [manmerge, Expr.allMatches, manmergeTerm_eq, bitsOf_foldl_mergeRes]
  | .or child =>
    rw [manmerge, Expr.allMatches]
    exact bitsOf_manmergeOr child free htab p
  | .and child => exact absurd free (by simp [Expr.AndFree])

/-- Without `AND` groups, the bits of all matches of the members are collected. -/
theorem bitsOf_manmergeOr (es : Exprs μ) (free : es.AndFree) (htab : Option Ohash) (p : Nat) :
    (manmergeOr iterate es htab).bitsOf p =
      ((es.allMatches iterate).filter (·.page = p)).foldl orInto
        ((htab.getD .init).bitsOf p) := by
  match es with
  | .last e =>
    rw [manmergeOr, Exprs.allMatches]
    exact bitsOf_manmerge e free htab p
  | .link e next =>
    rw [manmergeOr, Exprs.allMatches, bitsOf_manmergeOr next free.2, Option.getD_some,
      bitsOf_manmerge e free.1, List.filter_append, List.foldl_append]

end

theorem foldl_orInto_some (found : List DbmRes) (bits : BitVec 32) :
    found.foldl orInto (some bits) = some (found.foldl (fun bits res => bits ||| res.bits) bits) := by
  induction found generalizing bits with
  | nil => rfl
  | cons res found ih => exact ih _

/-- Collecting bits in a free slot. -/
theorem foldl_orInto_none {found : List DbmRes} {bits : BitVec 32}
    (h : found.foldl orInto none = some bits) :
    bits = found.foldl (fun bits res => bits ||| res.bits) 0 := by
  cases found with
  | nil => cases h
  | cons res found =>
    rw [List.foldl_cons, orInto, foldl_orInto_some] at h
    exact (Option.some.inj h).symm

/-- **Search semantics.**  If every filtered iteration yields exactly the matching pages, the
    table for an expression lists exactly the pages that satisfy it, each of them once, and
    without `AND` groups the bits of a page are the bitwise OR of the bits of its matches. -/
theorem manmerge_correct
    (exact : ∀ it m p, p ∈ (iterate it m).map DbmRes.page ↔ Matches it m p) (e : Expr μ) :
    (∀ p, p ∈ (manmerge iterate e none).pages ↔ e.Sat Matches p) ∧
      (manmerge iterate e none).pages.Nodup ∧
      (e.AndFree → ∀ res ∈ (manmerge iterate e none).entries,
        res.bits = orOfBits (e.allMatches iterate) res.page) := by
  refine ⟨fun p => ?_, (manmerge iterate e none).nodup, fun free res hmem => ?_⟩
  · rw [mem_pages_manmerge exact e none p]
    simp
  · have stored := Ohash.bitsOf_of_mem hmem
    rw [bitsOf_manmerge e free] at stored
    exact foldl_orInto_none stored

end Correctness

/-- A name search and macro searches over a database of three pages. -/
def threePages : Iter → List Char → List DbmRes
  | .name, ['l', 's'] => [⟨0, 0x10⟩, ⟨2, 0x04⟩]
  | .byMacro 3, ['l', 's'] => [⟨2, 0⟩, ⟨1, 0⟩, ⟨2, 0⟩]
  | .byMacro 3, ['c', 'p'] => [⟨1, 0⟩]
  | _, _ => []

/-- `Nm=ls -o Xr=ls` -/
def nameOrRef : Expr (List Char) :=
  .or (.link (.term ['l', 's'] (1 <<< 38)) (.last (.term ['l', 's'] (1 <<< 5))))

/-- `Nm=ls -a Xr=ls -o Xr=cp` -/
def bothOrRef : Expr (List Char) :=
  .or (.link (.and (.link (.term ['l', 's'] (1 <<< 38)) (.last (.term ['l', 's'] (1 <<< 5)))))
    (.last (.term ['c', 'p'] (1 <<< 5))))

/-- `Nm=ls -o Xr=ls` finds page 2 by its name and twice by the macro.  For `-a`, only page 2 remains,
    and `-o Xr=cp` adds page 1. -/
theorem manmerge_threePages :
    (∀ res ∈ (manmerge threePages nameOrRef none).entries, res.page = 2 → res.bits = 0x04) ∧
      (manmerge threePages nameOrRef none).pages.Nodup ∧
      ∀ p, bothOrRef.Sat (fun it m p => p ∈ (threePages it m).map DbmRes.page) p ↔ p = 2 ∨ p = 1 := by
  have exact : ∀ it m p, p ∈ (threePages it m).map DbmRes.page ↔
      p ∈ (threePages it m).map DbmRes.page := fun _ _ _ => Iff.rfl
  obtain ⟨-, hnodup, hbits⟩ := manmerge_correct exact nameOrRef
  obtain ⟨hsat, -, -⟩ := manmerge_correct exact bothOrRef
  refine ⟨fun res hmem hpage => ?_, hnodup, fun p => ?_⟩
  · rw [hbits (by simp [nameOrRef, Expr.AndFree, Exprs.AndFree]) res hmem, hpage]
    decide +kernel
  · have hpages : (manmerge threePages bothOrRef none).pages = [2, 1] := by decide +kernel
    rw [← hsat, hpages]
    simp

end Mandoc
