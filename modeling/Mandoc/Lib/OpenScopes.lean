import Mathlib.Data.List.Basic
import Mathlib.Data.List.Count
import Mathlib.Data.List.DropRight
import Mathlib.Data.List.Induction
import Mathlib.Data.List.Pairwise

/-!
# Scopes that are Opened, Closed, and Held

A program writes start tags and end tags, and keeps the scopes that are open on a stack. Its
activations hold the scope that was on top of the stack when they began, and each scope
counts the activations that hold it. Closing a scope that is held only marks it as closed,
while a scope that is not held is taken off the stack, together with everything above it.

So closing some scopes can lose a scope that is held: if one of them is held, and another
one further down is not. `Droppable` says that this is not the case.

## Main results

- `closeTop_keeps_iff`: closing the topmost scopes keeps those that are held if and only if the
  scopes are droppable.
- `State.Disciplined.closeAll`: closing droppable scopes keeps the discipline: every activation
  finds its scope on the stack, and what is written is nested. `State.Disciplined.droppable` says
  that this is the only way.
- `Added` says that an activation has opened some more scopes. It may close all of these.
-/

universe u

namespace OpenScopes

/-! ## §1 What is written -/

/-- A start tag, an end tag, or the tag of an element that has no end tag. -/
inductive Event (κ : Type u) where
  | start (k : κ)
  | empty (k : κ)
  | finish (k : κ)
deriving DecidableEq, Repr

section

variable {κ : Type u} [DecidableEq κ]

/-- The scopes that are open after some events, with the innermost one first, provided that each
    end tag belongs to the innermost scope. -/
def openAfter : List κ → List (Event κ) → Option (List κ)
  | ks, [] => some ks
  | ks, .start k :: es => openAfter (k :: ks) es
  | ks, .empty _ :: es => openAfter ks es
  | k :: ks, .finish k' :: es => if k = k' then openAfter ks es else none
  | [], .finish _ :: _ => none

theorem openAfter_append {ks ks' : List κ} {es : List (Event κ)} (es' : List (Event κ))
    (h : openAfter ks es = some ks') : openAfter ks (es ++ es') = openAfter ks' es' := by
  induction es generalizing ks with
  | nil =>
    cases h
    rfl
  | cons e es ih =>
    cases e with
    | start k => exact ih h
    | empty k => exact ih h
    | finish k =>
      cases ks with
      | nil => cases h
      | cons k₁ ks =>
        simp only [List.cons_append, openAfter] at h ⊢
        split at h
        · rename_i heq
          rw [if_pos heq]
          exact ih h
        · cases h

/-- Closing the innermost scopes one after another. -/
theorem openAfter_finish (ks ks' : List κ) :
    openAfter (ks ++ ks') (ks.map Event.finish) = some ks' := by
  induction ks with
  | nil => rfl
  | cons k ks ih =>
    simp only [List.map_cons, List.cons_append, openAfter, if_true]
    exact ih

end

/-! ## §2 The stack -/

/-- A scope on the stack. -/
structure Scope (κ : Type u) where
  /-- What identifies the scope. -/
  addr : Nat
  tag : κ
  /-- Number of activations that hold the scope. -/
  refcnt : Nat := 0
  /-- The end tag has been written. -/
  closed : Bool := false
deriving DecidableEq, Repr

/-- The stack with the innermost scope first, and what was written. -/
structure State (κ : Type u) where
  tags : List (Scope κ) := []
  /-- What identifies the next scope. -/
  next : Nat := 0
  log : List (Event κ) := []
deriving DecidableEq, Repr

variable {κ : Type u}

/-- The scope with its end tag written. -/
def Scope.shut (t : Scope κ) : Scope κ := { t with closed := true }

@[simp] theorem Scope.shut_addr (t : Scope κ) : t.shut.addr = t.addr := rfl
@[simp] theorem Scope.shut_tag (t : Scope κ) : t.shut.tag = t.tag := rfl
@[simp] theorem Scope.shut_refcnt (t : Scope κ) : t.shut.refcnt = t.refcnt := rfl
@[simp] theorem Scope.shut_closed (t : Scope κ) : t.shut.closed = true := rfl

/-- The identities of some scopes. -/
def addrs (ts : List (Scope κ)) : List Nat := ts.map Scope.addr

/-- What the end tags are missing for. -/
def openTags (ts : List (Scope κ)) : List κ := (ts.filter fun t => !t.closed).map Scope.tag

@[simp] theorem addrs_append (ts us : List (Scope κ)) : addrs (ts ++ us) = addrs ts ++ addrs us :=
  List.map_append

@[simp] theorem openTags_append (ts us : List (Scope κ)) :
    openTags (ts ++ us) = openTags ts ++ openTags us := by
  simp [openTags]

theorem mem_addrs {ts : List (Scope κ)} {a : Nat} : a ∈ addrs ts ↔ ∃ t ∈ ts, t.addr = a :=
  List.mem_map

/-- Write a start tag, and put the scope on the stack. -/
def State.push (s : State κ) (k : κ) : State κ where
  tags := { addr := s.next, tag := k } :: s.tags
  next := s.next + 1
  log := s.log ++ [.start k]

/-- Write the tag of an element that has no end tag. -/
def State.mark (s : State κ) (k : κ) : State κ := { s with log := s.log ++ [.empty k] }

/-- Change the scope with this identity. -/
def State.modify (s : State κ) (a : Nat) (f : Scope κ → Scope κ) : State κ :=
  { s with tags := s.tags.map fun t => if t.addr = a then f t else t }

/-- Close a scope: unless it is closed already, the end tag is written. Unless it is held, it is
    taken off the stack, and the scope below it is now the innermost one. -/
def State.close (s : State κ) (t : Scope κ) : State κ :=
  let s := if t.closed then s
    else { s.modify t.addr Scope.shut with log := s.log ++ [.finish t.tag] }
  if t.refcnt = 0 then { s with tags := (s.tags.dropWhile (·.addr ≠ t.addr)).tail } else s

/-- Close some scopes one after another. -/
def State.closeAll (s : State κ) (ts : List (Scope κ)) : State κ := ts.foldl State.close s

/-- The topmost scopes, including the one with the given identity: all scopes if there is none. -/
def throughTag : List (Scope κ) → Option Nat → List (Scope κ)
  | [], _ => []
  | t :: ts, a => t :: if some t.addr = a then [] else throughTag ts a

/-! ## §3 Closing the topmost scopes -/

/-- Inner scopes have been opened later. -/
def Sorted (ts : List (Scope κ)) : Prop := ts.Pairwise fun t u => u.addr < t.addr

/-- What is left of the topmost scopes when they are closed: those below the last one that is
    not held. -/
def closeTop (ts : List (Scope κ)) : List (Scope κ) :=
  (ts.rtakeWhile (·.refcnt ≠ 0)).map Scope.shut

/-- Among the scopes, none that is held is above one that is not. -/
def Droppable (ts : List (Scope κ)) : Prop :=
  ts.Pairwise fun t u => t.refcnt ≠ 0 → u.refcnt ≠ 0

instance (ts : List (Scope κ)) : Decidable (Droppable ts) :=
  inferInstanceAs (Decidable (List.Pairwise _ ts))

theorem closeTop_concat (ts : List (Scope κ)) (t : Scope κ) :
    closeTop (ts ++ [t]) = if t.refcnt = 0 then [] else closeTop ts ++ [t.shut] := by
  rw [closeTop, List.rtakeWhile_concat]
  split
  · rename_i hheld
    rw [if_neg (by simpa using hheld), List.map_append]
    rfl
  · rename_i hfree
    rw [if_pos (by simpa using hfree), List.map_nil]

theorem droppable_concat {ts : List (Scope κ)} {t : Scope κ} :
    Droppable (ts ++ [t]) ↔ Droppable ts ∧ ∀ u ∈ ts, u.refcnt ≠ 0 → t.refcnt ≠ 0 := by
  simp [Droppable, List.pairwise_append]

/-- Scopes none of which is held are droppable. -/
theorem droppable_of_free {ts : List (Scope κ)} (h : ∀ t ∈ ts, t.refcnt = 0) : Droppable ts :=
  List.pairwise_of_forall_mem_list fun t ht _ _ hheld => absurd (h t ht) hheld

/-- Closing droppable scopes leaves those that are held. -/
theorem closeTop_of_droppable {ts : List (Scope κ)} (h : Droppable ts) :
    closeTop ts = (ts.filter (·.refcnt ≠ 0)).map Scope.shut := by
  induction ts using List.reverseRecOn with
  | nil => rfl
  | append_singleton ts t ih =>
    obtain ⟨hts, hheld⟩ := droppable_concat.mp h
    rw [closeTop_concat, List.filter_append, List.map_append]
    by_cases hfree : t.refcnt = 0
    · -- Everything above `t` is free as well.
      have hnone : ts.filter (·.refcnt ≠ 0) = [] :=
        List.filter_eq_nil_iff.mpr fun u hu hne =>
          hheld u hu (of_decide_eq_true hne) hfree
      rw [if_pos hfree, hnone]
      simp [hfree]
    · rw [if_neg hfree, ih hts]
      simp [hfree]

/-- The scopes that are left are some of those that have been there, in the same order. -/
theorem closeTop_sublist (ts : List (Scope κ)) : (addrs (closeTop ts)).Sublist (addrs ts) := by
  have haddrs : addrs (closeTop ts) = addrs (ts.rtakeWhile (·.refcnt ≠ 0)) := by
    rw [closeTop, addrs, List.map_map]
    rfl
  rw [haddrs]
  exact (List.rtakeWhile_suffix _ ts).sublist.map _

/-- **Closing the topmost scopes keeps those that are held exactly if they are droppable.** -/
theorem closeTop_keeps_iff {ts : List (Scope κ)} (hs : Sorted ts) :
    (∀ t ∈ ts, t.refcnt ≠ 0 → t.addr ∈ addrs (closeTop ts)) ↔ Droppable ts := by
  constructor
  · intro hkeeps
    induction ts using List.reverseRecOn with
    | nil => exact List.Pairwise.nil
    | append_singleton ts t ih =>
      obtain ⟨hts, -, hlt⟩ := List.pairwise_append.mp hs
      rw [closeTop_concat] at hkeeps
      by_cases hfree : t.refcnt = 0
      · -- Nothing is left, so nothing has been held.
        apply droppable_of_free
        intro u hu
        by_contra hheld
        have hmem := hkeeps u hu hheld
        rw [if_pos hfree] at hmem
        cases hmem
      · apply droppable_concat.mpr
        refine ⟨ih hts fun u hu hheld => ?_, fun _ _ _ => hfree⟩
        have hmem := hkeeps u (List.mem_append_left _ hu) hheld
        rw [if_neg hfree, addrs_append] at hmem
        rcases List.mem_append.mp hmem with hleft | hlast
        · exact hleft
        · have heq : u.addr = t.addr := by simpa [addrs] using hlast
          exact absurd (hlt u hu t (List.mem_singleton.mpr rfl))
            (by rw [heq]; exact Nat.lt_irrefl _)
  · intro hdrop t ht hheld
    rw [closeTop_of_droppable hdrop]
    exact mem_addrs.mpr ⟨t.shut,
      List.mem_map_of_mem (List.mem_filter.mpr ⟨ht, decide_eq_true hheld⟩), rfl⟩

/-- A scope that is left of the topmost scopes has been there, and has been held. -/
theorem mem_closeTop {ts : List (Scope κ)} {t : Scope κ} (h : t ∈ closeTop ts) :
    ∃ u ∈ ts, u.refcnt ≠ 0 ∧ t = u.shut := by
  obtain ⟨u, hu, rfl⟩ := List.mem_map.mp h
  refine ⟨u, (List.rtakeWhile_suffix _ ts).subset hu, ?_, rfl⟩
  simpa using List.mem_rtakeWhile_imp hu

theorem openTags_closeTop (ts : List (Scope κ)) : openTags (closeTop ts) = [] := by
  rw [openTags, List.map_eq_nil_iff, List.filter_eq_nil_iff]
  intro t ht
  obtain ⟨u, -, -, rfl⟩ := mem_closeTop ht
  simp

/-- The scopes through one of those that have been opened are among these. -/
theorem throughTag_append {ts rest : List (Scope κ)} {a : Nat} (h : a ∈ addrs ts) :
    throughTag (ts ++ rest) (some a) = throughTag ts (some a) := by
  induction ts with
  | nil => cases h
  | cons t ts ih =>
    simp only [List.cons_append, throughTag]
    split
    · rfl
    · rename_i hne
      rw [ih]
      rcases List.mem_cons.mp h with heq | htail
      · exact absurd (congrArg some heq.symm) hne
      · exact htail

/-- The scopes through the last one are all scopes. -/
theorem throughTag_getLast {ts : List (Scope κ)} (hs : Sorted ts) {a : Nat}
    (h : ts.getLast?.map Scope.addr = some a) : throughTag ts (some a) = ts := by
  induction ts with
  | nil => rfl
  | cons t ts ih =>
    obtain ⟨hlt, htail⟩ := List.pairwise_cons.mp hs
    cases ts with
    | nil => simp [throughTag]
    | cons u ts =>
      rw [List.getLast?_cons_cons] at h
      -- The scope is further down.
      obtain ⟨v, hv, hva⟩ := Option.map_eq_some_iff.mp h
      have hne : t.addr ≠ a := by
        rw [← hva]
        exact Nat.ne_of_gt (hlt v (List.mem_of_getLast? hv))
      rw [throughTag, if_neg fun heq => hne (Option.some.inj heq), ih htail h]

/-- The scopes through none of them are all scopes. -/
theorem throughTag_none (ts : List (Scope κ)) : throughTag ts none = ts := by
  induction ts with
  | nil => rfl
  | cons t ts ih => simp [throughTag, ih]

/-- So are the scopes through one that is not on the stack. -/
theorem throughTag_of_not_mem {ts : List (Scope κ)} {a : Nat} (h : a ∉ addrs ts) :
    throughTag ts (some a) = ts := by
  induction ts with
  | nil => rfl
  | cons t ts ih =>
    obtain ⟨hne, htail⟩ := not_or.mp fun hor => h (List.mem_cons.mpr hor)
    rw [throughTag, if_neg fun heq => hne (Option.some.inj heq).symm]
    exact congrArg (t :: ·) (ih htail)

theorem exists_throughTag_append (ts : List (Scope κ)) (a : Option Nat) :
    ∃ us, ts = throughTag ts a ++ us := by
  induction ts with
  | nil => exact ⟨[], rfl⟩
  | cons t ts ih =>
    obtain ⟨us, hus⟩ := ih
    simp only [throughTag]
    split
    · exact ⟨ts, rfl⟩
    · exact ⟨us, congrArg (t :: ·) hus⟩

/-! ## §4 Closing one scope after another -/

theorem Scope.shut_of_closed {t : Scope κ} (h : t.closed = true) : t.shut = t := by
  cases t
  cases h
  rfl

theorem sorted_iff {ts : List (Scope κ)} : Sorted ts ↔ (addrs ts).Pairwise (· > ·) := by
  rw [Sorted, addrs, List.pairwise_map]

/-- Changing a scope, with some scopes above it and some below. -/
theorem State.modify_tags {s : State κ} {kept rest : List (Scope κ)} {t : Scope κ}
    (h : s.tags = kept ++ t :: rest) (hs : Sorted s.tags) (f : Scope κ → Scope κ) :
    (s.modify t.addr f).tags = kept ++ f t :: rest := by
  rw [h] at hs
  obtain ⟨-, hbelow, habove⟩ := List.pairwise_append.mp hs
  have hkept : ∀ u ∈ kept, u.addr ≠ t.addr := fun u hu =>
    Nat.ne_of_gt (habove u hu t List.mem_cons_self)
  have hrest : ∀ u ∈ rest, u.addr ≠ t.addr := fun u hu =>
    Nat.ne_of_lt ((List.pairwise_cons.mp hbelow).1 u hu)
  have hsame : ∀ us : List (Scope κ), (∀ u ∈ us, u.addr ≠ t.addr) →
      us.map (fun u => if u.addr = t.addr then f u else u) = us := fun us hus =>
    (List.map_congr_left fun u hu => if_neg (hus u hu)).trans (List.map_id us)
  rw [State.modify, h, List.map_append, List.map_cons, if_pos rfl, hsame kept hkept,
    hsame rest hrest]

/-- Closing a scope, with some scopes above it and some below. -/
theorem State.close_tags {s : State κ} {kept rest : List (Scope κ)} {t : Scope κ}
    (h : s.tags = kept ++ t :: rest) (hs : Sorted s.tags) :
    (s.close t).tags = (if t.refcnt = 0 then [] else kept ++ [t.shut]) ++ rest := by
  have hshut : (if t.closed then s
      else { s.modify t.addr Scope.shut with log := s.log ++ [.finish t.tag] }).tags =
        kept ++ t.shut :: rest := by
    split
    · rename_i hclosed
      rw [h, Scope.shut_of_closed hclosed]
    · exact State.modify_tags h hs Scope.shut
  rw [State.close]
  split
  · -- The scopes above have other identities.
    rw [h] at hs
    have habove : ∀ u ∈ kept, decide (u.addr ≠ t.addr) = true := fun u hu =>
      decide_eq_true (Nat.ne_of_gt ((List.pairwise_append.mp hs).2.2 u hu t List.mem_cons_self))
    simp only [hshut]
    rw [List.dropWhile_append_of_pos habove, List.dropWhile_cons_of_neg (by simp)]
    rfl
  · rw [hshut, List.append_assoc]
    rfl

theorem State.close_next (s : State κ) (t : Scope κ) : (s.close t).next = s.next := by
  rw [State.close]
  split <;> split <;> rfl

theorem State.close_log (s : State κ) (t : Scope κ) :
    (s.close t).log = s.log ++ (openTags [t]).map .finish := by
  cases hclosed : t.closed
  · rw [State.close]
    split <;> simp [openTags, hclosed]
  · rw [State.close]
    split <;> simp [openTags, hclosed]

/-- Closing the topmost scopes: what is left of them, and the end tags that are written. -/
theorem State.closeAll_top {s : State κ} {ts rest : List (Scope κ)} (h : s.tags = ts ++ rest)
    (hs : Sorted s.tags) :
    (s.closeAll ts).tags = closeTop ts ++ rest ∧ (s.closeAll ts).next = s.next ∧
      (s.closeAll ts).log = s.log ++ (openTags ts).map .finish := by
  induction ts using List.reverseRecOn generalizing rest with
  | nil => exact ⟨h, rfl, (List.append_nil _).symm⟩
  | append_singleton ts t ih =>
    rw [List.append_assoc] at h
    obtain ⟨htags, hnext, hlog⟩ := ih h
    have hsorted : Sorted (s.closeAll ts).tags := by
      rw [htags]
      rw [h] at hs
      have hsub := (closeTop_sublist ts).append (List.Sublist.refl (addrs ([t] ++ rest)))
      rw [← addrs_append, ← addrs_append] at hsub
      exact sorted_iff.mpr (List.Pairwise.sublist hsub (sorted_iff.mp hs))
    have hstep : s.closeAll (ts ++ [t]) = (s.closeAll ts).close t := by
      rw [State.closeAll, List.foldl_append]
      rfl
    rw [hstep]
    refine ⟨?_, (State.close_next _ t).trans hnext, ?_⟩
    · rw [closeTop_concat]
      exact State.close_tags htags hsorted
    · rw [State.close_log, hlog, openTags_append, List.map_append, List.append_assoc]

theorem State.closeAll_sorted {s : State κ} {ts rest : List (Scope κ)} (h : s.tags = ts ++ rest)
    (hs : Sorted s.tags) : Sorted (s.closeAll ts).tags := by
  have hsub := (closeTop_sublist ts).append (List.Sublist.refl (addrs rest))
  rw [← addrs_append, ← addrs_append] at hsub
  rw [(State.closeAll_top h hs).1]
  rw [h] at hs
  exact sorted_iff.mpr (List.Pairwise.sublist hsub (sorted_iff.mp hs))

/-- Closing scopes changes neither their identities nor the number of activations that hold them. -/
theorem State.mem_closeAll {s : State κ} {ts rest : List (Scope κ)} (h : s.tags = ts ++ rest)
    (hs : Sorted s.tags) {t : Scope κ} (ht : t ∈ (s.closeAll ts).tags) :
    ∃ u ∈ s.tags, t.addr = u.addr ∧ t.refcnt = u.refcnt := by
  rw [(State.closeAll_top h hs).1] at ht
  rw [h]
  rcases List.mem_append.mp ht with ht | ht
  · obtain ⟨u, hu, -, rfl⟩ := mem_closeTop ht
    exact ⟨u, List.mem_append_left _ hu, rfl, rfl⟩
  · exact ⟨t, List.mem_append_right _ ht, rfl, rfl⟩

/-! ## §5 The discipline -/

/-- An activation of the program. -/
structure Frame where
  /-- The scope that was on top of the stack when the activation began. -/
  tag : Nat
  /-- The identity of the first scope that can have been opened since then. -/
  mark : Nat
deriving DecidableEq, Repr

/-- The stack fits the activations, the innermost of which comes first. -/
structure State.Disciplined [DecidableEq κ] (s : State κ) (frames : List Frame) : Prop where
  sorted : Sorted s.tags
  fresh : ∀ t ∈ s.tags, t.addr < s.next
  /-- Each scope counts the activations that hold it. -/
  counted : ∀ t ∈ s.tags, t.refcnt = (frames.map Frame.tag).count t.addr
  /-- The scope of each activation is on the stack. -/
  held : ∀ f ∈ frames, f.tag ∈ addrs s.tags
  /-- Inner activations hold the same scopes as outer ones, or inner scopes. -/
  ordered : frames.Pairwise fun f g => g.tag ≤ f.tag
  /-- What is above the scope of an activation has been opened since the activation began. -/
  apart : ∀ f ∈ frames, f.mark ≤ s.next ∧ ∀ t ∈ s.tags, t.addr ≤ f.tag ∨ f.mark ≤ t.addr
  /-- What was written is nested, and end tags are missing for the scopes that are not closed. -/
  nested : openAfter [] s.log = some (openTags s.tags)

variable [DecidableEq κ] {s b : State κ} {frames : List Frame}

/-- An activation begins, and holds the innermost scope. -/
def Scope.hold (t : Scope κ) : Scope κ := { t with refcnt := t.refcnt + 1 }

/-- An activation ends, and does not hold the scope any more. -/
def Scope.release (t : Scope κ) : Scope κ := { t with refcnt := t.refcnt - 1 }

/-- A scope is opened. -/
theorem State.Disciplined.push (h : s.Disciplined frames) (k : κ) :
    (s.push k).Disciplined frames where
  sorted := List.pairwise_cons.mpr ⟨h.fresh, h.sorted⟩
  fresh t ht := by
    rcases List.mem_cons.mp ht with rfl | ht
    · exact Nat.lt_succ_self _
    · exact Nat.lt_succ_of_lt (h.fresh t ht)
  counted t ht := by
    rcases List.mem_cons.mp ht with rfl | ht
    · -- No activation can hold the new scope yet.
      apply (List.count_eq_zero_of_not_mem ?_).symm
      intro hmem
      obtain ⟨f, hf, hft⟩ := List.mem_map.mp hmem
      obtain ⟨t, ht, hta⟩ := mem_addrs.mp (h.held f hf)
      have hlt := h.fresh t ht
      rw [hta, hft] at hlt
      exact Nat.lt_irrefl _ hlt
    · exact h.counted t ht
  held f hf := List.mem_cons_of_mem _ (h.held f hf)
  ordered := h.ordered
  apart f hf := by
    obtain ⟨hmark, hapart⟩ := h.apart f hf
    refine ⟨Nat.le_succ_of_le hmark, fun t ht => ?_⟩
    rcases List.mem_cons.mp ht with rfl | ht
    · exact .inr hmark
    · exact hapart t ht
  nested := by
    rw [State.push, openAfter_append _ h.nested]
    rfl

/-- An element without an end tag is written. -/
theorem State.Disciplined.mark (h : s.Disciplined frames) (k : κ) :
    (s.mark k).Disciplined frames where
  sorted := h.sorted
  fresh := h.fresh
  counted := h.counted
  held := h.held
  ordered := h.ordered
  apart := h.apart
  nested := by
    rw [State.mark, openAfter_append _ h.nested]
    rfl

/-- If all activations find their scopes on the stack after the topmost scopes have been closed,
    then these have been droppable. -/
theorem State.Disciplined.droppable (h : s.Disciplined frames) {ts rest : List (Scope κ)}
    (htags : s.tags = ts ++ rest) (hheld : ∀ f ∈ frames, f.tag ∈ addrs (s.closeAll ts).tags) :
    Droppable ts := by
  have hsorted := h.sorted
  rw [htags] at hsorted
  apply (closeTop_keeps_iff (List.pairwise_append.mp hsorted).1).mp
  intro t ht hcount
  rw [h.counted t (htags ▸ List.mem_append_left _ ht)] at hcount
  obtain ⟨f, hf, hft⟩ := List.mem_map.mp (List.count_pos_iff.mp (Nat.pos_of_ne_zero hcount))
  have hmem := hheld f hf
  rw [(State.closeAll_top htags h.sorted).1, addrs_append, hft] at hmem
  rcases List.mem_append.mp hmem with hmem | hmem
  · exact hmem
  · -- The scopes below have been opened earlier.
    obtain ⟨u, hu, hua⟩ := mem_addrs.mp hmem
    have hlt := (List.pairwise_append.mp hsorted).2.2 t ht u hu
    rw [hua] at hlt
    exact absurd hlt (Nat.lt_irrefl _)

/-- **Closing the topmost scopes keeps the discipline if they are droppable.** -/
theorem State.Disciplined.closeAll (h : s.Disciplined frames) {ts rest : List (Scope κ)}
    (htags : s.tags = ts ++ rest) (hdrop : Droppable ts) : (s.closeAll ts).Disciplined frames := by
  obtain ⟨hclosed, hnext, hlog⟩ := State.closeAll_top htags h.sorted
  have hsorted := h.sorted
  rw [htags] at hsorted
  have hin := fun {t} => @State.mem_closeAll κ s ts rest htags h.sorted t
  constructor
  · exact State.closeAll_sorted htags h.sorted
  · intro t ht
    obtain ⟨u, hu, haddr, -⟩ := hin ht
    rw [haddr, hnext]
    exact h.fresh u hu
  · intro t ht
    obtain ⟨u, hu, haddr, hrefcnt⟩ := hin ht
    rw [haddr, hrefcnt]
    exact h.counted u hu
  · intro f hf
    -- A frame holds its scope, so the scope is not dropped.
    obtain ⟨t, ht, hta⟩ := mem_addrs.mp (h.held f hf)
    rw [hclosed, addrs_append]
    rw [htags] at ht
    rcases List.mem_append.mp ht with hmem | hmem
    · apply List.mem_append_left
      have hheld : t.refcnt ≠ 0 := by
        rw [h.counted t (htags ▸ ht), hta]
        exact Nat.ne_of_gt (List.count_pos_iff.mpr (List.mem_map_of_mem hf))
      have hkept := (closeTop_keeps_iff (List.pairwise_append.mp hsorted).1).mpr hdrop t hmem hheld
      rwa [hta] at hkept
    · exact List.mem_append_right _ (mem_addrs.mpr ⟨t, hmem, hta⟩)
  · exact h.ordered
  · intro f hf
    obtain ⟨hmark, hapart⟩ := h.apart f hf
    refine ⟨hnext ▸ hmark, fun t ht => ?_⟩
    obtain ⟨u, hu, haddr, -⟩ := hin ht
    rw [haddr]
    exact hapart u hu
  · -- The log grows by the scopes that are closed.
    rw [hlog, openAfter_append _ h.nested, hclosed, htags, openTags_append, openTags_append,
      openTags_closeTop]
    exact openAfter_finish _ _

/-- The scopes are the same, apart from the number of activations that hold the scope `a`. -/
theorem State.Disciplined.recount (h : s.Disciplined frames) {a : Nat} (f : Scope κ → Scope κ)
    {frames' : List Frame}
    (hf : ∀ t, (f t).addr = t.addr ∧ (f t).tag = t.tag ∧ (f t).closed = t.closed)
    (hcount : ∀ t ∈ s.tags, (if t.addr = a then f t else t).refcnt =
      (frames'.map Frame.tag).count t.addr)
    (hheld : ∀ g ∈ frames', g.tag ∈ addrs s.tags)
    (hordered : frames'.Pairwise fun f g => g.tag ≤ f.tag)
    (hapart : ∀ g ∈ frames', g.mark ≤ s.next ∧ ∀ t ∈ s.tags, t.addr ≤ g.tag ∨ g.mark ≤ t.addr) :
    (s.modify a f).Disciplined frames' := by
  -- Addresses, tags, and the order of open scopes do not change.
  have hsame : ∀ t : Scope κ, (if t.addr = a then f t else t).addr = t.addr ∧
      (if t.addr = a then f t else t).tag = t.tag ∧
      (if t.addr = a then f t else t).closed = t.closed := by
    intro t
    split
    · exact hf t
    · exact ⟨rfl, rfl, rfl⟩
  have hin : ∀ t ∈ (s.modify a f).tags, ∃ u ∈ s.tags, t = if u.addr = a then f u else u := by
    intro t ht
    obtain ⟨u, hu, rfl⟩ := List.mem_map.mp ht
    exact ⟨u, hu, rfl⟩
  have haddrs : addrs (s.modify a f).tags = addrs s.tags := by
    rw [addrs, State.modify, List.map_map]
    exact List.map_congr_left fun t _ => (hsame t).1
  have hopen : openTags (s.modify a f).tags = openTags s.tags := by
    simp only [openTags, State.modify]
    induction s.tags with
    | nil => rfl
    | cons t ts ih =>
      simp only [List.map_cons, List.filter_cons, (hsame t).2.2]
      split
      · simp only [List.map_cons, (hsame t).2.1, ih]
      · exact ih
  -- What is required of the counts and frames was assumed; the rest is as before.
  constructor
  · rw [sorted_iff, haddrs]
    exact sorted_iff.mp h.sorted
  · intro t ht
    obtain ⟨u, hu, rfl⟩ := hin t ht
    rw [(hsame u).1]
    exact h.fresh u hu
  · intro t ht
    obtain ⟨u, hu, rfl⟩ := hin t ht
    rw [(hsame u).1]
    exact hcount u hu
  · intro g hg
    rw [haddrs]
    exact hheld g hg
  · exact hordered
  · intro g hg
    refine ⟨(hapart g hg).1, fun t ht => ?_⟩
    obtain ⟨u, hu, rfl⟩ := hin t ht
    rw [(hsame u).1]
    exact (hapart g hg).2 u hu
  · rw [hopen]
    exact h.nested

/-- An activation begins. -/
theorem State.Disciplined.hold (h : s.Disciplined frames) {t : Scope κ} {rest : List (Scope κ)}
    (htags : s.tags = t :: rest) :
    (s.modify t.addr Scope.hold).Disciplined (⟨t.addr, s.next⟩ :: frames) := by
  have htop : ∀ u ∈ s.tags, u.addr ≤ t.addr := by
    have hsorted := h.sorted
    rw [htags] at hsorted ⊢
    intro u hu
    rcases List.mem_cons.mp hu with rfl | hu
    · exact Nat.le_refl _
    · exact Nat.le_of_lt ((List.pairwise_cons.mp hsorted).1 u hu)
  apply h.recount Scope.hold fun u => ⟨rfl, rfl, rfl⟩
  · intro u hu
    rw [List.map_cons, List.count_cons]
    split
    · rename_i heq
      simp [Scope.hold, h.counted u hu, heq]
    · rename_i hne
      simp [h.counted u hu, Ne.symm hne]
  · intro g hg
    rcases List.mem_cons.mp hg with rfl | hg
    · exact mem_addrs.mpr ⟨t, htags ▸ List.mem_cons_self, rfl⟩
    · exact h.held g hg
  · refine List.pairwise_cons.mpr ⟨fun g hg => ?_, h.ordered⟩
    obtain ⟨u, hu, hua⟩ := mem_addrs.mp (h.held g hg)
    exact hua ▸ htop u hu
  · intro g hg
    rcases List.mem_cons.mp hg with rfl | hg
    · exact ⟨Nat.le_refl _, fun u hu => .inl (htop u hu)⟩
    · exact h.apart g hg

/-- An activation ends. -/
theorem State.Disciplined.release {f : Frame} (h : s.Disciplined (f :: frames)) :
    (s.modify f.tag Scope.release).Disciplined frames := by
  apply h.recount Scope.release fun u => ⟨rfl, rfl, rfl⟩
  · intro u hu
    have hcount := h.counted u hu
    rw [List.map_cons, List.count_cons] at hcount
    split
    · rename_i heq
      simp [heq] at hcount
      simp [Scope.release, hcount, heq]
    · rename_i hne
      simpa [Ne.symm hne] using hcount
  · exact fun g hg => h.held g (List.mem_cons_of_mem f hg)
  · exact (List.pairwise_cons.mp h.ordered).2
  · exact fun g hg => h.apart g (List.mem_cons_of_mem f hg)

/-- No activation holds the scopes above the one that the innermost activation holds, and these
    have been opened by it. -/
theorem State.Disciplined.above {f : Frame} (h : s.Disciplined (f :: frames)) {t : Scope κ}
    (ht : t ∈ s.tags) (hlt : f.tag < t.addr) : t.refcnt = 0 ∧ f.mark ≤ t.addr := by
  constructor
  · rw [h.counted t ht]
    apply List.count_eq_zero_of_not_mem
    intro hmem
    obtain ⟨g, hg, hgt⟩ := List.mem_map.mp hmem
    rcases List.mem_cons.mp hg with rfl | hg
    · exact Nat.ne_of_lt hlt hgt
    · have hle := (List.pairwise_cons.mp h.ordered).1 g hg
      exact absurd (Nat.lt_of_le_of_lt hle hlt) (by rw [hgt]; exact Nat.lt_irrefl _)
  · rcases (h.apart f List.mem_cons_self).2 t ht with hle | hmark
    · exact absurd hle (Nat.not_le_of_lt hlt)
    · exact hmark

/-! ## §6 Opening some more scopes -/

/-- On top of the scopes of the state `b`, the scopes `ts` have been opened, which no activation
    holds. -/
structure Added (b s : State κ) (ts : List (Scope κ)) : Prop where
  tags : s.tags = ts ++ b.tags
  sorted : Sorted s.tags
  fresh : ∀ t ∈ s.tags, t.addr < s.next
  free : ∀ t ∈ ts, t.refcnt = 0 ∧ t.closed = false ∧ b.next ≤ t.addr
  next : b.next ≤ s.next
  nested : ∃ es, s.log = b.log ++ es ∧ ∀ ks, openAfter ks es = some (openTags ts ++ ks)

theorem Added.refl (hsorted : Sorted b.tags) (hfresh : ∀ t ∈ b.tags, t.addr < b.next) :
    Added b b [] where
  tags := rfl
  sorted := hsorted
  fresh := hfresh
  free := fun _ ht => absurd ht List.not_mem_nil
  next := Nat.le_refl _
  nested := ⟨[], (List.append_nil _).symm, fun _ => rfl⟩

/-- One scope more. -/
theorem Added.push {ts : List (Scope κ)} (h : Added b s ts) (k : κ) :
    Added b (s.push k) ({ addr := s.next, tag := k } :: ts) where
  tags := by
    rw [State.push, h.tags]
    rfl
  sorted := List.pairwise_cons.mpr ⟨h.fresh, h.sorted⟩
  fresh t ht := by
    rcases List.mem_cons.mp ht with rfl | ht
    · exact Nat.lt_succ_self _
    · exact Nat.lt_succ_of_lt (h.fresh t ht)
  free t ht := by
    rcases List.mem_cons.mp ht with rfl | ht
    · exact ⟨rfl, rfl, h.next⟩
    · exact h.free t ht
  next := Nat.le_succ_of_le h.next
  nested := by
    obtain ⟨es, hlog, hopen⟩ := h.nested
    refine ⟨es ++ [.start k], by rw [State.push, hlog, List.append_assoc], fun ks => ?_⟩
    rw [openAfter_append _ (hopen ks)]
    rfl

theorem Added.mark {ts : List (Scope κ)} (h : Added b s ts) (k : κ) : Added b (s.mark k) ts where
  tags := h.tags
  sorted := h.sorted
  fresh := h.fresh
  free := h.free
  next := h.next
  nested := by
    obtain ⟨es, hlog, hopen⟩ := h.nested
    refine ⟨es ++ [.empty k], by rw [State.mark, hlog, List.append_assoc], fun ks => ?_⟩
    rw [openAfter_append _ (hopen ks)]
    rfl

theorem Added.trans {s' : State κ} {ts ts' : List (Scope κ)} (h : Added b s ts)
    (h' : Added s s' ts') : Added b s' (ts' ++ ts) where
  tags := by rw [h'.tags, h.tags, List.append_assoc]
  sorted := h'.sorted
  fresh := h'.fresh
  free t ht := by
    rcases List.mem_append.mp ht with ht | ht
    · obtain ⟨hfree, hopen, hle⟩ := h'.free t ht
      exact ⟨hfree, hopen, Nat.le_trans h.next hle⟩
    · exact h.free t ht
  next := Nat.le_trans h.next h'.next
  nested := by
    obtain ⟨es, hlog, hopen⟩ := h.nested
    obtain ⟨es', hlog', hopen'⟩ := h'.nested
    refine ⟨es ++ es', by rw [hlog', hlog, List.append_assoc], fun ks => ?_⟩
    rw [openAfter_append _ (hopen ks), hopen', openTags_append, List.append_assoc]

/-- The innermost ones of the scopes that have been opened are closed again. -/
theorem Added.closeAll {ts us : List (Scope κ)} (h : Added b s (ts ++ us)) :
    Added b (s.closeAll ts) us := by
  have htags : s.tags = ts ++ (us ++ b.tags) := by rw [h.tags, List.append_assoc]
  obtain ⟨hclosed, hnext, hlog⟩ := State.closeAll_top htags h.sorted
  -- Nothing holds these scopes, so all of them are taken off the stack.
  have hnone : closeTop ts = [] := by
    rw [closeTop_of_droppable
      (droppable_of_free fun t ht => (h.free t (List.mem_append_left _ ht)).1)]
    have hempty : ts.filter (·.refcnt ≠ 0) = [] :=
      List.filter_eq_nil_iff.mpr fun t ht hne =>
        of_decide_eq_true hne (h.free t (List.mem_append_left _ ht)).1
    rw [hempty]
    rfl
  rw [hnone, List.nil_append] at hclosed
  have hsub : ∀ t ∈ (s.closeAll ts).tags, t ∈ s.tags := by
    intro t ht
    rw [hclosed] at ht
    rw [htags]
    exact List.mem_append_right _ ht
  constructor
  · exact hclosed
  · have hsorted := h.sorted
    rw [htags] at hsorted
    rw [hclosed]
    exact (List.pairwise_append.mp hsorted).2.1
  · exact fun t ht => hnext ▸ h.fresh t (hsub t ht)
  · exact fun t ht => h.free t (List.mem_append_right _ ht)
  · exact hnext ▸ h.next
  · -- An end tag is written for each of them that is open.
    obtain ⟨es, hes, hopen⟩ := h.nested
    refine ⟨es ++ (openTags ts).map .finish, by rw [hlog, hes, List.append_assoc], fun ks => ?_⟩
    rw [openAfter_append _ (hopen ks), openTags_append, List.append_assoc]
    exact openAfter_finish _ _

/-- Whatever has been opened on top of a stack that is disciplined, the stack still is. -/
theorem Added.disciplined {ts : List (Scope κ)} (h : Added b s ts) (hb : b.Disciplined frames) :
    s.Disciplined frames where
  sorted := h.sorted
  fresh := h.fresh
  counted t ht := by
    rw [h.tags] at ht
    rcases List.mem_append.mp ht with hnew | hold
    · obtain ⟨hfree, -, hle⟩ := h.free t hnew
      rw [hfree]
      apply (List.count_eq_zero_of_not_mem ?_).symm
      intro hmem
      -- The activations hold scopes that have been there before.
      obtain ⟨f, hf, hft⟩ := List.mem_map.mp hmem
      obtain ⟨u, hu, hua⟩ := mem_addrs.mp (hb.held f hf)
      have hlt := hb.fresh u hu
      rw [hua, hft] at hlt
      exact Nat.not_lt_of_le hle hlt
    · exact hb.counted t hold
  held f hf := by
    rw [h.tags, addrs_append]
    exact List.mem_append_right _ (hb.held f hf)
  ordered := hb.ordered
  apart f hf := by
    obtain ⟨hmark, hapart⟩ := hb.apart f hf
    refine ⟨Nat.le_trans hmark h.next, fun t ht => ?_⟩
    rw [h.tags] at ht
    rcases List.mem_append.mp ht with hnew | hold
    · exact .inr (Nat.le_trans hmark (h.free t hnew).2.2)
    · exact hapart t hold
  nested := by
    obtain ⟨es, hlog, hopen⟩ := h.nested
    rw [hlog, openAfter_append _ hb.nested, hopen, h.tags, openTags_append]

end OpenScopes
