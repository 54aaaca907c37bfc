import Mandoc.Lib.SiblingLinks

/-!
# Sorting Siblings in Place

Insertion sort on the doubly linked children of a node. In each round one node is taken out of
the chain, its place is looked for from there towards the beginning, and the node is put back.
The pointer from the parent to its last child is not maintained.

- `StableSorted key l l'` specifies the stable sort of a list by a key.
- `Chain.detach`, `scanBack_eq`, and `Chain.putBack` describe the three parts of one round.
- `Chain.round` says that a round extends the sorted part of the chain by one node.
-/

namespace OrderedForest

variable {ν : Type*} {κ : Type*} [LinearOrder κ] {key : ν → κ} {l l' d d₁ d₂ t : List ν} {n : ν}

/-! ## §1 Stable sorting -/

/-- The second list consists of the elements of the first one in the order of their keys, and
    elements with the same key are in the same order as before. -/
structure StableSorted (key : ν → κ) (l l' : List ν) : Prop where
  perm : l'.Perm l
  sorted : l'.Pairwise fun a b => key a ≤ key b
  stable : ∀ k, l'.filter (key · = k) = l.filter (key · = k)

theorem stableSorted_nil : StableSorted key [] [] := ⟨.nil, .nil, fun _ => rfl⟩

theorem stableSorted_singleton (n : ν) : StableSorted key [n] [n] :=
  ⟨.refl _, List.pairwise_singleton _ n, fun _ => rfl⟩

/-- A sorted list is determined by the elements with each key. -/
theorem eq_of_sorted (hl : l.Pairwise fun a b => key a ≤ key b)
    (hl' : l'.Pairwise fun a b => key a ≤ key b)
    (h : ∀ k, l.filter (key · = k) = l'.filter (key · = k)) : l = l' := by
  have hmem : ∀ {l l' : List ν}, (∀ k, l.filter (key · = k) = l'.filter (key · = k)) →
      ∀ a ∈ l, a ∈ l' := by
    intro l l' h a ha
    have hfilter : a ∈ l.filter (key · = key a) := List.mem_filter.mpr ⟨ha, by simp⟩
    rw [h] at hfilter
    exact (List.mem_filter.mp hfilter).1
  induction l generalizing l' with
  | nil =>
    cases l' with
    | nil => rfl
    | cons b l' =>
      exact absurd (hmem (fun k => (h k).symm) b (List.mem_cons_self ..)) List.not_mem_nil
  | cons a l ih =>
    cases l' with
    | nil => exact absurd (hmem h a (List.mem_cons_self ..)) List.not_mem_nil
    | cons b l' =>
      obtain ⟨ha, htail⟩ := List.pairwise_cons.mp hl
      obtain ⟨hb, htail'⟩ := List.pairwise_cons.mp hl'
      -- Both lists begin with an element with the smallest key.
      have hab : key a ≤ key b := by
        rcases List.mem_cons.mp (hmem (fun k => (h k).symm) b (List.mem_cons_self ..)) with heq | hin
        · rw [heq]
        · exact ha b hin
      have hba : key b ≤ key a := by
        rcases List.mem_cons.mp (hmem h a (List.mem_cons_self ..)) with heq | hin
        · rw [heq]
        · exact hb a hin
      have hkey : key a = key b := le_antisymm hab hba
      have hhead := h (key a)
      rw [List.filter_cons_of_pos (by simp), List.filter_cons_of_pos (by simp [hkey])] at hhead
      obtain ⟨rfl, -⟩ := List.cons.inj hhead
      refine congrArg (a :: ·) (ih htail htail' fun k => ?_)
      have hk := h k
      by_cases hak : key a = k
      · rw [List.filter_cons_of_pos (by simpa using hak),
          List.filter_cons_of_pos (by simpa using hak)] at hk
        exact (List.cons.inj hk).2
      · rwa [List.filter_cons_of_neg (by simpa using hak),
          List.filter_cons_of_neg (by simpa using hak)] at hk

/-- There is only one stable sort. -/
theorem StableSorted.unique {l₁ l₂ : List ν} (h₁ : StableSorted key l l₁)
    (h₂ : StableSorted key l l₂) : l₁ = l₂ :=
  eq_of_sorted h₁.sorted h₂.sorted fun k => (h₁.stable k).trans (h₂.stable k).symm

/-- Inserting one more element behind those that are not larger. -/
theorem StableSorted.insert (h : StableSorted key l (d₁ ++ d₂)) (hle : ∀ a ∈ d₁.getLast?, key a ≤ key n)
    (hlt : ∀ a ∈ d₂, key n < key a) : StableSorted key (l ++ [n]) (d₁ ++ n :: d₂) := by
  obtain ⟨hs₁, hs₂, hs₁₂⟩ := List.pairwise_append.mp h.sorted
  have hall : ∀ a ∈ d₁, key a ≤ key n := by
    intro a ha
    rcases List.eq_nil_or_concat d₁ with rfl | ⟨d, b, rfl⟩
    · cases ha
    · rw [List.concat_eq_append] at ha hs₁ hle
      have hb := hle b List.getLast?_concat
      rcases List.mem_append.mp ha with hd | hlast
      · exact le_trans ((List.pairwise_append.mp hs₁).2.2 a hd b (List.mem_singleton_self b)) hb
      · exact List.mem_singleton.mp hlast ▸ hb
  refine ⟨?_, ?_, fun k => ?_⟩
  · exact List.perm_middle.trans ((h.perm.cons n).trans (List.perm_append_singleton n l).symm)
  · refine List.pairwise_append.mpr ⟨hs₁, List.pairwise_cons.mpr ⟨fun a ha => (hlt a ha).le, hs₂⟩, ?_⟩
    intro a ha b hb
    rcases List.mem_cons.mp hb with rfl | hb
    · exact hall a ha
    · exact hs₁₂ a ha b hb
  · rw [List.filter_append, List.filter_append, ← h.stable k, List.filter_append]
    by_cases hk : key n = k
    · have hnone : d₂.filter (key · = k) = [] := by
        rw [List.filter_eq_nil_iff]
        intro a ha
        simpa using (hk ▸ hlt a ha).ne'
      rw [List.filter_cons_of_pos (by simpa using hk), hnone, List.append_nil]
      simp [hk]
    · rw [List.filter_cons_of_neg (by simpa using hk)]
      simp [hk]

/-- The element at the end stays there if no key is larger. -/
theorem StableSorted.getLast?_eq_iff (h : StableSorted key l l') :
    l'.getLast? = l.getLast? ↔ ∀ b ∈ l.getLast?, ∀ a ∈ l, key a ≤ key b := by
  rcases List.eq_nil_or_concat l with rfl | ⟨l, b, rfl⟩
  · rw [h.perm.eq_nil]
    simp
  · rw [List.concat_eq_append, List.getLast?_concat]
    constructor
    · intro heq c hc a ha
      obtain rfl := Option.some.inj hc
      obtain ⟨m, rfl⟩ := List.getLast?_eq_some_iff.mp heq
      have hmem : a ∈ m ++ [b] := h.perm.mem_iff.mpr (by simpa using ha)
      rcases List.mem_append.mp hmem with hin | hlast
      · exact (List.pairwise_append.mp h.sorted).2.2 a hin b (List.mem_singleton_self b)
      · rw [List.mem_singleton.mp hlast]
    · intro hall
      rcases List.eq_nil_or_concat l' with rfl | ⟨m, c, rfl⟩
      · exact absurd h.perm.symm.eq_nil (by simp)
      · simp only [List.concat_eq_append] at h ⊢
        have hbc : key b ≤ key c := by
          have hmem : b ∈ m ++ [c] :=
            h.perm.mem_iff.mpr (List.mem_append_right _ (List.mem_singleton_self b))
          rcases List.mem_append.mp hmem with hin | hlast
          · exact (List.pairwise_append.mp h.sorted).2.2 b hin c (List.mem_singleton_self c)
          · rw [List.mem_singleton.mp hlast]
        have hcb : key c ≤ key b := by
          apply hall b rfl
          exact h.perm.mem_iff.mp (List.mem_append_right _ (List.mem_singleton_self c))
        -- The element at the end is the last one with the largest key.
        have hstable := h.stable (key b)
        rw [List.filter_append, List.filter_append,
          List.filter_cons_of_pos (by simp [le_antisymm hcb hbc]), List.filter_nil,
          List.filter_cons_of_pos (by simp), List.filter_nil] at hstable
        have hlast := congrArg List.getLast? hstable
        rw [List.getLast?_concat, List.getLast?_concat] at hlast
        rw [List.getLast?_concat, hlast]

/-! ## §2 The chain of siblings -/

/-- The node `p` points to the first of the children `l`, and these are linked to each other.
    Nothing is said about the pointer to the last child. -/
structure Chain (h : ν → Links ν) (p : ν) (l : List ν) : Prop where
  child : (h p).child = l.head?
  segment : Segment h p none l none

variable {h h' : ν → Links ν} {p : ν}

theorem Children.chain (hc : Children h p l) : Chain h p l := ⟨hc.child, hc.segment⟩

theorem Chain.children (hc : Chain h p l) (hlast : (h p).last = l.getLast?) : Children h p l :=
  ⟨hc.child, hlast, hc.segment⟩

section

variable [DecidableEq ν]

/-- Take a node out of the chain. -/
def detach (h : ν → Links ν) (n : ν) : ν → Links ν :=
  let h := setPrev h (h n).next (h n).prev
  let h := setNext h (h n).prev (h n).next
  setNext (setPrev h (some n) none) (some n) none

/-- Go back to a node that is acceptable; `none` means that the bound on the number of steps is
    too small. -/
def scanBack (accept : ν → Bool) (h : ν → Links ν) : Nat → Option ν → Option (Option ν)
  | _, none => some none
  | 0, some _ => none
  | steps + 1, some prev =>
    if accept prev then some (some prev) else scanBack accept h steps (h prev).prev

/-- Put a node back behind `prev`, or to the beginning, where there must be a child. -/
def putBack (h : ν → Links ν) (p n : ν) (prev : Option ν) : Option (ν → Links ν) :=
  let h := setPrev h (some n) prev
  match prev with
  | none =>
    match (h p).child with
    | none => none
    | some c =>
      let h := setPrev h (some c) (some n)
      let h := setNext h (some n) (some c)
      some (setChild h (some p) (some n))
  | some s =>
    let h := setPrev h (h s).next (some n)
    let h := setNext h (some n) (h s).next
    some (setNext h (some s) (some n))

/-- Taking a node out does not change any pointers to parents or children. -/
@[simp] theorem detach_frame (x : ν) :
    (detach h n x).parent = (h x).parent ∧ (detach h n x).child = (h x).child ∧
      (detach h n x).last = (h x).last := by
  simp [detach]

theorem Chain.detach (hc : Chain h p (d ++ n :: t)) (hl : (d ++ n :: t).Nodup) (hd : d ≠ []) :
    Chain (detach h n) p (d ++ t) := by
  obtain ⟨hs₁, -, hprev, hnext, hs₂⟩ := segment_mid.mp hc.segment
  rw [Option.or_none] at hprev hnext
  obtain ⟨hd₁, hnt, hdisj⟩ := List.nodup_append.mp hl
  obtain ⟨hnt, ht⟩ := List.nodup_cons.mp hnt
  have hnd : n ∉ d := fun hm => hdisj n hm n (List.mem_cons_self ..) rfl
  have hdt : ∀ c ∈ d, c ∉ t := fun c hcd hct => hdisj c hcd c (List.mem_cons_of_mem n hct) rfl
  have hself : ∀ {l : List ν}, n ∉ l → ∀ c ∈ l, some n ≠ some c := by
    rintro l hn c hcl ⟨⟩
    exact hn hcl
  have hlast : ∀ c ∈ t, d.getLast? ≠ some c := fun c hct he => hdt c (List.mem_of_getLast? he) hct
  have hhead : ∀ c ∈ d, t.head? ≠ some c := fun c hcd he => hdt c hcd (List.mem_of_head? he)
  have hnhead : t.head? ≠ some n := fun he => hnt (List.mem_of_head? he)
  refine ⟨?_, segment_append.mpr ⟨?_, ?_⟩⟩
  · rw [(detach_frame p).2.1, hc.child]
    cases d with
    | nil => exact absurd rfl hd
    | cons c d => rfl
  · -- The segment before the node gets the node behind it as its new end.
    simp only [OrderedForest.detach, hprev, hnext, setPrev_of_ne _ hnhead]
    rw [Option.or_none]
    refine Segment.setNext_of_notMem ?_ (hself hnd)
    refine Segment.setPrev_of_notMem ?_ (hself hnd)
    exact (hs₁.setPrev_of_notMem hhead).setNext_last hd₁ _
  · simp only [OrderedForest.detach, hprev, hnext, setPrev_of_ne _ hnhead]
    rw [Option.or_none]
    refine Segment.setNext_of_notMem ?_ (hself hnt)
    refine Segment.setPrev_of_notMem ?_ (hself hnt)
    exact (hs₂.setPrev_head ht _).setNext_of_notMem hlast

omit [DecidableEq ν] in
/-- Scanning back from the end of a segment finds the last acceptable node. -/
theorem scanBack_eq (accept : ν → Bool) {b : Option ν} {steps : Nat} (hs : Segment h p none d b)
    (hsteps : d.length ≤ steps) :
    ∃ d₁ d₂, d = d₁ ++ d₂ ∧ scanBack accept h steps d.getLast? = some d₁.getLast? ∧
      (∀ a ∈ d₁.getLast?, accept a = true) ∧ ∀ a ∈ d₂, accept a = false := by
  induction d using List.reverseRecOn generalizing b steps with
  | nil => exact ⟨[], [], rfl, by cases steps <;> rfl, by simp, by simp⟩
  | append_singleton d c ih =>
    obtain ⟨hd, -, hprev, -, -⟩ := segment_mid.mp hs
    rw [Option.or_none] at hprev
    obtain ⟨steps, rfl⟩ : ∃ m, steps = m + 1 :=
      Nat.exists_eq_add_one.mpr (lt_of_lt_of_le (by simp) hsteps)
    rw [List.getLast?_concat]
    cases hacc : accept c with
    | true =>
      refine ⟨d ++ [c], [], (List.append_nil _).symm, ?_, ?_, by simp⟩
      · rw [scanBack, if_pos hacc, List.getLast?_concat]
      · intro a ha
        rw [List.getLast?_concat] at ha
        exact Option.some.inj ha ▸ hacc
    | false =>
      obtain ⟨d₁, d₂, rfl, hscan, hd₁, hd₂⟩ := ih hd (by simpa using hsteps)
      refine ⟨d₁, d₂ ++ [c], List.append_assoc .., ?_, hd₁, ?_⟩
      · rw [scanBack, if_neg (by simp [hacc]), hprev, hscan]
      · intro a ha
        rcases List.mem_append.mp ha with hin | hlast
        · exact hd₂ a hin
        · exact List.mem_singleton.mp hlast ▸ hacc

theorem putBack_first {c : ν} (hc : (h p).child = some c) :
    putBack h p n none =
      some (setChild (setNext (setPrev (setPrev h (some n) none) (some c) (some n)) (some n) (some c))
        (some p) (some n)) := by
  simp [putBack, hc]

theorem putBack_after {s : ν} {b : Option ν} (hs : (h s).next = b) :
    putBack h p n (some s) =
      some (setNext (setNext (setPrev (setPrev h (some n) (some s)) b (some n)) (some n) b)
        (some s) (some n)) := by
  simp [putBack, hs]

/-- Putting a node back behind the nodes `d`, which need not be the whole chain. -/
theorem Chain.putBack (hc : Chain h p (d ++ t)) (hl : (d ++ n :: t).Nodup) (hne : d ++ t ≠ [])
    (hparent : (h n).parent = some p) :
    ∃ h', putBack h p n d.getLast? = some h' ∧ Chain h' p (d ++ n :: t) ∧
      ∀ x, (h' x).last = (h x).last ∧ (h' x).parent = (h x).parent := by
  obtain ⟨hs₁, hs₂⟩ := segment_append.mp hc.segment
  rw [Option.or_none] at hs₁ hs₂
  obtain ⟨hd, hnt, hdisj⟩ := List.nodup_append.mp hl
  obtain ⟨hnt, ht⟩ := List.nodup_cons.mp hnt
  have hnd : n ∉ d := fun hm => hdisj n hm n (List.mem_cons_self ..) rfl
  have hdt : ∀ c ∈ d, c ∉ t := fun c hcd hct => hdisj c hcd c (List.mem_cons_of_mem n hct) rfl
  have hself : ∀ {l : List ν}, n ∉ l → ∀ c ∈ l, some n ≠ some c := by
    rintro l hn c hcl ⟨⟩
    exact hn hcl
  have hhead : ∀ c ∈ d, t.head? ≠ some c := fun c hcd he => hdt c hcd (List.mem_of_head? he)
  have hnhead : t.head? ≠ some n := fun he => hnt (List.mem_of_head? he)
  rcases List.eq_nil_or_concat d with rfl | ⟨d, s, rfl⟩
  · -- The node becomes the first child.
    cases t with
    | nil => exact absurd rfl hne
    | cons c t =>
      have hcn : c ≠ n := fun he => hnt (he ▸ List.mem_cons_self ..)
      refine ⟨_, putBack_first hc.child, ⟨by simp, ?_, ?_, ?_, ?_⟩, fun x => by simp⟩
      · simpa using hparent
      · simp [setPrev_of_ne _ (show some c ≠ some n by simpa using hcn)]
      · simp
      · have hseg := ((hs₂.setPrev_of_notMem (v := none) (hself hnt)).setPrev_head ht
          (some n)).setNext_of_notMem (v := some c) (hself hnt)
        exact hseg.of_children_changed fun x => by simp
  · -- The node comes behind another one.
    rw [List.concat_eq_append] at *
    have hsn : s ≠ n := fun he => hnd (he ▸ List.mem_append_right _ (List.mem_singleton_self s))
    have hst : ∀ c ∈ t, some s ≠ some c := by
      rintro c hct ⟨⟩
      exact hdt s (List.mem_append_right _ (List.mem_singleton_self s)) hct
    have hnext : (h s).next = t.head? := by
      simpa using (segment_mid.mp hs₁).2.2.2.1
    rw [List.getLast?_concat]
    refine ⟨_, putBack_after hnext, ⟨?_, segment_mid.mpr ⟨?_, ?_, ?_, ?_, ?_⟩⟩, fun x => by simp⟩
    · have hcons : ∀ r : List ν, ((d ++ [s]) ++ r).head? = (d ++ [s]).head? := by
        intro r
        cases d <;> rfl
      rw [hcons, ← hcons t, ← hc.child]
      simp
    · have hlast := (((hs₁.setPrev_of_notMem (v := some s) (hself hnd)).setPrev_of_notMem
        (v := some n) hhead).setNext_of_notMem (v := t.head?) (hself hnd)).setNext_last hd (some n)
      rwa [List.getLast?_concat] at hlast
    · simpa using hparent
    · simp [setPrev_of_ne _ hnhead]
    · simp [setNext_of_ne _ (show some s ≠ some n by simpa using hsn)]
    · refine Segment.setNext_of_notMem ?_ hst
      refine Segment.setNext_of_notMem ?_ (hself hnt)
      exact (hs₂.setPrev_of_notMem (hself hnt)).setPrev_head ht (some n)

/-- One round of the sort: the node behind the sorted part of the chain gets its place in it. -/
theorem Chain.round {steps : Nat} (hc : Chain h p (d ++ n :: t)) (hl : (d ++ n :: t).Nodup)
    (hd : d ≠ []) (hsorted : StableSorted key l d) (hsteps : d.length ≤ steps) :
    ∃ prev h' d', scanBack (fun a => decide (key a ≤ key n)) (OrderedForest.detach h n) steps
          (h n).prev = some prev ∧
      OrderedForest.putBack (OrderedForest.detach h n) p n prev = some h' ∧
      StableSorted key (l ++ [n]) d' ∧ Chain h' p (d' ++ t) ∧
      ∀ x, (h' x).last = (h x).last ∧ (h' x).parent = (h x).parent := by
  obtain ⟨-, hparent, hprev, -, -⟩ := segment_mid.mp hc.segment
  rw [Option.or_none] at hprev
  have hdetach := hc.detach hl hd
  obtain ⟨d₁, d₂, rfl, hscan, hd₁, hd₂⟩ := scanBack_eq (fun a => decide (key a ≤ key n))
    (segment_append.mp hdetach.segment).1 hsteps
  have hperm : (d₁ ++ n :: (d₂ ++ t)).Perm (d₁ ++ d₂ ++ n :: t) := by
    rw [List.append_assoc]
    exact (List.perm_middle.symm).append_left d₁
  rw [List.append_assoc] at hdetach
  obtain ⟨h', hput, hchain, hframe⟩ := hdetach.putBack (hperm.nodup_iff.mpr hl)
    (by simpa using fun h1 h2 => absurd (by simp [h1, h2]) hd)
    ((detach_frame n).1.trans hparent)
  refine ⟨d₁.getLast?, h', d₁ ++ n :: d₂, hprev ▸ hscan, hput, ?_, ?_, fun x => ?_⟩
  · exact hsorted.insert (fun a ha => of_decide_eq_true (hd₁ a ha))
      fun a ha => lt_of_not_ge (of_decide_eq_false (hd₂ a ha))
  · simpa using hchain
  · exact ⟨(hframe x).1.trans (detach_frame x).2.2, (hframe x).2.trans (detach_frame x).1⟩

end

end OrderedForest
