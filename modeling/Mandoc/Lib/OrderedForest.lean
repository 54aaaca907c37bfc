import Mathlib

/-!
# Ordered Forests

An ordered forest is given by the list of the children of each node and by a set of
roots. The nodes are those that can be reached from a root. The structure `Forest`
says that no node is a child twice and that no root is a child at all, which makes the
reachable part a disjoint union of trees.

## Main results

- `Forest.acyclic`: no node lies below itself.
- `Forest.root_unique`: a node lies below one root only.
- `Forest.cut`: taking a child away from its parent makes it a new root.
- `Forest.attach`: inserting a root among the children of a node of another tree.
-/

namespace OrderedForest

open Relation

variable {ν : Type*}

/-! ## §1 Nodes -/

/-- `c` is a child of `p`. -/
def Child (kids : ν → List ν) (p c : ν) : Prop := c ∈ kids p

/-- `x` belongs to the subtree of `r`. -/
abbrev Below (kids : ν → List ν) : ν → ν → Prop := ReflTransGen (Child kids)

/-- The nodes reachable from the roots. -/
def Nodes (kids : ν → List ν) (roots : Set ν) : Set ν := {x | ∃ r ∈ roots, Below kids r x}

/-- No node is linked twice, and the roots are not linked at all. -/
structure Forest (kids : ν → List ν) (roots : Set ν) : Prop where
  nodup : ∀ p ∈ Nodes kids roots, (kids p).Nodup
  unique : ∀ p ∈ Nodes kids roots, ∀ q ∈ Nodes kids roots, ∀ c, c ∈ kids p → c ∈ kids q → p = q
  roots : ∀ p ∈ Nodes kids roots, ∀ r ∈ roots, r ∉ kids p

variable {kids kids' : ν → List ν} {roots : Set ν} {p c n r x y : ν}

theorem mem_nodes_root (h : r ∈ roots) : r ∈ Nodes kids roots := ⟨r, h, .refl⟩

theorem mem_nodes_child (hp : p ∈ Nodes kids roots) (hc : c ∈ kids p) : c ∈ Nodes kids roots := by
  obtain ⟨r, hr, hb⟩ := hp
  exact ⟨r, hr, hb.tail hc⟩

theorem mem_nodes_below (hp : p ∈ Nodes kids roots) (hx : Below kids p x) :
    x ∈ Nodes kids roots := by
  obtain ⟨r, hr, hb⟩ := hp
  exact ⟨r, hr, hb.trans hx⟩

/-- Fewer children make smaller subtrees. -/
theorem Below.mono (hsub : ∀ p, kids' p ⊆ kids p) (h : Below kids' x y) : Below kids x y :=
  h.lift id fun p _ hc => hsub p hc

/-- A node without children is alone in its subtree. -/
theorem below_of_no_kids (h : kids x = []) (hb : Below kids x y) : y = x := by
  induction hb with
  | refl => rfl
  | tail _ hc ih =>
    subst ih
    simp [Child, h] at hc

/-! ## §2 The reachable part consists of trees -/

namespace Forest

/-- A root cannot be reached from any node but itself. -/
theorem below_root (hf : Forest kids roots) (hx : x ∈ Nodes kids roots) (hr : r ∈ roots)
    (h : Below kids x r) : x = r := by
  rcases ReflTransGen.cases_tail h with rfl | ⟨p, hp, hc⟩
  · rfl
  · exact absurd hc (hf.roots p (mem_nodes_below hx hp) r hr)

/-- Walking up from a node that is not a root, all paths use the same edge. -/
theorem below_parent (hf : Forest kids roots) (hx : x ∈ Nodes kids roots)
    (hp : p ∈ Nodes kids roots) (hc : c ∈ kids p) (h : Below kids x c) :
    x = c ∨ Below kids x p := by
  rcases ReflTransGen.cases_tail h with rfl | ⟨q, hq, hc'⟩
  · exact .inl rfl
  · have := hf.unique p hp q (mem_nodes_below hx hq) c hc hc'
    exact .inr (this ▸ hq)

/-- No node lies below one of its own children. -/
theorem acyclic (hf : Forest kids roots) (hx : x ∈ Nodes kids roots) (hc : c ∈ kids x) :
    ¬ Below kids c x := by
  obtain ⟨r, hr, hb⟩ := id hx
  -- Induction on the path from the root: a cycle would move up along it.
  induction hb generalizing c with
  | refl =>
    intro h
    have := hf.below_root (mem_nodes_child hx hc) hr h
    exact hf.roots r hx r hr (this ▸ hc)
  | @tail p x hp hpx ih =>
    intro h
    have hpn : p ∈ Nodes kids roots := ⟨r, hr, hp⟩
    rcases hf.below_parent (mem_nodes_child hx hc) hpn hpx h with rfl | h'
    · have := hf.unique p hpn c hx c hpx hc
      subst this
      exact ih hpn hpx .refl
    · exact ih hpn hpx (ReflTransGen.head hc h')

/-- Every node lies below one root only. -/
theorem root_unique (hf : Forest kids roots) {s : ν} (hr : r ∈ roots) (hs : s ∈ roots)
    (h : Below kids r x) (h' : Below kids s x) : r = s := by
  induction h with
  | refl => exact (hf.below_root (mem_nodes_root hs) hr h').symm
  | @tail p x hp hpx ih =>
    rcases hf.below_parent (mem_nodes_root hs) ⟨r, hr, hp⟩ hpx h' with rfl | h''
    · exact absurd hpx (hf.roots p ⟨r, hr, hp⟩ s hs)
    · exact ih h''

/-- The nodes below the other roots differ from a root. -/
theorem not_root (hf : Forest kids (insert n roots)) (hn : n ∉ roots)
    (hp : p ∈ Nodes kids roots) : p ∈ Nodes kids (insert n roots) ∧ p ≠ n := by
  obtain ⟨r, hr, hb⟩ := hp
  refine ⟨⟨r, .inr hr, hb⟩, ?_⟩
  rintro rfl
  exact hn (hf.below_root (mem_nodes_root (.inr hr)) (.inl rfl) hb ▸ hr)

/-! ## §3 Cutting a subtree off -/

section Cut

variable [DecidableEq ν]

/-- Take the child `c` away from `p`. -/
def cutKids (kids : ν → List ν) (p c : ν) : ν → List ν :=
  Function.update kids p ((kids p).erase c)

theorem cutKids_subset (p c q : ν) : cutKids kids p c q ⊆ kids q := by
  by_cases h : q = p
  · subst h
    simpa [cutKids] using List.erase_subset
  · simp [cutKids, h]

/-- A path either survives the cut or passes through the cut node. -/
theorem below_cut (h : Below kids x y) : Below (cutKids kids p c) x y ∨ Below kids c y := by
  induction h with
  | refl => exact .inl .refl
  | @tail q y _ hqy ih =>
    rcases ih with ih | ih
    · by_cases hyc : y = c
      · subst hyc
        exact .inr .refl
      · refine .inl (ih.tail ?_)
        by_cases hqp : q = p
        · subst hqp
          simpa [Child, cutKids] using (List.mem_erase_of_ne hyc).mpr hqy
        · simpa [Child, cutKids, hqp] using hqy
    · exact .inr (ih.tail hqy)

/-- The nodes that do not lie below the cut node are still there. -/
theorem mem_nodes_cut (hx : x ∈ Nodes kids roots) (hb : ¬ Below kids c x) :
    x ∈ Nodes (cutKids kids p c) roots := by
  obtain ⟨r, hr, h⟩ := hx
  exact ⟨r, hr, (below_cut h).resolve_right hb⟩

theorem nodes_cut_subset (hp : p ∈ Nodes kids roots) (hc : c ∈ kids p) :
    Nodes (cutKids kids p c) (insert c roots) ⊆ Nodes kids roots := by
  rintro x ⟨r, hr, hb⟩
  have hb' := Below.mono (cutKids_subset p c) hb
  rcases hr with rfl | hr
  · exact mem_nodes_below (mem_nodes_child hp hc) hb'
  · exact ⟨r, hr, hb'⟩

/-- The node cut off becomes the root of a tree of its own. -/
theorem cut (hf : Forest kids roots) (hp : p ∈ Nodes kids roots) (hc : c ∈ kids p) :
    Forest (cutKids kids p c) (insert c roots) where
  nodup q hq := by
    have hq' := nodes_cut_subset hp hc hq
    by_cases h : q = p
    · subst h
      simpa [cutKids] using (hf.nodup q hq').erase c
    · simpa [cutKids, h] using hf.nodup q hq'
  unique q hq q' hq' d hd hd' :=
    hf.unique q (nodes_cut_subset hp hc hq) q' (nodes_cut_subset hp hc hq') d
      (cutKids_subset p c q hd) (cutKids_subset p c q' hd')
  roots q hq r hr hrq := by
    have hqn := nodes_cut_subset hp hc hq
    rcases hr with rfl | hr
    · have hqp := hf.unique q hqn p hp r (cutKids_subset p r q hrq) hc
      subst hqp
      simp only [cutKids, Function.update_self] at hrq
      exact (hf.nodup q hqn).not_mem_erase hrq
    · exact hf.roots q hqn r hr (cutKids_subset p c q hrq)

/-- The nodes of the remaining trees do not lie below the node cut off. -/
theorem not_below_cut (hf : Forest kids roots) (hp : p ∈ Nodes kids roots) (hc : c ∈ kids p)
    (hx : x ∈ Nodes (cutKids kids p c) roots) : ¬ Below (cutKids kids p c) c x := by
  obtain ⟨r, hr, hb⟩ := hx
  intro h
  have hrc := (hf.cut hp hc).root_unique (.inr hr) (.inl rfl) hb h
  exact hf.roots p hp r hr (hrc ▸ hc)

end Cut

/-! ## §4 Attaching a subtree -/

/-- Fewer roots make a smaller forest. -/
theorem subset {roots' : Set ν} (hf : Forest kids roots) (h : roots' ⊆ roots) :
    Forest kids roots' := by
  have hsub : Nodes kids roots' ⊆ Nodes kids roots := fun x ⟨r, hr, hb⟩ => ⟨r, h hr, hb⟩
  exact ⟨fun p hp => hf.nodup p (hsub hp), fun p hp q hq => hf.unique p (hsub hp) q (hsub hq),
    fun p hp r hr => hf.roots p (hsub hp) r (h hr)⟩

/-- A node that occurs nowhere is a new root. -/
theorem add_root (hf : Forest kids roots) (hn : kids n = []) (hnew : n ∉ Nodes kids roots) :
    Forest kids (insert n roots) := by
  have hcases : ∀ x ∈ Nodes kids (insert n roots), x = n ∨ x ∈ Nodes kids roots := by
    rintro x ⟨r, rfl | hr, hb⟩
    · exact .inl (below_of_no_kids hn hb)
    · exact .inr ⟨r, hr, hb⟩
  refine ⟨fun p hp => ?_, fun p hp q hq c hcp hcq => ?_, fun p hp r hr hrp => ?_⟩
  · rcases hcases p hp with rfl | hp
    · simp [hn]
    · exact hf.nodup p hp
  · rcases hcases p hp with rfl | hp
    · simp [hn] at hcp
    rcases hcases q hq with rfl | hq
    · simp [hn] at hcq
    · exact hf.unique p hp q hq c hcp hcq
  · rcases hcases p hp with rfl | hp'
    · simp [hn] at hrp
    rcases hr with rfl | hr
    · exact hnew (mem_nodes_child hp' hrp)
    · exact hf.roots p hp' r hr hrp

section Attach

variable [DecidableEq ν]

/-- Give `p` the children `l`. -/
def attachKids (kids : ν → List ν) (p : ν) (l : List ν) : ν → List ν := Function.update kids p l

/-- A path of the new forest either is an old one or passes through the new child. -/
theorem below_attach {l : List ν} (hl : l.Perm (n :: kids p))
    (h : Below (attachKids kids p l) x y) : Below kids x y ∨ Below kids n y := by
  induction h with
  | refl => exact .inl .refl
  | @tail q y _ hqy ih =>
    by_cases hqp : q = p
    · subst hqp
      simp only [Child, attachKids, Function.update_self] at hqy
      rcases List.mem_cons.mp (hl.mem_iff.mp hqy) with rfl | hy
      · exact .inr .refl
      · exact ih.imp (·.tail hy) (·.tail hy)
    · simp only [Child, attachKids, Function.update_of_ne hqp] at hqy
      exact ih.imp (·.tail hqy) (·.tail hqy)

theorem nodes_attach_subset {l : List ν} (hl : l.Perm (n :: kids p)) :
    Nodes (attachKids kids p l) roots ⊆ Nodes kids (insert n roots) := by
  rintro x ⟨r, hr, hb⟩
  rcases below_attach hl hb with h | h
  · exact ⟨r, .inr hr, h⟩
  · exact ⟨n, .inl rfl, h⟩

/-- The nodes of the old forest are still there. -/
theorem mem_nodes_attach {l : List ν} (hl : l.Perm (n :: kids p)) (hx : x ∈ Nodes kids roots) :
    x ∈ Nodes (attachKids kids p l) roots := by
  obtain ⟨r, hr, hb⟩ := hx
  refine ⟨r, hr, hb.lift id fun q y hqy => ?_⟩
  change y ∈ attachKids kids p l q
  by_cases hqp : q = p
  · subst hqp
    simpa [Child, attachKids] using hl.mem_iff.mpr (List.mem_cons_of_mem n hqy)
  · simpa [Child, attachKids, hqp] using hqy

/-- Inserting the root `n` among the children of a node of another tree. -/
theorem attach {l : List ν} (hf : Forest kids (insert n roots)) (hn : n ∉ roots)
    (hp : p ∈ Nodes kids roots) (hl : l.Perm (n :: kids p)) :
    Forest (attachKids kids p l) roots := by
  have hsub : Nodes (attachKids kids p l) roots ⊆ Nodes kids (insert n roots) :=
    nodes_attach_subset hl
  have hpn : p ∈ Nodes kids (insert n roots) := by
    obtain ⟨r, hr, hb⟩ := hp
    exact ⟨r, .inr hr, hb⟩
  -- The children of a node are the old ones, or else the new child below `p`.
  have hcases : ∀ q d, d ∈ attachKids kids p l q → d ∈ kids q ∨ (d = n ∧ q = p) := by
    intro q d hd
    by_cases hqp : q = p
    · subst hqp
      simp only [attachKids, Function.update_self] at hd
      exact (List.mem_cons.mp (hl.mem_iff.mp hd)).symm.imp_right fun h => ⟨h, rfl⟩
    · exact .inl (by simpa [attachKids, hqp] using hd)
  refine ⟨fun q hq => ?_, fun q hq q' hq' d hd hd' => ?_, fun q hq r hr hrq => ?_⟩
  · by_cases hqp : q = p
    · subst hqp
      simpa [attachKids] using hl.nodup_iff.mpr
        (List.nodup_cons.mpr ⟨hf.roots q hpn n (.inl rfl), hf.nodup q hpn⟩)
    · simpa [attachKids, hqp] using hf.nodup q (hsub hq)
  · rcases hcases q d hd with h | ⟨rfl, rfl⟩ <;> rcases hcases q' d hd' with h' | ⟨h', h''⟩
    · exact hf.unique q (hsub hq) q' (hsub hq') d h h'
    · exact absurd (h' ▸ h) (hf.roots q (hsub hq) n (.inl rfl))
    · exact absurd h' (hf.roots q' (hsub hq') d (.inl rfl))
    · exact h''.symm
  · rcases hcases q r hrq with h | ⟨rfl, -⟩
    · exact hf.roots q (hsub hq) r (.inr hr) h
    · exact hn hr

end Attach

end Forest

end OrderedForest
