import Mandoc.Lib.SiblingLinks

/-!
# Operations on the Last Child

A parser that builds a tree from left to right changes it at the last child of a node
only. Two operations suffice: a new node becomes the last child, or a new node takes the
place of the last child and becomes its parent.

## Main results

- `Linked.append`: appending a new node implements `attachKids`.
- `Linked.wrap`: putting a new node above the last child implements `wrapKids`.
- `Linked.wrapped_last`, `Linked.wrapped_word`: two implementations of the latter.
-/

namespace OrderedForest

variable {ν : Type*} [DecidableEq ν]
variable {h h' : ν → Links ν} {kids : ν → List ν} {roots : Set ν} {p b n x : ν} {l : List ν}

/-! ## §1 Appending a new node -/

/-- Append the node `n` as the last child of `p`. -/
def linkLast (h : ν → Links ν) (p n : ν) : ν → Links ν :=
  let h := setParent h (some n) (some p)
  let h :=
    match (h p).child with
    | some _ =>
      let h := setNext h (h p).last (some n)
      setPrev h (some n) (h p).last
    | none => setChild h (some p) (some n)
  setLast h (some p) (some n)

/-- With the first and the last child of `p` known, there is no need to look at them. -/
theorem linkLast_eq (hchild : (h p).child = l.head?) (hlast : (h p).last = l.getLast?) :
    linkLast h p n = setLast
      (if l = [] then setChild (setParent h (some n) (some p)) (some p) (some n)
        else setPrev (setNext (setParent h (some n) (some p)) l.getLast? (some n)) (some n)
          l.getLast?) (some p) (some n) := by
  cases l with
  | nil =>
    simp only [List.head?_nil] at hchild
    simp [linkLast, hchild]
  | cons c l =>
    simp only [List.head?_cons] at hchild
    simp [linkLast, hchild, hlast]

/-- A node without siblings is inserted behind the children of another node. -/
theorem inserted_linkLast (hchild : (h p).child = l.head?) (hlast : (h p).last = l.getLast?)
    (hnl : n ∉ l) (hnext : (h n).next = none) (hprev : (h n).prev = none) :
    Inserted h (linkLast h p n) p n l [] := by
  have hln : l.getLast? ≠ some n := fun he => hnl (List.mem_of_getLast? he)
  have hpx : ∀ x, x ≠ n → some n ≠ some x := fun x hx he => hx (Option.some.inj he).symm
  rw [linkLast_eq hchild hlast]
  -- In each part, the cases are whether there have been any children.
  refine ⟨?_, ?_, ?_, fun x hx => ?_, fun x hx => ?_, fun x hx => ?_, fun x => ?_, fun x => ?_⟩
  · split <;> simp
  · split <;> simp [setNext_of_ne _ hln, hnext]
  · split
    · rename_i he
      simp [he, hprev]
    · simp
  · split <;> simp [setParent_of_ne _ (hpx x hx)]
  · split
    · rename_i he
      simp [he]
    · by_cases hxl : l.getLast? = some x
      · simp [hxl]
      · simp [hxl, setNext_of_ne _ hxl]
  · split <;> simp [setPrev_of_ne _ (hpx x hx)]
  · by_cases hxp : x = p
    · subst hxp
      split <;> simp_all
    · have hpx' : some p ≠ some x := by simpa using Ne.symm hxp
      split <;> simp [setChild_of_ne _ hpx', hxp]
  · by_cases hxp : x = p
    · subst hxp
      simp
    · have hpx' : some p ≠ some x := by simpa using Ne.symm hxp
      simp only [setLast_of_ne _ hpx', hxp, false_and, if_false]
      split <;> simp

/-- Appending a new node to the children of a node of the forest. -/
theorem Linked.append (hl : Linked h kids roots) (hp : p ∈ Nodes kids roots)
    (hnew : n ∉ Nodes kids roots) :
    Inserted (Function.update h n {}) (linkLast (Function.update h n {}) p n) p n (kids p) [] ∧
      Linked (linkLast (Function.update h n {}) p n)
        (Forest.attachKids (Function.update kids n []) p (kids p ++ [n])) roots := by
  have hpn : p ≠ n := ne_of_mem_of_not_mem hp hnew
  have hcp := hl.children p hp
  have hi : Inserted (Function.update h n {}) (linkLast (Function.update h n {}) p n) p n
      (kids p) [] :=
    inserted_linkLast (by simp [hpn, hcp.child]) (by simp [hpn, hcp.last])
      (fun hm => hnew (mem_nodes_child hp hm)) (by simp) (by simp)
  exact ⟨hi, (hl.alloc hnew).insert (fun hr => hnew (mem_nodes_root hr))
    (nodes_alloc hnew ▸ hp) (by simp [hpn]) hi⟩

/-! ## §2 A new parent for the last child -/

/-- The node `n` takes the place of the last child `b` of `p`, and gets it as its only
    child. -/
def wrapKids (kids : ν → List ν) (p : ν) (l : List ν) (b n : ν) : ν → List ν :=
  Function.update (Function.update kids n [b]) p (l ++ [n])

/-- The members of the new lists of children. -/
theorem mem_wrapKids {q c : ν} (hpn : p ≠ n) :
    c ∈ wrapKids kids p l b n q ↔
      (q = p ∧ (c ∈ l ∨ c = n)) ∨ (q = n ∧ c = b) ∨ (q ≠ p ∧ q ≠ n ∧ c ∈ kids q) := by
  by_cases hqp : q = p
  · subst hqp
    simp [wrapKids, hpn]
  · by_cases hqn : q = n
    · subst hqn
      simp [wrapKids, Ne.symm hpn]
    · simp [wrapKids, hqp, hqn]

section Wrap

variable (hp : p ∈ Nodes kids roots) (hkids : kids p = l ++ [b])
include hp hkids

/-- Only the new node is added to the forest. -/
theorem nodes_wrap_subset (hnew : n ∉ Nodes kids roots) (hx : x ∈ Nodes (wrapKids kids p l b n) roots) :
    x ∈ Nodes kids roots ∨ x = n := by
  have hpn : p ≠ n := ne_of_mem_of_not_mem hp hnew
  obtain ⟨r, hr, hb⟩ := hx
  induction hb with
  | refl => exact .inl (mem_nodes_root hr)
  | @tail y z _ hc ih =>
    rcases (mem_wrapKids hpn).mp hc with ⟨rfl, hz | hz⟩ | ⟨-, rfl⟩ | ⟨-, hyn, hz⟩
    · exact .inl (mem_nodes_child hp (by simp [hkids, hz]))
    · exact .inr hz
    · exact .inl (mem_nodes_child hp (by simp [hkids]))
    · exact .inl (mem_nodes_child (ih.resolve_right hyn) hz)

/-- A path to the wrapped node passes through the new one, other paths are kept. -/
theorem below_wrap (hnew : n ∉ Nodes kids roots) {y : ν} (hx : x ∈ Nodes kids roots)
    (hb : Below kids x y) : Below (wrapKids kids p l b n) x y := by
  have hpn : p ≠ n := ne_of_mem_of_not_mem hp hnew
  induction hb with
  | refl => exact .refl
  | @tail y z hxy hc ih =>
    by_cases hyp : y = p
    · subst hyp
      replace hc : z ∈ l ++ [b] := hkids ▸ hc
      rcases List.mem_append.mp hc with hz | hz
      · exact ih.tail ((mem_wrapKids hpn).mpr (.inl ⟨rfl, .inl hz⟩))
      · have hn : Below (wrapKids kids y l b n) x n :=
          ih.tail ((mem_wrapKids hpn).mpr (.inl ⟨rfl, .inr rfl⟩))
        exact hn.tail ((mem_wrapKids hpn).mpr (.inr (.inl ⟨rfl, by simpa using hz⟩)))
    · have hyn : y ≠ n := ne_of_mem_of_not_mem (mem_nodes_below hx hxy) hnew
      exact ih.tail ((mem_wrapKids hpn).mpr (.inr (.inr ⟨hyp, hyn, hc⟩)))

/-- The nodes of the old forest are still there. -/
theorem mem_nodes_wrap (hnew : n ∉ Nodes kids roots) (hx : x ∈ Nodes kids roots) :
    x ∈ Nodes (wrapKids kids p l b n) roots := by
  obtain ⟨r, hr, hb⟩ := hx
  exact ⟨r, hr, below_wrap hp hkids hnew (mem_nodes_root hr) hb⟩

/-- The new node belongs to the new forest. -/
theorem mem_nodes_wrap_new (hnew : n ∉ Nodes kids roots) :
    n ∈ Nodes (wrapKids kids p l b n) roots :=
  mem_nodes_child (mem_nodes_wrap hp hkids hnew hp)
    ((mem_wrapKids (ne_of_mem_of_not_mem hp hnew)).mpr (.inl ⟨rfl, .inr rfl⟩))

/-- Putting a new node above the last child makes a forest again. -/
theorem Forest.wrap (hf : Forest kids roots) (hnew : n ∉ Nodes kids roots) :
    Forest (wrapKids kids p l b n) roots := by
  have hpn : p ≠ n := ne_of_mem_of_not_mem hp hnew
  have hsub := fun x hx => nodes_wrap_subset (x := x) hp hkids hnew hx
  have hnodup := hkids ▸ hf.nodup p hp
  have hbl : b ∉ l := fun hb => (List.nodup_append.mp hnodup).2.2 b hb b (by simp) rfl
  have hl : ∀ c ∈ l, c ∈ kids p := fun c hc => by simp [hkids, hc]
  have hb : b ∈ kids p := by simp [hkids]
  -- The new node is not among the old children.
  have hkid : ∀ q ∈ Nodes kids roots, ∀ c ∈ kids q, c ≠ n := fun q hq c hc =>
    ne_of_mem_of_not_mem (mem_nodes_child hq hc) hnew
  refine ⟨fun q hq => ?_, fun q hq q' hq' c hc hc' => ?_, fun q hq r hr hrq => ?_⟩
  · by_cases hqp : q = p
    · subst hqp
      simp only [wrapKids, Function.update_self]
      refine List.nodup_append.mpr ⟨(List.nodup_append.mp hnodup).1, by simp, fun c hc d hd => ?_⟩
      rw [List.mem_singleton.mp hd]
      exact hkid q hp c (hl c hc)
    · by_cases hqn : q = n
      · subst hqn
        simp [wrapKids, hqp]
      · simpa [wrapKids, hqp, hqn] using hf.nodup q ((hsub q hq).resolve_right hqn)
  · rcases (mem_wrapKids hpn).mp hc with ⟨h1, hcl⟩ | ⟨h1, h2⟩ | ⟨h1, h2, h3⟩ <;>
      rcases (mem_wrapKids hpn).mp hc' with ⟨h1', hcl'⟩ | ⟨h1', h2'⟩ | ⟨h1', h2', h3'⟩
    · rw [h1, h1']
    · rcases hcl with hcl | hcl
      · exact absurd (h2' ▸ hcl) hbl
      · exact absurd (hcl ▸ h2').symm (hkid p hp b hb)
    · have hq'n := (hsub q' hq').resolve_right h2'
      rcases hcl with hcl | hcl
      · exact absurd (hf.unique q' hq'n p hp c h3' (hl c hcl)) h1'
      · exact absurd hcl (hkid q' hq'n c h3')
    · rcases hcl' with hcl | hcl
      · exact absurd (h2 ▸ hcl) hbl
      · exact absurd (hcl ▸ h2).symm (hkid p hp b hb)
    · rw [h1, h1']
    · exact absurd (hf.unique q' ((hsub q' hq').resolve_right h2') p hp c h3' (h2 ▸ hb)) h1'
    · have hqn := (hsub q hq).resolve_right h2
      rcases hcl' with hcl | hcl
      · exact absurd (hf.unique q hqn p hp c h3 (hl c hcl)) h1
      · exact absurd hcl (hkid q hqn c h3)
    · exact absurd (hf.unique q ((hsub q hq).resolve_right h2) p hp c h3 (h2' ▸ hb)) h1
    · exact hf.unique q ((hsub q hq).resolve_right h2) q' ((hsub q' hq').resolve_right h2') c h3 h3'
  · rcases (mem_wrapKids hpn).mp hrq with ⟨-, hrl | rfl⟩ | ⟨-, rfl⟩ | ⟨-, hqn, hrk⟩
    · exact hf.roots p hp r hr (hl r hrl)
    · exact hnew (mem_nodes_root hr)
    · exact hf.roots p hp r hr hb
    · exact hf.roots q ((hsub q hq).resolve_right hqn) r hr hrk

end Wrap

/-- The heap `h'` differs from `h` by the node `n`, which is put between `p` and its last
    child `b`, the one after the siblings `l`. -/
structure Wrapped (h h' : ν → Links ν) (p b n : ν) (l : List ν) : Prop where
  new : h' n = { parent := some p, child := some b, last := some b, prev := l.getLast? }
  wrapped : (h' b).parent = some n ∧ (h' b).prev = none ∧ (h' b).next = none
  parent : ∀ x, x ≠ n → x ≠ b → (h' x).parent = (h x).parent
  prev : ∀ x, x ≠ n → x ≠ b → (h' x).prev = (h x).prev
  next : ∀ x, x ≠ n → x ≠ b → (h' x).next = if l.getLast? = some x then some n else (h x).next
  child : ∀ x, x ≠ n → (h' x).child = if x = p ∧ l = [] then some n else (h x).child
  last : ∀ x, x ≠ n → (h' x).last = if x = p then some n else (h x).last

/-- Putting a new node above the last child implements `wrapKids`. -/
theorem Linked.wrap (hl : Linked h kids roots) (hp : p ∈ Nodes kids roots)
    (hkids : kids p = l ++ [b]) (hnew : n ∉ Nodes kids roots) (hw : Wrapped h h' p b n l) :
    Linked h' (wrapKids kids p l b n) roots := by
  have hpn : p ≠ n := ne_of_mem_of_not_mem hp hnew
  have hcp := hl.children p hp
  have hnodup := hl.forest.nodup p hp
  rw [hkids] at hcp hnodup
  have hbl : b ∉ l := fun hb => (List.nodup_append.mp hnodup).2.2 b hb b (by simp) rfl
  have hb : b ∈ kids p := by simp [hkids]
  have hlast : ∀ c, l.getLast? = some c → c ∈ l := fun c hc => List.mem_of_getLast? hc
  have hkid : ∀ q ∈ Nodes kids roots, ∀ c ∈ kids q, c ≠ n := fun q hq c hc =>
    ne_of_mem_of_not_mem (mem_nodes_child hq hc) hnew
  refine ⟨Forest.wrap hp hkids hl.forest hnew, fun q hq => ?_⟩
  by_cases hqp : q = p
  · -- The new node takes the place of the last child.
    subst hqp
    rw [show wrapKids kids q l b n q = l ++ [n] by simp [wrapKids]]
    refine ⟨?_, by simp [hw.last q hpn], segment_mid.mpr ⟨?_, ?_, ?_, ?_, trivial⟩⟩
    · rw [hw.child q hpn, hcp.child]
      cases l <;> simp
    · refine ((segment_mid.mp hcp.segment).1.setNext_last
        (List.nodup_append.mp hnodup).1 (some n)).congr fun c hc => ?_
      have hcn := hkid q hp c (by simp [hkids, hc])
      have hcb : c ≠ b := fun he => hbl (he ▸ hc)
      refine ⟨by simp [hw.parent c hcn hcb], by simp [hw.prev c hcn hcb], ?_⟩
      rw [hw.next c hcn hcb]
      split
      · rename_i he
        rw [he, setNext_self]
      · rename_i he
        rw [setNext_of_ne _ he]
    · simp [hw.new]
    · simp [hw.new]
    · simp [hw.new]
  · by_cases hqn : q = n
    · -- The old last child is the only child of the new node.
      subst hqn
      rw [show wrapKids kids p l b q q = [b] by simp [wrapKids, hqp]]
      obtain ⟨h1, h2, h3⟩ := hw.wrapped
      exact ⟨by simp [hw.new], by simp [hw.new], h1, h2, by simpa using h3, trivial⟩
    · rw [show wrapKids kids p l b n q = kids q by simp [wrapKids, hqp, hqn]]
      have hqk := (nodes_wrap_subset hp hkids hnew hq).resolve_right hqn
      have hcq := hl.children q hqk
      refine ⟨by simp [hw.child q hqn, hqp, hcq.child], by simp [hw.last q hqn, hqp, hcq.last],
        hcq.segment.congr fun c hc => ?_⟩
      have hc' : c ∉ kids p := fun hc' => hqp (hl.forest.unique q hqk p hp c hc hc')
      rw [hkids] at hc'
      have hcn := hkid q hqk c hc
      have hcb : c ≠ b := fun he => hc' (by simp [he])
      have h1 : l.getLast? ≠ some c := fun he => hc' (by simp [hlast c he])
      exact ⟨hw.parent c hcn hcb, hw.prev c hcn hcb, by simp [hw.next c hcn hcb, h1]⟩

/-! ## §3 Two implementations -/

/-- Take the last child `b` of `p` out of the list of children, first variant: the
    previous sibling still points to `b`. -/
def cutLast (h : ν → Links ν) (p b : ν) : ν → Links ν :=
  let h := if (h p).last = (h p).child then setChild h (some p) none else h
  let h := setLast h (some p) (h b).prev
  setPrev h (some b) none

/-- Make `b` the only child of `n`, first variant. -/
def adoptLast (h : ν → Links ν) (n b : ν) : ν → Links ν :=
  let h := setLast h (some n) (some b)
  let h := setChild h (some n) (some b)
  let h := setNext h (some b) none
  setParent h (some b) (some n)

/-- Take the last child `b` of `p` out of the list of children, second variant: `b` still
    points to its previous sibling. -/
def cutWord (h : ν → Links ν) (p b : ν) : ν → Links ν :=
  let h :=
    match (h b).prev with
    | none => setChild h (some p) (h b).next
    | some s => setNext h (some s) none
  setLast h (some p) (h b).prev

/-- Make `b` the only child of `n`, second variant. -/
def adoptWord (h : ν → Links ν) (n b : ν) : ν → Links ν :=
  let h := setLast h (some n) (some b)
  let h := setChild h (some n) (some b)
  let h := setParent h (some b) (some n)
  setPrev h (some b) none

/-- The heap `g` differs from `h` in that `p` has lost its last child `b`, and has the
    children `l` left. Where the siblings next to `b` point to does not matter. -/
structure CutOff (h g : ν → Links ν) (p b : ν) (l : List ν) : Prop where
  child : (g p).child = l.head?
  last : (g p).last = l.getLast?
  parent : ∀ x, (g x).parent = (h x).parent
  prev : ∀ x, x ≠ b → (g x).prev = (h x).prev
  next : ∀ x, x ≠ b → l.getLast? ≠ some x → (g x).next = (h x).next
  other : ∀ x, x ≠ p → (g x).child = (h x).child ∧ (g x).last = (h x).last

/-- What becomes of the pointers when a new node is appended in place of the last child,
    and gets it as its only child. -/
theorem CutOff.wrapped {g : ν → Links ν} (hc : CutOff h g p b l) (hhead : (h p).child = (l ++ [b]).head?)
    (hpn : p ≠ n) (hpb : p ≠ b) (hbn : b ≠ n) (hnl : n ∉ l)
    (hnew : h' n = { linkLast (Function.update g n {}) p n n with child := some b, last := some b })
    (hb : (h' b).parent = some n ∧ (h' b).prev = none ∧ (h' b).next = none ∧
      (h' b).child = (linkLast (Function.update g n {}) p n b).child ∧
      (h' b).last = (linkLast (Function.update g n {}) p n b).last)
    (hother : ∀ x, x ≠ n → x ≠ b → h' x = linkLast (Function.update g n {}) p n x) :
    Wrapped h h' p b n l := by
  have hi : Inserted (Function.update g n {}) (linkLast (Function.update g n {}) p n) p n l [] :=
    inserted_linkLast (by simp [hpn, hc.child]) (by simp [hpn, hc.last]) hnl (by simp) (by simp)
  have hg : ∀ x, x ≠ n → Function.update g n {} x = g x := fun x hx => Function.update_of_ne hx _ _
  -- The first and last children: those of `b` are the old ones, like those of other nodes.
  have hdown : ∀ x, x ≠ n → (h' x).child = (linkLast (Function.update g n {}) p n x).child ∧
      (h' x).last = (linkLast (Function.update g n {}) p n x).last := by
    intro x hx
    by_cases hxb : x = b
    · subst hxb
      exact hb.2.2.2
    · simp [hother x hx hxb]
  refine ⟨?_, ⟨hb.1, hb.2.1, hb.2.2.1⟩, fun x hx hxb => ?_, fun x hx hxb => ?_, fun x hx hxb => ?_,
    fun x hx => ?_, fun x hx => ?_⟩
  · simp [hnew, hi.parent_new, hi.next_new, hi.prev_new]
  · rw [hother x hx hxb, hi.parent_old x hx, hg x hx, hc.parent]
  · rw [hother x hx hxb, hi.prev_old x hx, hg x hx, hc.prev x hxb]
    simp
  · rw [hother x hx hxb, hi.next_old x hx, hg x hx]
    by_cases hxl : l.getLast? = some x
    · simp [hxl]
    · simp [hxl, hc.next x hxb hxl]
  · rw [(hdown x hx).1, hi.child, hg x hx]
    by_cases hxp : x = p
    · subst hxp
      rw [hc.child, hhead]
      cases l <;> simp
    · simp [hxp, (hc.other x hxp).1]
  · rw [(hdown x hx).2, hi.last, hg x hx]
    by_cases hxp : x = p
    · simp [hxp]
    · simp [hxp, (hc.other x hxp).2]

section Last

variable (hl : Linked h kids roots) (hp : p ∈ Nodes kids roots) (hkids : kids p = l ++ [b])
include hl hp hkids

omit [DecidableEq ν] in
/-- The pointers around the last child. -/
theorem Linked.last_child : (h p).child = (l ++ [b]).head? ∧ (h p).last = some b ∧
    (h b).prev = l.getLast? ∧ (h b).next = none ∧ p ≠ b ∧ b ∉ l ∧ p ∉ l := by
  have hcp := hl.children p hp
  have hnodup := hl.forest.nodup p hp
  have hself : p ∉ kids p := fun hpp => hl.forest.acyclic hp hpp .refl
  rw [hkids] at hcp hnodup hself
  refine ⟨hcp.child, by simp [hcp.last], ?_, ?_, fun he => hself (by simp [he]), fun hb => ?_,
    fun hpl => hself (by simp [hpl])⟩
  · rw [hcp.prev_eq]
  · rw [hcp.next_eq]
    rfl
  · exact (List.nodup_append.mp hnodup).2.2 b hb b (by simp) rfl

/-- The first variant of taking out the last child. -/
theorem Linked.cutOff_last : CutOff h (cutLast h p b) p b l := by
  obtain ⟨hchild, hlast, hprev, hnext, hpb, hbl, hpl⟩ := hl.last_child hp hkids
  have hpx : ∀ x, x ≠ p → some p ≠ some x := fun x hx he => hx (Option.some.inj he).symm
  have hif : ((h p).last = (h p).child) ↔ l = [] := by
    rw [hlast, hchild]
    cases l with
    | nil => simp
    | cons c l =>
      have hbc : b ≠ c := fun he => hbl (by simp [he])
      simp [hbc]
  have hval : cutLast h p b = setPrev (setLast
      (if l = [] then setChild h (some p) none else h) (some p) l.getLast?) (some b) none := by
    simp only [cutLast, hif]
    split <;> simp [hprev]
  rw [hval]
  refine ⟨?_, ?_, fun x => ?_, fun x hx => ?_, fun x hx hxl => ?_, fun x hx => ⟨?_, ?_⟩⟩
  · split
    · rename_i he
      simp [he]
    · rename_i he
      obtain ⟨c, l', rfl⟩ := List.exists_cons_of_ne_nil he
      simp [hchild]
  · simp
  · split <;> simp
  · split <;> simp [setPrev_of_ne _ (show some b ≠ some x by simpa using Ne.symm hx)]
  · split <;> simp
  · split <;> simp [setChild_of_ne _ (hpx x hx)]
  · split <;> simp [setLast_of_ne _ (hpx x hx)]

/-- The second variant of taking out the last child. -/
theorem Linked.cutOff_word : CutOff h (cutWord h p b) p b l := by
  obtain ⟨hchild, hlast, hprev, hnext, hpb, hbl, hpl⟩ := hl.last_child hp hkids
  have hpx : ∀ x, x ≠ p → some p ≠ some x := fun x hx he => hx (Option.some.inj he).symm
  rcases List.eq_nil_or_concat l with rfl | ⟨l, s, rfl⟩
  · have hval : cutWord h p b = setLast (setChild h (some p) none) (some p) none := by
      simp only [List.getLast?_nil] at hprev
      simp [cutWord, hprev, hnext]
    rw [hval]
    refine ⟨by simp, by simp, fun x => by simp, fun x hx => by simp, fun x hx hxl => by simp,
      fun x hx => ⟨?_, ?_⟩⟩
    · simp [setChild_of_ne _ (hpx x hx)]
    · simp [setLast_of_ne _ (hpx x hx)]
  · rw [List.concat_eq_append] at *
    have hval : cutWord h p b = setLast (setNext h (some s) none) (some p) (some s) := by
      simp only [List.getLast?_concat] at hprev
      simp [cutWord, hprev]
    rw [hval]
    refine ⟨?_, by simp, fun x => by simp, fun x hx => by simp, fun x hx hxl => ?_,
      fun x hx => ⟨by simp, ?_⟩⟩
    · rw [setLast_child, setNext_child, hchild]
      cases l <;> simp
    · rw [List.getLast?_concat] at hxl
      simp [setNext_of_ne _ hxl]
    · simp [setLast_of_ne _ (hpx x hx)]

variable (hnew : n ∉ Nodes kids roots)
include hnew

/-- The first variant puts a new node above the last child. -/
theorem Linked.wrapped_last : Wrapped h (adoptLast
    (linkLast (Function.update (cutLast h p b) n {}) p n) n b) p b n l := by
  obtain ⟨hchild, -, -, -, hpb, hbl, -⟩ := hl.last_child hp hkids
  have hpn : p ≠ n := ne_of_mem_of_not_mem hp hnew
  have hbn : b ≠ n := ne_of_mem_of_not_mem (mem_nodes_child hp (by simp [hkids])) hnew
  have hnl : n ∉ l := fun hm => hnew (mem_nodes_child hp (by simp [hkids, hm]))
  have hi : Inserted _ (linkLast (Function.update (cutLast h p b) n {}) p n) p n l [] :=
    inserted_linkLast (by simp [hpn, (hl.cutOff_last hp hkids).child])
      (by simp [hpn, (hl.cutOff_last hp hkids).last]) hnl (by simp) (by simp)
  have hprev : (linkLast (Function.update (cutLast h p b) n {}) p n b).prev = none := by
    rw [hi.prev_old b hbn]
    simp [hbn, cutLast]
  have hnb : some n ≠ some b := by simpa using Ne.symm hbn
  have hbn' : some b ≠ some n := by simpa using hbn
  refine (hl.cutOff_last hp hkids).wrapped hchild hpn hpb hbn hnl ?_ ⟨?_, ?_, ?_, ?_, ?_⟩
    fun x hx hxb => ?_
  · simp only [adoptLast, setParent_of_ne _ hbn', setNext_of_ne _ hbn']
    simp [setChild, setLast, adjust]
  · simp [adoptLast]
  · simp [adoptLast, hprev]
  · simp [adoptLast]
  · simp [adoptLast, setChild_of_ne _ hnb]
  · simp [adoptLast, setLast_of_ne _ hnb]
  · have h1 : some b ≠ some x := by simpa using Ne.symm hxb
    have h2 : some n ≠ some x := by simpa using Ne.symm hx
    simp only [adoptLast, setParent_of_ne _ h1, setNext_of_ne _ h1, setChild_of_ne _ h2,
      setLast_of_ne _ h2]

/-- The second variant puts a new node above the last child. -/
theorem Linked.wrapped_word : Wrapped h (adoptWord
    (linkLast (Function.update (cutWord h p b) n {}) p n) n b) p b n l := by
  obtain ⟨hchild, -, -, hnext, hpb, hbl, -⟩ := hl.last_child hp hkids
  have hpn : p ≠ n := ne_of_mem_of_not_mem hp hnew
  have hbn : b ≠ n := ne_of_mem_of_not_mem (mem_nodes_child hp (by simp [hkids])) hnew
  have hnl : n ∉ l := fun hm => hnew (mem_nodes_child hp (by simp [hkids, hm]))
  -- The new node is linked behind the children that stay.
  have hi : Inserted _ (linkLast (Function.update (cutWord h p b) n {}) p n) p n l [] :=
    inserted_linkLast (by simp [hpn, (hl.cutOff_word hp hkids).child])
      (by simp [hpn, (hl.cutOff_word hp hkids).last]) hnl (by simp) (by simp)
  -- The word that was cut off has no next node.
  have hlast : l.getLast? ≠ some b := fun he => hbl (List.mem_of_getLast? he)
  have hcut : (cutWord h p b b).next = none := by
    unfold cutWord
    split
    · simp [hnext]
    · rename_i s hs
      have hsb : some s ≠ some b := by
        rw [← hs, (hl.last_child hp hkids).2.2.1]
        exact hlast
      simp [setNext_of_ne _ hsb, hnext]
  have hbnext : (linkLast (Function.update (cutWord h p b) n {}) p n b).next = none := by
    rw [hi.next_old b hbn, if_neg hlast]
    simp [hbn, hcut]
  have hnb : some n ≠ some b := by simpa using Ne.symm hbn
  have hbn' : some b ≠ some n := by simpa using hbn
  refine (hl.cutOff_word hp hkids).wrapped hchild hpn hpb hbn hnl ?_ ⟨?_, ?_, ?_, ?_, ?_⟩
    fun x hx hxb => ?_
  · simp only [adoptWord, setParent_of_ne _ hbn', setPrev_of_ne _ hbn']
    simp [setChild, setLast, adjust]
  · simp [adoptWord]
  · simp [adoptWord]
  · simp [adoptWord, hbnext]
  · simp [adoptWord, setChild_of_ne _ hnb]
  · simp [adoptWord, setLast_of_ne _ hnb]
  · have h1 : some b ≠ some x := by simpa using Ne.symm hxb
    have h2 : some n ≠ some x := by simpa using Ne.symm hx
    simp only [adoptWord, setPrev_of_ne _ h1, setParent_of_ne _ h1, setChild_of_ne _ h2,
      setLast_of_ne _ h2]

end Last

end OrderedForest
