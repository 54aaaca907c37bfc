import Mandoc.CString

/-!
# Tags

The function `tag_put()` of `tag.c` collects the nodes of the syntax tree where terms are defined.
It is called by the validation functions, in the order of the nodes, with priorities that depend on
the context. A table contains the best priority of each tag so far and the nodes that have it.

- `tagPut` is the function. The table is a map, and nodes are identified by values of any type.
- `TagCall.Asks` says which tag a call asks for, and `TagCall.Wins` which nodes are tagged in the
  end, without reference to the order of the calls.
- `TagInv` is the invariant of the table and of the nodes.
- `runTags_spec` proves it for all sequences of calls, and `runTags_order` that their order does not
  matter.
-/

namespace Mandoc

/-! ## §1 The table -/

/-- Dubious automatic tagging: `INT_MAX - 2`. -/
def TAG_WEAK : Int := 2 ^ 31 - 3

/-- Tag only used if unique: `INT_MAX - 1`. -/
def TAG_FALLBACK : Int := 2 ^ 31 - 2

/-- Tag not used at all: `INT_MAX`. -/
def TAG_DELETE : Int := 2 ^ 31 - 1

/-- The members of `struct roff_node` that tagging is about. -/
structure TagNode where
  /-- The flag `NODE_ID`. -/
  id : Bool := false
  /-- The member `tag`: a tag that differs from the text of the node. -/
  tag : Option CStr := none
  /-- The string of the first child, if that is a text node. -/
  text : Option CStr := none
deriving DecidableEq, Repr

section

variable {N : Type}

/-- `struct tag_entry`, without the tag. The node that was added last comes first. -/
structure TagEntry (N : Type) where
  nodes : List N
  prio : Int

/-- The table `tag_data`, and the nodes. -/
structure TagState (N : Type) where
  tagData : CStr → Option (TagEntry N)
  nodes : N → TagNode

/-! ## §2 The implicit tag -/

/-- The string that a tag is made of, and whether it differs from the text of the node. If no string
    is given, it is the text without certain characters at the beginning. -/
def tagSource (s : Option CStr) (n : TagNode) : Option (CStr × Bool) :=
  match s with
  | some s => some (s, true)
  | none =>
    match n.text with
    | none => none
    | some s =>
      if charAt s 0 = '-' then some (s.drop 1, true)
      else if charAt s 0 = '\\' then
        if charAt s 1 = '&' ∨ charAt s 1 = '-' ∨ charAt s 1 = 'e' then some (s.drop 2, true)
        else none
      else some (s, false)

/-- The result of copying a string up to white space or an escape sequence. -/
structure TagCopy where
  cpy : CStr
  changed : Bool
  /-- There was something left. -/
  cut : Bool
deriving DecidableEq, Repr

/-- Copy one more byte. -/
def TagCopy.cons (c : Char) (changed : Bool) (r : TagCopy) : TagCopy :=
  { r with cpy := c :: r.cpy, changed := changed || r.changed }

/-- The loop over the string: `\-` and `ASCII_HYPH` become a plain `-`. -/
def copyTag : CStr → TagCopy
  | [] => ⟨[], false, false⟩
  | '\\' :: '-' :: src => (copyTag src).cons '-' true
  | c :: src =>
    if c = '\t' ∨ c = ' ' then ⟨[], true, true⟩
    else if c = '\\' then ⟨[], false, true⟩
    else if c = ASCII_HYPH then (copyTag src).cons '-' true
    else (copyTag src).cons c false

/-- The tag of a call, its priority, and whether it differs from the text of the node. A tag that is
    followed by anything else is downgraded. -/
def effectiveTag (s : Option CStr) (prio : Int) (n : TagNode) : Option (CStr × Int × Bool) :=
  match tagSource s n with
  | none => none
  | some (s, changed) =>
    let r := copyTag s
    if r.cpy = [] then none
    else some (r.cpy, if r.cut ∧ prio < TAG_WEAK then TAG_WEAK else prio, changed || r.changed)

/-! ## §3 The function -/

variable [DecidableEq N]

/-- Remove the tag of one node. -/
def untag (nodes : N → TagNode) (nold : N) : N → TagNode :=
  Function.update nodes nold { nodes nold with id := false, tag := none }

/-- Set an entry. -/
def TagState.setEntry (st : TagState N) (s : CStr) (entry : TagEntry N) : TagState N :=
  { st with tagData := Function.update st.tagData s (some entry) }

/-- Set a node. -/
def TagState.setNode (st : TagState N) (n : N) (node : TagNode) : TagState N :=
  { st with nodes := Function.update st.nodes n node }

/-- Remember the new node, with those that have the same tag. -/
def rememberNode (st : TagState N) (s : CStr) (prio : Int) (changed : Bool) (n : N)
    (nodes : List N) : Res (TagState N) :=
  let st := st.setEntry s ⟨n :: nodes, prio⟩
  let node := st.nodes n
  if changed then
    if node.tag = none then .ok (st.setNode n { node with id := true, tag := some s })
    else .error .abort
  else .ok (st.setNode n { node with id := true })

/-- The part of `tag_put()` that deals with the table. -/
def tagEnter (st : TagState N) (s : CStr) (prio : Int) (changed : Bool) (n : N) :
    Res (TagState N) :=
  match st.tagData s with
  | none => rememberNode st s prio changed n []
  | some entry =>
    -- Lower priority numbers take precedence.
    if entry.prio < prio then .ok st
    -- If the existing entry is worse, clear it.
    else if prio < entry.prio ∨ prio = TAG_FALLBACK then
      let st := { st with nodes := entry.nodes.foldl untag st.nodes }
      if prio = TAG_FALLBACK then .ok (st.setEntry s ⟨[], TAG_DELETE⟩)
      else rememberNode st s prio changed n []
    else rememberNode st s prio changed n entry.nodes

/-- `tag_put()`: set a node where a term is defined, unless the term is already defined at a lower
    priority. -/
def tagPut (st : TagState N) (s : Option CStr) (prio : Int) (n : N) : Res (TagState N) :=
  if TAG_FALLBACK < prio then .error .abort
  else if (st.nodes n).id then .ok st
  else
    match effectiveTag s prio (st.nodes n) with
    | none => .ok st
    | some (s, prio, changed) => tagEnter st s prio changed n

/-- The arguments of a call. -/
structure TagCall (N : Type) where
  s : Option CStr
  prio : Int
  n : N

/-- A sequence of calls. -/
def runTags (st : TagState N) : List (TagCall N) → Res (TagState N)
  | [] => .ok st
  | call :: calls => do runTags (← tagPut st call.s call.prio call.n) calls

/-- `tag_alloc()`, and a syntax tree. -/
def tagAlloc (nodes : N → TagNode) : TagState N := ⟨fun _ => none, nodes⟩

end

/-! ## §4 What a call asks for -/

/-- The string that a tag is looked for in: the one that is given, or the text of the node without
    a dash, or without a short escape sequence, at the beginning. -/
inductive TagText : Option CStr → Option CStr → CStr → Prop where
  | given (s : CStr) (text : Option CStr) : TagText (some s) text s
  | dash (s : CStr) : TagText none (some ('-' :: s)) s
  | escape {c : Char} (s : CStr) (hc : c = '&' ∨ c = '-' ∨ c = 'e') :
      TagText none (some ('\\' :: c :: s)) s
  | plain {s : CStr} (hs : s.head? ≠ some '-' ∧ s.head? ≠ some '\\') : TagText none (some s) s

/-- How a tag is spelled: there are several ways to write a dash. -/
inductive TagSpelled : CStr → CStr → Prop where
  | nil : TagSpelled [] []
  | dash {s t : CStr} (h : TagSpelled s t) : TagSpelled ('\\' :: '-' :: s) ('-' :: t)
  | hyph {s t : CStr} (h : TagSpelled s t) : TagSpelled (ASCII_HYPH :: s) ('-' :: t)
  | char {c : Char} {s t : CStr} (hc : c ∉ ['\t', ' ', '\\', ASCII_HYPH]) (h : TagSpelled s t) :
      TagSpelled (c :: s) (c :: t)

/-- White space or an escape sequence, with whatever follows. -/
def TagEnd (rest : CStr) : Prop :=
  ∃ c s, rest = c :: s ∧ (c = '\t' ∨ c = ' ' ∨ c = '\\' ∧ s.head? ≠ some '-')

/-- The tag and the priority that a call asks for: white space, escape sequences and whatever
    follows are skipped, and if there is any, the priority is at most `TAG_WEAK`. -/
structure TagCall.Asks {N : Type} (nodes : N → TagNode) (call : TagCall N) (t : CStr)
    (prio : Int) : Prop where
  nonempty : t ≠ []
  spelled : ∃ body rest, TagText call.s (nodes call.n).text (body ++ rest) ∧ TagSpelled body t ∧
    (rest = [] ∧ prio = call.prio ∨ TagEnd rest ∧ prio = max call.prio TAG_WEAK)

/-- What is asked for with a call that leads to something. -/
structure Put (N : Type) where
  tag : CStr
  prio : Int
  changed : Bool
  node : N

/-- What the code asks for, if anything. -/
def TagCall.put {N : Type} (nodes : N → TagNode) (call : TagCall N) : Option (Put N) :=
  (effectiveTag call.s call.prio (nodes call.n)).map fun r => ⟨r.1, r.2.1, r.2.2, call.n⟩

/-- A string is looked for a tag, unless its text begins with another escape sequence. -/
theorem tagSource_iff {s : Option CStr} {n : TagNode} {src : CStr} :
    (∃ changed, tagSource s n = some (src, changed)) ↔ TagText s n.text src := by
  unfold tagSource
  -- If the tag is given explicitly, the text of the node does not matter.
  cases s with
  | some s =>
    constructor
    · rintro ⟨-, ⟨⟩⟩
      exact .given _ _
    · rintro ⟨⟩
      exact ⟨_, rfl⟩
  | none =>
    cases htext : n.text with
    | none =>
      refine iff_of_false ?_ ?_
      · rintro ⟨-, ⟨⟩⟩
      · rintro ⟨⟩
    -- Without it, the text of the node is used: first what the code does is classified.
    | some text =>
      dsimp only
      constructor
      · rintro ⟨changed, h⟩
        split at h
        · next hdash =>
          cases text with
          | nil => exact absurd hdash (by decide)
          | cons c text =>
            obtain rfl : c = '-' := hdash
            cases h
            exact .dash text
        next hdash =>
        split at h
        · next hesc =>
          split at h
          · next hshort =>
            cases text with
            | nil => exact absurd hesc (by decide)
            | cons c text =>
              obtain rfl : c = '\\' := hesc
              cases text with
              | nil => exact absurd hshort (by decide)
              | cons c text =>
                cases h
                exact .escape text hshort
          · cases h
        · next hesc =>
          cases h
          refine .plain ?_
          cases src with
          | nil => simp
          | cons c src => exact ⟨fun he => hdash (Option.some.inj he), fun he => hesc (Option.some.inj he)⟩
      · -- Conversely, each kind of text is treated by its own branch.
        intro h
        cases h with
        | dash src => exact ⟨true, rfl⟩
        | escape src hc => exact ⟨true, by simp [hc]⟩
        | plain hs =>
          refine ⟨false, ?_⟩
          cases src with
          | nil => rfl
          | cons c src =>
            rw [charAt_cons_zero, if_neg fun he => hs.1 (congrArg some he),
              if_neg fun he => hs.2 (congrArg some he)]

/-- Copying goes on as long as a tag is spelled. -/
theorem copyTag_append {body rest t : CStr} (h : TagSpelled body t)
    (hrest : rest = [] ∨ TagEnd rest) : (copyTag (body ++ rest)).cpy = t ∧
      ((copyTag (body ++ rest)).cut = true ↔ rest ≠ []) := by
  induction h with
  | nil =>
    -- The tag ends with the string, or at the byte that stops the copy.
    obtain rfl | ⟨c, s, rfl, rfl | rfl | ⟨rfl, hs⟩⟩ := hrest
    · simp [copyTag]
    · simp [copyTag]
    · simp [copyTag]
    · rw [List.nil_append, copyTag]
      · simp
      · intro src _ he
        rw [he] at hs
        exact hs rfl
  | dash _ ih =>
    rw [List.cons_append, List.cons_append, copyTag]
    exact ⟨congrArg _ ih.1, ih.2⟩
  | hyph _ ih =>
    rw [List.cons_append, copyTag]
    · exact ⟨congrArg _ ih.1, ih.2⟩
    · intro src he
      exact absurd he (by decide)
  | @char c s t hc _ ih =>
    simp only [List.mem_cons, List.not_mem_nil, or_false, not_or] at hc
    obtain ⟨htab, hspace, hesc, hhyph⟩ := hc
    rw [List.cons_append, copyTag]
    · rw [if_neg (by simp [htab, hspace]), if_neg hesc, if_neg hhyph]
      exact ⟨congrArg _ ih.1, ih.2⟩
    · intro src he
      exact absurd he hesc

/-- Every string begins with a tag, and the rest is cut off. -/
theorem exists_tagSpelled (s : CStr) : ∃ body rest, s = body ++ rest ∧
    TagSpelled body (copyTag s).cpy ∧ (rest = [] ∨ TagEnd rest) := by
  fun_induction copyTag s with
  | case1 => exact ⟨[], [], rfl, .nil, .inl rfl⟩
  | case2 src ih =>
    obtain ⟨body, rest, rfl, hbody, hrest⟩ := ih
    exact ⟨_, rest, rfl, .dash hbody, hrest⟩
  | case3 c src hdash hspace =>
    exact ⟨[], _, rfl, .nil, .inr ⟨c, src, rfl, hspace.imp_right .inl⟩⟩
  | case4 src hdash hspace =>
    refine ⟨[], _, rfl, .nil, .inr ⟨'\\', src, rfl, .inr (.inr ⟨rfl, fun he => ?_⟩)⟩⟩
    obtain ⟨src, rfl⟩ := List.head?_eq_some_iff.mp he
    exact hdash src rfl rfl
  | case5 src hdash hspace hesc ih =>
    obtain ⟨body, rest, rfl, hbody, hrest⟩ := ih
    exact ⟨_, rest, rfl, .hyph hbody, hrest⟩
  | case6 c src hdash hspace hesc hhyph ih =>
    obtain ⟨body, rest, rfl, hbody, hrest⟩ := ih
    refine ⟨_, rest, rfl, .char ?_ hbody, hrest⟩
    simp only [List.mem_cons, List.not_mem_nil, or_false, not_or]
    exact ⟨fun he => hspace (.inl he), fun he => hspace (.inr he), hesc, hhyph⟩

/-- **The effective tag.** The code asks for the tag and the priority that the call asks for. -/
theorem TagCall.asks_iff {N : Type} {nodes : N → TagNode} {call : TagCall N} {t : CStr} {prio : Int} :
    call.Asks nodes t prio ↔ ∃ changed, call.put nodes = some ⟨t, prio, changed, call.n⟩ := by
  -- The code lowers the priority of a tag that was cut unless it is weaker already.
  have hprio : ∀ cut : Bool, (if cut ∧ call.prio < TAG_WEAK then TAG_WEAK else call.prio) =
      if cut then max call.prio TAG_WEAK else call.prio := by
    intro cut
    cases cut with
    | false => rfl
    | true =>
      by_cases hlt : call.prio < TAG_WEAK
      · rw [if_pos ⟨rfl, hlt⟩, if_pos rfl, max_eq_right (Int.le_of_lt hlt)]
      · rw [if_neg fun h => hlt h.2, if_pos rfl, max_eq_left (Int.not_lt.mp hlt)]
  constructor
  · -- The source of the tag is split where copying stops.
    rintro ⟨hne, body, rest, htext, hbody, hrest⟩
    obtain ⟨changed, hsource⟩ := tagSource_iff.mpr htext
    obtain ⟨hcpy, hcut⟩ := copyTag_append hbody (hrest.imp And.left And.left)
    simp only [TagCall.put, effectiveTag, hsource, hcpy, if_neg hne, hprio, Option.map_some]
    refine ⟨changed || (copyTag (body ++ rest)).changed, ?_⟩
    obtain ⟨rfl, rfl⟩ | ⟨⟨c, s, rfl, -⟩, rfl⟩ := hrest
    · rw [if_neg fun h => hcut.mp h rfl]
    · rw [if_pos (hcut.mpr (List.cons_ne_nil c s))]
  · rintro ⟨changed, hput⟩
    -- Conversely, any source is split into the part that is copied and the rest.
    obtain ⟨r, hr, hreq⟩ := Option.map_eq_some_iff.mp hput
    unfold effectiveTag at hr
    cases hsource : tagSource call.s (nodes call.n) with
    | none =>
      rw [hsource] at hr
      cases hr
    | some src =>
      obtain ⟨src, ch⟩ := src
      obtain ⟨body, rest, rfl, hbody, hrest⟩ := exists_tagSpelled src
      obtain ⟨-, hcut⟩ := copyTag_append hbody hrest
      rw [hsource] at hr
      dsimp only at hr
      split at hr
      · cases hr
      next hne =>
      cases hr
      cases hreq
      refine ⟨hne, body, rest, tagSource_iff.mp ⟨ch, hsource⟩, hbody, ?_⟩
      rw [hprio]
      obtain rfl | hrest := hrest
      · exact .inl ⟨rfl, if_neg fun h => hcut.mp h rfl⟩
      · refine .inr ⟨hrest, if_pos (hcut.mpr ?_)⟩
        obtain ⟨c, s, rfl, -⟩ := hrest
        exact List.cons_ne_nil c s

/-! ## §5 Which nodes are tagged -/

section

variable {N : Type}

/-- The node of a call is tagged in the end: no call asks for the same tag with a better
    priority, and with the priority `TAG_FALLBACK`, no other call asks for it at all. -/
structure TagCall.Wins (nodes : N → TagNode) (calls : List (TagCall N)) (call : TagCall N)
    (t : CStr) (prio : Int) : Prop where
  asks : call.Asks nodes t prio
  best : ∀ c ∈ calls, ∀ p, c.Asks nodes t p → prio ≤ p
  unique : prio = TAG_FALLBACK → ∀ c ∈ calls, ∀ p, c.Asks nodes t p → c = call

/-- No other one has a better priority for the same tag, and with the priority `TAG_FALLBACK`, there
    is no other one at all. -/
structure Wins (ps : List (Put N)) (p : Put N) : Prop where
  mem : p ∈ ps
  best : ∀ q ∈ ps, q.tag = p.tag → p.prio ≤ q.prio
  unique : p.prio = TAG_FALLBACK → ∀ q ∈ ps, q.tag = p.tag → q = p

variable {ps ps' : List (Put N)} {p p₀ w : Put N}

/-- The order does not matter. -/
theorem Wins.congr (h : ∀ q, q ∈ ps ↔ q ∈ ps') : Wins ps p ↔ Wins ps' p := by
  constructor
  · intro hw
    exact ⟨(h p).mp hw.mem, fun q hq => hw.best q ((h q).mpr hq),
      fun hf q hq => hw.unique hf q ((h q).mpr hq)⟩
  · intro hw
    exact ⟨(h p).mpr hw.mem, fun q hq => hw.best q ((h q).mp hq),
      fun hf q hq => hw.unique hf q ((h q).mp hq)⟩

/-- A call for another tag. -/
theorem Wins.cons_of_ne (hne : p.tag ≠ p₀.tag) : Wins (p₀ :: ps) p ↔ Wins ps p := by
  have hmem : ∀ q, q.tag = p.tag → (q ∈ p₀ :: ps ↔ q ∈ ps) := fun q htag => by
    rw [List.mem_cons, or_iff_right]
    rintro rfl
    exact hne htag.symm
  constructor
  · intro hw
    exact ⟨(hmem p rfl).mp hw.mem, fun q hq => hw.best q (List.mem_cons_of_mem _ hq),
      fun hf q hq => hw.unique hf q (List.mem_cons_of_mem _ hq)⟩
  · intro hw
    exact ⟨(hmem p rfl).mpr hw.mem, fun q hq htag => hw.best q ((hmem q htag).mp hq) htag,
      fun hf q hq htag => hw.unique hf q ((hmem q htag).mp hq) htag⟩

theorem Wins.prio_eq (hw : Wins ps w) (hp : Wins ps p) (htag : p.tag = w.tag) : p.prio = w.prio :=
  Int.le_antisymm (hp.best w hw.mem htag.symm) (hw.best p hp.mem htag)

/-- A call with a worse priority. -/
theorem Wins.cons_of_lt (hw : Wins ps w) (hwtag : w.tag = p₀.tag) (hlt : w.prio < p₀.prio)
    (hprio : p₀.prio ≤ TAG_FALLBACK) : Wins (p₀ :: ps) p ↔ Wins ps p := by
  by_cases htag : p.tag = p₀.tag
  · constructor
    · intro hp
      obtain rfl | hmem := List.mem_cons.mp hp.mem
      · exact absurd (hp.best w (List.mem_cons_of_mem _ hw.mem) hwtag) (Int.not_le.mpr hlt)
      · exact ⟨hmem, fun q hq => hp.best q (List.mem_cons_of_mem _ hq),
          fun hf q hq => hp.unique hf q (List.mem_cons_of_mem _ hq)⟩
    · intro hp
      have heq := hw.prio_eq hp (htag.trans hwtag.symm)
      refine ⟨List.mem_cons_of_mem _ hp.mem, fun q hq hqtag => ?_, fun hf => ?_⟩
      · obtain rfl | hmem := List.mem_cons.mp hq
        · exact Int.le_of_lt (heq ▸ hlt)
        · exact hp.best q hmem hqtag
      · rw [heq] at hf
        exact absurd hprio (Int.not_le.mpr (hf ▸ hlt))
  · exact Wins.cons_of_ne htag

/-- A call with a better priority than all others for the same tag. -/
theorem Wins.cons_of_better (hlt : ∀ q ∈ ps, q.tag = p₀.tag → p₀.prio < q.prio)
    (hunique : p₀.prio = TAG_FALLBACK → ∀ q ∈ ps, q.tag ≠ p₀.tag) :
    Wins (p₀ :: ps) p ↔ p = p₀ ∨ (Wins ps p ∧ p.tag ≠ p₀.tag) := by
  by_cases htag : p.tag = p₀.tag
  · constructor
    · intro hp
      obtain rfl | hmem := List.mem_cons.mp hp.mem
      · exact .inl rfl
      · exact absurd (hp.best p₀ (List.mem_cons_self ..) htag.symm)
          (Int.not_le.mpr (hlt p hmem htag))
    · rintro (rfl | ⟨-, hne⟩)
      · refine ⟨List.mem_cons_self .., fun q hq hqtag => ?_, fun hf q hq hqtag => ?_⟩
        · obtain rfl | hmem := List.mem_cons.mp hq
          · exact Int.le_refl _
          · exact Int.le_of_lt (hlt q hmem hqtag)
        · obtain rfl | hmem := List.mem_cons.mp hq
          · rfl
          · exact absurd hqtag (hunique hf q hmem)
      · exact absurd htag hne
  · rw [Wins.cons_of_ne htag]
    exact ⟨fun hp => .inr ⟨hp, htag⟩, fun h => h.elim (fun heq => absurd (heq ▸ rfl) htag) And.left⟩

/-- A call with the same priority. -/
theorem Wins.cons_of_eq (hw : Wins ps w) (hwtag : w.tag = p₀.tag) (heq : w.prio = p₀.prio)
    (hprio : p₀.prio ≠ TAG_FALLBACK) : Wins (p₀ :: ps) p ↔ p = p₀ ∨ Wins ps p := by
  by_cases htag : p.tag = p₀.tag
  · constructor
    · intro hp
      obtain rfl | hmem := List.mem_cons.mp hp.mem
      · exact .inl rfl
      · exact .inr ⟨hmem, fun q hq => hp.best q (List.mem_cons_of_mem _ hq),
          fun hf q hq => hp.unique hf q (List.mem_cons_of_mem _ hq)⟩
    · have hbest : ∀ q ∈ p₀ :: ps, q.tag = p₀.tag → p₀.prio ≤ q.prio := fun q hq hqtag => by
        obtain rfl | hmem := List.mem_cons.mp hq
        · exact Int.le_refl _
        · exact heq ▸ hw.best q hmem (hqtag.trans hwtag.symm)
      rintro (rfl | hp)
      · exact ⟨List.mem_cons_self .., hbest, fun hf => absurd hf hprio⟩
      · have hpeq : p.prio = p₀.prio := (hw.prio_eq hp (htag.trans hwtag.symm)).trans heq
        refine ⟨List.mem_cons_of_mem _ hp.mem, fun q hq hqtag => ?_, fun hf => ?_⟩
        · exact hpeq ▸ hbest q hq (hqtag.trans htag)
        · exact absurd (hpeq ▸ hf) hprio
  · rw [Wins.cons_of_ne htag, or_iff_right]
    rintro rfl
    exact htag rfl

/-- Another call with the priority `TAG_FALLBACK`. -/
theorem Wins.cons_of_fallback {q : Put N} (hq : q ∈ ps) (hqtag : q.tag = p₀.tag)
    (hall : ∀ q ∈ ps, q.tag = p₀.tag → q.prio = TAG_FALLBACK) (hprio : p₀.prio = TAG_FALLBACK)
    (hnew : p₀ ∉ ps) : Wins (p₀ :: ps) p ↔ Wins ps p ∧ p.tag ≠ p₀.tag := by
  by_cases htag : p.tag = p₀.tag
  · refine iff_of_false (fun hp => ?_) fun h => h.2 htag
    have hf : p.prio = TAG_FALLBACK := by
      obtain rfl | hmem := List.mem_cons.mp hp.mem
      · exact hprio
      · exact hall p hmem htag
    have h₀ := hp.unique hf p₀ (List.mem_cons_self ..) htag.symm
    have h₁ := hp.unique hf q (List.mem_cons_of_mem _ hq) (hqtag.trans htag.symm)
    exact hnew (h₀.trans h₁.symm ▸ hq)
  · rw [Wins.cons_of_ne htag]
    exact ⟨fun hp => ⟨hp, htag⟩, And.left⟩

/-! ## §6 The nodes -/

/-- A node without a tag. -/
def TagNode.Untagged (n : TagNode) : Prop := n.id = false ∧ n.tag = none

/-- A node with the tag that a call asks for. -/
def tagged (nodes₀ : N → TagNode) (p : Put N) : TagNode :=
  { nodes₀ p.node with id := true, tag := if p.changed then some p.tag else none }

/-- Exactly the nodes of certain calls are tagged. -/
structure NodesInv (nodes₀ : N → TagNode) (W : Put N → Prop) (nodes : N → TagNode) : Prop where
  won : ∀ p, W p → nodes p.node = tagged nodes₀ p
  rest : ∀ n, (∀ p, W p → p.node ≠ n) → nodes n = nodes₀ n

variable [DecidableEq N] {nodes₀ nodes : N → TagNode} {W W' : Put N → Prop}

omit [DecidableEq N] in
theorem NodesInv.congr (h : NodesInv nodes₀ W nodes) (hW : ∀ p, W' p ↔ W p) :
    NodesInv nodes₀ W' nodes where
  won p hp := h.won p ((hW p).mp hp)
  rest n hn := h.rest n fun p hp => hn p ((hW p).mpr hp)

/-- Remove the tags of some nodes. -/
theorem foldl_untag (l : List N) (nodes : N → TagNode) (n : N) :
    l.foldl untag nodes n = if n ∈ l then { nodes n with id := false, tag := none } else nodes n := by
  induction l generalizing nodes with
  | nil => rfl
  | cons m l ih =>
    rw [List.foldl_cons, ih, untag]
    by_cases heq : n = m
    · subst heq
      rw [Function.update_self, if_pos (List.mem_cons_self ..)]
      split <;> rfl
    · rw [Function.update_of_ne heq]
      simp only [List.mem_cons, heq, false_or]

/-- The loop that clears an entry. -/
theorem NodesInv.clear (h : NodesInv nodes₀ W nodes) {l : List N} {t : CStr}
    (hl : ∀ n, n ∈ l ↔ ∃ p, W p ∧ p.tag = t ∧ p.node = n)
    (hinj : ∀ p q, W p → W q → p.node = q.node → p = q)
    (h₀ : ∀ p, W p → (nodes₀ p.node).Untagged) :
    NodesInv nodes₀ (fun p => W p ∧ p.tag ≠ t) (l.foldl untag nodes) where
  won p hp := by
    rw [foldl_untag, if_neg fun hmem => ?_]
    · exact h.won p hp.1
    · obtain ⟨q, hq, htag, hnode⟩ := (hl p.node).mp hmem
      exact hp.2 (hinj q p hq hp.1 hnode ▸ htag)
  rest n hn := by
    rw [foldl_untag]
    split
    · next hmem =>
      obtain ⟨q, hq, -, rfl⟩ := (hl n).mp hmem
      obtain ⟨hid, htag⟩ := h₀ q hq
      rw [h.won q hq, tagged, ← hid, ← htag]
    · next hmem =>
      refine h.rest n fun p hp hnode => ?_
      refine hn p ⟨hp, fun htag => hmem ((hl n).mpr ⟨p, hp, htag, hnode⟩)⟩ hnode

/-- Tag the node of a call. -/
theorem NodesInv.add (h : NodesInv nodes₀ W nodes) (hnew : ∀ p, W p → p.node ≠ p₀.node) :
    NodesInv nodes₀ (fun p => p = p₀ ∨ W p) (Function.update nodes p₀.node (tagged nodes₀ p₀)) where
  won p hp := by
    obtain rfl | hp := hp
    · rw [Function.update_self]
    · rw [Function.update_of_ne (hnew p hp)]
      exact h.won p hp
  rest n hn := by
    have hne : n ≠ p₀.node := fun heq => hn p₀ (.inl rfl) heq.symm
    rw [Function.update_of_ne hne]
    exact h.rest n fun p hp => hn p (.inr hp)

/-- Remembering a node without a tag does not fail. -/
theorem rememberNode_eq {st : TagState N} {l : List N} (hnode : st.nodes p₀.node = nodes₀ p₀.node)
    (h₀ : (nodes₀ p₀.node).Untagged) :
    rememberNode st p₀.tag p₀.prio p₀.changed p₀.node l =
      .ok ⟨Function.update st.tagData p₀.tag (some ⟨p₀.node :: l, p₀.prio⟩),
        Function.update st.nodes p₀.node (tagged nodes₀ p₀)⟩ := by
  have hset : (st.setEntry p₀.tag ⟨p₀.node :: l, p₀.prio⟩).nodes p₀.node = nodes₀ p₀.node := hnode
  unfold rememberNode
  dsimp only
  rw [hset, h₀.2, if_pos rfl, tagged]
  split
  · rfl
  · rw [← h₀.2]
    rfl

/-! ## §7 The table -/

/-- The entry for a tag, given the calls so far. -/
inductive EntryInv (ps : List (Put N)) (t : CStr) : Option (TagEntry N) → Prop where
  /-- There was no call for the tag. -/
  | absent : (∀ q ∈ ps, q.tag ≠ t) → EntryInv ps t none
  /-- The entry contains the nodes of the winners and their priority. -/
  | best {entry : TagEntry N} {w : Put N} : Wins ps w → w.tag = t → w.prio = entry.prio →
      (∀ n, n ∈ entry.nodes ↔ ∃ p, Wins ps p ∧ p.tag = t ∧ p.node = n) → EntryInv ps t (some entry)
  /-- There were several calls, and all of them with the priority `TAG_FALLBACK`. -/
  | ambiguous {q : Put N} : q ∈ ps → q.tag = t → (∀ q ∈ ps, q.tag = t → q.prio = TAG_FALLBACK) →
      (∀ p, Wins ps p → p.tag ≠ t) → EntryInv ps t (some ⟨[], TAG_DELETE⟩)

/-- The state after some calls. -/
structure TagInv (nodes₀ : N → TagNode) (ps : List (Put N)) (st : TagState N) : Prop where
  entries : ∀ t, EntryInv ps t (st.tagData t)
  nodes : NodesInv nodes₀ (Wins ps) st.nodes

/-- The nodes are pairwise distinct and were not tagged before. -/
structure TagPuts (nodes₀ : N → TagNode) (ps : List (Put N)) : Prop where
  nodup : (ps.map Put.node).Nodup
  untagged : ∀ p ∈ ps, (nodes₀ p.node).Untagged
  prio : ∀ p ∈ ps, p.prio ≤ TAG_FALLBACK

omit [DecidableEq N] in
/-- The entry for another tag. -/
theorem EntryInv.cons_of_ne {t : CStr} {o : Option (TagEntry N)} (h : EntryInv ps t o)
    (hne : p₀.tag ≠ t) : EntryInv (p₀ :: ps) t o := by
  have hsame : ∀ {p : Put N}, p.tag = t → (Wins (p₀ :: ps) p ↔ Wins ps p) := fun htag =>
    Wins.cons_of_ne (htag ▸ Ne.symm hne)
  have hmem : ∀ {q : Put N}, q ∈ p₀ :: ps → q.tag = t → q ∈ ps := fun hq htag => by
    obtain rfl | hmem := List.mem_cons.mp hq
    · exact absurd htag hne
    · exact hmem
  cases h with
  | absent h => exact .absent fun q hq htag => h q (hmem hq htag) htag
  | best hw htag hprio hnodes =>
    refine .best ((hsame htag).mpr hw) htag hprio fun n => (hnodes n).trans ?_
    exact exists_congr fun p => and_congr_left fun h => (hsame h.1).symm
  | ambiguous hq htag hall hno =>
    refine .ambiguous (List.mem_cons_of_mem _ hq) htag (fun q hq htag => hall q (hmem hq htag) htag) ?_
    exact fun p hp htag => hno p ((hsame htag).mp hp) htag

/-! ## §8 One call -/

section

variable {st : TagState N}

omit [DecidableEq N] in
theorem TagPuts.inj (h : TagPuts nodes₀ ps) {q : Put N} (hp : p ∈ ps) (hq : q ∈ ps)
    (hnode : p.node = q.node) : p = q :=
  List.inj_on_of_nodup_map h.nodup hp hq hnode

omit [DecidableEq N] in
theorem TagPuts.tail (h : TagPuts nodes₀ (p₀ :: ps)) : TagPuts nodes₀ ps where
  nodup := (List.nodup_cons.mp h.nodup).2
  untagged p hp := h.untagged p (List.mem_cons_of_mem _ hp)
  prio p hp := h.prio p (List.mem_cons_of_mem _ hp)

omit [DecidableEq N] in
theorem TagPuts.node_ne (h : TagPuts nodes₀ (p₀ :: ps)) (hp : p ∈ ps) : p.node ≠ p₀.node := fun heq =>
  (List.nodup_cons.mp h.nodup).1 (heq ▸ List.mem_map_of_mem hp)

omit [DecidableEq N] in
theorem TagInv.node_eq (h : TagInv nodes₀ ps st) (hps : TagPuts nodes₀ (p₀ :: ps)) :
    st.nodes p₀.node = nodes₀ p₀.node :=
  h.nodes.rest _ fun _ hp => hps.node_ne hp.mem

omit [DecidableEq N] in
/-- Only the entry for the tag of the call changes. -/
theorem TagInv.entries_update (h : TagInv nodes₀ ps st) {entry : TagEntry N}
    (hentry : EntryInv (p₀ :: ps) p₀.tag (some entry)) (t : CStr) :
    EntryInv (p₀ :: ps) t (Function.update st.tagData p₀.tag (some entry) t) := by
  by_cases heq : t = p₀.tag
  · rw [heq, Function.update_self]
    exact hentry
  · rw [Function.update_of_ne heq]
    exact (h.entries t).cons_of_ne (Ne.symm heq)

/-- A call that replaces all others with the same tag. -/
theorem TagInv.replace (h : TagInv nodes₀ ps st) (hps : TagPuts nodes₀ (p₀ :: ps)) {l : List N}
    (hl : ∀ n, n ∈ l ↔ ∃ p, Wins ps p ∧ p.tag = p₀.tag ∧ p.node = n)
    (hlt : ∀ q ∈ ps, q.tag = p₀.tag → p₀.prio < q.prio) :
    ∃ st', rememberNode { st with nodes := l.foldl untag st.nodes } p₀.tag p₀.prio p₀.changed p₀.node
        [] = .ok st' ∧ TagInv nodes₀ (p₀ :: ps) st' := by
  have hunique : p₀.prio = TAG_FALLBACK → ∀ q ∈ ps, q.tag ≠ p₀.tag := fun hf q hq htag =>
    absurd (hps.tail.prio q hq) (Int.not_le.mpr (hf ▸ hlt q hq htag))
  have hwins : ∀ p, Wins (p₀ :: ps) p ↔ p = p₀ ∨ (Wins ps p ∧ p.tag ≠ p₀.tag) := fun p =>
    Wins.cons_of_better hlt hunique
  have hclear := h.nodes.clear hl (fun p q hp hq => hps.tail.inj hp.mem hq.mem)
    fun p hp => hps.tail.untagged p hp.mem
  have hnode : l.foldl untag st.nodes p₀.node = nodes₀ p₀.node :=
    hclear.rest _ fun p hp => hps.node_ne hp.1.mem
  refine ⟨_, rememberNode_eq hnode (hps.untagged p₀ (List.mem_cons_self ..)), ?_, ?_⟩
  · refine h.entries_update (.best ((hwins p₀).mpr (.inl rfl)) rfl rfl fun n => ?_)
    rw [List.mem_singleton]
    constructor
    · rintro rfl
      exact ⟨p₀, (hwins p₀).mpr (.inl rfl), rfl, rfl⟩
    · rintro ⟨p, hp, htag, rfl⟩
      obtain rfl | hp := (hwins p).mp hp
      · rfl
      · exact absurd htag hp.2
  · exact (hclear.add fun p hp => hps.node_ne hp.1.mem).congr hwins

/-- A call that makes a tag ambiguous, or that finds it so. -/
theorem TagInv.delete (h : TagInv nodes₀ ps st) (hps : TagPuts nodes₀ (p₀ :: ps)) {l : List N}
    (hl : ∀ n, n ∈ l ↔ ∃ p, Wins ps p ∧ p.tag = p₀.tag ∧ p.node = n) {q : Put N} (hq : q ∈ ps)
    (hqtag : q.tag = p₀.tag) (hall : ∀ q ∈ ps, q.tag = p₀.tag → q.prio = TAG_FALLBACK)
    (hprio : p₀.prio = TAG_FALLBACK) :
    TagInv nodes₀ (p₀ :: ps) (TagState.setEntry { st with nodes := l.foldl untag st.nodes } p₀.tag
      ⟨[], TAG_DELETE⟩) := by
  have hwins : ∀ p, Wins (p₀ :: ps) p ↔ Wins ps p ∧ p.tag ≠ p₀.tag := fun p =>
    Wins.cons_of_fallback hq hqtag hall hprio fun hmem => hps.node_ne hmem rfl
  have hclear := h.nodes.clear hl (fun p q hp hq => hps.tail.inj hp.mem hq.mem)
    fun p hp => hps.tail.untagged p hp.mem
  refine ⟨h.entries_update (.ambiguous (List.mem_cons_self ..) rfl (fun q hq htag => ?_) ?_),
    hclear.congr hwins⟩
  · obtain rfl | hmem := List.mem_cons.mp hq
    · exact hprio
    · exact hall q hmem htag
  · exact fun p hp => ((hwins p).mp hp).2

/-- **One call.** It does not fail, and it preserves the invariant. -/
theorem TagInv.tagEnter (h : TagInv nodes₀ ps st) (hps : TagPuts nodes₀ (p₀ :: ps)) :
    ∃ st', tagEnter st p₀.tag p₀.prio p₀.changed p₀.node = .ok st' ∧
      TagInv nodes₀ (p₀ :: ps) st' := by
  have hprio := hps.prio p₀ (List.mem_cons_self ..)
  have hentry := h.entries p₀.tag
  have hnil : (∀ p, Wins ps p → p.tag ≠ p₀.tag) →
      ∀ n, n ∈ ([] : List N) ↔ ∃ p, Wins ps p ∧ p.tag = p₀.tag ∧ p.node = n := by
    intro hno n
    refine iff_of_false List.not_mem_nil ?_
    rintro ⟨p, hp, htag, -⟩
    exact hno p hp htag
  unfold Mandoc.tagEnter
  cases hdata : st.tagData p₀.tag with
  | none =>
    rw [hdata] at hentry
    cases hentry with
    | absent hno =>
      exact h.replace hps (hnil fun p hp => hno p hp.mem) fun q hq htag => absurd htag (hno q hq)
  | some entry =>
    rw [hdata] at hentry
    dsimp only
    cases hentry with
    | ambiguous hq hqtag hall hno =>
      have hlt : p₀.prio < TAG_DELETE := Int.lt_of_le_of_lt hprio (by decide)
      rw [if_neg (Int.not_lt.mpr (Int.le_of_lt hlt)), if_pos (.inl hlt)]
      split
      · next hf => exact ⟨_, rfl, h.delete hps (hnil hno) hq hqtag hall hf⟩
      · next hf =>
        refine h.replace hps (hnil hno) fun q hq htag => ?_
        rw [hall q hq htag]
        exact lt_of_le_of_ne hprio hf
    | best hw hwtag hwprio hnodes =>
      rename_i w
      have hle := hps.tail.prio w hw.mem
      split
      · next hlt =>
        -- The new one is worse.
        have hwins : ∀ p, Wins (p₀ :: ps) p ↔ Wins ps p := fun p =>
          Wins.cons_of_lt hw hwtag (hwprio ▸ hlt) hprio
        refine ⟨st, rfl, fun t => ?_, h.nodes.congr hwins⟩
        by_cases heq : t = p₀.tag
        · rw [heq, hdata]
          refine .best ((hwins w).mpr hw) hwtag hwprio fun n => (hnodes n).trans ?_
          exact exists_congr fun p => and_congr_left' (hwins p).symm
        · exact (h.entries t).cons_of_ne (Ne.symm heq)
      next hge =>
      split
      · next hcase =>
        split
        · next hf =>
          -- Both of them have the lowest priority that is considered.
          have hwf : w.prio = TAG_FALLBACK := Int.le_antisymm hle (by omega)
          refine ⟨_, rfl, h.delete hps hnodes hw.mem hwtag (fun q hq htag => ?_) hf⟩
          rw [hw.unique hwf q hq (htag.trans hwtag.symm), hwf]
        · next hf =>
          -- The new one is better.
          refine h.replace hps hnodes fun q hq htag => ?_
          have hbest := hw.best q hq (htag.trans hwtag.symm)
          have hlt := hcase.resolve_right hf
          omega
      · next hcase =>
        -- The priorities are the same.
        have heq : entry.prio = p₀.prio := by omega
        have hf : p₀.prio ≠ TAG_FALLBACK := fun hf => hcase (.inr hf)
        have hwins : ∀ p, Wins (p₀ :: ps) p ↔ p = p₀ ∨ Wins ps p := fun p =>
          Wins.cons_of_eq hw hwtag (hwprio.trans heq) hf
        refine ⟨_, rememberNode_eq (h.node_eq hps) (hps.untagged p₀ (List.mem_cons_self ..)), ?_, ?_⟩
        · refine h.entries_update (.best ((hwins p₀).mpr (.inl rfl)) rfl rfl fun n => ?_)
          rw [List.mem_cons, hnodes]
          constructor
          · rintro (rfl | ⟨p, hp, htag, rfl⟩)
            · exact ⟨p₀, (hwins p₀).mpr (.inl rfl), rfl, rfl⟩
            · exact ⟨p, (hwins p).mpr (.inr hp), htag, rfl⟩
          · rintro ⟨p, hp, htag, rfl⟩
            obtain rfl | hp := (hwins p).mp hp
            · exact .inl rfl
            · exact .inr ⟨p, hp, htag, rfl⟩
        · exact (h.nodes.add fun p hp => hps.node_ne hp.mem).congr hwins

/-! ## §9 Sequences of calls -/

variable {call : TagCall N}

omit [DecidableEq N] in
/-- The effective priority is in the same range. -/
theorem TagCall.put_spec (hput : call.put nodes₀ = some p) (hprio : call.prio ≤ TAG_FALLBACK) :
    p.node = call.n ∧ p.prio ≤ TAG_FALLBACK := by
  obtain ⟨r, hr, rfl⟩ := Option.map_eq_some_iff.mp hput
  refine ⟨rfl, ?_⟩
  unfold effectiveTag at hr
  split at hr
  · cases hr
  · dsimp only at hr
    split at hr
    · cases hr
    · cases hr
      dsimp only
      split
      · decide
      · exact hprio

/-- A call on a node that is not tagged yet. -/
theorem tagPut_eq (hprio : call.prio ≤ TAG_FALLBACK) (hnode : st.nodes call.n = nodes₀ call.n)
    (h₀ : (nodes₀ call.n).Untagged) :
    tagPut st call.s call.prio call.n =
      match call.put nodes₀ with
      | none => .ok st
      | some p => tagEnter st p.tag p.prio p.changed p.node := by
  unfold tagPut TagCall.put
  rw [if_neg (Int.not_lt.mpr hprio), hnode, h₀.1, if_neg (by decide)]
  cases effectiveTag call.s call.prio (nodes₀ call.n) with
  | none => rfl
  | some r => rfl

/-- Calls on pairwise distinct nodes without tags, with priorities that pass the assertion. -/
structure TagCalls (nodes₀ : N → TagNode) (calls : List (TagCall N)) : Prop where
  nodup : (calls.map TagCall.n).Nodup
  untagged : ∀ call ∈ calls, (nodes₀ call.n).Untagged
  prio : ∀ call ∈ calls, call.prio ≤ TAG_FALLBACK

/-- **A run.** No assertion fails, and the invariant holds in the end. -/
theorem TagInv.runTags (h : TagInv nodes₀ ps st) (hps : TagPuts nodes₀ ps) {calls : List (TagCall N)}
    (hcalls : TagCalls nodes₀ calls) (hnew : ∀ call ∈ calls, ∀ p ∈ ps, p.node ≠ call.n) :
    ∃ st', runTags st calls = .ok st' ∧
      TagInv nodes₀ ((calls.filterMap (TagCall.put nodes₀)).reverse ++ ps) st' := by
  induction calls generalizing ps st with
  | nil => exact ⟨st, rfl, h⟩
  -- The rest of the calls is about other nodes, so the invariant can be used again.
  | cons call calls ih =>
    obtain ⟨hfirst, hnodup⟩ := List.nodup_cons.mp hcalls.nodup
    have h₀ := hcalls.untagged call (List.mem_cons_self ..)
    have hprio := hcalls.prio call (List.mem_cons_self ..)
    have htail : TagCalls nodes₀ calls := {
      nodup := hnodup
      untagged := fun c hc => hcalls.untagged c (List.mem_cons_of_mem _ hc)
      prio := fun c hc => hcalls.prio c (List.mem_cons_of_mem _ hc) }
    have hnode : st.nodes call.n = nodes₀ call.n :=
      h.nodes.rest _ fun p hp => hnew call (List.mem_cons_self ..) p hp.mem
    unfold Mandoc.runTags
    rw [tagPut_eq hprio hnode h₀]
    cases hput : call.put nodes₀ with
    -- The call does not enter a tag.
    | none =>
      rw [List.filterMap_cons_none hput]
      exact ih h hps htail fun c hc => hnew c (List.mem_cons_of_mem _ hc)
    | some p =>
      -- The call enters a tag, in front of those entered before.
      obtain ⟨hpnode, hpprio⟩ := TagCall.put_spec hput hprio
      have hps' : TagPuts nodes₀ (p :: ps) := by
        refine ⟨?_, ?_, ?_⟩
        · refine List.nodup_cons.mpr ⟨fun hmem => ?_, hps.nodup⟩
          obtain ⟨q, hq, hqnode⟩ := List.mem_map.mp hmem
          exact hnew call (List.mem_cons_self ..) q hq (hqnode.trans hpnode)
        · intro q hq
          obtain rfl | hq := List.mem_cons.mp hq
          · exact hpnode ▸ h₀
          · exact hps.untagged q hq
        · intro q hq
          obtain rfl | hq := List.mem_cons.mp hq
          · exact hpprio
          · exact hps.prio q hq
      obtain ⟨st', heq, hinv⟩ := h.tagEnter hps'
      obtain ⟨st'', hrun, hinv'⟩ := ih hinv hps' htail fun c hc q hq => by
        obtain rfl | hq := List.mem_cons.mp hq
        · rw [hpnode]
          exact fun heq => hfirst (heq ▸ List.mem_map_of_mem hc)
        · exact hnew c (List.mem_cons_of_mem _ hc) q hq
      refine ⟨st'', ?_, ?_⟩
      · dsimp only
        rw [heq]
        exact hrun
      · rw [List.filterMap_cons_some hput, List.reverse_cons, List.append_assoc]
        exact hinv'

omit [DecidableEq N] in
theorem TagInv.tagAlloc (nodes₀ : N → TagNode) : TagInv nodes₀ [] (tagAlloc nodes₀) where
  entries _ := .absent nofun
  nodes := ⟨fun _ hp => absurd hp.mem List.not_mem_nil, fun _ _ => rfl⟩

omit [DecidableEq N] in
/-- The call of a winner. -/
theorem Wins.callWins {calls : List (TagCall N)} (h : Wins (calls.filterMap (TagCall.put nodes₀)) p)
    (hcalls : TagCalls nodes₀ calls) (hcall : call ∈ calls) (hput : call.put nodes₀ = some p) :
    call.Wins nodes₀ calls p.tag p.prio := by
  obtain ⟨hnode, -⟩ := TagCall.put_spec hput (hcalls.prio call hcall)
  have hmem : ∀ c ∈ calls, ∀ prio, c.Asks nodes₀ p.tag prio → ∃ changed,
      (⟨p.tag, prio, changed, c.n⟩ : Put N) ∈ calls.filterMap (TagCall.put nodes₀) := by
    intro c hc prio hasks
    obtain ⟨changed, hput⟩ := TagCall.asks_iff.mp hasks
    exact ⟨changed, List.mem_filterMap.mpr ⟨c, hc, hput⟩⟩
  refine ⟨TagCall.asks_iff.mpr ⟨p.changed, by rw [hput, ← hnode]⟩, fun c hc prio hasks => ?_,
    fun hf c hc prio hasks => ?_⟩
  · obtain ⟨changed, hq⟩ := hmem c hc prio hasks
    exact h.best _ hq rfl
  · obtain ⟨changed, hq⟩ := hmem c hc prio hasks
    have heq := congrArg Put.node (h.unique hf _ hq rfl)
    exact List.inj_on_of_nodup_map hcalls.nodup hc hcall (heq.trans hnode)

omit [DecidableEq N] in
/-- The winner of a call. -/
theorem TagCall.Wins.put {calls : List (TagCall N)} {t : CStr} {prio : Int}
    (h : call.Wins nodes₀ calls t prio) (hcall : call ∈ calls) :
    ∃ p, Mandoc.Wins (calls.filterMap (TagCall.put nodes₀)) p ∧ call.put nodes₀ = some p := by
  obtain ⟨changed, hput⟩ := TagCall.asks_iff.mp h.asks
  have hasks : ∀ q ∈ calls.filterMap (TagCall.put nodes₀), ∃ c ∈ calls,
      c.Asks nodes₀ q.tag q.prio ∧ c.put nodes₀ = some q := by
    intro q hq
    obtain ⟨c, hc, hput⟩ := List.mem_filterMap.mp hq
    refine ⟨c, hc, TagCall.asks_iff.mpr ⟨q.changed, ?_⟩, hput⟩
    obtain ⟨r, hr, rfl⟩ := Option.map_eq_some_iff.mp hput
    exact hput
  refine ⟨_, ⟨List.mem_filterMap.mpr ⟨call, hcall, hput⟩, fun q hq htag => ?_,
    fun hf q hq htag => ?_⟩, hput⟩
  · obtain ⟨c, hc, hq, -⟩ := hasks q hq
    exact h.best c hc q.prio ((show q.tag = t from htag) ▸ hq)
  · obtain ⟨c, hc, hq, hputq⟩ := hasks q hq
    have hcall' : c = call := h.unique hf c hc q.prio ((show q.tag = t from htag) ▸ hq)
    rw [hcall'] at hputq
    exact Option.some.inj (hputq.symm.trans hput)

/-- The whole sequence of calls for a document. -/
theorem runTags_spec {calls : List (TagCall N)} (hcalls : TagCalls nodes₀ calls) :
    ∃ st, runTags (tagAlloc nodes₀) calls = .ok st ∧
      NodesInv nodes₀ (Wins (calls.filterMap (TagCall.put nodes₀))) st.nodes := by
  have hnil : TagPuts nodes₀ [] := ⟨List.nodup_nil, nofun, nofun⟩
  obtain ⟨st, hrun, hinv⟩ := (TagInv.tagAlloc nodes₀).runTags hnil hcalls nofun
  refine ⟨st, hrun, hinv.nodes.congr fun p => Wins.congr fun q => ?_⟩
  rw [List.append_nil, List.mem_reverse]

omit [DecidableEq N] in
/-- The winners determine the nodes. -/
theorem NodesInv.unique {nodes' : N → TagNode} (h : NodesInv nodes₀ W nodes)
    (h' : NodesInv nodes₀ W nodes') : nodes = nodes' := by
  funext n
  by_cases hn : ∃ p, W p ∧ p.node = n
  · obtain ⟨p, hp, rfl⟩ := hn
    rw [h.won p hp, h'.won p hp]
  · have hrest : ∀ p, W p → p.node ≠ n := fun p hp hnode => hn ⟨p, hp, hnode⟩
    rw [h.rest n hrest, h'.rest n hrest]

/-- **Implicit tags.** For calls of `tag_put()` on pairwise distinct nodes that are not tagged, no
    assertion fails. In the end, exactly those nodes are tagged that were put with the lowest
    priority for their tag, unless that is `TAG_FALLBACK` and there were several of them. The other
    nodes are not changed, and the order of the calls does not matter. -/
theorem runTags_order {calls : List (TagCall N)} (hcalls : TagCalls nodes₀ calls) :
    ∃ st, runTags (tagAlloc nodes₀) calls = .ok st ∧
      (∀ call ∈ calls, (st.nodes call.n).id = true ↔
        ∃ t prio, call.Wins nodes₀ calls t prio) ∧
      (∀ n ∉ calls.map TagCall.n, st.nodes n = nodes₀ n) ∧
      ∀ calls' : List (TagCall N), calls.Perm calls' →
        ∃ st', runTags (tagAlloc nodes₀) calls' = .ok st' ∧ st'.nodes = st.nodes := by
  obtain ⟨st, hrun, hnodes⟩ := runTags_spec hcalls
  refine ⟨st, hrun, fun call hcall => ⟨fun hid => ?_, ?_⟩, fun n hn => ?_, fun calls' hperm => ?_⟩
  · by_cases hwin : ∃ p, Wins (calls.filterMap (TagCall.put nodes₀)) p ∧ p.node = call.n
    · obtain ⟨p, hp, hnode⟩ := hwin
      obtain ⟨call', hcall', hput⟩ := List.mem_filterMap.mp hp.mem
      have hnode' := (TagCall.put_spec hput (hcalls.prio call' hcall')).1
      obtain rfl := List.inj_on_of_nodup_map hcalls.nodup hcall' hcall (hnode'.symm.trans hnode)
      exact ⟨p.tag, p.prio, hp.callWins hcalls hcall hput⟩
    · rw [hnodes.rest call.n fun p hp hnode => hwin ⟨p, hp, hnode⟩] at hid
      rw [(hcalls.untagged call hcall).1] at hid
      cases hid
  · rintro ⟨t, prio, hwins⟩
    obtain ⟨p, hp, hput⟩ := hwins.put hcall
    rw [← (TagCall.put_spec hput (hcalls.prio call hcall)).1, hnodes.won p hp]
    rfl
  · refine hnodes.rest n fun p hp hnode => hn ?_
    obtain ⟨call, hcall, hput⟩ := List.mem_filterMap.mp hp.mem
    rw [← hnode, (TagCall.put_spec hput (hcalls.prio call hcall)).1]
    exact List.mem_map_of_mem hcall
  · have hcalls' : TagCalls nodes₀ calls' := {
      nodup := (hperm.map TagCall.n).nodup_iff.mp hcalls.nodup
      untagged := fun c hc => hcalls.untagged c (hperm.mem_iff.mpr hc)
      prio := fun c hc => hcalls.prio c (hperm.mem_iff.mpr hc) }
    obtain ⟨st', hrun', hnodes'⟩ := runTags_spec hcalls'
    refine ⟨st', hrun', (hnodes'.congr fun p => Wins.congr fun q => ?_).unique hnodes⟩
    exact (hperm.filterMap _).mem_iff

end

end

/-- The texts of five nodes. -/
def sampleTexts (n : Nat) : TagNode :=
  { text := ["-x".toList, "y z".toList, "-y".toList, "\\fBx".toList, "w".toList][n]? }

/-- For the tag `x`, a weak priority and a better one; for the tag `y`, a better priority that is
    downgraded, and a weak one; a text without a tag; and a tag that is only used if unique. -/
def sampleCalls : List (TagCall Nat) :=
  [⟨none, TAG_WEAK, 0⟩, ⟨none, 1, 1⟩, ⟨none, TAG_WEAK, 2⟩, ⟨none, 1, 3⟩, ⟨none, TAG_FALLBACK, 4⟩,
    ⟨some "x".toList, 2, 5⟩, ⟨some "v".toList, TAG_FALLBACK, 6⟩, ⟨some "v".toList, TAG_FALLBACK, 7⟩]

/-- The nodes with both the tags `y`, with the unique tag `w`, and with the better tag `x`. -/
def sampleTagged : List Bool := [false, true, true, false, true, true, false, false]

/-- The nodes that are tagged are the same for the calls in the opposite order. -/
theorem runTags_order_reverse :
    ∃ st st', runTags (tagAlloc sampleTexts) sampleCalls = .ok st ∧
      runTags (tagAlloc sampleTexts) sampleCalls.reverse = .ok st' ∧
      (List.range 8).map (fun n => (st.nodes n).id) = sampleTagged ∧
      (List.range 8).map (fun n => (st'.nodes n).id) = sampleTagged := by
  have hcalls : TagCalls sampleTexts sampleCalls := by
    refine ⟨by decide, fun _ _ => ⟨rfl, rfl⟩, ?_⟩
    simp only [sampleCalls, List.forall_mem_cons]
    decide
  have htagged : (runTags (tagAlloc sampleTexts) sampleCalls).map (fun st =>
      (List.range 8).map fun n => (st.nodes n).id) = .ok sampleTagged := by
    decide +kernel
  obtain ⟨st, hrun, -, -, hperm⟩ := runTags_order hcalls
  obtain ⟨st', hrun', hsame⟩ := hperm sampleCalls.reverse sampleCalls.reverse_perm.symm
  rw [hrun] at htagged
  have hst := Except.ok.inj htagged
  exact ⟨st, st', hrun, hrun', hst, hsame ▸ hst⟩

end Mandoc
