import Mandoc.Html.TagEffects

/-!
# Visits of Nodes and the Stack of Elements

While it formats a node of the syntax tree, a formatter holds the element that was innermost at the
beginning of the visit, by incrementing its reference count. In between, elements are opened and
closed, text is printed, and the children are visited. In the end, the reference count is
decremented, and the elements above that element are closed.

Closing a paragraph can free the paragraph although an element within it is held by a visit. Then
that element is not on the stack any more, and the end of the visit closes everything. Text closes
everything, too, if its permalink was closed together with the font scope around it. The main
result, `safeRun_disciplined`, says that this is all that can go wrong: in a run in which no element
is closed that is held while one below it is closed that is not, every visit finds its
element on the stack, and the tags that are written are nested.

- `HtmlOp` are the operations, and `HtmlOp.exec` executes one of them.
- `HtmlOp.exec_disciplined_iff` says exactly which steps keep the discipline.
- `leave_closes` says what the end of a visit closes.
-/

namespace Mandoc

/-! ## §1 Operations -/

/-- What the formatters do with the elements. -/
inductive HtmlOp where
  /-- Print something and change the flags or the font, without touching the elements. -/
  | output (out : HtmlDoc)
  | otag (tag : HtmlTag) (attrs : List Attr) (styles : List Style)
  | otagId (elemtype : HtmlTag) (cattr : Option String) (n : SynTree) (nodeId nodeHref : Bool)
  | text (word : CStr) (n : Option SynTree)
  | tagq (last : Option Nat)
  | stagq (suntil : Option Nat)
  | closeParagraph
  | fillmode (want : Option FillMode)
  /-- `html_tblopen()` -/
  | tblopen (attrs : List Attr) (styles : List Style)
  /-- `print_tblclose()` -/
  | tblclose
  /-- The visit of a node begins. -/
  | enter
  /-- The visit of a node ends. -/
  | leave
  /-- The visit of a list item ends. The list is closed unless another item follows. -/
  | leaveItem (continues : Bool)

/-- The formatter, and the visits that have begun, with the innermost one first. -/
structure HtmlRun where
  d : HtmlDoc := {}
  visits : List OpenScopes.Frame := []
deriving DecidableEq, Repr

namespace HtmlRun

/-- `t->refcnt--` -/
def released (s : HtmlRun) : HtmlRun :=
  match s.visits with
  | [] => s
  | f :: fs =>
    { d := { s.d with scopes := s.d.scopes.modify f.tag OpenScopes.Scope.release }, visits := fs }

/-- The innermost list of items. -/
def list (s : HtmlRun) : Option OpenTag := s.d.scopes.tags.find? fun t => t.tag = .DL || t.tag = .UL

end HtmlRun

/-- Execute an operation. -/
def HtmlOp.exec (env : HtmlEnv) (s : HtmlRun) : HtmlOp → Res HtmlRun
  | output out =>
    .ok { s with d := { out with scopes := s.d.scopes, metaf := s.d.metaf, tblt := s.d.tblt } }
  | otag tag attrs styles => do return { s with d := ← printTag env s.d tag attrs styles }
  | otagId elemtype cattr n nodeId nodeHref => do
    return { s with d := (← printOtagId env s.d elemtype cattr n nodeId nodeHref).1 }
  | text word n => do return { s with d := ← printTaggedText env s.d word n }
  | tagq last => .ok { s with d := printTagq s.d last }
  | stagq suntil => .ok { s with d := printStagq s.d suntil }
  | closeParagraph => do return { s with d := ← htmlCloseParagraph s.d }
  | fillmode want => do return { s with d := (← htmlFillmode env s.d want).1 }
  | tblopen attrs styles => do
    let d ← htmlCloseParagraph s.d
    if d.tblt = none then
      let (d, t) ← printOtag env d .TABLE attrs styles
      return { s with d := { d with tblt := t } }
    else .error .abort
  | tblclose =>
    match s.d.tblt with
    | none => .error .abort
    | some tblt => .ok { s with d := { printTagq s.d (some tblt) with tblt := none } }
  | enter =>
    match s.d.scopes.tags with
    | [] => .error .null
    | t :: _ =>
      .ok
        { d := { s.d with scopes := s.d.scopes.modify t.addr OpenScopes.Scope.hold }
          visits := ⟨t.addr, s.d.scopes.next⟩ :: s.visits }
  | leave =>
    match s.visits with
    | [] => .error .abort
    | f :: _ => .ok { s.released with d := printStagq s.released.d (some f.tag) }
  | leaveItem continues =>
    match s.visits, s.released.list with
    | [], _ => .error .abort
    | _ :: _, none => .error .null
    | _ :: _, some t =>
      .ok { s.released with
        d := if continues then printStagq s.released.d (some t.addr)
          else printTagq s.released.d (some t.addr) }

/-- The elements of the stack that the operation closes, unless it has opened them. -/
def HtmlOp.closing (env : HtmlEnv) (s : HtmlRun) : HtmlOp → List OpenTag
  | output _ | otag _ _ _ | otagId _ _ _ _ _ | enter => []
  | text word n =>
    -- If `print_tagq()` does not find the permalink, it closes all elements.
    match writeText env s.d word n with
    | .ok (d, t) => if LinkLost d t then s.d.scopes.tags else []
    | .error _ => []
  | tagq last => OpenScopes.throughTag s.d.scopes.tags last
  | stagq suntil => aboveTag s.d.scopes.tags suntil
  | closeParagraph | tblopen _ _ => (paragraphTags s.d.scopes.tags).toOption.getD []
  | fillmode want =>
    match s.d.scopes.tags.find? (·.tag = .PRE), want with
    | some t, some .fi => OpenScopes.throughTag s.d.scopes.tags (some t.addr)
    | none, some .nf => (paragraphTags s.d.scopes.tags).toOption.getD []
    | _, _ => []
  | tblclose => OpenScopes.throughTag s.d.scopes.tags s.d.tblt
  | leave => aboveTag s.released.d.scopes.tags (s.visits.head?.map OpenScopes.Frame.tag)
  | leaveItem continues =>
    match s.released.list with
    | none => []
    | some t =>
      if continues then aboveTag s.released.d.scopes.tags (some t.addr)
      else OpenScopes.throughTag s.released.d.scopes.tags (some t.addr)

/-- A run in which every step keeps the elements that are held. -/
def safeRun (env : HtmlEnv) : List HtmlOp → HtmlRun → Res HtmlRun
  | [], s => .ok s
  | op :: ops, s =>
    if OpenScopes.Droppable (op.closing env s) then do safeRun env ops (← op.exec env s)
    else .error .abort

/-! ## §2 The discipline -/

/-- The stack of elements fits the visits. -/
structure HtmlRun.Disciplined (s : HtmlRun) : Prop where
  scopes : s.d.scopes.Disciplined s.visits
  /-- Between two operations, no font scope is open. -/
  metaf : s.d.metaf = none
  /-- The current table is open. -/
  tblt : ∀ a, s.d.tblt = some a → ∃ t ∈ s.d.scopes.tags, t.addr = a ∧ t.closed = false

/-- Every visit finds its element on the stack. -/
def HtmlRun.Held (s : HtmlRun) : Prop := ∀ f ∈ s.visits, f.tag ∈ OpenScopes.addrs s.d.scopes.tags

variable {s s' : HtmlRun} {d d' : HtmlDoc} {ts rest : List OpenTag} {env : HtmlEnv}

theorem HtmlRun.Disciplined.here (hs : s.Disciplined) : DocOpened s.d s.d [] where
  added := .refl hs.scopes.sorted hs.scopes.fresh
  tblt := rfl
  table a ha := by
    obtain ⟨t, ht, hta, -⟩ := hs.tblt a ha
    exact hta ▸ hs.scopes.fresh t ht
  font a ha := by
    rw [hs.metaf] at ha
    cases ha

/-- Opening elements keeps the discipline. -/
theorem HtmlRun.Disciplined.opened (hs : s.Disciplined) (hd : DocOpened s.d d ts)
    (hmetaf : d.metaf = none) : HtmlRun.Disciplined ⟨d, s.visits⟩ where
  scopes := hd.added.disciplined hs.scopes
  metaf := hmetaf
  tblt a ha := by
    obtain ⟨t, ht, hta, hopen⟩ := hs.tblt a (hd.tblt.symm.trans ha)
    refine ⟨t, ?_, hta, hopen⟩
    change t ∈ d.scopes.tags
    rw [hd.added.tags]
    exact List.mem_append_right ts ht

/-- Opening elements does not bring back what a visit has lost. -/
theorem HtmlRun.Held.of_opened {d₀ : HtmlDoc} (hs : s.Disciplined)
    (hnext : s.d.scopes.next ≤ d₀.scopes.next) (hd : DocOpened d₀ d ts)
    (h : HtmlRun.Held ⟨d, s.visits⟩) : HtmlRun.Held ⟨d₀, s.visits⟩ := by
  intro f hf
  have hmem := h f hf
  change f.tag ∈ OpenScopes.addrs d.scopes.tags at hmem
  rw [hd.added.tags, OpenScopes.addrs_append] at hmem
  rcases List.mem_append.mp hmem with hnew | hold
  · -- The new elements have new identities.
    obtain ⟨t, ht, hta⟩ := OpenScopes.mem_addrs.mp hnew
    obtain ⟨u, hu, hua⟩ := OpenScopes.mem_addrs.mp (hs.scopes.held f hf)
    have hlt := hs.scopes.fresh u hu
    have hle := Nat.le_trans hnext (hd.added.free t ht).2.2
    rw [hta, ← hua] at hle
    exact absurd hlt (Nat.not_lt_of_le hle)
  · exact hold

/-- Closing droppable elements keeps the discipline. -/
theorem HtmlRun.Disciplined.closed (hs : s.Disciplined) (htags : s.d.scopes.tags = ts ++ rest)
    (hdrop : OpenScopes.Droppable ts) : HtmlRun.Disciplined ⟨printCtags s.d ts, s.visits⟩ where
  scopes := by
    change (printCtags s.d ts).scopes.Disciplined s.visits
    rw [printCtags_scopes]
    exact hs.scopes.closeAll htags hdrop
  metaf := by
    change (printCtags s.d ts).metaf = none
    rw [printCtags_metaf, hs.metaf, resetPointer]
    split <;> rfl
  tblt a ha := by
    change (printCtags s.d ts).tblt = some a at ha
    rw [printCtags_tblt, resetPointer] at ha
    split at ha
    · cases ha
    · rename_i hnone
      obtain ⟨t, ht, hta, hopen⟩ := hs.tblt a ha
      refine ⟨t, ?_, hta, hopen⟩
      change t ∈ (printCtags s.d ts).scopes.tags
      rw [printCtags_scopes, (OpenScopes.State.closeAll_top htags hs.scopes.sorted).1]
      rw [htags] at ht
      rcases List.mem_append.mp ht with htop | hrest
      · exact absurd ⟨t, htop, hopen, by rw [ha, hta]⟩ hnone
      · exact List.mem_append_right _ hrest

/-- If the visits find their elements after some elements have been closed, these have been
    droppable. -/
theorem HtmlRun.Disciplined.droppable (hs : s.Disciplined) (htags : s.d.scopes.tags = ts ++ rest)
    (hheld : HtmlRun.Held ⟨printCtags s.d ts, s.visits⟩) : OpenScopes.Droppable ts := by
  apply hs.scopes.droppable htags
  intro f hf
  have hmem := hheld f hf
  change f.tag ∈ OpenScopes.addrs (printCtags s.d ts).scopes.tags at hmem
  rwa [printCtags_scopes] at hmem

/-! ## §3 The elements that are closed are on top -/

theorem exists_aboveTag_append (ts : List OpenTag) (a : Option Nat) :
    ∃ us, ts = aboveTag ts a ++ us := by
  induction ts with
  | nil => exact ⟨[], rfl⟩
  | cons t ts ih =>
    obtain ⟨us, hus⟩ := ih
    rw [aboveTag]
    split
    · exact ⟨t :: ts, rfl⟩
    · exact ⟨us, congrArg (t :: ·) hus⟩

theorem exists_paragraphTags_append {ts us : List OpenTag} (h : paragraphTags ts = .ok us) :
    ∃ rest, ts = us ++ rest := by
  induction ts generalizing us with
  | nil => cases h
  | cons t ts ih =>
    rw [paragraphTags] at h
    cases hin : (htmltags t.tag).inphrase
    · simp only [hin, Bool.false_or, Bool.false_eq_true, if_false] at h
      cases h
      split
      · exact ⟨ts, rfl⟩
      · exact ⟨t :: ts, rfl⟩
    · simp only [hin, Bool.true_or, if_true, Res.bind_eq_ok] at h
      obtain ⟨vs, hvs, h⟩ := h
      cases h
      obtain ⟨rest, hrest⟩ := ih hvs
      exact ⟨rest, congrArg (t :: ·) hrest⟩

/-! ## §4 One step -/

/-- Nothing has been opened yet on top of the stack that is left when some elements have been
    closed. -/
theorem HtmlRun.Disciplined.closedHere (hs : s.Disciplined) (htags : s.d.scopes.tags = ts ++ rest) :
    DocOpened (printCtags s.d ts) (printCtags s.d ts) [] where
  added := by
    rw [printCtags_scopes]
    apply OpenScopes.Added.refl (OpenScopes.State.closeAll_sorted htags hs.scopes.sorted)
    intro t ht
    obtain ⟨u, hu, haddr, -⟩ := OpenScopes.State.mem_closeAll htags hs.scopes.sorted ht
    rw [haddr, (OpenScopes.State.closeAll_top htags hs.scopes.sorted).2.1]
    exact hs.scopes.fresh u hu
  tblt := rfl
  table a ha := by
    rw [printCtags_tblt, resetPointer] at ha
    split at ha
    · cases ha
    · obtain ⟨t, ht, hta, -⟩ := hs.tblt a ha
      rw [printCtags_scopes, (OpenScopes.State.closeAll_top htags hs.scopes.sorted).2.1, ← hta]
      exact hs.scopes.fresh t ht
  font a ha := by
    rw [printCtags_metaf, hs.metaf, resetPointer] at ha
    split at ha <;> cases ha

theorem HtmlRun.Disciplined.closedMetaf (hs : s.Disciplined) :
    (printCtags s.d ts).metaf = none := by
  rw [printCtags_metaf, hs.metaf, resetPointer]
  split <;> rfl

theorem HtmlRun.Disciplined.droppable_of_opened {us : List OpenTag} (hs : s.Disciplined)
    (htags : s.d.scopes.tags = ts ++ rest) (hd : DocOpened (printCtags s.d ts) d us)
    (h : HtmlRun.Held ⟨d, s.visits⟩) : OpenScopes.Droppable ts := by
  apply hs.droppable htags
  refine HtmlRun.Held.of_opened hs ?_ hd h
  rw [printCtags_scopes, (OpenScopes.State.closeAll_top htags hs.scopes.sorted).2.1]

/-- Closing some elements, and opening other ones. -/
theorem HtmlRun.Disciplined.closed_opened_iff {us : List OpenTag} (hs : s.Disciplined)
    (htags : s.d.scopes.tags = ts ++ rest) (hd : DocOpened (printCtags s.d ts) d us)
    (hmetaf : d.metaf = none) :
    HtmlRun.Disciplined ⟨d, s.visits⟩ ↔ OpenScopes.Droppable ts := by
  constructor
  · exact fun h => hs.droppable_of_opened htags hd h.scopes.held
  · exact fun hdrop => (hs.closed htags hdrop).opened hd hmetaf

theorem HtmlRun.Disciplined.closed_iff (hs : s.Disciplined) (htags : s.d.scopes.tags = ts ++ rest) :
    HtmlRun.Disciplined ⟨printCtags s.d ts, s.visits⟩ ↔ OpenScopes.Droppable ts :=
  hs.closed_opened_iff htags (hs.closedHere htags) hs.closedMetaf

/-- A visit begins. -/
theorem HtmlRun.Disciplined.enter (hs : s.Disciplined) {t : OpenTag}
    (htags : s.d.scopes.tags = t :: rest) :
    HtmlRun.Disciplined
      { d := { s.d with scopes := s.d.scopes.modify t.addr OpenScopes.Scope.hold }
        visits := ⟨t.addr, s.d.scopes.next⟩ :: s.visits } where
  scopes := hs.scopes.hold htags
  metaf := hs.metaf
  tblt a ha := by
    obtain ⟨u, hu, hua, hopen⟩ := hs.tblt a ha
    refine ⟨_, List.mem_map_of_mem hu, ?_, ?_⟩
    · split <;> exact hua
    · split <;> exact hopen

/-- A visit ends: its element is not held any more. -/
theorem HtmlRun.Disciplined.released (hs : s.Disciplined) : s.released.Disciplined := by
  rw [HtmlRun.released]
  split
  · exact hs
  · rename_i f fs hvisits
    refine ⟨?_, hs.metaf, fun a ha => ?_⟩
    · have hscopes := hs.scopes
      rw [hvisits] at hscopes
      exact hscopes.release
    · obtain ⟨u, hu, hua, hopen⟩ := hs.tblt a ha
      refine ⟨_, List.mem_map_of_mem hu, ?_, ?_⟩
      · split <;> exact hua
      · split <;> exact hopen

/-- When a visit ends, nothing holds the elements above its element, and all of these have been
    opened during the visit. -/
theorem HtmlRun.Disciplined.above {f : OpenScopes.Frame} {fs : List OpenScopes.Frame}
    (hs : s.Disciplined) (hvisits : s.visits = f :: fs) {t : OpenTag}
    (ht : t ∈ s.released.d.scopes.tags) (hlt : f.tag < t.addr) :
    t.refcnt = 0 ∧ f.mark ≤ t.addr := by
  have hscopes := hs.scopes
  rw [hvisits] at hscopes
  rw [HtmlRun.released, hvisits] at ht
  obtain ⟨u, hu, rfl⟩ := List.mem_map.mp ht
  -- Only the count of the element of the visit has changed.
  have hne : u.addr ≠ f.tag := by
    intro heq
    rw [if_pos heq] at hlt
    change f.tag < u.addr at hlt
    rw [heq] at hlt
    exact Nat.lt_irrefl _ hlt
  rw [if_neg hne] at hlt ⊢
  exact hscopes.above hu hlt

/-- The element of a visit that ends is on the stack, and the elements that are closed are
    above it. -/
theorem mem_aboveTag {a : Nat} {t : OpenTag} (hsorted : OpenScopes.Sorted ts)
    (ha : a ∈ OpenScopes.addrs ts) (ht : t ∈ aboveTag ts (some a)) : a < t.addr := by
  induction ts with
  | nil => cases ha
  | cons u ts ih =>
    obtain ⟨hlt, htail⟩ := List.pairwise_cons.mp hsorted
    rw [aboveTag] at ht
    split at ht
    · cases ht
    · rename_i hstop
      have hmem : a ∈ OpenScopes.addrs ts := by
        rcases List.mem_cons.mp ha with heq | hmem
        · exact absurd (.inl (congrArg some heq.symm)) hstop
        · exact hmem
      rcases List.mem_cons.mp ht with rfl | ht
      · obtain ⟨v, hv, hva⟩ := OpenScopes.mem_addrs.mp hmem
        exact hva ▸ hlt v hv
      · exact ih htail hmem ht

theorem htmlCloseParagraph_eq_ok (h : htmlCloseParagraph d = .ok d') :
    ∃ ts rest, paragraphTags d.scopes.tags = .ok ts ∧ d.scopes.tags = ts ++ rest ∧
      d' = printCtags d ts := by
  simp only [htmlCloseParagraph, Res.bind_eq_ok] at h
  obtain ⟨ts, hts, h⟩ := h
  cases h
  obtain ⟨rest, hrest⟩ := exists_paragraphTags_append hts
  exact ⟨ts, rest, hts, hrest, rfl⟩

theorem droppable_free_append {ws : List OpenTag} (hfree : ∀ t ∈ ws, t.refcnt = 0) :
    OpenScopes.Droppable (ws ++ ts) ↔ OpenScopes.Droppable ts := by
  constructor
  · exact fun h => (List.pairwise_append.mp h).2.1
  · refine fun h => List.pairwise_append.mpr ⟨OpenScopes.droppable_of_free hfree, h, ?_⟩
    exact fun t ht _ _ hheld => absurd (hfree t ht) hheld

/-- The end of a text: if the permalink is lost, all elements are closed. -/
theorem HtmlRun.Disciplined.textEnd_iff {word : CStr} {n : Option SynTree} {t : Option Nat}
    (hs : s.Disciplined) (h : writeText env s.d word n = .ok (d, t)) :
    HtmlRun.Disciplined ⟨{ closeText d t with igndelim := false }, s.visits⟩ ↔
      OpenScopes.Droppable (if LinkLost d t then s.d.scopes.tags else []) := by
  obtain ⟨ws, -, hopen⟩ := writeText_opens hs.here h
  rw [List.append_nil] at hopen
  have hflag : HtmlRun.Disciplined ⟨{ closeText d t with igndelim := false }, s.visits⟩ ↔
      HtmlRun.Disciplined ⟨closeText d t, s.visits⟩ :=
    ⟨fun h => ⟨h.scopes, h.metaf, h.tblt⟩, fun h => ⟨h.scopes, h.metaf, h.tblt⟩⟩
  rw [hflag]
  split at hopen
  · rename_i hlost
    rw [if_pos hlost]
    obtain ⟨hmetaf, a, ha, hmem⟩ := id hlost
    cases ha
    have hall : closeText d (some a) = printCtags d d.scopes.tags := by
      simp only [closeText, hmetaf, printTagq, OpenScopes.throughTag_of_not_mem hmem]
    have hopened := hs.opened hopen hmetaf
    have htags : d.scopes.tags = d.scopes.tags ++ [] := (List.append_nil _).symm
    rw [hall]
    refine (hopened.closed_iff htags).trans ?_
    rw [hopen.added.tags]
    exact droppable_free_append fun t ht => (hopen.added.free t ht).1
  · rename_i hfound
    rw [if_neg hfound]
    exact iff_of_true (hs.opened hopen.1 hopen.2) List.Pairwise.nil

/-- **Which steps keep the discipline**: a step that does not fail keeps it if and only if the
    elements that it closes are droppable. -/
theorem HtmlOp.exec_disciplined_iff {op : HtmlOp} (hs : s.Disciplined)
    (h : op.exec env s = .ok s') : s'.Disciplined ↔ OpenScopes.Droppable (op.closing env s) := by
  cases op with
  | output out =>
    cases h
    exact iff_of_true ⟨hs.scopes, hs.metaf, hs.tblt⟩ List.Pairwise.nil
  | otag tag attrs styles =>
    simp only [exec, Res.bind_eq_ok] at h
    obtain ⟨d, htag, h⟩ := h
    cases h
    obtain ⟨ws, addr, hd, hmetaf, -, -⟩ := printTag_opens hs.here htag
    exact iff_of_true (hs.opened hd (hmetaf.trans hs.metaf)) List.Pairwise.nil
  | otagId elemtype cattr n nodeId nodeHref =>
    simp only [exec, Res.bind_eq_ok] at h
    obtain ⟨⟨d, t⟩, htag, h⟩ := h
    cases h
    obtain ⟨us, hd, hmetaf⟩ := printOtagId_opens hs.here htag
    exact iff_of_true (hs.opened hd (hmetaf.trans hs.metaf)) List.Pairwise.nil
  | text word n =>
    simp only [exec, printTaggedText, Res.bind_eq_ok] at h
    obtain ⟨d, ⟨⟨d₁, t⟩, hwrite, hclose⟩, h⟩ := h
    cases hclose
    cases h
    simp only [closing, hwrite]
    exact hs.textEnd_iff hwrite
  | tagq last =>
    cases h
    obtain ⟨us, hus⟩ := OpenScopes.exists_throughTag_append s.d.scopes.tags last
    exact hs.closed_iff hus
  | stagq suntil =>
    cases h
    obtain ⟨us, hus⟩ := exists_aboveTag_append s.d.scopes.tags suntil
    exact hs.closed_iff hus
  | closeParagraph =>
    simp only [exec, Res.bind_eq_ok] at h
    obtain ⟨d, hclose, h⟩ := h
    cases h
    obtain ⟨ts, rest, hts, htags, rfl⟩ := htmlCloseParagraph_eq_ok hclose
    rw [closing, hts]
    exact hs.closed_iff htags
  | fillmode want =>
    simp only [exec, Res.bind_eq_ok] at h
    obtain ⟨⟨d, had⟩, hfill, h⟩ := h
    cases h
    cases hpre : s.d.scopes.tags.find? (·.tag = .PRE) with
    | some t =>
      rcases want with _ | (_ | _)
      · simp only [htmlFillmode, hpre] at hfill
        cases hfill
        exact iff_of_true hs (by simp only [closing, hpre]; exact List.Pairwise.nil)
      · -- Fill mode is switched on.
        simp only [htmlFillmode, hpre] at hfill
        cases hfill
        obtain ⟨us, hus⟩ := OpenScopes.exists_throughTag_append s.d.scopes.tags (some t.addr)
        simp only [closing, hpre]
        exact hs.closed_iff hus
      · simp only [htmlFillmode, hpre] at hfill
        cases hfill
        exact iff_of_true hs (by simp only [closing, hpre]; exact List.Pairwise.nil)
    | none =>
      rcases want with _ | (_ | _)
      · simp only [htmlFillmode, hpre] at hfill
        cases hfill
        exact iff_of_true hs (by simp only [closing, hpre]; exact List.Pairwise.nil)
      · simp only [htmlFillmode, hpre] at hfill
        cases hfill
        exact iff_of_true hs (by simp only [closing, hpre]; exact List.Pairwise.nil)
      · -- Fill mode is switched off.
        simp only [htmlFillmode, hpre, Res.bind_eq_ok] at hfill
        obtain ⟨d₁, hclose, d₂, htag, hfill⟩ := hfill
        cases hfill
        obtain ⟨ts, rest, hts, htags, rfl⟩ := htmlCloseParagraph_eq_ok hclose
        simp only [closing, hpre, hts]
        have hhere := hs.closedHere htags
        obtain ⟨ws, addr, hd, hmetaf, -, -⟩ := printTag_opens hhere htag
        exact hs.closed_opened_iff htags hd (hmetaf.trans hs.closedMetaf)
  | tblopen attrs styles =>
    simp only [exec, Res.bind_eq_ok] at h
    obtain ⟨d₁, hclose, h⟩ := h
    obtain ⟨ts, rest, hts, htags, rfl⟩ := htmlCloseParagraph_eq_ok hclose
    rw [closing, hts]
    split at h
    · simp only [Res.bind_eq_ok] at h
      obtain ⟨⟨d₂, t⟩, htag, h⟩ := h
      cases h
      have hhere := hs.closedHere htags
      obtain ⟨ws, addr, hd, hmetaf, -, ht, hws⟩ := printOtag_opens hhere htag
      rw [hws (.inl rfl)] at hd
      constructor
      · exact fun h => hs.droppable_of_opened htags hd h.scopes.held
      · intro hdrop
        have hopen := (hs.closed htags hdrop).opened hd (hmetaf.trans hs.closedMetaf)
        refine ⟨hopen.scopes, hopen.metaf, fun a ha => ?_⟩
        -- The table is the element that has just been opened.
        cases ht.symm.trans ha
        refine ⟨⟨addr, .TABLE, 0, false⟩, ?_, rfl, rfl⟩
        change _ ∈ d₂.scopes.tags
        rw [hd.added.tags]
        exact List.mem_cons_self
    · cases h
  | tblclose =>
    rw [exec] at h
    split at h
    · cases h
    · rename_i tblt htblt
      cases h
      obtain ⟨us, hus⟩ := OpenScopes.exists_throughTag_append s.d.scopes.tags (some tblt)
      rw [closing, htblt]
      constructor
      · exact fun h => hs.droppable hus h.scopes.held
      · intro hdrop
        have hclosed := hs.closed hus hdrop
        exact ⟨hclosed.scopes, hclosed.metaf, fun a ha => by cases ha⟩
  | enter =>
    rw [exec] at h
    split at h
    · cases h
    · rename_i t rest htags
      cases h
      exact iff_of_true (hs.enter htags) List.Pairwise.nil
  | leave =>
    rw [exec] at h
    split at h
    · cases h
    · rename_i f fs hvisits
      cases h
      obtain ⟨us, hus⟩ := exists_aboveTag_append s.released.d.scopes.tags (some f.tag)
      have hiff := hs.released.closed_iff hus
      rw [closing, hvisits]
      exact hiff
  | leaveItem continues =>
    rw [exec] at h
    split at h
    · cases h
    · cases h
    · rename_i f fs t hvisits hlist
      cases h
      simp only [closing, hlist]
      split
      · obtain ⟨us, hus⟩ := exists_aboveTag_append s.released.d.scopes.tags (some t.addr)
        exact hs.released.closed_iff hus
      · obtain ⟨us, hus⟩ := OpenScopes.exists_throughTag_append s.released.d.scopes.tags (some t.addr)
        exact hs.released.closed_iff hus

/-! ## §5 Whole runs -/

theorem HtmlRun.disciplined_initial : HtmlRun.Disciplined {} where
  scopes := ⟨List.Pairwise.nil, fun _ ht => absurd ht List.not_mem_nil,
    fun _ ht => absurd ht List.not_mem_nil, fun _ hf => absurd hf List.not_mem_nil,
    List.Pairwise.nil, fun _ hf => absurd hf List.not_mem_nil, rfl⟩
  metaf := rfl
  tblt _ ha := by cases ha

/-- A run that keeps the elements that are held keeps the discipline. -/
theorem HtmlRun.Disciplined.safeRun {ops : List HtmlOp} (hs : s.Disciplined)
    (h : safeRun env ops s = .ok s') : s'.Disciplined := by
  induction ops generalizing s with
  | nil =>
    cases h
    exact hs
  | cons op ops ih =>
    rw [Mandoc.safeRun] at h
    split at h
    · rename_i hstep
      rw [Res.bind_eq_ok] at h
      obtain ⟨s₁, hexec, hrun⟩ := h
      exact ih ((HtmlOp.exec_disciplined_iff hs hexec).mpr hstep) hrun
    · cases h

/-- **The discipline in whole runs**: from the beginning of a document, as long as only droppable
    elements are closed, every visit finds its element on the stack, with the right reference
    count, the pointers to the current table and to the font scope do not dangle, and the tags that
    were written are nested. The condition is exact: the next step keeps all of this if and only
    if it closes droppable elements. -/
theorem safeRun_disciplined {env : HtmlEnv} {ops : List HtmlOp} {s : HtmlRun}
    (h : safeRun env ops {} = .ok s) :
    s.Disciplined ∧ ∀ (op : HtmlOp) (s' : HtmlRun), op.exec env s = .ok s' →
      (s'.Disciplined ↔ OpenScopes.Droppable (op.closing env s)) :=
  have hs := HtmlRun.disciplined_initial.safeRun h
  ⟨hs, fun _ _ hexec => HtmlOp.exec_disciplined_iff hs hexec⟩

/-- Characters and output options for the samples. -/
def sampleHtmlEnv : HtmlEnv where
  spec2cp := fun _ => -1
  href :=
    { base_man1 := "%N.%S".toList, base_man2 := none, base_includes := [],
      statFound := fun _ => false }

/-- A section with a paragraph, a link, and an example without filling. -/
def sampleOps : List HtmlOp := [
  .otag .SECTION [.cls "Sh"] [], .enter, .text "See \\fBman\\fR".toList none, .enter,
  .otag .A [⟨"href", some (.man "ls".toList (some "1".toList))⟩] [], .text "ls".toList none, .leave,
  .fillmode (some .nf), .enter, .text "ls -l".toList none]

/-- The state at the end of the sample. -/
def sampleHtmlRun : HtmlRun := (safeRun sampleHtmlEnv sampleOps {}).toOption.getD {}

theorem safeRun_disciplined_sample : sampleHtmlRun.Disciplined ∧ ∀ (op : HtmlOp) (s' : HtmlRun),
    op.exec sampleHtmlEnv sampleHtmlRun = .ok s' →
      (s'.Disciplined ↔ OpenScopes.Droppable (op.closing sampleHtmlEnv sampleHtmlRun)) :=
  safeRun_disciplined
    (show safeRun sampleHtmlEnv sampleOps {} = .ok sampleHtmlRun by decide +kernel)

/-- A paragraph that begins within a link directly below a section: the link was wrapped in a
    paragraph, which is not held, while the visit of the new paragraph holds the link. -/
example : ¬ OpenScopes.Droppable (HtmlOp.closeParagraph.closing sampleHtmlEnv
    ((safeRun sampleHtmlEnv [.otag .SECTION [] [], .enter, .otag .A [] [], .enter] {}).toOption.getD
      {})) := by
  decide +kernel

/-- A bold permalink that ends in roman: it is closed together with the font scope, and then
    everything is closed. -/
example : (safeRun sampleHtmlEnv [.otag .SECTION [] [], .enter, .otag .P [] [],
    .output { metac := .FONTBOLD },
    .text "x\\fRy".toList (some (.node { type := .TEXT } (some "x".toList) []))] {}).toOption.map
      (fun s => s.d.scopes.log) =
    some [.start .SECTION, .start .P, .start .B, .start .A, .finish .A, .finish .B, .finish .P,
      .finish .SECTION] := by
  decide +kernel

/-- What `print_stagq()` leaves: the element, with at most one paragraph just inside. -/
theorem aboveTag_split {a : Nat} (ha : a ∈ OpenScopes.addrs ts) :
    ∃ inner t rest, ts = aboveTag ts (some a) ++ (inner ++ t :: rest) ∧ t.addr = a ∧
      (inner = [] ∨ ∃ p, inner = [p] ∧ (p.tag = .P ∨ p.tag = .PRE)) := by
  induction ts with
  | nil => cases ha
  | cons t ts ih =>
    rw [aboveTag]
    split
    · rename_i hstop
      rcases hstop with heq | ⟨hnext, hparagraph⟩
      · exact ⟨[], t, ts, rfl, Option.some.inj heq, .inl rfl⟩
      · cases ts with
        | nil => cases hnext
        | cons u ts => exact ⟨[t], u, ts, rfl, Option.some.inj hnext, .inr ⟨t, rfl, hparagraph⟩⟩
    · rename_i hgo
      have hmem : a ∈ OpenScopes.addrs ts := by
        rcases List.mem_cons.mp ha with heq | hmem
        · exact absurd (.inl (congrArg some heq.symm)) hgo
        · exact hmem
      obtain ⟨inner, u, rest, hts, hua, hinner⟩ := ih hmem
      exact ⟨inner, u, rest, congrArg (t :: ·) hts, hua, hinner⟩

/-- Closing elements that nothing holds takes all of them off the stack. -/
theorem HtmlRun.Disciplined.closed_free (hs : s.Disciplined) (htags : s.d.scopes.tags = ts ++ rest)
    (hfree : ∀ t ∈ ts, t.refcnt = 0) : (printCtags s.d ts).scopes.tags = rest := by
  rw [printCtags_scopes, (OpenScopes.State.closeAll_top htags hs.scopes.sorted).1,
    OpenScopes.closeTop_of_droppable (OpenScopes.droppable_of_free hfree)]
  have hnone : ts.filter (·.refcnt ≠ 0) = [] :=
    List.filter_eq_nil_iff.mpr fun t ht hne => of_decide_eq_true hne (hfree t ht)
  rw [hnone]
  rfl

/-- **The end of a visit** never fails, and keeps the discipline. It closes only elements that were
    opened during the visit, and leaves the element that was innermost at its beginning, with at most
    one paragraph just inside. -/
theorem leave_closes {env : HtmlEnv} {ops : List HtmlOp} {s : HtmlRun} {f : OpenScopes.Frame}
    {fs : List OpenScopes.Frame} (h : safeRun env ops {} = .ok s) (hvisits : s.visits = f :: fs) :
    ∃ s' inner t rest, HtmlOp.leave.exec env s = .ok s' ∧ s'.Disciplined ∧ s'.visits = fs ∧
      s'.d.scopes.tags = inner ++ t :: rest ∧ t.addr = f.tag ∧
      (inner = [] ∨ ∃ p, inner = [p] ∧ (p.tag = .P ∨ p.tag = .PRE)) ∧
      ∀ u ∈ HtmlOp.leave.closing env s, f.mark ≤ u.addr := by
  have hs := HtmlRun.disciplined_initial.safeRun h
  have hreleased := hs.released
  have htop : f.tag ∈ OpenScopes.addrs s.released.d.scopes.tags := by
    have hmem := hs.scopes.held f (hvisits ▸ List.mem_cons_self)
    obtain ⟨t, ht, hta⟩ := OpenScopes.mem_addrs.mp hmem
    rw [HtmlRun.released, hvisits]
    refine OpenScopes.mem_addrs.mpr ⟨_, List.mem_map_of_mem ht, ?_⟩
    split <;> exact hta
  have hclosing : HtmlOp.leave.closing env s = aboveTag s.released.d.scopes.tags (some f.tag) := by
    rw [HtmlOp.closing, hvisits]
    rfl
  have hexec : HtmlOp.leave.exec env s =
      .ok { s.released with d := printStagq s.released.d (some f.tag) } := by
    rw [HtmlOp.exec, hvisits]
  obtain ⟨inner, t, rest, htags, hta, hinner⟩ := aboveTag_split htop
  -- Everything that is closed has been opened during the visit, and is not held.
  have hnew : ∀ u ∈ aboveTag s.released.d.scopes.tags (some f.tag),
      u.refcnt = 0 ∧ f.mark ≤ u.addr := by
    intro u hu
    have hlt := mem_aboveTag hreleased.scopes.sorted htop hu
    obtain ⟨us, hus⟩ := exists_aboveTag_append s.released.d.scopes.tags (some f.tag)
    exact hs.above hvisits (hus ▸ List.mem_append_left us hu) hlt
  have hfree := fun u hu => (hnew u hu).1
  refine ⟨_, inner, t, rest, hexec, ?_, ?_, hreleased.closed_free htags hfree, hta, hinner, ?_⟩
  · exact hreleased.closed htags (OpenScopes.droppable_of_free hfree)
  · change s.released.visits = fs
    rw [HtmlRun.released, hvisits]
  · rw [hclosing]
    exact fun u hu => (hnew u hu).2

theorem leave_closes_sample : ∃ s' inner t rest,
    HtmlOp.leave.exec sampleHtmlEnv sampleHtmlRun = .ok s' ∧ s'.Disciplined ∧ s'.visits = [⟨0, 1⟩] ∧
      s'.d.scopes.tags = inner ++ t :: rest ∧ t.addr = 4 ∧
      (inner = [] ∨ ∃ p, inner = [p] ∧ (p.tag = .P ∨ p.tag = .PRE)) ∧
      ∀ u ∈ HtmlOp.leave.closing sampleHtmlEnv sampleHtmlRun, 5 ≤ u.addr :=
  leave_closes (f := ⟨4, 5⟩)
    (show safeRun sampleHtmlEnv sampleOps {} = .ok sampleHtmlRun by decide +kernel)
    (show sampleHtmlRun.visits = _ by decide +kernel)

/-- **Complete documents**: when no visit is going on, closing all elements leaves the stack empty,
    and all tags that were written are nested. -/
theorem document_nested {env : HtmlEnv} {ops : List HtmlOp} {s : HtmlRun}
    (h : safeRun env ops {} = .ok s) (hvisits : s.visits = []) :
    (printTagq s.d none).scopes.tags = [] ∧
      OpenScopes.openAfter [] (printTagq s.d none).scopes.log = some [] := by
  have hs := HtmlRun.disciplined_initial.safeRun h
  have htags : s.d.scopes.tags = s.d.scopes.tags ++ [] := (List.append_nil _).symm
  have hfree : ∀ t ∈ s.d.scopes.tags, t.refcnt = 0 := by
    intro t ht
    rw [hs.scopes.counted t ht, hvisits]
    rfl
  have hempty := hs.closed_free htags hfree
  have hclosed := hs.closed htags (OpenScopes.droppable_of_free hfree)
  rw [printTagq, OpenScopes.throughTag_none]
  refine ⟨hempty, ?_⟩
  have hnested := hclosed.scopes.nested
  rwa [hempty] at hnested

theorem document_nested_sample :
    let s := (safeRun sampleHtmlEnv (sampleOps ++ [.leave, .leave]) {}).toOption.getD {}
    (printTagq s.d none).scopes.tags = [] ∧
      OpenScopes.openAfter [] (printTagq s.d none).scopes.log = some [] :=
  document_nested (show safeRun sampleHtmlEnv (sampleOps ++ [.leave, .leave]) {} =
    .ok ((safeRun sampleHtmlEnv (sampleOps ++ [.leave, .leave]) {}).toOption.getD {}) by
      decide +kernel)
    (by decide +kernel)

end Mandoc
