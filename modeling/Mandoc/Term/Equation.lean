import Mandoc.Eqn.BoxShape
import Mandoc.Term.Fonts

/-!
# Equations on the Terminal

Model of `eqn_term.c`. Whether there is a blank before the next word, which words are printed, and
which fonts are used depends on the boxes alone: `termEqnBox` lists what `eqn_box()` asks of the
terminal, and `termEqn` does it.

`eqn_box()` follows the pointers to the parent, to the previous box, and to the first child of a box
without looking in several places, and it prints the operands of an operator one by one. In a
pile, only the first child of certain lists is printed.

## Main results

- `termEqnBox_shows`: no null pointer is followed, and the texts are printed in the order of the
  boxes, except for those that a pile leaves out.
- `termEqn_texts`: which equations are printed completely.
- `termEqn_fonts`: the font stack is used in a balanced way.
-/

namespace Mandoc

open OrderedForest OrderedForest.OrderedTree

/-! ## §1 Boxes -/

/-- What `eqn_box()` asks of the terminal. -/
inductive EqnCall where
  /-- `p->flags |= TERMP_NOSPACE` -/
  | nospace
  /-- `term_word()` with a delimiter, an operator, or a symbol. -/
  | word (w : CStr)
  /-- `term_word()` with the text of a box. -/
  | text (w : CStr)
  | fontpush (f : TermFont)
  | fontpop
deriving DecidableEq, Repr

/-- `fontmap` -/
def eqnFontmap : EqnFontt → TermFont
  | .NONE | .ROMAN => .NONE
  | .BOLD | .FAT => .BOLD
  | .ITALIC => .UNDER

/-- The text of a box. -/
def eqnTextCalls (text : Option CStr) (prev : Option Nat) : List EqnCall :=
  match text with
  | none => []
  | some w =>
    (if charAt w 0 = NUL ∨ charAt w 0 ∈ "!\"'),.:;?]\x7d".toList then [.nospace] else []) ++
      .text w ::
        (match w.getLast? with
        | none => []
        | some c =>
          if c ∈ "\"'([\x7b".toList ∨ (prev = none ∧ (c = '-' ∨ "\\[mi]".toList.isSuffixOf w)) then
            [.nospace]
          else [])

/-- The symbols above and below a box. -/
def eqnMarkCalls (b : EqnBox) : List EqnCall :=
  (match b.top with
    | none => []
    | some w => [.nospace, .word w]) ++
  match b.bottom with
    | none => []
    | some _ => [.nospace, .word "_".toList]

section

variable (t : EqnTree)

/-- Are there delimiters around the box? -/
def eqnBoxDelim (bp : Nat) : Bool :=
  let b := t.box bp
  let l := t.links bp
  (b.type = .LIST && b.several) || (b.type = .PILE && (l.prev.isSome || l.next.isSome)) ||
    l.parent.any fun q =>
      let p := t.box q
      p.pos = .SQRT ||
        -- Diacritic followed by ^ or _.
        ((b.top.isSome || b.bottom.isSome) && p.type = .SUBEXPR && p.pos ≠ .OVER &&
          l.next.isSome) ||
        -- Nested over, sub, sup, from, to.
        (b.type = .SUBEXPR && b.pos ≠ .SQRT &&
          ((p.type = .LIST && b.expectargs = some 1) || (p.type = .SUBEXPR && b.pos ≠ .SQRT)))

/-- Is there no blank before the left delimiter? -/
def eqnTight (bp : Nat) : Res Bool :=
  let l := t.links bp
  match l.parent with
  | none => .error .null
  | some q =>
    if (t.box q).type = .SUBEXPR ∧ l.prev ≠ none then .ok true
    else if (t.box bp).type ≠ .LIST then .ok false
    else
      match l.child, l.prev with
      | some first, some prev =>
        if (t.box first).type = .PILE ∨ (t.box first).type = .MATRIX then .ok false
        else if (t.box prev).type = .LIST then .ok true
        else if (t.box prev).type ≠ .TEXT then .ok false
        else
          match (t.box prev).text with
          | none => .error .null
          | some w => .ok (charAt w 0 = '\\' || isalpha (charAt w 0))
      | _, _ => .ok false

/-- The left delimiter. -/
def eqnLeftDelim (bp : Nat) : Res (List EqnCall) :=
  if eqnBoxDelim t bp then do
    let tight ← eqnTight t bp
    return (if tight then [.nospace] else []) ++
      [.word ((t.box bp).left.getD "(".toList), .nospace]
  else .ok []

/-- The right delimiter. -/
def eqnRightDelim (bp : Nat) : Res (List EqnCall) :=
  if eqnBoxDelim t bp then
    match (t.links bp).parent with
    | none => .error .null
    | some q =>
      .ok ([.nospace, .word ((t.box bp).right.getD ")".toList)] ++
        if (t.box q).type = .SUBEXPR ∧ (t.links bp).next ≠ none then [.nospace] else [])
  else .ok []

/-- In a pile, only the first child of the box is printed. -/
def EqnBox.firstOnly (b : EqnBox) : Prop := b.type = .LIST ∧ b.several ∧ b.args = 1

instance (b : EqnBox) : Decidable b.firstOnly := by
  unfold EqnBox.firstOnly
  infer_instance

variable (steps : Nat) (box : Option Nat → Res (List EqnCall))

/-- `while (child != NULL) { eqn_box(...); child = child->next; }` -/
def eqnChainCalls (type : EqnBoxt) (child : Option Nat) : Res (List EqnCall) := do
  let children ← eqnSiblings t steps child
  return (← children.mapM fun c =>
    box (if type = .PILE ∧ (t.box c).firstOnly then (t.links c).child else some c)).flatten

/-- The sign of an operator. -/
def eqnSign (pos : EqnPost) : CStr :=
  (if pos = .OVER then "/" else if pos = .SUP ∨ pos = .TO then "^" else "_").toList

/-- The operands of an operator. -/
def eqnOperandCalls (pos : EqnPost) (child : Option Nat) : Res (List EqnCall) := do
  let first ← box child
  let op := [.nospace, .word (eqnSign pos)]
  match child.bind fun c => (t.links c).next with
  | none => return first ++ op
  | some child => do
    let second ← box (some child)
    let third ← (if pos = .FROMTO ∨ pos = .SUBSUP then do
      let rest ← (match (t.links child).next with
        | none => .ok []
        | some child => box (some child) : Res (List EqnCall))
      return [.nospace, .word "^".toList, .nospace] ++ rest
    else .ok [] : Res (List EqnCall))
    return first ++ (op ++ [.nospace]) ++ second ++ third

/-- The children of a box. -/
def eqnChildCalls (bp : Nat) : Res (List EqnCall) :=
  let b := t.box bp
  let first := (t.links bp).child
  if b.pos = .SQRT then
    match first with
    | none => .ok [.word "\\(sr".toList]
    | some c => do return [.word "\\(sr".toList, .nospace] ++ (← box (some c))
  else if b.type = .SUBEXPR then eqnOperandCalls t box b.pos first
  else
    match first with
    | none => .ok []
    | some c =>
      if b.type = .MATRIX ∧ (t.box c).type = .LIST ∧ (t.box c).several then
        eqnChainCalls t steps box b.type (t.links c).child
      else eqnChainCalls t steps box b.type (some c)

end

/-- What `eqn_box()` asks of the terminal, where the number of steps bounds the depth of the
    recursion. -/
def termEqnBox (t : EqnTree) : Nat → Option Nat → Res (List EqnCall)
  | _, none => .error .null
  | 0, some _ => .error .fuel
  | steps + 1, some bp => do
    let b := t.box bp
    let left ← eqnLeftDelim t bp
    let children ← eqnChildCalls t steps (termEqnBox t steps) bp
    let right ← eqnRightDelim t bp
    return left ++ (if b.font ≠ .NONE then [.fontpush (eqnFontmap b.font)] else []) ++
      eqnTextCalls b.text (t.links bp).prev ++ children ++
        (if b.font ≠ .NONE then [.fontpop] else []) ++ eqnMarkCalls b ++ right

/-- What the terminal does. -/
def EqnCall.exec (p : Termp) : EqnCall → Res Termp
  | nospace => .ok { p with flags := { p.flags with nospace := true } }
  | word w | text w => termWord p w
  | fontpush f => .ok (termFontpush p f)
  | fontpop => termFontpop p

/-- `term_eqn()` -/
def termEqn (t : EqnTree) (steps : Nat) (p : Termp) (bp : Nat) : Res Termp := do
  let p ← (← termEqnBox t steps (some bp)).foldlM EqnCall.exec p
  return { p with flags := { p.flags with nospace := false } }

/-! ## §2 Lists of calls -/

/-- The text of a box that is printed. -/
def EqnCall.boxText : EqnCall → Option CStr
  | text w => some w
  | _ => none

/-- The texts that are printed. -/
def callTexts (calls : List EqnCall) : List CStr := calls.filterMap EqnCall.boxText

/-- Calls that pop exactly the fonts that they have pushed. -/
inductive Nested : List EqnCall → Prop where
  | nil : Nested []
  | append {cs ds : List EqnCall} : Nested cs → Nested ds → Nested (cs ++ ds)
  | nospace : Nested [.nospace]
  | word (w : CStr) : Nested [.word w]
  | text (w : CStr) : Nested [.text w]
  | fonts (f : TermFont) {cs : List EqnCall} :
      Nested cs → Nested ([.fontpush f] ++ cs ++ [.fontpop])

/-- The calls print some of the texts, in order, and all of them exactly if `whole`. -/
structure Shows (whole : Prop) (texts : List CStr) (calls : List EqnCall) : Prop where
  nested : Nested calls
  sublist : (callTexts calls).Sublist texts
  whole_iff : callTexts calls = texts ↔ whole

variable {cs ds : List EqnCall} {ws vs : List CStr} {c c' : Prop}

theorem callTexts_append (cs ds : List EqnCall) :
    callTexts (cs ++ ds) = callTexts cs ++ callTexts ds := List.filterMap_append

/-- Parts of two lists make up both lists only if each of them is complete. -/
theorem append_sublist_eq_iff {α : Type} {l m l' m' : List α} (hl : l.Sublist l')
    (hm : m.Sublist m') : l ++ m = l' ++ m' ↔ l = l' ∧ m = m' := by
  constructor
  · intro heq
    have hlen := congrArg List.length heq
    rw [List.length_append, List.length_append] at hlen
    have hl_le := hl.length_le
    have hm_le := hm.length_le
    exact ⟨hl.eq_of_length (by omega), hm.eq_of_length (by omega)⟩
  · rintro ⟨rfl, rfl⟩
    rfl

theorem Shows.append (h : Shows c ws cs) (h' : Shows c' vs ds) :
    Shows (c ∧ c') (ws ++ vs) (cs ++ ds) where
  nested := h.nested.append h'.nested
  sublist := by
    rw [callTexts_append]
    exact h.sublist.append h'.sublist
  whole_iff := by
    rw [callTexts_append, append_sublist_eq_iff h.sublist h'.sublist, h.whole_iff, h'.whole_iff]

theorem Shows.silent (hn : Nested cs) (hs : callTexts cs = []) : Shows True [] cs :=
  ⟨hn, hs ▸ List.Sublist.refl [], iff_of_true hs trivial⟩

theorem Shows.congr (h : Shows c ws cs) (hc : c ↔ c') : Shows c' ws cs :=
  ⟨h.nested, h.sublist, h.whole_iff.trans hc⟩

theorem Shows.around {before after : List EqnCall} (h : Shows c ws cs)
    (hb : Shows True [] before) (ha : Shows True [] after) :
    Shows c ws (before ++ cs ++ after) := by
  have hall := (hb.append h).append ha
  rw [List.nil_append, List.append_nil] at hall
  exact hall.congr (by rw [true_and, and_true])

theorem Shows.fonts (f : TermFont) (h : Shows c ws cs) :
    Shows c ws ([.fontpush f] ++ cs ++ [.fontpop]) := by
  have heq : callTexts ([.fontpush f] ++ cs ++ [.fontpop]) = callTexts cs := by
    rw [callTexts_append, callTexts_append]
    exact List.append_nil _
  exact ⟨.fonts f h.nested, heq ▸ h.sublist, heq ▸ h.whole_iff⟩

/-- A word, perhaps with suppressed blanks, does not print the text of a box. -/
theorem shows_quiet (hcalls : ∀ call ∈ cs, call = .nospace ∨ ∃ w, call = .word w) :
    Shows True [] cs := by
  induction cs with
  | nil => exact .silent .nil rfl
  | cons call cs ih =>
    have htail := ih fun x hx => hcalls x (List.mem_cons_of_mem _ hx)
    have hhead : Shows True [] [call] := by
      rcases hcalls call List.mem_cons_self with rfl | ⟨w, rfl⟩
      · exact .silent .nospace rfl
      · exact .silent (.word w) rfl
    exact (hhead.append htail).congr (and_self_iff)

/-! ## §3 The texts of a tree -/

variable {t : EqnTree} {kids : Nat → List Nat} {p a : Option Nat} {x : Nat} {b : EqnBox}
variable {ts us sub : List (OrderedTree Nat)} {T : OrderedTree Nat} {steps : Nat}

/-- The texts of the boxes, in order. -/
def EqnTree.texts (t : EqnTree) (ts : List (OrderedTree Nat)) : List CStr :=
  (nodesAll ts).filterMap fun x => (t.box x).text

/-- Nothing is left out from the children of a pile. -/
def EqnTree.PileShown (t : EqnTree) (ts : List (OrderedTree Nat)) : Prop :=
  ∀ C ∈ ts, (t.box C.root).firstOnly → t.texts C.sub.tail = []

/-- Nothing is left out from any pile. -/
def EqnTree.AllShown (t : EqnTree) (ts : List (OrderedTree Nat)) : Prop :=
  ∀ S ∈ subtreesAll ts, (t.box S.root).type = .PILE → t.PileShown S.sub

theorem EqnTree.texts_nil : t.texts [] = [] := by
  rw [texts, nodesAll_nil]
  rfl

theorem EqnTree.texts_cons (x : Nat) (sub ts : List (OrderedTree Nat)) :
    t.texts (.node x sub :: ts) = (t.box x).text.toList ++ t.texts sub ++ t.texts ts := by
  rw [texts, nodesAll_cons, List.filterMap_cons, List.filterMap_append]
  cases (t.box x).text <;> rfl

theorem EqnTree.texts_append (ts us : List (OrderedTree Nat)) :
    t.texts (ts ++ us) = t.texts ts ++ t.texts us := by
  rw [texts, nodesAll_append, List.filterMap_append]
  rfl

theorem EqnTree.allShown_nil : t.AllShown [] := fun S hS => by
  rw [subtreesAll_nil] at hS
  cases hS

theorem EqnTree.allShown_append : t.AllShown (ts ++ us) ↔ t.AllShown ts ∧ t.AllShown us := by
  rw [AllShown, subtreesAll_append, List.forall_mem_append]
  rfl

theorem EqnTree.allShown_single :
    t.AllShown [.node x sub] ↔ ((t.box x).type = .PILE → t.PileShown sub) ∧ t.AllShown sub := by
  rw [AllShown, subtreesAll_cons, List.forall_mem_cons, subtreesAll_nil, List.append_nil]
  rfl

theorem EqnTree.allShown_of_texts (h : t.texts ts = []) : t.AllShown ts := by
  intro S hS _ C hC _
  rw [texts, List.filterMap_eq_nil_iff] at h ⊢
  intro y hy
  refine h y (nodesAll_subtree_subset hS ?_)
  exact mem_nodesAll hC (nodesAll_tail_subset _ hy)

/-! ## §4 The parts of a box -/

theorem shows_text (w : CStr) : Shows True [w] [.text w] :=
  ⟨.text w, List.Sublist.refl _, iff_of_true rfl trivial⟩

/-- Blanks can be suppressed before and after the text of a box. -/
theorem eqnTextCalls_shows (text : Option CStr) (prev : Option Nat) :
    Shows True text.toList (eqnTextCalls text prev) := by
  cases text with
  | none => exact .silent .nil rfl
  | some w =>
    unfold eqnTextCalls
    dsimp only
    rw [List.append_cons]
    refine (shows_text w).around ?_ ?_
    · split
      · exact .silent .nospace rfl
      · exact .silent .nil rfl
    · split
      · exact .silent .nil rfl
      split
      · exact .silent .nospace rfl
      · exact .silent .nil rfl

theorem eqnMarkCalls_quiet (b : EqnBox) : Shows True [] (eqnMarkCalls b) := by
  apply shows_quiet
  intro call hcall
  unfold eqnMarkCalls at hcall
  cases htop : b.top <;> cases hbottom : b.bottom <;> rw [htop, hbottom] at hcall <;>
    simp at hcall <;> grind

/-- The boxes around a box are such that `eqn_box()` can look at them. -/
structure EqnTree.Placed (t : EqnTree) (x : Nat) : Prop where
  /-- The root does not get delimiters. -/
  root : (t.links x).parent = none → (t.box x).type = .TEXT
  prev : ∀ y, (t.links x).prev = some y → (t.box y).type = .TEXT → (t.box y).text ≠ none

/-- A box with delimiters has a parent. -/
theorem EqnTree.Placed.parent (h : t.Placed x) (hdelim : eqnBoxDelim t x = true) :
    ∃ q, (t.links x).parent = some q := by
  cases hp : (t.links x).parent with
  | some q => exact ⟨q, rfl⟩
  | none =>
    have htext := h.root hp
    rw [eqnBoxDelim, hp, htext] at hdelim
    simp at hdelim

/-- Whether there is a blank before the left delimiter can be found out. -/
theorem EqnTree.Placed.tight (h : t.Placed x) (hdelim : eqnBoxDelim t x = true) :
    ∃ tight, eqnTight t x = .ok tight := by
  obtain ⟨q, hq⟩ := h.parent hdelim
  unfold eqnTight
  dsimp only
  rw [hq]
  dsimp only
  split
  · exact ⟨_, rfl⟩
  split
  · exact ⟨_, rfl⟩
  split
  · rename_i first prev hfirst hprev
    split
    · exact ⟨_, rfl⟩
    split
    · exact ⟨_, rfl⟩
    split
    · exact ⟨_, rfl⟩
    · rename_i htype
      split
      · rename_i hnone
        exact absurd hnone (h.prev prev hprev (not_not.mp htype))
      · exact ⟨_, rfl⟩
  · exact ⟨_, rfl⟩

theorem eqnLeftDelim_quiet (h : t.Placed x) :
    ∃ calls, eqnLeftDelim t x = .ok calls ∧ Shows True [] calls := by
  unfold eqnLeftDelim
  split
  · rename_i hdelim
    obtain ⟨tight, htight⟩ := h.tight hdelim
    rw [htight]
    refine ⟨_, rfl, shows_quiet fun call hcall => ?_⟩
    cases tight <;> simp at hcall <;> grind
  · exact ⟨_, rfl, .silent .nil rfl⟩

theorem eqnRightDelim_quiet (h : t.Placed x) :
    ∃ calls, eqnRightDelim t x = .ok calls ∧ Shows True [] calls := by
  unfold eqnRightDelim
  split
  · rename_i hdelim
    obtain ⟨q, hq⟩ := h.parent hdelim
    rw [hq]
    refine ⟨_, rfl, shows_quiet fun call hcall => ?_⟩
    split at hcall <;> simp at hcall <;> grind
  · exact ⟨_, rfl, .silent .nil rfl⟩

/-! ## §5 The children of a box -/

/-- A box in shape, with a text if it is a text box. -/
def EqnTree.Good (t : EqnTree) (kids : Nat → List Nat) (x : Nat) : Prop :=
  (t.box x).InShape (kids x).length ∧ ((t.box x).type = .TEXT → (t.box x).text ≠ none)

/-- The function prints trees with at most a number of boxes. -/
def BoxShows (t : EqnTree) (kids : Nat → List Nat) (steps : Nat)
    (box : Option Nat → Res (List EqnCall)) : Prop :=
  ∀ ⦃p a : Option Nat⦄ ⦃T : OrderedTree Nat⦄ ⦃ts : List (OrderedTree Nat)⦄,
    Laid t.links kids p a (T :: ts) → (nodesAll [T]).length ≤ steps →
      (t.box T.root).InShape (kids T.root).length → (∀ x ∈ nodesAll T.sub, t.Good kids x) →
        t.Placed T.root →
          ∃ calls, box (some T.root) = .ok calls ∧ Shows (t.AllShown [T]) (t.texts [T]) calls

variable {box : Option Nat → Res (List EqnCall)} {q : Nat}

theorem placed_of_laid (hl : Laid t.links kids (some q) a (T :: ts))
    (ha : ∀ y, a = some y → (t.box y).type = .TEXT → (t.box y).text ≠ none) : t.Placed T.root := by
  cases hl with
  | cons hparent hprev _ _ _ _ _ =>
    refine ⟨fun hnone => ?_, fun y hy => ha y (hprev.symm.trans hy)⟩
    cases hparent.symm.trans hnone

/-- A box below another one is printed. -/
theorem BoxShows.child (hbox : BoxShows t kids steps box)
    (hl : Laid t.links kids (some q) a (T :: ts)) (hsteps : (nodesAll [T]).length ≤ steps)
    (hgood : ∀ x ∈ nodesAll [T], t.Good kids x)
    (ha : ∀ y, a = some y → (t.box y).type = .TEXT → (t.box y).text ≠ none) :
    ∃ calls, box (some T.root) = .ok calls ∧ Shows (t.AllShown [T]) (t.texts [T]) calls := by
  have hroot := hgood _ (root_mem_nodesAll List.mem_cons_self)
  have hbelow := fun x hx => hgood x (mem_nodesAll List.mem_cons_self hx)
  exact hbox hl hsteps hroot.1 hbelow (placed_of_laid hl ha)

/-- A box in shape of which only the first child is printed has got such a child. -/
theorem EqnBox.InShape.pos_of_firstOnly {n : Nat} (h : b.InShape n) (hfirst : b.firstOnly) :
    0 < n ∧ b.text = none := by
  obtain ⟨hlist, -, hargs⟩ := hfirst
  refine ⟨?_, not_not.mp fun htext => ?_⟩
  · rcases h.counted with heq | ⟨-, -, heq⟩
    · exact heq ▸ hargs ▸ Nat.one_pos
    · exact heq ▸ Nat.succ_pos _
  · exact absurd ((h.text htext).symm.trans hlist) (by decide)

/-- **A child of a pile**: of certain lists, only the first child is printed. -/
theorem BoxShows.firstOnly (hbox : BoxShows t kids steps box)
    (hl : Laid t.links kids (some q) a (T :: ts)) (hsteps : (nodesAll [T]).length ≤ steps)
    (hgood : ∀ x ∈ nodesAll [T], t.Good kids x) (hfirst : (t.box T.root).firstOnly) :
    ∃ calls, box (t.links T.root).child = .ok calls ∧
      Shows (t.texts T.sub.tail = [] ∧ t.AllShown [T]) (t.texts [T]) calls := by
  obtain ⟨hchild, hkids, hsub⟩ := hl.of_mem List.mem_cons_self
  have hroot := hgood _ (root_mem_nodesAll List.mem_cons_self)
  obtain ⟨hpos, htext⟩ := hroot.1.pos_of_firstOnly hfirst
  cases T with
  | node x sub =>
    rw [sub_node] at hchild hsub hkids ⊢
    rw [root_node] at hchild hkids hfirst htext hpos hsub ⊢
    rw [← hkids, List.length_map] at hpos
    -- The child takes the place of the box, so the other children are not shown.
    obtain ⟨F, rest, rfl⟩ := List.exists_cons_of_length_pos hpos
    rw [nodesAll_cons, nodesAll_nil, List.append_nil] at hsteps hgood
    rw [nodesAll_cons_eq F rest] at hsteps hgood
    rw [List.length_cons, List.length_append] at hsteps
    have hgoodF : ∀ y ∈ nodesAll [F], t.Good kids y := fun y hy =>
      hgood y (List.mem_cons_of_mem _ (List.mem_append_left _ hy))
    obtain ⟨calls, hcalls, hshows⟩ := hbox.child hsub (by omega) hgoodF fun y hy => by cases hy
    have hrest : Shows (t.texts rest = []) (t.texts rest) [] :=
      ⟨.nil, List.nil_sublist _, eq_comm⟩
    have hall := hshows.append hrest
    rw [List.append_nil] at hall
    refine ⟨calls, hchild ▸ hcalls, ?_⟩
    -- The box has no text of its own.
    have htexts : t.texts [.node x (F :: rest)] = t.texts [F] ++ t.texts rest := by
      rw [EqnTree.texts_cons, htext]
      exact (List.append_nil _).trans (EqnTree.texts_append [F] rest)
    rw [htexts]
    apply hall.congr
    have hsplit : t.AllShown (F :: rest) ↔ t.AllShown [F] ∧ t.AllShown rest :=
      @EqnTree.allShown_append t [F] rest
    rw [EqnTree.allShown_single, List.tail_cons, hsplit]
    have hpile : (t.box x).type ≠ .PILE := by rw [hfirst.1]; decide
    constructor
    · rintro ⟨hF, hnone⟩
      exact ⟨hnone, fun h => absurd h hpile, hF, EqnTree.allShown_of_texts hnone⟩
    · rintro ⟨hnone, -, hF, -⟩
      exact ⟨hF, hnone⟩

theorem text_of_good (hgood : ∀ x ∈ nodesAll [T], t.Good kids x) :
    ∀ y, some T.root = some y → (t.box y).type = .TEXT → (t.box y).text ≠ none := by
  intro y hy
  cases hy
  exact (hgood _ (root_mem_nodesAll List.mem_cons_self)).2

theorem shows_no_tree : Shows (t.AllShown []) (t.texts []) [] := by
  rw [EqnTree.texts_nil]
  exact (Shows.silent .nil rfl).congr (iff_of_true trivial EqnTree.allShown_nil)

/-- The children of a box that is not an operator, one after another. -/
theorem BoxShows.chain (hbox : BoxShows t kids steps box) (type : EqnBoxt)
    (hl : Laid t.links kids (some q) a ts) (hsteps : (nodesAll ts).length ≤ steps)
    (hgood : ∀ x ∈ nodesAll ts, t.Good kids x)
    (ha : ∀ y, a = some y → (t.box y).type = .TEXT → (t.box y).text ≠ none) :
    ∃ css, (ts.map root).mapM (fun c =>
        box (if type = .PILE ∧ (t.box c).firstOnly then (t.links c).child else some c)) = .ok css ∧
      Shows ((type = .PILE → t.PileShown ts) ∧ t.AllShown ts) (t.texts ts) css.flatten := by
  -- By induction on the siblings; one that is reduced to its child hides the other children.
  induction ts generalizing a with
  | nil =>
    have hdone : Shows True [] ([] : List EqnCall) := .silent .nil rfl
    refine ⟨[], rfl, hdone.congr (iff_of_true trivial ⟨fun _ C hC => ?_, EqnTree.allShown_nil⟩)⟩
    cases hC
  | cons T ts ih =>
    rw [nodesAll_cons_eq T ts, List.length_append] at hsteps
    rw [nodesAll_cons_eq T ts, List.forall_mem_append] at hgood
    have hfirst : ∃ calls, box (if type = .PILE ∧ (t.box T.root).firstOnly then
          (t.links T.root).child else some T.root) = .ok calls ∧
        Shows ((type = .PILE → (t.box T.root).firstOnly → t.texts T.sub.tail = []) ∧
          t.AllShown [T]) (t.texts [T]) calls := by
      split
      · rename_i hpile
        obtain ⟨calls, hcalls, hshows⟩ := hbox.firstOnly hl (by omega) hgood.1 hpile.2
        refine ⟨calls, hcalls, hshows.congr (and_congr_left fun _ => ?_)⟩
        exact ⟨fun h _ _ => h, fun h => h hpile.1 hpile.2⟩
      · rename_i hpile
        obtain ⟨calls, hcalls, hshows⟩ := hbox.child hl (by omega) hgood.1 ha
        refine ⟨calls, hcalls, hshows.congr (iff_and_self.mpr fun _ h h' => ?_)⟩
        exact absurd ⟨h, h'⟩ hpile
    -- The other siblings are shown by the induction hypothesis.
    have hrest := hl.tail.2
    obtain ⟨calls, hcalls, hshows⟩ := hfirst
    obtain ⟨css, hcss, hshows'⟩ := ih hrest (by omega) hgood.2 (text_of_good hgood.1)
    refine ⟨calls :: css, ?_, ?_⟩
    · rw [List.map_cons, List.mapM_cons, hcalls, Res.ok_bind, hcss]
      rfl
    · have htexts : t.texts (T :: ts) = t.texts [T] ++ t.texts ts := EqnTree.texts_append [T] ts
      have hall : t.AllShown (T :: ts) ↔ t.AllShown [T] ∧ t.AllShown ts :=
        @EqnTree.allShown_append t [T] ts
      rw [htexts]
      refine (hshows.append hshows').congr ?_
      have hpile : t.PileShown (T :: ts) ↔
          ((t.box T.root).firstOnly → t.texts T.sub.tail = []) ∧ t.PileShown ts :=
        List.forall_mem_cons
      rw [hall, hpile]
      tauto

theorem BoxShows.chainCalls (hbox : BoxShows t kids steps box) (type : EqnBoxt)
    (hl : Laid t.links kids (some q) none ts) (hsteps : (nodesAll ts).length ≤ steps)
    (hgood : ∀ x ∈ nodesAll ts, t.Good kids x) :
    ∃ calls, eqnChainCalls t steps box type (ts.head?.map root) = .ok calls ∧
      Shows ((type = .PILE → t.PileShown ts) ∧ t.AllShown ts) (t.texts ts) calls := by
  obtain ⟨css, hcss, hshows⟩ := hbox.chain type hl hsteps hgood fun y hy => by cases hy
  refine ⟨css.flatten, ?_, hshows⟩
  rw [eqnChainCalls, eqnSiblings_laid hl ((length_le_nodesAll ts).trans hsteps), Res.ok_bind, hcss]
  rfl

theorem EqnPost.arity_le_three (pos : EqnPost) : pos.arity ≤ 3 := by
  cases pos <;> exact Nat.le_of_ble_eq_true rfl

theorem EqnPost.arity_le_two {pos : EqnPost} (h : ¬ (pos = .FROMTO ∨ pos = .SUBSUP)) :
    pos.arity ≤ 2 := by
  cases pos with
  | FROMTO => exact absurd (.inl rfl) h
  | SUBSUP => exact absurd (.inr rfl) h
  | NONE | SUP | SUB | TO | FROM | OVER | SQRT => exact Nat.le_of_ble_eq_true rfl

/-- **The third operand**, where there can be one. -/
theorem BoxShows.third (hbox : BoxShows t kids steps box) {pos : EqnPost}
    (hl : Laid t.links kids (some q) a ts) (hsteps : (nodesAll ts).length ≤ steps)
    (hgood : ∀ x ∈ nodesAll ts, t.Good kids x)
    (ha : ∀ y, a = some y → (t.box y).type = .TEXT → (t.box y).text ≠ none)
    (harity : ts.length + 2 ≤ pos.arity) :
    ∃ third, (if pos = .FROMTO ∨ pos = .SUBSUP then do
        let rest ← (match ts.head?.map root with
          | none => .ok []
          | some child => box (some child) : Res (List EqnCall))
        return [.nospace, .word "^".toList, .nospace] ++ rest
      else .ok [] : Res (List EqnCall)) = .ok third ∧
        Shows (t.AllShown ts) (t.texts ts) third := by
  have hsign : Shows True [] [.nospace, .word "^".toList, .nospace] := shows_quiet (by simp)
  split
  · cases ts with
    | nil =>
      have hall := hsign.append (@shows_no_tree t)
      exact ⟨_, rfl, hall.congr (and_iff_right trivial)⟩
    | cons C rest =>
      -- Behind the third operand, there is no other one.
      have hthree : rest.length + 3 ≤ 0 + 3 := harity.trans pos.arity_le_three
      obtain rfl : rest = [] := List.eq_nil_of_length_eq_zero (Nat.le_zero.mp
        (Nat.le_of_add_le_add_right hthree))
      obtain ⟨third, hthird, hshows⟩ := hbox.child hl hsteps hgood ha
      rw [List.head?_cons, Option.map_some]
      dsimp only
      rw [hthird]
      have hall := hsign.append hshows
      exact ⟨_, rfl, hall.congr (and_iff_right trivial)⟩
  · rename_i hother
    have htwo : ts.length + 2 ≤ 0 + 2 := harity.trans (EqnPost.arity_le_two hother)
    obtain rfl : ts = [] := List.eq_nil_of_length_eq_zero (Nat.le_zero.mp
      (Nat.le_of_add_le_add_right htwo))
    exact ⟨[], rfl, shows_no_tree⟩

/-- **The operands of an operator** are all printed, because there are at least one of them and not
    more than belong to the position. -/
theorem BoxShows.operandCalls (hbox : BoxShows t kids steps box) (pos : EqnPost)
    (hl : Laid t.links kids (some q) none ts) (hsteps : (nodesAll ts).length ≤ steps)
    (hgood : ∀ x ∈ nodesAll ts, t.Good kids x) (hpos : 0 < ts.length)
    (harity : ts.length ≤ pos.arity) :
    ∃ calls, eqnOperandCalls t box pos (ts.head?.map root) = .ok calls ∧
      Shows (t.AllShown ts) (t.texts ts) calls := by
  unfold eqnOperandCalls
  cases ts with
  | nil => cases hpos
  | cons A rest =>
    rw [nodesAll_cons_eq A rest, List.length_append] at hsteps
    rw [nodesAll_cons_eq A rest, List.forall_mem_append] at hgood
    obtain ⟨first, hfirst, hshows⟩ := hbox.child hl (by omega) hgood.1 fun y hy => by cases hy
    obtain ⟨hnext, hrest⟩ := hl.tail
    rw [List.head?_cons, Option.map_some, hfirst, Res.ok_bind]
    dsimp only
    rw [Option.bind_some, hnext]
    cases rest with
    -- A single operand is followed by the operator.
    | nil =>
      refine ⟨_, rfl, ?_⟩
      have hop : Shows True [] [.nospace, .word (eqnSign pos)] := shows_quiet (by simp)
      have hall := hshows.append hop
      rw [List.append_nil] at hall
      exact hall.congr (and_iff_left trivial)
    | cons B rest =>
      -- The second operand comes behind the operator, and the third one at the end.
      rw [nodesAll_cons_eq B rest, List.length_append] at hsteps
      rw [nodesAll_cons_eq B rest, List.forall_mem_append] at hgood
      have hA := text_of_good hgood.1
      have hB := text_of_good hgood.2.1
      obtain ⟨second, hsecond, hshows'⟩ := hbox.child hrest (by omega) hgood.2.1 hA
      obtain ⟨hnext', hlast⟩ := hrest.tail
      obtain ⟨third, hthird, hshows₃⟩ := hbox.third hlast (by omega) hgood.2.2 hB harity
      rw [List.head?_cons, Option.map_some]
      dsimp only
      rw [hsecond, Res.ok_bind, hnext', hthird, Res.ok_bind]
      refine ⟨_, rfl, ?_⟩
      have hop : Shows True [] ([.nospace, .word (eqnSign pos)] ++ [.nospace]) :=
        shows_quiet (by simp)
      have hall := (hshows.append (hop.append hshows')).append hshows₃
      -- The texts and the condition are split in the same way as the calls.
      have htexts :
          t.texts (A :: B :: rest) = t.texts [A] ++ ([] ++ t.texts [B]) ++ t.texts rest := by
        rw [List.nil_append, ← EqnTree.texts_append, ← EqnTree.texts_append]
        rfl
      have hshown : t.AllShown (A :: B :: rest) ↔
          (t.AllShown [A] ∧ True ∧ t.AllShown [B]) ∧ t.AllShown rest := by
        rw [true_and, ← EqnTree.allShown_append, ← EqnTree.allShown_append]
        rfl
      rw [htexts, hshown]
      simpa only [List.append_assoc] using hall

/-- **The columns of a matrix** are the children of its only child. -/
theorem BoxShows.columns (hbox : BoxShows t kids steps box)
    (hl : Laid t.links kids (some q) none [T]) (hsteps : (nodesAll [T]).length ≤ steps)
    (hgood : ∀ x ∈ nodesAll [T], t.Good kids x) (hmatrix : (t.box q).type = .MATRIX)
    (hlist : (t.box T.root).type = .LIST) :
    ∃ calls, eqnChainCalls t steps box (t.box q).type (t.links T.root).child = .ok calls ∧
      Shows (((t.box q).type = .PILE → t.PileShown [T]) ∧ t.AllShown [T]) (t.texts [T]) calls := by
  obtain ⟨hcolumn, -, hcolumns⟩ := hl.of_mem List.mem_cons_self
  have hroot := (hgood _ (root_mem_nodesAll List.mem_cons_self)).1
  have hbelow := fun y hy => hgood y (mem_nodesAll List.mem_cons_self hy)
  have hless := (length_nodesAll_sub (List.mem_cons_self : T ∈ [T])).trans_le hsteps
  rw [hcolumn]
  obtain ⟨calls, hcalls, hshows⟩ := hbox.chainCalls (t.box q).type hcolumns hless.le hbelow
  refine ⟨calls, hcalls, ?_⟩
  -- A column is a list, and lists do not contain any text of their own.
  have htext : (t.box T.root).text = none :=
    not_not.mp fun h => absurd ((hroot.text h).symm.trans hlist) (by decide)
  cases T with
  | node x sub =>
    rw [root_node] at htext hlist
    have htexts : t.texts [.node x sub] = t.texts sub := by
      rw [EqnTree.texts_cons, htext, EqnTree.texts_nil, List.append_nil]
      rfl
    rw [htexts]
    apply hshows.congr
    -- Neither the matrix nor the column is a pile.
    have hq : (t.box q).type ≠ .PILE := by rw [hmatrix]; decide
    have hx : (t.box x).type ≠ .PILE := by rw [hlist]; decide
    rw [EqnTree.allShown_single, sub_node]
    constructor
    · rintro ⟨-, hall⟩
      exact ⟨fun h => absurd h hq, fun h => absurd h hx, hall⟩
    · rintro ⟨-, -, hall⟩
      exact ⟨fun h => absurd h hq, hall⟩

/-- **The children of a box.** -/
theorem BoxShows.childCalls (hbox : BoxShows t kids steps box)
    (hchild : (t.links q).child = ts.head?.map root) (hkids : ts.map root = kids q)
    (hl : Laid t.links kids (some q) none ts) (hsteps : (nodesAll ts).length ≤ steps)
    (hshape : (t.box q).InShape (kids q).length) (hgood : ∀ x ∈ nodesAll ts, t.Good kids x) :
    ∃ calls, eqnChildCalls t steps box q = .ok calls ∧
      Shows (((t.box q).type = .PILE → t.PileShown ts) ∧ t.AllShown ts) (t.texts ts) calls := by
  have hlen : ts.length = (kids q).length := by rw [← hkids, List.length_map]
  unfold eqnChildCalls
  dsimp only
  rw [hchild]
  split
  · -- A square root has at most one operand.
    rename_i hsqrt
    have hsub : (t.box q).type = .SUBEXPR := hshape.pos.mp (by rw [hsqrt]; decide)
    have hpile : (t.box q).type ≠ .PILE := by rw [hsub]; decide
    have hroom := hshape.room (.inl hsub) _ (hshape.arity hsub)
    rw [hsqrt, ← hlen] at hroom
    have hroot : Shows True [] [.word "\\(sr".toList] := .silent (.word _) rfl
    cases ts with
    | nil =>
      refine ⟨_, rfl, ?_⟩
      rw [EqnTree.texts_nil]
      exact hroot.congr (iff_of_true trivial ⟨fun h => absurd h hpile, EqnTree.allShown_nil⟩)
    | cons A rest =>
      obtain rfl : rest = [] := List.eq_nil_of_length_eq_zero (Nat.le_zero.mp
        (Nat.le_of_succ_le_succ hroom))
      obtain ⟨calls, hcalls, hshows⟩ := hbox.child hl hsteps hgood fun y hy => by cases hy
      rw [List.head?_cons, Option.map_some]
      dsimp only
      rw [hcalls]
      refine ⟨_, rfl, ?_⟩
      have hall := (hroot.append (Shows.silent .nospace rfl)).append hshows
      refine hall.congr ?_
      rw [and_self, true_and]
      exact (and_iff_right fun h => absurd h hpile).symm
  split
  · -- A subexpression shows its operands.
    rename_i hsqrt hsub
    have hpile : (t.box q).type ≠ .PILE := by rw [hsub]; decide
    have hpos := hshape.operand hsub hsqrt
    have hroom := hshape.room (.inl hsub) _ (hshape.arity hsub)
    rw [← hlen] at hpos hroom
    obtain ⟨calls, hcalls, hshows⟩ := hbox.operandCalls (t.box q).pos hl hsteps hgood hpos hroom
    exact ⟨calls, hcalls, hshows.congr (and_iff_right fun h => absurd h hpile).symm⟩
  · -- Lists, piles, and matrices show their children.
    cases ts with
    | nil =>
      refine ⟨[], rfl, ?_⟩
      rw [EqnTree.texts_nil]
      refine (Shows.silent .nil rfl).congr (iff_of_true trivial ⟨fun _ C hC => ?_, ?_⟩)
      · cases hC
      · exact EqnTree.allShown_nil
    | cons L rest =>
      rw [List.head?_cons, Option.map_some]
      dsimp only
      split
      · -- A matrix has at most one child.
        rename_i hmatrix
        have hroom := hshape.room (.inr hmatrix.1) _ (hshape.single (.inr hmatrix.1))
        rw [← hlen] at hroom
        obtain rfl : rest = [] := List.eq_nil_of_length_eq_zero (Nat.le_zero.mp
          (Nat.le_of_succ_le_succ hroom))
        exact hbox.columns hl hsteps hgood hmatrix.1 hmatrix.2.1
      · exact hbox.chainCalls (t.box q).type hl hsteps hgood

/-! ## §6 Whole equations -/

/-- **The texts are printed in the order of the boxes**, except for those that a pile leaves out,
    and no null pointer is followed. -/
theorem termEqnBox_shows : BoxShows t kids steps (termEqnBox t steps) := by
  induction steps with
  | zero =>
    intro p a T ts _ hsteps _ _ _
    exact absurd (length_nodesAll_sub (List.mem_cons_self : T ∈ [T])) (by omega)
  | succ steps ih =>
    intro p a T ts hl hsteps hshape hgood hplaced
    obtain ⟨hchild, hkids, hsub⟩ := hl.of_mem List.mem_cons_self
    have hless := (length_nodesAll_sub (List.mem_cons_self : T ∈ [T])).trans_le hsteps
    cases T with
    | node x sub =>
      rw [root_node] at *
      rw [sub_node] at *
      obtain ⟨left, hleft, hleft'⟩ := eqnLeftDelim_quiet hplaced
      obtain ⟨right, hright, hright'⟩ := eqnRightDelim_quiet hplaced
      -- The children need one step fewer.
      obtain ⟨children, hchildren, hshows⟩ :=
        ih.childCalls hchild hkids hsub (Nat.le_of_lt_succ hless) hshape hgood
      rw [termEqnBox, hleft, Res.ok_bind, hchildren, Res.ok_bind, hright, Res.ok_bind]
      refine ⟨_, rfl, ?_⟩
      have htexts : t.texts [.node x sub] = (t.box x).text.toList ++ t.texts sub := by
        rw [EqnTree.texts_cons, EqnTree.texts_nil, List.append_nil]
      rw [htexts, EqnTree.allShown_single]
      have hinner := ((eqnTextCalls_shows (t.box x).text (t.links x).prev).append hshows).congr
        (and_iff_right trivial)
      have hquiet := ((eqnMarkCalls_quiet (t.box x)).append hright').congr and_self_iff
      -- A box with a font of its own selects it in front of its text.
      split
      · have hall := (hinner.fonts (eqnFontmap (t.box x).font)).around hleft' hquiet
        simpa only [List.append_assoc] using hall
      · have hall := hinner.around hleft' hquiet
        simpa only [List.append_assoc, List.append_nil, List.nil_append] using hall

/-- The root of an equation is printed. -/
theorem Formed.termEqnBox_root {st : EqnParse} (h : Formed st kids) : ∃ sub,
    Laid st.tree.links kids none none [.node 0 sub] ∧
      ∀ k, (nodesAll [.node 0 sub]).length ≤ k → ∃ calls,
        termEqnBox st.tree k (some 0) = .ok calls ∧
          Shows (st.tree.AllShown [.node 0 sub]) (st.tree.texts [.node 0 sub]) calls := by
  obtain ⟨sub, hl, hnodes⟩ := h.exists_tree
  refine ⟨sub, hl, fun k hk => termEqnBox_shows hl hk (h.shape 0 (mem_root kids)) ?_ ?_⟩
  · intro x hx
    have hx' : x ∈ Nodes kids {0} := hnodes x (mem_nodesAll List.mem_cons_self hx)
    refine ⟨h.shape x hx', h.text x hx' ?_⟩
    -- The root is not below itself.
    rintro rfl
    obtain ⟨-, hkids, hsub⟩ := hl.of_mem List.mem_cons_self
    obtain ⟨c, hc, hbelow⟩ := hsub.exists_child_below hkids 0 hx
    exact h.built.linked.forest.acyclic (mem_root kids) hc hbelow
  · refine ⟨fun _ => h.built.rootBox.1, fun y hy => ?_⟩
    cases h.alone.2.symm.trans hy

/-- **Which equations are printed completely.** For every equation that the parser delivers, no null
    pointer is followed, the function ends, and what is printed are texts of the boxes in the order
    of the boxes. Nothing is missing exactly if there is no text in what piles leave out. -/
theorem termEqn_texts {st : EqnParse} {n : Nat} {ep : EqnNode} {data : Option CStr}
    (hdata : ∀ c, data = some c → NUL ∉ c) (hdefs : ∀ d ∈ ep.defs, NUL ∉ d.val)
    (hparse : eqnParse n ep data = .ok st) : ∃ kids sub,
      Laid st.tree.links kids none none [.node 0 sub] ∧ ∃ bound, ∀ k, bound ≤ k →
        ∃ calls, termEqnBox st.tree k (some 0) = .ok calls ∧
          (callTexts calls).Sublist (st.tree.texts [.node 0 sub]) ∧
            (callTexts calls = st.tree.texts [.node 0 sub] ↔ st.tree.AllShown [.node 0 sub]) := by
  obtain ⟨kids, hformed⟩ := eqnParse_forms hdata hdefs hparse
  obtain ⟨sub, hl, hroot⟩ := hformed.termEqnBox_root
  refine ⟨kids, sub, hl, (nodesAll [.node 0 sub]).length, fun k hk => ?_⟩
  obtain ⟨calls, hcalls, hshows⟩ := hroot k hk
  exact ⟨calls, hcalls, hshows.sublist, hshows.whole_iff⟩

/-- A word in a pile. -/
def samplePile : CStr := "pile a1".toList

theorem termEqn_texts_sample : ∃ st, eqnParse 10 {} (some samplePile) = .ok st ∧ ∃ kids sub,
    Laid st.tree.links kids none none [.node 0 sub] ∧ ∃ bound, ∀ k, bound ≤ k →
      ∃ calls, termEqnBox st.tree k (some 0) = .ok calls ∧
        (callTexts calls).Sublist (st.tree.texts [.node 0 sub]) ∧
          (callTexts calls = st.tree.texts [.node 0 sub] ↔ st.tree.AllShown [.node 0 sub]) := by
  have hok : (eqnParse 10 {} (some samplePile)).toOption.isSome = true := by decide +kernel
  have hclean : NUL ∉ samplePile := by decide +kernel
  cases hst : eqnParse 10 {} (some samplePile) with
  | error e =>
    rw [hst] at hok
    cases hok
  | ok st =>
    have hdefs : ∀ d ∈ ({} : EqnNode).defs, NUL ∉ d.val := fun d hd => by cases hd
    exact ⟨st, rfl, termEqn_texts (fun c hc => Option.some.inj hc ▸ hclean) hdefs hst⟩

/-- The pile loses the digit, because the list of the two letters counts only one of them. -/
example : ((eqnParse 10 {} (some samplePile)).toOption.bind fun st =>
    (termEqnBox st.tree 10 (some 0)).toOption.map callTexts) = some [['a']] := by
  decide +kernel

/-- The word that `term_word()` gets. -/
def EqnCall.printed : EqnCall → Option CStr
  | word w | text w => some w
  | _ => none

/-- The terminal carries out some of the calls, beginning in the state `p`, and in the state that
    it has reached then, it fails to print the next word. -/
def WordFails (p : Termp) (calls : List EqnCall) (fault : Fault) : Prop :=
  ∃ done call rest p' w, calls = done ++ call :: rest ∧ done.foldlM EqnCall.exec p = .ok p' ∧
    call.printed = some w ∧ termWord p' w = .error fault

variable {tp tp' : Termp} {fault : Fault}

theorem WordFails.append_right (ds : List EqnCall) (h : WordFails tp cs fault) :
    WordFails tp (cs ++ ds) fault := by
  obtain ⟨done, call, rest, p', w, rfl, hdone, hw, hfails⟩ := h
  exact ⟨done, call, rest ++ ds, p', w, by simp, hdone, hw, hfails⟩

theorem WordFails.append_left (hcs : cs.foldlM EqnCall.exec tp = .ok tp')
    (h : WordFails tp' ds fault) : WordFails tp (cs ++ ds) fault := by
  obtain ⟨done, call, rest, p', w, rfl, hdone, hw, hfails⟩ := h
  refine ⟨cs ++ done, call, rest, p', w, by simp, ?_, hw, hfails⟩
  rw [List.foldlM_append, hcs]
  exact hdone

/-- A word that is printed leaves the saved fonts alone. -/
theorem termWord_guarantees (p : Termp) {call : EqnCall} {w : CStr} (hw : call.printed = some w) :
    Guarantees (WordFails p [call]) (termWord p w) (FontsKept p) := by
  have hfonts := termWord_fonts p w
  cases hword : termWord p w with
  | ok p' => exact Guarantees.ok_iff.mpr (hfonts.of_eq_ok hword)
  | error fault =>
    exact Guarantees.error_iff.mpr ⟨[], call, [], p, w, rfl, rfl, hw, hword⟩

/-- **Balanced calls** can be carried out, and they leave the saved fonts alone. -/
theorem Nested.exec (h : Nested cs) (p : Termp) :
    Guarantees (WordFails p cs) (cs.foldlM EqnCall.exec p) (FontsKept p) := by
  have hone : ∀ (call : EqnCall) (p : Termp),
      Guarantees (WordFails p [call]) (call.exec p) (FontsKept p) →
        Guarantees (WordFails p [call]) ([call].foldlM EqnCall.exec p) (FontsKept p) := by
    intro call p hcall
    rw [List.foldlM_cons]
    exact hcall.bind fun p₁ h₁ => Guarantees.pure_iff.mpr h₁
  induction h generalizing p with
  | nil => exact Guarantees.pure_iff.mpr (SameFonts.refl p).kept
  | @append cs ds _ _ ihc ihd =>
    rw [List.foldlM_append]
    have hfirst := (ihc p).weaken fun _ => WordFails.append_right ds
    refine hfirst.with_eq.bind fun p₁ h₁ => ?_
    -- The other calls begin in the state that the first ones have reached.
    refine ((ihd p₁).weaken fun _ => WordFails.append_left h₁.1).mono fun p₂ h₂ => ?_
    exact h₁.2.trans h₂
  | nospace => exact hone .nospace p (Guarantees.ok_iff.mpr (SameFonts.kept ⟨rfl, rfl⟩))
  | word w => exact hone (.word w) p (termWord_guarantees p rfl)
  | text w => exact hone (.text w) p (termWord_guarantees p rfl)
  | @fonts f cs _ ih =>
    rw [List.foldlM_append, List.foldlM_append, bind_assoc]
    refine Guarantees.bind_of_eq (a := termFontpush p f) rfl ?_
    have hpush : [EqnCall.fontpush f].foldlM EqnCall.exec p = .ok (termFontpush p f) := rfl
    have hinner := (ih (termFontpush p f)).weaken fun _ h =>
      (WordFails.append_left hpush h).append_right [.fontpop]
    refine hinner.bind fun p₁ h₁ => ?_
    obtain ⟨p₂, hpop, h₂⟩ := h₁.popped
    refine Guarantees.of_eq (a := p₂) ?_ h₂
    rw [List.foldlM_cons, EqnCall.exec, hpop]
    rfl

/-- **The font stack.** Formatting an equation pops exactly the fonts that it has pushed, so that
    the assertion in `term_fontpop()` does not fail, and the fonts that were saved before are the
    same ones afterwards, unless the terminal reaches a word that it fails to print. -/
theorem termEqn_fonts {st : EqnParse} {n : Nat} {ep : EqnNode} {data : Option CStr}
    (hdata : ∀ c, data = some c → NUL ∉ c) (hdefs : ∀ d ∈ ep.defs, NUL ∉ d.val)
    (hparse : eqnParse n ep data = .ok st) : ∃ bound, ∀ k, bound ≤ k → ∃ calls,
      termEqnBox st.tree k (some 0) = .ok calls ∧ ∀ p : Termp,
        Guarantees (WordFails p calls) (termEqn st.tree k p 0) fun p' =>
          FontsKept p p' ∧ p'.flags.nospace = false := by
  obtain ⟨kids, hformed⟩ := eqnParse_forms hdata hdefs hparse
  obtain ⟨sub, -, hroot⟩ := hformed.termEqnBox_root
  refine ⟨(nodesAll [.node 0 sub]).length, fun k hk => ?_⟩
  obtain ⟨calls, hcalls, hshows⟩ := hroot k hk
  refine ⟨calls, hcalls, fun p => ?_⟩
  refine Guarantees.bind_of_eq hcalls ?_
  refine (hshows.nested.exec p).bind fun p' h' => Guarantees.pure_iff.mpr ⟨?_, rfl⟩
  exact h'.trans (SameFonts.kept ⟨rfl, rfl⟩)

/-- An equation that pushes a font. -/
def sampleBold : CStr := "bold a over b".toList

theorem termEqn_fonts_sample : ∃ st, eqnParse 10 {} (some sampleBold) = .ok st ∧
    ∃ bound, ∀ k, bound ≤ k → ∃ calls, termEqnBox st.tree k (some 0) = .ok calls ∧
      ∀ p : Termp, Guarantees (WordFails p calls) (termEqn st.tree k p 0) fun p' =>
        FontsKept p p' ∧ p'.flags.nospace = false := by
  have hok : (eqnParse 10 {} (some sampleBold)).toOption.isSome = true := by decide +kernel
  have hclean : NUL ∉ sampleBold := by decide +kernel
  cases hst : eqnParse 10 {} (some sampleBold) with
  | error e =>
    rw [hst] at hok
    cases hok
  | ok st =>
    have hdefs : ∀ d ∈ ({} : EqnNode).defs, NUL ∉ d.val := fun d hd => by cases hd
    exact ⟨st, rfl, termEqn_fonts (fun c hc => Option.some.inj hc ▸ hclean) hdefs hst⟩

end Mandoc
