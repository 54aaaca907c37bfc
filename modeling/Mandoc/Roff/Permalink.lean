import Mandoc.Roff.CondOperands
import Mandoc.Roff.Translation

/-!
# Permalinks on the First Few Words

When a paragraph is tagged, `tag_move_href()` of `tag.c` moves the permalink to the first few words
of the text node with which the paragraph starts. If the node is longer, it is split at a blank.

- `tagMoveHref` is the function, on the syntax tree and the other members of the nodes.
- `Translates` describes the character translations of `roff_strdup()`, which the second half of the
  text is subject to, without reference to the loop of the function.
- `InEscape` says which bytes are inside of the escape sequences that `mandoc_escape()` delimits.
-/

namespace Mandoc

open OrderedForest

variable {X : Type}

/-! ## §1 The function -/

/-- The state at the end of the document, with the members of the nodes that only the functions
    about tags use. -/
structure HrefState (X : Type) where
  r : Roff X
  /-- The member `tag`. -/
  tag : Nat → Option CStr
  /-- The flag `NODE_HREF`. -/
  href : Nat → Bool

/-- The loop that looks for the blank, with a bound on the number of iterations. -/
def hrefBlank (s : CStr) : Nat → Option Nat → Res (Option Nat)
  | 0, _ => .error .fuel
  | _ + 1, none => .ok none
  | steps + 1, some cp =>
    if cp < 5 then hrefBlank s steps (strchrFrom s (cp + 1) ' ') else .ok (some cp)

/-- Split the text node `n` at the blank `cp`. -/
def hrefSplit (st : HrefState X) (n : Nat) (s : CStr) (cp : Nat) : Res (HrefState X) := do
  let node := st.r.man.node n
  let man := { st.r.man with last := some n, next := .SIBLING }
  let r ← roffWordAlloc { st.r with man := man } node.line (node.pos + cp) (s.drop (cp + 1))
  let last ← r.man.lastNode
  -- man->last->flags = n->flags & ~NODE_LINE
  let man := r.man.modify last fun new => { new with flags := { node.flags with line := false } }
  let man := man.modify n fun node => { node with string := some (s.take cp) }
  return { st with r := { r with man := man }, href := Function.update st.href last (st.href n) }

/-- The end of the function: the node becomes the permalink. -/
def setHref (st : HrefState X) (n : Nat) (tag : CStr) : Res (HrefState X) :=
  -- assert(n->tag == NULL)
  if st.tag n ≠ none then .error .abort
  else .ok { st with
    tag := Function.update st.tag n (some tag), href := Function.update st.href n true }

/-- `tag_move_href()` -/
def tagMoveHref (st : HrefState X) (n : Option Nat) (tag : CStr) : Res (HrefState X) :=
  match n with
  | none => .ok st
  | some n =>
    if (st.r.man.node n).type ≠ .TEXT then .ok st
    else
      match (st.r.man.node n).string with
      | none => .error .null
      | some s => do
        if charAt s 0 = NUL ∨ charAt s 0 = ' ' then return st
        -- If the first text node is longer, split it.
        let st ← (do
          match ← hrefBlank s 7 (some 0) with
          | none => return st
          | some cp => if charAt s (cp + 1) = NUL then return st else hrefSplit st n s cp)
        setHref st n tag

/-! ## §2 Where a text is split -/

/-- The text is split at this blank: the first one that has five bytes in front of it, unless the
    text starts or ends with a blank. -/
structure SplitsAt (s : CStr) (i : Nat) : Prop where
  start : s.head? ≠ some ' '
  ge : 5 ≤ i
  blank : s[i]? = some ' '
  first : ∀ j, 5 ≤ j → j < i → s[j]? ≠ some ' '
  more : i + 1 < s.length

/-- The first occurrence of a byte from an index on, or there is none. -/
theorem strchrFrom_cases (s : CStr) (i : Nat) (c : Char) :
    (strchrFrom s i c = none ∧ ∀ k, i ≤ k → s[k]? ≠ some c) ∨
      ∃ j, strchrFrom s i c = some j ∧ i ≤ j ∧ s[j]? = some c ∧
        ∀ k, i ≤ k → k < j → s[k]? ≠ some c := by
  have hshift : ∀ k, i ≤ k → s[k]? = (s.drop i)[k - i]? := by
    intro k hk
    rw [List.getElem?_drop, Nat.add_sub_cancel' hk]
  cases Classical.em (c ∈ s.drop i) with
  | inl hmem =>
    obtain ⟨a, b, hdrop, ha⟩ := List.eq_append_cons_of_mem hmem
    refine .inr ⟨i + a.length, strchrFrom_of_drop hdrop ha, Nat.le_add_right i _, ?_, ?_⟩
    · rw [hshift _ (Nat.le_add_right i _), Nat.add_sub_cancel_left, hdrop,
        List.getElem?_append_right (Nat.le_refl _), Nat.sub_self]
      rfl
    · intro k hik hk hc
      have hlt : k - i < a.length := by omega
      rw [hshift k hik, hdrop, List.getElem?_append_left hlt] at hc
      exact ha (List.mem_of_getElem? hc)
  | inr hmem =>
    refine .inl ⟨strchrFrom_of_notMem hmem, ?_⟩
    intro k hik hc
    rw [hshift k hik] at hc
    exact hmem (List.mem_of_getElem? hc)

/-- The first blank with five bytes in front of it. -/
def IsHrefBlank (s : CStr) : Option Nat → Prop
  | none => ∀ j, 5 ≤ j → s[j]? ≠ some ' '
  | some i => 5 ≤ i ∧ s[i]? = some ' ' ∧ ∀ j, 5 ≤ j → j < i → s[j]? ≠ some ' '

/-- The loop finds it: at every blank before the fifth byte, the search goes on. -/
theorem hrefBlank_spec {s : CStr} {steps cp : Nat} (hsteps : 6 < steps + cp)
    (hpos : 0 < steps) (hcp : 5 ≤ cp → IsHrefBlank s (some cp)) :
    ∃ o, hrefBlank s steps (some cp) = .ok o ∧ IsHrefBlank s o := by
  induction steps generalizing cp with
  | zero => exact absurd hpos (Nat.lt_irrefl 0)
  | succ steps ih =>
    rw [hrefBlank]
    cases Nat.decLt cp 5 with
    | isFalse hge =>
      rw [if_neg hge]
      exact ⟨some cp, rfl, hcp (Nat.not_lt.mp hge)⟩
    | isTrue hlt =>
      rw [if_pos hlt]
      rcases strchrFrom_cases s (cp + 1) ' ' with ⟨hnone, hno⟩ | ⟨j, hsome, hge, hj, hno⟩
      · rw [hnone]
        obtain ⟨m, rfl⟩ : ∃ m, steps = m + 1 := ⟨steps - 1, by omega⟩
        exact ⟨none, rfl, fun k hk => hno k (by omega)⟩
      · rw [hsome]
        apply ih (by omega) (by omega)
        exact fun hfive => ⟨hfive, hj, fun k hk hkj => hno k (by omega) hkj⟩

theorem SplitsAt.unique {s : CStr} {i j : Nat} (hi : SplitsAt s i) (hj : SplitsAt s j) :
    i = j := by
  rcases Nat.lt_trichotomy i j with hlt | heq | hgt
  · exact absurd hi.blank (hj.first i hi.ge hlt)
  · exact heq
  · exact absurd hj.blank (hi.first j hj.ge hgt)

/-! ## §3 Character translations -/

/-- What the translations turn a text into: bytes and keys are replaced, and other escape sequences
    are copied. The text ends at an escape sequence that `mandoc_escape()` rejects. -/
inductive Translates (r : Roff X) : CStr → CStr → Prop where
  | nil : Translates r [] []
  | byte {c : Char} {p q : CStr} (hc : c ≠ '\\') (hascii : c.toNat < 128)
      (hp : Translates r p q) : Translates r (c :: p) ((r.xtab.bind (· c)).getD [c] ++ q)
  | key {p q : CStr} {kv : Kv}
      (hkey : r.xmbtab.find? (fun kv => kv.key.isPrefixOf ('\\' :: p)) = some kv)
      (hne : kv.key ≠ []) (hp : Translates r (('\\' :: p).drop kv.key.length) q) :
      Translates r ('\\' :: p) (kv.val.getD [] ++ q)
  | escape {p q : CStr} {s : EscResult}
      (hkey : r.xmbtab.find? (fun kv => kv.key.isPrefixOf ('\\' :: p)) = none)
      (hesc : mandocEscape ('\\' :: p) 0 = .ok s) (hok : s.rval ≠ .ERROR)
      (hend : s.rend ≤ ('\\' :: p).length) (hp : Translates r (('\\' :: p).drop s.rend) q) :
      Translates r ('\\' :: p) (('\\' :: p).take s.rend ++ q)
  | bad {p : CStr} {s : EscResult}
      (hkey : r.xmbtab.find? (fun kv => kv.key.isPrefixOf ('\\' :: p)) = none)
      (hesc : mandocEscape ('\\' :: p) 0 = .ok s) (hbad : s.rval = .ERROR) :
      Translates r ('\\' :: p) []

section

variable {r : Roff X}

/-- An empty key is found again and again. -/
theorem strdupLoop_empty_key {p : CStr} {kv : Kv}
    (hkey : r.xmbtab.find? (fun kv => kv.key.isPrefixOf ('\\' :: p)) = some kv)
    (hnil : kv.key = []) (steps : Nat) (q : CStr) : strdupLoop r steps ('\\' :: p) ≠ .ok q := by
  induction steps generalizing q with
  | zero => exact fun h => by cases h
  | succ steps ih =>
    intro h
    rw [strdupLoop, if_neg (by decide), if_neg (by simp), hkey] at h
    simp only [hnil, List.length_nil, List.drop_zero] at h
    obtain ⟨res, hres, -⟩ := Res.bind_eq_ok.mp h
    exact ih res hres

/-- What the loop returns, by induction on the number of iterations. -/
theorem translates_of_strdupLoop {steps : Nat} {p q : CStr}
    (h : strdupLoop r steps p = .ok q) : Translates r p q := by
  -- By induction on the number of steps; the cases are the branches of the loop.
  induction steps generalizing p q with
  | zero => cases h
  | succ steps ih =>
    cases p with
    | nil =>
      cases h
      exact .nil
    | cons c p =>
      rw [strdupLoop] at h
      cases Nat.decLe 128 c.toNat with
      | isTrue hlarge =>
        rw [if_pos hlarge] at h
        cases h
      | isFalse hascii =>
        rw [if_neg hascii] at h
        cases decEq c '\\' with
        -- A byte that is copied.
        | isFalse hc =>
          rw [if_pos hc] at h
          obtain ⟨res, hres, hq⟩ := Res.bind_eq_ok.mp h
          cases hq
          exact .byte hc (Nat.lt_of_not_le hascii) (ih hres)
        | isTrue hc =>
          subst hc
          rw [if_neg (fun hne => hne rfl)] at h
          cases hkey : r.xmbtab.find? (fun kv => kv.key.isPrefixOf ('\\' :: p)) with
          -- The longest key that matches is replaced.
          | some kv =>
            simp only [hkey] at h
            obtain ⟨res, hres, hq⟩ := Res.bind_eq_ok.mp h
            cases hq
            cases hnil : kv.key with
            | nil =>
              rw [hnil] at hres
              exact absurd hres (strdupLoop_empty_key hkey hnil steps res)
            | cons d key => exact .key hkey (by simp [hnil]) (ih hres)
          -- Another escape sequence is copied as a whole, unless it is invalid.
          | none =>
            simp only [hkey] at h
            obtain ⟨s, hesc, hrest⟩ := Res.bind_eq_ok.mp h
            cases decEq s.rval .ERROR with
            | isTrue hbad =>
              rw [if_pos hbad] at hrest
              cases hrest
              exact .bad hkey hesc hbad
            | isFalse hok =>
              rw [if_neg hok] at hrest
              obtain ⟨d, hd, hrest⟩ := Res.bind_eq_ok.mp hrest
              obtain ⟨res, hres, hq⟩ := Res.bind_eq_ok.mp hrest
              cases hq
              exact .escape hkey hesc hok (rd_eq_ok.mp hd).1 (ih hres)

/-- The loop returns what the translations say, since every iteration consumes something. -/
theorem strdupLoop_of_translates {p q : CStr} (h : Translates r p q) (hs : NUL ∉ p)
    {steps : Nat} (hsteps : p.length < steps) : strdupLoop r steps p = .ok q := by
  -- By induction on the translation; every step of it is one round of the loop.
  induction h generalizing steps with
  | nil =>
    obtain ⟨m, rfl⟩ := Nat.exists_eq_succ_of_ne_zero (Nat.ne_zero_of_lt hsteps)
    rfl
  | byte hc hascii _ ih =>
    obtain ⟨m, rfl⟩ := Nat.exists_eq_succ_of_ne_zero (Nat.ne_zero_of_lt hsteps)
    have hrest := ih (fun hm => hs (List.mem_cons_of_mem _ hm)) (Nat.lt_of_succ_lt_succ hsteps)
    rw [strdupLoop, if_neg (Nat.not_le_of_lt hascii), if_pos hc, hrest]
    rfl
  | @key p q kv hkey hne _ ih =>
    obtain ⟨m, rfl⟩ := Nat.exists_eq_succ_of_ne_zero (Nat.ne_zero_of_lt hsteps)
    have hpos := List.length_pos_iff.mpr hne
    have hlen : (('\\' :: p).drop kv.key.length).length < m := by
      rw [List.length_drop]
      rw [List.length_cons] at hsteps ⊢
      omega
    have hrest := ih (fun hm => hs (List.mem_of_mem_drop hm)) hlen
    rw [strdupLoop, if_neg (by decide), if_neg (by simp), hkey]
    simp only [hrest, Res.ok_bind]
    rfl
  | @escape p q s hkey hesc hok hend _ ih =>
    obtain ⟨m, rfl⟩ := Nat.exists_eq_succ_of_ne_zero (Nat.ne_zero_of_lt hsteps)
    have hpos := mandocEscape_rend_pos hs hesc
    have hlen : (('\\' :: p).drop s.rend).length < m := by
      rw [List.length_drop]
      omega
    have hrest := ih (fun hm => hs (List.mem_of_mem_drop hm)) hlen
    rw [strdupLoop, if_neg (by decide), if_neg (by simp), hkey]
    simp only [hesc, Res.ok_bind, if_neg hok, rd_of_le hend, hrest]
    rfl
  | bad hkey hesc hbad =>
    obtain ⟨m, rfl⟩ := Nat.exists_eq_succ_of_ne_zero (Nat.ne_zero_of_lt hsteps)
    rw [strdupLoop, if_neg (by decide), if_neg (by simp), hkey]
    simp only [hesc, Res.ok_bind, if_pos hbad]
    rfl

/-- What `roff_strdup()` returns. -/
theorem roffStrdup_eq_ok_iff {p q : CStr} (hs : NUL ∉ p) :
    roffStrdup r p = .ok q ↔
      if r.xmbtab = [] ∧ r.xtab.isNone then q = p else Translates r p q := by
  unfold roffStrdup
  split
  · exact ⟨fun h => (Except.ok.inj h).symm, fun h => by rw [h]⟩
  · exact ⟨translates_of_strdupLoop, fun h => strdupLoop_of_translates h hs (Nat.lt_succ_self _)⟩

theorem strdupLoop_man (man : RoffMan) (steps : Nat) (p : CStr) :
    strdupLoop { r with man := man } steps p = strdupLoop r steps p := by
  induction steps generalizing p with
  | zero => rfl
  | succ steps ih => cases p <;> simp only [strdupLoop, ih]

theorem roffStrdup_man (man : RoffMan) (p : CStr) :
    roffStrdup { r with man := man } p = roffStrdup r p := by
  simp only [roffStrdup, strdupLoop_man]

end

/-! ## §4 Escape sequences -/

/-- The places between the bytes and the escape sequences of a text. -/
inductive Boundary (s : CStr) : Nat → Prop where
  | start : Boundary s 0
  | byte {i : Nat} (h : Boundary s i) (hi : i < s.length) (hc : charAt s i ≠ '\\') :
      Boundary s (i + 1)
  | escape {i : Nat} {e : EscResult} (h : Boundary s i) (hc : charAt s i = '\\')
      (hesc : mandocEscape s i = .ok e) : Boundary s e.rend

/-- The byte belongs to an escape sequence, and is not its first byte. -/
def InEscape (s : CStr) (i : Nat) : Prop :=
  ∃ a e, Boundary s a ∧ charAt s a = '\\' ∧ mandocEscape s a = .ok e ∧ a < i ∧ i < e.rend

/-! ## §5 Splitting the node -/

/-- The text is still there: in the node, or in the node, one blank, and a new node behind it. No
    escape sequence is on both sides of the blank. -/
def TextPreserved (st st' : HrefState X) (n : Nat) (s : CStr) : Prop :=
  (st'.r.man.count = st.r.man.count ∧ (st'.r.man.node n).string = some s) ∨
    ∃ s₁ s₂, st'.r.man.count = st.r.man.count + 1 ∧
      (st'.r.man.links n).next = some st.r.man.count ∧
      (st'.r.man.node n).string = some s₁ ∧
      (st'.r.man.node st.r.man.count).string = some s₂ ∧
      s₁ ++ ' ' :: s₂ = s ∧ ¬ InEscape s s₁.length

/-- A text node that is added behind a node with a parent. -/
theorem addLeaf_text {man : RoffMan} {n line pos : Nat} {t : CStr} (hlast : man.last = some n)
    (hnext : man.next = .SIBLING) (hn : n ≠ man.count) (hparent : (man.links n).parent ≠ none) :
    ∃ man', addLeaf man line pos .TEXT (fun node => { node with string := some t }) = .ok man' ∧
      man'.count = man.count + 1 ∧ man'.last = some man.count ∧
      (man'.links n).next = some man.count ∧
      (man'.node man.count).string = some t ∧ man'.node n = man.node n := by
  unfold addLeaf
  -- The new node is linked to its siblings, and is nobody's head, body, or tail.
  have hlinks : ∃ man₁, roffNodeAppend ((roffNodeAlloc man line pos .TEXT .TOKEN_NONE).modify
        man.count fun node => { node with string := some t }) man.count = .ok man₁ ∧
      man₁.count = man.count + 1 ∧ man₁.last = some man.count ∧
      (man₁.links n).next = some man.count ∧
      (man₁.node man.count).string = some t ∧ man₁.node n = man.node n := by
    unfold roffNodeAppend roffNodeRole
    simp [roffNodeAlloc, RoffMan.modify, hlast, hnext, hn, hparent, linkAfter]
  obtain ⟨man₁, happend, hcount, hlast₁, hnext₁, hstring, hnode⟩ := hlinks
  simp only [happend, Res.ok_bind]
  refine ⟨_, rfl, hcount, hlast₁, hnext₁, ?_, ?_⟩
  · simpa [RoffMan.modify, RoffNode.complete] using hstring
  · simpa [RoffMan.modify, hn] using hnode

section

variable {st : HrefState X} {n : Nat} {s tag : CStr} {i : Nat}

/-- The new node is the next sibling, and gets the translation of the second half. -/
theorem hrefSplit_ok {t : CStr} (ht : roffStrdup st.r (s.drop (i + 1)) = .ok t)
    (hn : n ≠ st.r.man.count) (hparent : (st.r.man.links n).parent ≠ none) :
    ∃ st', hrefSplit st n s i = .ok st' ∧ st'.tag = st.tag ∧
      st'.r.man.count = st.r.man.count + 1 ∧
      (st'.r.man.links n).next = some st.r.man.count ∧
      (st'.r.man.node n).string = some (s.take i) ∧
      (st'.r.man.node st.r.man.count).string = some t := by
  obtain ⟨man', hadd, hcount, hlast, hnext, hstring, -⟩ := @addLeaf_text
    { st.r.man with last := some n, next := .SIBLING } n (st.r.man.node n).line
    ((st.r.man.node n).pos + i) t rfl rfl hn hparent
  unfold hrefSplit roffWordAlloc
  simp only [roffStrdup_man, ht, Res.ok_bind, hadd, Res.pure_eq_ok, RoffMan.lastNode, hlast]
  refine ⟨_, rfl, rfl, hcount, hnext, ?_, ?_⟩
  · simp [RoffMan.modify]
  · simpa [RoffMan.modify, hn.symm] using hstring

theorem hrefSplit_error {e : Fault} (he : roffStrdup st.r (s.drop (i + 1)) = .error e) :
    hrefSplit st n s i = .error e := by
  unfold hrefSplit roffWordAlloc
  simp only [roffStrdup_man, he, Res.error_bind]

/-- A text node in the tree that is not the target of a link. -/
structure TextNode (st : HrefState X) (n : Nat) (s : CStr) : Prop where
  type : (st.r.man.node n).type = .TEXT
  string : (st.r.man.node n).string = some s
  nul : NUL ∉ s
  allocated : n < st.r.man.count
  parent : (st.r.man.links n).parent ≠ none
  tag : st.tag n = none

theorem charAt_zero (s : CStr) : charAt s 0 = s.head?.getD NUL := by
  cases s <;> rfl

/-- The node is split in two where the text says so, or not at all. -/
theorem tagMoveHref_cases (h : TextNode st n s) :
    (∃ i, SplitsAt s i ∧ tagMoveHref st (some n) tag =
        hrefSplit st n s i >>= fun st => setHref st n tag) ∨
      (∀ i, ¬ SplitsAt s i) ∧ ∃ st', tagMoveHref st (some n) tag = .ok st' ∧ st'.r = st.r := by
  have hset : setHref st n tag = .ok { st with
      tag := Function.update st.tag n (some tag), href := Function.update st.href n true } :=
    if_neg fun hne => hne h.tag
  simp only [tagMoveHref, h.type, h.string, ne_eq, not_true_eq_false, if_false]
  cases Classical.em (charAt s 0 = NUL ∨ charAt s 0 = ' ') with
  | inl hfirst =>
    rw [if_pos hfirst]
    refine .inr ⟨fun i hi => ?_, st, rfl, rfl⟩
    have hlt : 0 < s.length := by have := hi.more; omega
    obtain ⟨c, p, rfl⟩ := List.exists_cons_of_length_pos hlt
    rcases hfirst with hnul | hblank
    · exact h.nul (show NUL ∈ c :: p from hnul ▸ List.mem_cons_self ..)
    · exact hi.start (congrArg some hblank)
  | inr hfirst =>
    rw [if_neg hfirst]
    have hstart : s.head? ≠ some ' ' := by
      intro hblank
      apply hfirst
      rw [charAt_zero, hblank]
      exact .inr rfl
    obtain ⟨o, ho, hspec⟩ := @hrefBlank_spec s 7 0 (by decide) (by decide)
      fun hle => absurd hle (by decide)
    simp only [ho, Res.ok_bind]
    cases o with
    | none =>
      refine .inr ⟨fun i hi => hspec i hi.ge hi.blank, ?_⟩
      exact ⟨_, hset, rfl⟩
    | some i =>
      obtain ⟨hge, hblank, hno⟩ := hspec
      cases Nat.decLt (i + 1) s.length with
      | isTrue hlt =>
        have hmore : charAt s (i + 1) ≠ NUL := charAt_ne_nul h.nul hlt
        refine .inl ⟨i, ⟨hstart, hge, hblank, hno, hlt⟩, ?_⟩
        simp only [if_neg hmore]
      | isFalse hend =>
        have hlast : charAt s (i + 1) = NUL := charAt_of_ge (Nat.not_lt.mp hend)
        refine .inr ⟨fun j hj => ?_, ?_⟩
        · -- The text cannot be split at an earlier blank.
          rcases Nat.lt_trichotomy j i with hlt | heq | hgt
          · exact hno j hj.ge hlt hj.blank
          · have hmore := hj.more
            omega
          · exact hj.first i hge hgt hblank
        · simp only [if_pos hlast]
          exact ⟨_, hset, rfl⟩

theorem take_blank_drop (hi : s[i]? = some ' ') : s.take i ++ ' ' :: s.drop (i + 1) = s := by
  obtain ⟨hlt, hget⟩ := List.getElem?_eq_some_iff.mp hi
  rw [← hget, List.getElem_cons_drop, List.take_append_drop]

/-- **Permalinks on the first few words.**  The function preserves the text if and only if the
    blank where the text is split is outside of all escape sequences, and the translations at the
    end of the document, if there are any, turn the second half of the text into itself. -/
theorem tagMoveHref_preserves_iff (h : TextNode st n s) :
    (∃ st', tagMoveHref st (some n) tag = .ok st' ∧ TextPreserved st st' n s) ↔
      ∀ i, SplitsAt s i → ¬ InEscape s i ∧
        (st.r.xmbtab = [] ∧ st.r.xtab.isNone ∨
          Translates st.r (s.drop (i + 1)) (s.drop (i + 1))) := by
  rcases @tagMoveHref_cases _ _ _ _ tag h with ⟨i, hi, hcall⟩ | ⟨hno, st', hcall, hsame⟩
  · -- The text is split at a blank, and the part behind it is copied by roff_strdup().
    have hdrop : NUL ∉ s.drop (i + 1) := fun hm => h.nul (List.mem_of_mem_drop hm)
    have hlen : (s.take i).length = i := List.length_take_of_le (by have := hi.more; omega)
    have hself : roffStrdup st.r (s.drop (i + 1)) = .ok (s.drop (i + 1)) ↔
        st.r.xmbtab = [] ∧ st.r.xtab.isNone ∨
          Translates st.r (s.drop (i + 1)) (s.drop (i + 1)) := by
      rw [roffStrdup_eq_ok_iff hdrop]
      cases Classical.em (st.r.xmbtab = [] ∧ st.r.xtab.isNone) with
      | inl hnone => simp [hnone]
      | inr hsome => rw [if_neg hsome, or_iff_right hsome]
    -- There is one blank only where the text can be split.
    have hone : (∀ j, SplitsAt s j → ¬ InEscape s j ∧
        (st.r.xmbtab = [] ∧ st.r.xtab.isNone ∨
          Translates st.r (s.drop (j + 1)) (s.drop (j + 1)))) ↔
        ¬ InEscape s i ∧ roffStrdup st.r (s.drop (i + 1)) = .ok (s.drop (i + 1)) := by
      rw [hself]
      exact ⟨fun hall => hall i hi, fun hat j hj => hj.unique hi ▸ hat⟩
    rw [hone, hcall]
    cases ht : roffStrdup st.r (s.drop (i + 1)) with
    -- The copy aborts.
    | error e =>
      rw [hrefSplit_error ht]
      exact iff_of_false (fun ⟨_, hok, _⟩ => by cases hok) fun hand => by cases hand.2
    | ok t =>
      -- The text is kept if the copy is equal to the part that was copied.
      obtain ⟨st₁, hsplit, htag, hcount, hnext, hfirst, hsecond⟩ :=
        hrefSplit_ok ht (Nat.ne_of_lt h.allocated) h.parent
      have hset : setHref st₁ n tag = .ok { st₁ with
          tag := Function.update st₁.tag n (some tag)
          href := Function.update st₁.href n true } :=
        if_neg fun hne => hne (htag ▸ h.tag)
      rw [hsplit, Res.ok_bind, hset]
      constructor
      · rintro ⟨st', hst', hsame | ⟨s₁, s₂, -, -, hs₁, hs₂, hjoin, hout⟩⟩
        · cases hst'
          exact absurd (hcount.symm.trans hsame.1) (Nat.succ_ne_self _)
        · cases hst'
          obtain rfl : s.take i = s₁ := Option.some.inj (hfirst.symm.trans hs₁)
          obtain rfl : t = s₂ := Option.some.inj (hsecond.symm.trans hs₂)
          rw [hlen] at hout
          have hcancel := List.append_cancel_left (hjoin.trans (take_blank_drop hi.blank).symm)
          exact ⟨hout, congrArg Except.ok (List.cons.inj hcancel).2⟩
      · rintro ⟨hout, hok⟩
        obtain rfl : t = s.drop (i + 1) := Except.ok.inj hok
        refine ⟨_, rfl, .inr ⟨s.take i, s.drop (i + 1), hcount, hnext, hfirst, hsecond,
          take_blank_drop hi.blank, ?_⟩⟩
        rw [hlen]
        exact hout
  · -- Without such a blank, the node keeps its text.
    refine iff_of_true ⟨st', hcall, .inl ?_⟩ fun i hi => absurd hi (hno i)
    rw [hsame]
    exact ⟨rfl, h.string⟩

end

/-- A document that consists of a text, after `.tr ab`. -/
def hrefSample (s : CStr) : HrefState Unit where
  r := { trAB with
    man := { roffManAlloc1 with
      links := fun x => if x = 0 then { child := some 1, last := some 1 } else { parent := some 0 }
      node := fun x => if x = 0 then {} else { type := .TEXT, string := some s }
      count := 2 } }
  tag := fun _ => none
  href := fun _ => false

/-- The text is a node of the document. -/
theorem hrefSample_textNode {s : CStr} (hs : NUL ∉ s) : TextNode (hrefSample s) 1 s where
  type := rfl
  string := rfl
  nul := hs
  allocated := Nat.one_lt_two
  parent := Option.some_ne_none 0
  tag := rfl

theorem tagMoveHref_preserves_sample :
    TextNode (hrefSample "hello world".toList) 1 "hello world".toList ∧
      ∃ st', tagMoveHref (hrefSample "hello world".toList) (some 1) "hello".toList = .ok st' ∧
        TextPreserved (hrefSample "hello world".toList) st' 1 "hello world".toList := by
  have hnode : TextNode (hrefSample "hello world".toList) 1 "hello world".toList :=
    hrefSample_textNode (by decide)
  refine ⟨hnode, (tagMoveHref_preserves_iff hnode).mpr ?_⟩
  have hsplit : SplitsAt "hello world".toList 5 := by
    refine ⟨by decide, by decide, by decide, ?_, by decide⟩
    intro j hge hlt
    exact absurd hlt (Nat.not_lt_of_le hge)
  intro i hi
  obtain rfl := hi.unique hsplit
  refine ⟨?_, .inr ?_⟩
  · -- There is no escape sequence.
    rintro ⟨a, e, -, hc, -⟩
    have hmem : ∀ b < 11, charAt "hello world".toList b ≠ '\\' := by decide
    cases Nat.decLt a 11 with
    | isTrue hlt => exact hmem a hlt hc
    | isFalse hge =>
      rw [charAt_of_ge (Nat.not_lt.mp hge)] at hc
      exact absurd hc (by decide)
  · exact .byte (by decide) (by decide) (.byte (by decide) (by decide)
      (.byte (by decide) (by decide) (.byte (by decide) (by decide)
        (.byte (by decide) (by decide) .nil))))

/-- The second half of the first text is translated a second time, and the second text is split
    inside of the escape sequence for a blank. -/
theorem tagMoveHref_damages :
    ((tagMoveHref (hrefSample "hello a".toList) (some 1) []).map fun st' =>
        ((st'.r.man.node 1).string, (st'.r.man.node 2).string)) =
      .ok (some "hello".toList, some "b".toList) ∧
    ((tagMoveHref (hrefSample "abcd\\ efg".toList) (some 1) []).map fun st' =>
        ((st'.r.man.node 1).string, (st'.r.man.node 2).string)) =
      .ok (some "abcd\\".toList, some "efg".toList) ∧
    ¬ ∀ (st : HrefState Unit) (n : Nat) (s tag : CStr), TextNode st n s →
      ∃ st', tagMoveHref st (some n) tag = .ok st' ∧ TextPreserved st st' n s := by
  have hrun : ((tagMoveHref (hrefSample "hello a".toList) (some 1) []).map fun st' =>
        ((st'.r.man.node 1).string, (st'.r.man.node 2).string)) =
      .ok (some "hello".toList, some "b".toList) := by decide +kernel
  refine ⟨hrun, by decide +kernel, ?_⟩
  intro h
  obtain ⟨st', hok, hpres⟩ := h _ 1 _ [] (hrefSample_textNode (show NUL ∉ "hello a".toList by decide))
  rw [hok] at hrun
  obtain ⟨hfirst, hsecond⟩ := Prod.mk.inj (Except.ok.inj hrun)
  rcases hpres with ⟨-, hsame⟩ | ⟨s₁, s₂, -, -, hs₁, hs₂, hjoin, -⟩
  · exact absurd (hfirst.symm.trans hsame) (by decide)
  · obtain rfl := Option.some.inj (hfirst.symm.trans hs₁)
    obtain rfl := Option.some.inj (hsecond.symm.trans hs₂)
    exact absurd hjoin (by decide)

end Mandoc
