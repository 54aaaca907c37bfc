import Mandoc.Roff.Node

/-!
# The Text of a Syntax Tree

The function `deroff()` collects the text below a node. It is used for the names of manual
pages and sections and for the descriptions in the database.

What the text is supposed to be is defined here for each text node on its own: `deroffWord`
removes blanks and one backslash from both ends, and the words that remain are joined by
blanks. The function does this for the first word, but it appends each of the other words
with everything that follows it. The main result, `deroff_eq_iff`, says for which trees that
makes no difference.
-/

namespace Mandoc

/-! ## §1 Trees -/

/-- A syntax tree, as the formatters see it: a node, the name of the tag attached to it, and the
    list of its children. -/
inductive SynTree where
  | node (n : RoffNode) (tag : Option CStr) (children : List SynTree)

namespace SynTree

/-- The data of the root. -/
def root : SynTree → RoffNode
  | node n _ _ => n

/-- The tag of the root. -/
def tag : SynTree → Option CStr
  | node _ tag _ => tag

/-- The children of the root. -/
def children : SynTree → List SynTree
  | node _ _ cs => cs

mutual

/-- The strings of the text nodes, in the order of the document. -/
def texts : SynTree → List CStr
  | node n _ cs =>
    match n.string with
    | none => textsList cs
    | some s => [s]

/-- The strings of the text nodes in a list of trees. -/
def textsList : List SynTree → List CStr
  | [] => []
  | t :: ts => t.texts ++ textsList ts

end

end SynTree

/-! ## §2 The function -/

/-- Skip leading white space, and escape sequences that represent blanks. -/
def skipLeading : CStr → CStr
  | [] => []
  | [c] => if isspace c then [] else [c]
  | c :: d :: s =>
    if c = '\\' ∧ d ≠ NUL ∧ strchr " %&0^|~" d then skipLeading s
    else if isspace c then skipLeading (d :: s)
    else c :: d :: s

/-- The length without a trailing backslash and without trailing white space. -/
def trimmedLength (cp : CStr) : Nat :=
  let cp := if cp.getLast? = some '\\' then cp.dropLast else cp
  (cp.rdropWhile isspace).length

/-- The conversion `%*s`: a string, padded to a minimal field width. -/
def fieldWidth (width : Nat) (s : CStr) : CStr := List.replicate (width - s.length) ' ' ++ s

/-- The case of `deroff()` where the node has a string. -/
def deroffText (dest : Option CStr) (string : CStr) : Option CStr :=
  let cp := skipLeading string
  let sz := trimmedLength cp
  -- Skip empty strings.
  if sz = 0 then dest
  else
    match dest with
    | none => some (cp.take sz)
    | some dest => some (dest ++ ' ' :: fieldWidth sz cp)

mutual

/-- `deroff()` -/
def deroff (dest : Option CStr) : SynTree → Option CStr
  | .node n _ cs =>
    match n.string with
    | none => deroffList dest cs
    | some s => deroffText dest s

/-- The loop of `deroff()` over the children. -/
def deroffList (dest : Option CStr) : List SynTree → Option CStr
  | [] => dest
  | t :: ts => deroffList (deroff dest t) ts

end

mutual

/-- Only the strings matter. -/
theorem deroff_eq_foldl (dest : Option CStr) :
    (t : SynTree) → deroff dest t = t.texts.foldl deroffText dest
  | .node n tag cs => by
    rw [deroff, SynTree.texts]
    cases n.string with
    | none => exact deroffList_eq_foldl dest cs
    | some s => rfl

theorem deroffList_eq_foldl (dest : Option CStr) :
    (ts : List SynTree) → deroffList dest ts = (SynTree.textsList ts).foldl deroffText dest
  | [] => rfl
  | t :: ts => by
    rw [deroffList, SynTree.textsList, List.foldl_append, ← deroff_eq_foldl dest t]
    exact deroffList_eq_foldl _ ts

end

/-! ## §3 Words -/

/-- A blank or an escape sequence that represents a blank. -/
inductive Blank : CStr → Prop where
  | space (c : Char) (h : isspace c) : Blank [c]
  | escape (d : Char) (h : d ∈ " %&0^|~".toList) : Blank ['\\', d]

/-- The word in the string of a text node: without leading blanks and escaped blanks, without
    one trailing backslash, and without trailing white space. -/
def deroffWord (string : CStr) : CStr :=
  let cp := skipLeading string
  (if cp.getLast? = some '\\' then cp.dropLast else cp).rdropWhile isspace

/-- The words of a tree that are not empty. -/
def treeWords (t : SynTree) : List CStr := (t.texts.map deroffWord).filter (· ≠ [])

/-- Words joined by exactly one blank, if there are any. -/
def joined : List CStr → Option CStr
  | [] => none
  | w :: ws => some (w ++ (ws.map (' ' :: ·)).flatten)

/-- The part that is skipped consists of blanks, and the rest does not start with one. -/
theorem skipLeading_spec (s : CStr) (hs : NUL ∉ s) :
    (∃ bs : List CStr, (∀ b ∈ bs, Blank b) ∧ s = bs.flatten ++ skipLeading s) ∧
      ∀ b t, Blank b → skipLeading s ≠ b ++ t := by
  -- The cases are the branches of the loop.
  fun_induction skipLeading s with
  | case1 =>
    refine ⟨⟨[], by simp, rfl⟩, fun b t hb => ?_⟩
    cases hb <;> simp
  | case2 c hc =>
    refine ⟨⟨[[c]], by simpa using Blank.space c hc, rfl⟩, fun b t hb => ?_⟩
    cases hb <;> simp
  | case3 c hc =>
    refine ⟨⟨[], by simp, rfl⟩, fun b t hb => ?_⟩
    cases hb with
    | space d hd => simpa using fun heq : c = d => absurd (heq ▸ hd) hc
    | escape d hd => simp
  | case4 c d s hesc ih =>
    -- One of the blank escape sequences is skipped.
    obtain ⟨rfl, hd, hmem⟩ := hesc
    obtain ⟨⟨bs, hbs, hflat⟩, hstop⟩ := ih fun h => hs (by simp [h])
    have hset : d ∈ " %&0^|~".toList := by simpa [strchr, hd] using hmem
    refine ⟨⟨['\\', d] :: bs, ?_, by rw [List.flatten_cons, List.append_assoc, ← hflat]; rfl⟩, hstop⟩
    intro b hb
    cases List.mem_cons.mp hb with
    | inl heq => exact heq ▸ Blank.escape d hset
    | inr hmem => exact hbs b hmem
  | case5 c d s hesc hc ih =>
    obtain ⟨⟨bs, hbs, hflat⟩, hstop⟩ := ih fun h => hs (List.mem_cons_of_mem _ h)
    refine ⟨⟨[c] :: bs, ?_, by rw [List.flatten_cons, List.append_assoc, ← hflat]; rfl⟩, hstop⟩
    intro b hb
    cases List.mem_cons.mp hb with
    | inl heq => exact heq ▸ Blank.space c hc
    | inr hmem => exact hbs b hmem
  | case6 c d s hesc hc =>
    refine ⟨⟨[], by simp, rfl⟩, fun b t hb heq => ?_⟩
    -- Neither a blank nor a blank escape sequence stands at the start.
    cases hb with
    | space e he =>
      obtain ⟨rfl, -⟩ := List.cons.inj heq
      exact hc he
    | escape e he =>
      obtain ⟨rfl, htail⟩ := List.cons.inj heq
      obtain ⟨rfl, -⟩ := List.cons.inj htail
      exact hesc ⟨rfl, fun h => hs (by simp [h]), by simpa [strchr] using Or.inr he⟩

/-- The rest is a final part of the string. -/
theorem skipLeading_suffix (s : CStr) : skipLeading s <:+ s := by
  fun_induction skipLeading s with
  | case1 => exact List.suffix_rfl
  | case2 c hc => exact List.nil_suffix
  | case3 c hc => exact List.suffix_rfl
  | case4 c d s hesc ih => exact ih.trans ⟨[c, d], rfl⟩
  | case5 c d s hesc hc ih => exact ih.trans (List.suffix_cons c (d :: s))
  | case6 c d s hesc hc => exact List.suffix_rfl

theorem deroffWord_isPrefix (s : CStr) : deroffWord s <+: skipLeading s := by
  refine (List.rdropWhile_prefix isspace _).trans ?_
  split
  · exact List.dropLast_prefix _
  · exact List.prefix_rfl

/-- The case of a string, in terms of its word: the first word is trimmed, the others are not. -/
theorem deroffText_eq (dest : Option CStr) (s : CStr) :
    deroffText dest s =
      if deroffWord s = [] then dest
      else some (dest.elim (deroffWord s) (· ++ ' ' :: skipLeading s)) := by
  have hlen : trimmedLength (skipLeading s) = (deroffWord s).length := rfl
  have hpre := deroffWord_isPrefix s
  unfold deroffText
  dsimp only
  rw [hlen]
  by_cases hnil : deroffWord s = []
  · rw [if_pos (by rw [hnil]; rfl), if_pos hnil]
  · rw [if_neg (by simpa using hnil), if_neg hnil]
    cases dest with
    | none => rw [← List.prefix_iff_eq_take.mp hpre]; rfl
    | some dest =>
      have hwidth : fieldWidth (deroffWord s).length (skipLeading s) = skipLeading s := by
        rw [fieldWidth, Nat.sub_eq_zero_of_le hpre.length_le]
        rfl
      rw [hwidth]
      rfl

/-- The strings with a word that is not empty. -/
def significant (ss : List CStr) : List CStr := ss.filter (deroffWord · ≠ [])

theorem significant_cons (s : CStr) (ss : List CStr) :
    significant (s :: ss) =
      if deroffWord s = [] then significant ss else s :: significant ss := by
  rw [significant, List.filter_cons]
  by_cases hnil : deroffWord s = []
  · rw [if_neg (by simp [hnil]), if_pos hnil]
    rfl
  · rw [if_pos (by simp [hnil]), if_neg hnil]
    rfl

/-- What is appended to a text. -/
theorem foldl_deroffText_some (dest : CStr) (ss : List CStr) :
    ss.foldl deroffText (some dest) =
      some (dest ++ ((significant ss).map (' ' :: skipLeading ·)).flatten) := by
  induction ss generalizing dest with
  | nil => simp [significant]
  | cons s ss ih =>
    rw [List.foldl_cons, deroffText_eq]
    by_cases hnil : deroffWord s = []
    · rw [if_pos hnil, ih, significant_cons, if_pos hnil]
    · rw [if_neg hnil, Option.elim_some, ih, significant_cons, if_neg hnil]
      simp

/-- What the function makes of the significant strings. -/
def collected : List CStr → Option CStr
  | [] => none
  | s :: ss => some (deroffWord s ++ (ss.map (' ' :: skipLeading ·)).flatten)

/-- The text collected from some strings. -/
theorem foldl_deroffText_none (ss : List CStr) :
    ss.foldl deroffText none = collected (significant ss) := by
  induction ss with
  | nil => rfl
  | cons s ss ih =>
    rw [List.foldl_cons, deroffText_eq]
    by_cases hnil : deroffWord s = []
    · rw [if_pos hnil, ih, significant_cons, if_pos hnil]
    · rw [if_neg hnil, Option.elim_none, foldl_deroffText_some, significant_cons, if_neg hnil]
      rfl

/-! ## §4 Strings that need no trimming at the end -/

/-- The string ends neither in a backslash nor in white space. -/
def EndsClean (s : CStr) : Prop := ∀ c ∈ s.getLast?, c ≠ '\\' ∧ isspace c = false

instance (s : CStr) : Decidable (EndsClean s) :=
  decidable_of_iff (s.getLast?.all fun c => c ≠ '\\' && isspace c = false) (by
    unfold EndsClean
    cases s.getLast? <;> simp)

/-- Nothing is removed at the end of such a string, but something is from all others. -/
theorem skipLeading_eq_deroffWord_iff {s : CStr} (hne : deroffWord s ≠ []) :
    skipLeading s = deroffWord s ↔ EndsClean s := by
  have hword : deroffWord s = (if (skipLeading s).getLast? = some '\\' then
    (skipLeading s).dropLast else skipLeading s).rdropWhile isspace := rfl
  have hlast : s.getLast? = (skipLeading s).getLast? := by
    have hrest : skipLeading s ≠ [] := fun h => hne (by rw [hword, h]; rfl)
    obtain ⟨l, hl⟩ := skipLeading_suffix s
    conv_lhs => rw [← hl, List.getLast?_append_of_ne_nil _ hrest]
  rw [EndsClean, hlast]
  generalize skipLeading s = cp at hword ⊢
  rw [hword] at hne ⊢
  by_cases hbackslash : cp.getLast? = some '\\'
  · -- A backslash is removed.
    refine iff_of_false ?_ fun h => (h '\\' hbackslash).1 rfl
    rw [if_pos hbackslash]
    intro heq
    have hlen := (List.rdropWhile_prefix isspace cp.dropLast).length_le
    rw [← heq, List.length_dropLast] at hlen
    have hpos : cp ≠ [] := by
      rintro rfl
      simp at hbackslash
    have := List.length_pos_iff.mpr hpos
    omega
  · rw [if_neg hbackslash, eq_comm, List.rdropWhile_eq_self_iff]
    constructor
    · intro h c hc
      obtain ⟨hcp, rfl⟩ := List.mem_getLast?_eq_getLast hc
      refine ⟨fun heq => hbackslash ?_, by simpa using h hcp⟩
      rw [← heq]
      exact hc
    · intro h hcp
      have := (h _ (List.getLast_mem_getLast? hcp)).2
      simpa using this

/-- The texts are equal if and only if no string needs trimming. -/
theorem flatten_eq_iff (ss : List CStr) :
    (ss.map (' ' :: skipLeading ·)).flatten = (ss.map fun s => ' ' :: deroffWord s).flatten ↔
      ∀ s ∈ ss, skipLeading s = deroffWord s := by
  -- The words are at most as long as the strings they come from.
  have hle : ∀ ss : List CStr, ((ss.map fun s => ' ' :: deroffWord s).flatten).length ≤
      ((ss.map (' ' :: skipLeading ·)).flatten).length := by
    intro ss
    induction ss with
    | nil => exact Nat.le_refl _
    | cons s ss ih =>
      have := (deroffWord_isPrefix s).length_le
      simp only [List.map_cons, List.flatten_cons, List.length_append, List.length_cons]
      omega
  constructor
  · intro heq
    induction ss with
    | nil => simp
    | cons s ss ih =>
      simp only [List.map_cons, List.flatten_cons, List.cons_append, List.cons.injEq,
        true_and] at heq
      -- So equal texts have equal words.
      have hlen := congrArg List.length heq
      simp only [List.length_append] at hlen
      have hpre := deroffWord_isPrefix s
      have hword : deroffWord s = skipLeading s := by
        apply hpre.eq_of_length
        have := hle ss
        have := hpre.length_le
        omega
      rw [hword, List.append_cancel_left_eq] at heq
      intro t ht
      cases List.mem_cons.mp ht with
      | inl h => rw [h, hword]
      | inr h => exact ih heq t h
  · intro h
    congr 1
    exact List.map_congr_left fun s hs => by rw [h s hs]

/-! ## §5 The main result -/

/-- **Text of a syntax tree.** Starting from nothing, the words of the text nodes are joined by
    blanks if and only if no string after the first significant one ends in a backslash or in
    white space. -/
theorem deroff_eq_iff (t : SynTree) :
    deroff none t = joined (treeWords t) ↔ ∀ s ∈ (significant t.texts).tail, EndsClean s := by
  have hwords : treeWords t = (significant t.texts).map deroffWord := by
    rw [treeWords, significant, List.filter_map]
    rfl
  have hsig : ∀ s ∈ significant t.texts, deroffWord s ≠ [] := fun s hs => by
    simpa using (List.mem_filter.mp hs).2
  rw [deroff_eq_foldl, foldl_deroffText_none, hwords]
  generalize significant t.texts = ss at hsig
  cases ss with
  | nil => simp [collected, joined]
  | cons s ss =>
    rw [List.map_cons, collected, joined, Option.some.injEq, List.append_cancel_left_eq,
      List.map_map]
    refine (flatten_eq_iff ss).trans ?_
    rw [List.tail_cons]
    exact forall₂_congr fun s' hs' =>
      skipLeading_eq_deroffWord_iff (hsig s' (List.mem_cons_of_mem _ hs'))

/-- A text node with a string. -/
def textNode (s : String) : SynTree :=
  .node { type := .TEXT, tok := .TOKEN_NONE, string := some s.toList } none []

/-- A blank at the end of the second word is not removed. -/
theorem deroff_trailing_blank : ¬ ∀ t : SynTree, deroff none t = joined (treeWords t) := by
  intro h
  have htree := h (.node { type := .HEAD } none [textNode "a", textNode "b "])
  exact absurd htree (by decide +kernel)

end Mandoc
