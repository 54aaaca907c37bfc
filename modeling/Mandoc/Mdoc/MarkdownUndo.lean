import Mandoc.Html.MakeId
import Mandoc.Mdoc.Markdown

/-!
# Undoing Markdown Escapes

What a Markdown processor displays for the text that `md_word()` prints. A backslash and a
punctuation character denote that character, and a character reference denotes what its name or
its number says. The table of all names is a parameter.

- `mdUndo` interprets backslashes and character references.
- `replaceRefs` interprets the character references only.
- `mdUndo_mdPrinted`: the former, on what is printed for a text, agrees with the latter, on the
  text itself.
- `mdWord_reversible_iff` says which texts come back unchanged.
-/

namespace Mandoc

/-! ## §1 Character references -/

/-- `ispunct()` in the C locale. -/
def ispunct (c : Char) : Bool := '!' ≤ c && c ≤ '~' && !isalnum c

/-- A character inside a character reference. -/
def isRefChar (c : Char) : Bool := isalnum c || c = '#'

/-- The character with a code point. -/
def codepointChar (n : Nat) : Char := if 0 < n ∧ n.isValidChar then Char.ofNat n else '\uFFFD'

/-- What a character reference denotes, given the names and the text between the ampersand and the
    semicolon. -/
def refValue (names : CStr → Option CStr) (body : CStr) : Option CStr :=
  if charAt body 0 = '#' then
    if toupper (charAt body 1) = 'X' then
      let ds := body.drop 2
      if ds ≠ [] ∧ ds.all isxdigit then some [codepointChar (digitsVal 16 ds)] else none
    else
      let ds := body.drop 1
      if ds ≠ [] ∧ ds.all isdigit then some [codepointChar (digitsVal 10 ds)] else none
  else names body

/-- The character reference behind an ampersand, and its length up to the semicolon. -/
def charRef (names : CStr → Option CStr) (s : CStr) : Option (CStr × Nat) :=
  let body := s.takeWhile isRefChar
  if charAt s body.length = ';' then (refValue names body).map fun v => (v, body.length + 1)
  else none

/-- The table of the names of characters: it contains the names that `md_word()` uses, and no name
    is shorter than what it denotes. -/
structure NamedRefs (names : CStr → Option CStr) : Prop where
  lt : names "lt".toList = some ['<']
  gt : names "gt".toList = some ['>']
  equals : names "equals".toList = some ['=']
  nbsp : names "nbsp".toList = some ['\u00A0']
  zwnj : names "zwnj".toList = some []
  length_le : ∀ name v, names name = some v → v.length ≤ name.length

/-! ## §2 Interpreting text -/

section

variable (names : CStr → Option CStr)

/-- Interpret backslashes and character references. The number says how many characters belong to
    what was already interpreted. -/
def mdUndo : Nat → CStr → CStr
  | _, [] => []
  | k + 1, _ :: s => mdUndo k s
  | 0, c :: s =>
    if c = '\\' ∧ ispunct (charAt s 0) then charAt s 0 :: mdUndo 1 s
    else if c = '&' then
      match charRef names s with
      | some (v, k) => v ++ mdUndo k s
      | none => c :: mdUndo 0 s
    else c :: mdUndo 0 s

/-- Interpret character references only. -/
def replaceRefs : Nat → CStr → CStr
  | _, [] => []
  | k + 1, _ :: s => replaceRefs k s
  | 0, c :: s =>
    if c = '&' then
      match charRef names s with
      | some (v, k) => v ++ replaceRefs k s
      | none => c :: replaceRefs 0 s
    else c :: replaceRefs 0 s

/-- There is a character reference in the text. -/
def ContainsRef (t : CStr) : Prop := ∃ a b, t = a ++ '&' :: b ∧ charRef names b ≠ none

end

/-- What is displayed for a character of a text: the special hyphen is an ordinary one, the
    non-breaking blank is U+00A0, and the place for a break is dropped. -/
def displayed (c : Char) : CStr :=
  if c = ASCII_NBRSP then ['\u00A0']
  else if c = ASCII_HYPH then ['-']
  else if c = ASCII_BREAK then []
  else [c]

/-- What is displayed for a text. -/
def plainText (s : CStr) : CStr := s.flatMap displayed

section

variable {names : CStr → Option CStr}

theorem mdUndo_append (v : CStr) (t : CStr) : mdUndo names v.length (v ++ t) = mdUndo names 0 t := by
  induction v with
  | nil => rfl
  | cons c v ih =>
    rw [List.length_cons, List.cons_append, mdUndo]
    exact ih

theorem replaceRefs_append (v : CStr) (t : CStr) :
    replaceRefs names v.length (v ++ t) = replaceRefs names 0 t := by
  induction v with
  | nil => rfl
  | cons c v ih =>
    rw [List.length_cons, List.cons_append, replaceRefs]
    exact ih

/-- The text in a character reference, and what comes after it. -/
theorem charRef_append {w t : CStr} (hw : w.all isRefChar) (ht : isRefChar (charAt t 0) = false) :
    charRef names (w ++ t) =
      if charAt t 0 = ';' then (refValue names w).map fun v => (v, w.length + 1) else none := by
  have htake : (w ++ t).takeWhile isRefChar = w := by
    rw [List.takeWhile_append_of_pos (List.all_eq_true.mp hw)]
    cases t with
    | nil => rw [List.takeWhile_nil, List.append_nil]
    | cons c t => rw [List.takeWhile_cons_of_neg (by rw [← charAt_cons_zero c t, ht]; decide),
        List.append_nil]
  have hat : charAt (w ++ t) w.length = charAt t 0 := by
    have hdrop := charAt_drop (w ++ t) w.length 0
    rw [List.drop_left] at hdrop
    exact hdrop.symm
  unfold charRef
  rw [htake]
  dsimp only
  rw [hat]

/-! ## §3 Texts without character references -/

theorem refValue_length {body v : CStr} (hnames : NamedRefs names)
    (h : refValue names body = some v) : v.length ≤ body.length := by
  have hdrop : ∀ {k : Nat}, body.drop k ≠ [] → 1 ≤ body.length := by
    intro k hne
    refine Nat.one_le_iff_ne_zero.mpr fun hzero => hne ?_
    rw [List.eq_nil_of_length_eq_zero hzero, List.drop_nil]
  unfold refValue at h
  dsimp only at h
  split_ifs at h with _ _ hhex hdec
  · cases h
    exact hdrop hhex.1
  · cases h
    exact hdrop hdec.1
  · exact hnames.length_le _ _ h

theorem charRef_length {s v : CStr} {k : Nat} (hnames : NamedRefs names)
    (h : charRef names s = some (v, k)) : v.length < k ∧ k ≤ s.length := by
  unfold charRef at h
  dsimp only at h
  split at h
  · next hsemi =>
    obtain ⟨v', hv, heq⟩ := Option.map_eq_some_iff.mp h
    cases heq
    have hle := refValue_length hnames hv
    exact ⟨Nat.lt_succ_of_le hle, lt_length_of_charAt_ne_nul (by rw [hsemi]; decide)⟩
  · cases h

/-- Text does not get longer. -/
theorem replaceRefs_length (hnames : NamedRefs names) (t : CStr) (k : Nat) :
    (replaceRefs names k t).length ≤ t.length - k := by
  induction t generalizing k with
  | nil => cases k <;> exact Nat.zero_le _
  | cons c t ih =>
    cases k with
    | succ k =>
      rw [replaceRefs, List.length_cons, Nat.add_sub_add_right]
      exact ih k
    | zero =>
      unfold replaceRefs
      split
      · split
        · next v k hv =>
          obtain ⟨hlt, hle⟩ := charRef_length hnames hv
          have hrest := ih k
          rw [List.length_append, List.length_cons]
          omega
        · exact Nat.succ_le_succ (ih 0)
      · exact Nat.succ_le_succ (ih 0)

theorem containsRef_cons {c : Char} {t : CStr} :
    ContainsRef names (c :: t) ↔ (c = '&' ∧ charRef names t ≠ none) ∨ ContainsRef names t := by
  constructor
  · rintro ⟨a, b, heq, href⟩
    cases a with
    | nil =>
      cases heq
      exact .inl ⟨rfl, href⟩
    | cons d a =>
      injection heq with _ heq
      exact .inr ⟨a, b, heq, href⟩
  · rintro (⟨rfl, href⟩ | ⟨a, b, rfl, href⟩)
    · exact ⟨[], t, rfl, href⟩
    · exact ⟨c :: a, b, rfl, href⟩

/-- Text changes if and only if it contains a character reference: each one is longer than what it
    denotes. -/
theorem replaceRefs_eq_self_iff (hnames : NamedRefs names) (t : CStr) :
    replaceRefs names 0 t = t ↔ ¬ ContainsRef names t := by
  induction t with
  | nil => exact iff_of_true rfl fun ⟨a, _, heq, _⟩ => by cases a <;> cases heq
  | cons c t ih =>
    rw [containsRef_cons, not_or]
    unfold replaceRefs
    split
    · next hamp =>
      split
      · next v k hv =>
        refine iff_of_false (fun heq => ?_) fun h => h.1 ⟨hamp, by rw [hv]; exact nofun⟩
        obtain ⟨hlt, hle⟩ := charRef_length hnames hv
        have hlen := congrArg List.length heq
        have hrest := replaceRefs_length hnames t k
        rw [List.length_append, List.length_cons] at hlen
        omega
      · next hnone =>
        rw [List.cons.injEq, ih]
        exact ⟨fun h => ⟨fun h' => h'.2 hnone, h.2⟩, fun h => ⟨rfl, h.2⟩⟩
    · next hamp =>
      rw [List.cons.injEq, ih]
      exact ⟨fun h => ⟨fun h' => hamp h'.1, h.2⟩, fun h => ⟨rfl, h.2⟩⟩

/-! ## §4 One character -/

/-- What is printed denotes a character, whatever follows. -/
inductive MdDenotes (names : CStr → Option CStr) : CStr → Char → Prop where
  /-- An ordinary character denotes itself. -/
  | self {d : Char} : d ≠ '\\' → d ≠ '&' → MdDenotes names [d] d
  /-- A backslash and a punctuation character. -/
  | escaped {d : Char} : ispunct d → MdDenotes names ['\\', d] d
  /-- A named character reference. -/
  | named {d : Char} {name : CStr} :
      name.all isRefChar → refValue names name = some [d] → MdDenotes names ('&' :: name ++ [';']) d

theorem MdDenotes.undo {p t : CStr} {d : Char} (h : MdDenotes names p d) :
    mdUndo names 0 (p ++ t) = d :: mdUndo names 0 t := by
  cases h with
  | self hbs hamp =>
    rw [List.singleton_append, mdUndo, if_neg fun h => hbs h.1, if_neg hamp]
  | escaped hpunct =>
    rw [List.cons_append, List.singleton_append, mdUndo, charAt_cons_zero, if_pos ⟨rfl, hpunct⟩,
      mdUndo]
  | named hname hval =>
    rename_i name
    have href : charRef names (name ++ ';' :: t) = some ([d], name.length + 1) := by
      rw [charRef_append hname (by rfl), charAt_cons_zero, if_pos rfl, hval]
      rfl
    have hskip : mdUndo names (name.length + 1) (name ++ ';' :: t) = mdUndo names 0 t := by
      have happ := @mdUndo_append names (name ++ [';']) t
      rwa [List.length_append, List.append_assoc] at happ
    have happ : '&' :: name ++ [';'] ++ t = '&' :: (name ++ ';' :: t) := by
      rw [List.append_assoc, List.cons_append]
      rfl
    rw [happ, mdUndo, if_neg fun h => absurd h.1 (by decide), if_pos rfl, href]
    exact congrArg (d :: ·) hskip

/-! ## §5 What is printed denotes what was given -/

variable {f : EscFlags} {c d : Char}

theorem mdChar_out (md : Md) (hnul : d ≠ NUL) : (mdChar md d).out = md.out ++ [d] := by
  unfold mdChar
  rw [if_neg hnul]
  rfl

/-- A character after a backslash, or without it. -/
theorem MdDenotes.backslash {md : Md} (hout : md.out = []) (hpunct : ispunct d)
    (hbs : d ≠ '\\') (hamp : d ≠ '&') (bs : Bool) :
    MdDenotes names (mdChar (backslashIf md bs) d).out d := by
  have hnul : d ≠ NUL := fun h => by rw [h] at hpunct; exact absurd hpunct (by decide)
  rw [mdChar_out _ hnul]
  unfold backslashIf
  split
  · rw [putchar, hout]
    exact .escaped hpunct
  · rw [hout]
    exact .self hbs hamp

/-- A named character reference in place of the character, or the character. -/
theorem MdDenotes.reference {name : String}
    (hname : name.toList.all isRefChar ∧ charAt name.toList 0 ≠ '#')
    (hval : names name.toList = some [d]) (b : Bool)
    (hself : b = false → d = c ∧ c ≠ NUL ∧ c ≠ '\\' ∧ c ≠ '&') :
    MdDenotes names (namedIf { escflags := f } b name c).out d := by
  cases b with
  | true => exact .named hname.1 ((if_neg hname.2).trans hval)
  | false =>
    obtain ⟨rfl, hnul, hbs, hamp⟩ := hself rfl
    rw [namedIf, if_neg fun h => absurd h.1 (by decide), mdChar_out _ hnul]
    exact .self hbs hamp

/-- What `md_word()` prints for a character denotes what is displayed for the character. -/
theorem printed_denotes (hnames : NamedRefs names) (hbreak : c ≠ ASCII_BREAK) (hnul : c ≠ NUL)
    (hbs : c ≠ '\\') (hamp : c ≠ '&') :
    ∃ d, displayed c = [d] ∧ MdDenotes names (printed f c) d := by
  have hordinary : c ≠ ASCII_NBRSP → c ≠ ASCII_HYPH → displayed c = [c] := fun h h' => by
    rw [displayed, if_neg h, if_neg h', if_neg hbreak]
  have hpunct : ∀ {d : Char}, ispunct d → c = d → ispunct c := fun h heq => heq ▸ h
  unfold printed plainChar
  -- The characters for which a name or a plain hyphen is printed.
  by_cases hsp : c = ASCII_NBRSP
  · rw [if_pos hsp, hsp]
    exact ⟨_, rfl, .reference (by decide) hnames.nbsp true nofun⟩
  rw [if_neg hsp]
  by_cases hhyph : c = ASCII_HYPH
  · rw [if_pos hhyph, hhyph]
    exact ⟨'-', rfl, .backslash rfl (by decide) (by decide) (by decide) _⟩
  refine ⟨c, hordinary hsp hhyph, ?_⟩
  rw [if_neg hhyph, if_neg hbreak]
  -- Characters with a backslash in front of them, some of them only in certain places.
  by_cases h : c = '#' ∨ c = '+' ∨ c = '-'
  · rw [if_pos h]
    refine .backslash rfl ?_ hbs hamp _
    rcases h with h | h | h
    · exact hpunct (by decide) h
    · exact hpunct (by decide) h
    · exact hpunct (by decide) h
  rw [if_neg h]
  by_cases h : c = '('
  · rw [if_pos h]
    exact .backslash rfl (hpunct (by decide) h) hbs hamp _
  rw [if_neg h]
  by_cases h : c = ')'
  · rw [if_pos h]
    exact .backslash rfl (hpunct (by decide) h) hbs hamp _
  rw [if_neg h]
  by_cases h : c = '*' ∨ c = '[' ∨ c = '_' ∨ c = '`'
  · rw [if_pos h]
    refine .backslash rfl ?_ hbs hamp _
    rcases h with h | h | h | h
    · exact hpunct (by decide) h
    · exact hpunct (by decide) h
    · exact hpunct (by decide) h
    · exact hpunct (by decide) h
  rw [if_neg h]
  by_cases h : c = '.'
  · rw [if_pos h]
    exact .backslash rfl (hpunct (by decide) h) hbs hamp _
  rw [if_neg h]
  -- Comparison signs are printed as references.
  by_cases h : c = '<'
  · rw [if_pos h, h]
    exact .reference (by decide) hnames.lt true nofun
  rw [if_neg h]
  by_cases h : c = '='
  · rw [if_pos h, h]
    exact .reference (by decide) hnames.equals _ fun _ => by decide
  rw [if_neg h]
  by_cases h : c = '>'
  · rw [if_pos h, h]
    exact .reference (by decide) hnames.gt true nofun
  rw [if_neg h]
  by_cases h : c = ']'
  · rw [if_pos h]
    exact .backslash rfl (hpunct (by decide) h) hbs hamp _
  -- Any other character stands for itself.
  rw [if_neg h, mdChar_out _ hnul]
  exact .self hbs hamp

/-! ## §6 The text behind an ampersand -/

/-- The current position is behind the beginning of a line. -/
def Md.Behind (md : Md) : Prop := md.escflags.bol = false

section

variable {md : Md}

theorem Md.Behind.mdChar (h : md.Behind) : (mdChar md d).Behind := by
  unfold Mandoc.mdChar EscFlags.char Md.Behind
  dsimp only
  split_ifs <;> first | exact h | rfl

theorem Md.Behind.backslashIf (h : md.Behind) (bs : Bool) : (backslashIf md bs).Behind := by
  unfold Mandoc.backslashIf
  split
  · exact h
  · exact h

theorem Md.Behind.namedIf (h : md.Behind) (b : Bool) (name : String) :
    (namedIf md b name d).Behind := by
  unfold Mandoc.namedIf
  split
  · have hnamed : (mdNamed md name).Behind := h
    exact mdChar hnamed
  · exact mdChar h

theorem Md.Behind.plainChar (h : md.Behind) : (plainChar md c).Behind := by
  have hset : (setHyp md).Behind := h
  unfold Mandoc.plainChar
  repeat' refine iteInduction (fun _ => ?_) fun _ => ?_
  all_goals
    first
      | exact mdChar (backslashIf h _)
      | exact namedIf h _ _
      | exact mdChar (backslashIf hset _)
      | exact mdChar h
      | exact h

end

theorem flagsAfter_bol (hbol : f.bol = false) : (flagsAfter f c).bol = false :=
  (show Md.Behind { escflags := f } from hbol).plainChar

/-- The characters that `md_word()` treats specially. -/
def mdSpecial : List Char :=
  [ASCII_NBRSP, ASCII_HYPH, ASCII_BREAK, '#', '+', '-', '(', ')', '*', '[', '_', '`', '.', '<', '=',
    '>', ']']

theorem printed_ordinary (h : c ∉ mdSpecial) (hnul : c ≠ NUL) : printed f c = [c] := by
  simp only [mdSpecial, List.mem_cons, List.not_mem_nil, or_false, not_or] at h
  obtain ⟨h1, h2, h3, h4, h5, h6, h7, h8, h9, h10, h11, h12, h13, h14, h15, h16, h17⟩ := h
  have hline : ¬ (c = '#' ∨ c = '+' ∨ c = '-') := by
    rintro (h | h | h)
    · exact h4 h
    · exact h5 h
    · exact h6 h
  have hspan : ¬ (c = '*' ∨ c = '[' ∨ c = '_' ∨ c = '`') := by
    rintro (h | h | h | h)
    · exact h9 h
    · exact h10 h
    · exact h11 h
    · exact h12 h
  rw [printed, plainChar, if_neg h1, if_neg h2, if_neg h3, if_neg hline, if_neg h7, if_neg h8,
    if_neg hspan, if_neg h13, if_neg h14, if_neg h15, if_neg h16, if_neg h17, mdChar_out _ hnul]
  rfl

/-- The characters in a character reference are printed and displayed as they are. -/
theorem printed_refChar (hbol : f.bol = false) (hc : isRefChar c) :
    printed f c = [c] ∧ displayed c = [c] := by
  have hne : ∀ {d : Char}, isRefChar d = false → c ≠ d := by
    rintro d hd rfl
    rw [hc] at hd
    cases hd
  refine ⟨?_, ?_⟩
  · by_cases hash : c = '#'
    · subst hash
      show (mdChar (backslashIf { escflags := f } f.bol) '#').out = ['#']
      rw [hbol, mdChar_out _ (by decide)]
      rfl
    · refine printed_ordinary (fun hmem => ?_) (hne (by decide))
      have hall : (mdSpecial.all fun d => d = '#' || !isRefChar d) = true := by decide
      obtain h | h := (Bool.or_eq_true _ _).mp (List.all_eq_true.mp hall c hmem)
      · exact hash (of_decide_eq_true h)
      · rw [hc] at h
        cases h
  · rw [displayed, if_neg (hne (by decide)), if_neg (hne (by decide)), if_neg (hne (by decide))]

/-- A text and what is printed for it begin with the same characters of a character reference. -/
theorem mdPrinted_word (hbol : f.bol = false) (s : CStr) :
    ∃ w f' s', s'.length ≤ s.length ∧ f'.bol = false ∧ w.all isRefChar ∧
      mdPrinted f s = w ++ mdPrinted f' s' ∧ plainText s = w ++ plainText s' ∧ s' ⊆ s ∧
      ∀ c t, s' = c :: t → c ≠ ASCII_BREAK ∧ isRefChar c = false := by
  induction s generalizing f with
  | nil => exact ⟨[], f, [], Nat.le_refl 0, hbol, rfl, rfl, rfl, fun _ h => h, nofun⟩
  | cons c s ih =>
    by_cases hbreak : c = ASCII_BREAK
    · obtain ⟨w, f', s', hle, hbol', hw, hprint, hplain, hsub, hhead⟩ := ih hbol
      refine ⟨w, f', s', hle.trans (Nat.le_succ _), hbol', hw, ?_, ?_,
        fun _ h => List.mem_cons_of_mem c (hsub h), hhead⟩
      · rw [hbreak, ← hprint]
        rfl
      · rw [hbreak, ← hplain]
        rfl
    cases hc : isRefChar c with
    | true =>
      obtain ⟨w, f', s', hle, hbol', hw, hprint, hplain, hsub, hhead⟩ :=
        ih (flagsAfter_bol (c := c) hbol)
      obtain ⟨hprinted, hdisplayed⟩ := printed_refChar hbol hc
      refine ⟨c :: w, f', s', hle.trans (Nat.le_succ _), hbol', ?_, ?_, ?_,
        fun _ h => List.mem_cons_of_mem c (hsub h), hhead⟩
      · rw [List.all_cons, hc, hw]
        rfl
      · rw [mdPrinted, hprinted, hprint]
        rfl
      · rw [plainText, List.flatMap_cons, hdisplayed, ← plainText, hplain]
        rfl
    | false =>
      refine ⟨[], f, c :: s, Nat.le_refl _, hbol, rfl, rfl, rfl, fun _ h => h, ?_⟩
      intro d t heq
      cases heq
      exact ⟨hbreak, hc⟩

/-- Only two characters are displayed differently. -/
theorem displayed_eq (h : displayed c = [d]) : d = c ∨ d = '-' ∨ d = '\u00A0' := by
  unfold displayed at h
  split_ifs at h
  · cases h
    exact .inr (.inr rfl)
  · cases h
    exact .inr (.inl rfl)
  · cases h
    exact .inl rfl

/-- Neither what is printed nor what is displayed for another character continues a character
    reference, or ends it. -/
theorem printed_head (hnames : NamedRefs names) (t t' : CStr) (hbreak : c ≠ ASCII_BREAK)
    (hnul : c ≠ NUL) (hbs : c ≠ '\\') (hc : isRefChar c = false) (hsemi : c ≠ ';') :
    (isRefChar (charAt (printed f c ++ t) 0) = false ∧ charAt (printed f c ++ t) 0 ≠ ';') ∧
      isRefChar (charAt (displayed c ++ t') 0) = false ∧ charAt (displayed c ++ t') 0 ≠ ';' := by
  by_cases hamp : c = '&'
  · subst hamp
    rw [printed_ordinary (by decide +kernel) (by decide)]
    exact ⟨⟨by rfl, (show '&' ≠ ';' by decide)⟩, by rfl, (show '&' ≠ ';' by decide)⟩
  obtain ⟨d, hd, hden⟩ := printed_denotes (f := f) hnames hbreak hnul hbs hamp
  have hdisp : isRefChar d = false ∧ d ≠ ';' := by
    obtain rfl | rfl | rfl := displayed_eq hd
    · exact ⟨hc, hsemi⟩
    · decide
    · decide
  rw [hd]
  refine ⟨?_, hdisp⟩
  generalize printed f c = p at hden
  cases hden with
  | self _ _ => exact hdisp
  | escaped _ => exact ⟨by rfl, (show '\\' ≠ ';' by decide)⟩
  | named _ _ => exact ⟨by rfl, (show '&' ≠ ';' by decide)⟩

/-- The same character reference begins a text and what is printed for it. What is printed for the
    rest of the text follows. -/
theorem charRef_mdPrinted (hnames : NamedRefs names) (hbol : f.bol = false) {s : CStr}
    (hesc : '\\' ∉ s) (hnul : NUL ∉ s) :
    charRef names (mdPrinted f s) = charRef names (plainText s) ∧
      ∀ v k, charRef names (plainText s) = some (v, k) → ∃ f' s', s'.length < s.length ∧ s' ⊆ s ∧
        mdUndo names k (mdPrinted f s) = mdUndo names 0 (mdPrinted f' s') ∧
        replaceRefs names k (plainText s) = replaceRefs names 0 (plainText s') := by
  obtain ⟨w, f', s', hle, hbol', hw, hprint, hplain, hsub, hhead⟩ := mdPrinted_word hbol s
  rw [hprint, hplain]
  -- The name of a reference is printed as is; what matters is the character that follows it.
  cases s' with
  | nil =>
    have hnone : charRef names (w ++ []) = none := by
      rw [charRef_append hw (by rfl)]
      rfl
    exact ⟨rfl, fun v k h => by rw [plainText, List.flatMap_nil, hnone] at h; cases h⟩
  | cons c s' =>
    obtain ⟨hbreak, hc⟩ := hhead c s' rfl
    have hmem : c ∈ s := hsub (List.mem_cons_self ..)
    -- A semicolon is printed as is and ends the reference in both texts.
    by_cases hsemi : c = ';'
    · subst hsemi
      have hend : mdPrinted f' (';' :: s') = ';' :: mdPrinted (flagsAfter f' ';') s' := by
        rw [mdPrinted, printed_ordinary (by decide +kernel) (by decide)]
        rfl
      have hend' : plainText (';' :: s') = ';' :: plainText s' := rfl
      have happ : ∀ t : CStr, w ++ ';' :: t = (w ++ [';']) ++ t := fun t => by
        rw [List.append_assoc, List.singleton_append]
      have hlen : w.length + 1 = (w ++ [';']).length := by
        rw [List.length_append, List.length_singleton]
      rw [hend, hend', charRef_append hw (by rfl), charRef_append hw (by rfl), charAt_cons_zero,
        charAt_cons_zero, if_pos rfl]
      refine ⟨rfl, fun v k h => ?_⟩
      obtain ⟨v', -, heq⟩ := Option.map_eq_some_iff.mp h
      cases heq
      refine ⟨flagsAfter f' ';', s', hle, fun _ h => hsub (List.mem_cons_of_mem _ h), ?_, ?_⟩
      · rw [happ, hlen, mdUndo_append]
      · rw [happ, hlen, replaceRefs_append]
    · -- Any other character does not end a reference in either text.
      obtain ⟨⟨href, hne⟩, href', hne'⟩ := printed_head (f := f') hnames
        (mdPrinted (flagsAfter f' c) s') (plainText s') hbreak
        (fun h => hnul (h ▸ hmem)) (fun h => hesc (h ▸ hmem)) hc hsemi
      have hcons : plainText (c :: s') = displayed c ++ plainText s' := List.flatMap_cons ..
      rw [mdPrinted, hcons, charRef_append hw href, charRef_append hw href', if_neg hne, if_neg hne']
      refine ⟨rfl, fun v k h => ?_⟩
      cases h

/-! ## §7 Whole texts -/

/-- Undoing the escapes in what `md_word()` prints means to interpret the character references that
    are in the text itself. -/
theorem mdUndo_mdPrinted (hnames : NamedRefs names) (f : EscFlags) {s : CStr} (hesc : '\\' ∉ s)
    (hnul : NUL ∉ s) : mdUndo names 0 (mdPrinted f s) = replaceRefs names 0 (plainText s) := by
  -- By induction on the length, because a character reference takes several characters.
  induction hn : s.length using Nat.strong_induction_on generalizing s f with
  | _ n ih =>
  cases s with
  | nil => rfl
  | cons c s =>
    rw [List.mem_cons, not_or] at hesc hnul
    have hrest : ∀ f, mdUndo names 0 (mdPrinted f s) = replaceRefs names 0 (plainText s) :=
      fun f => ih s.length (hn ▸ Nat.lt_succ_self _) f hesc.2 hnul.2 rfl
    by_cases hbreak : c = ASCII_BREAK
    · rw [hbreak]
      exact hrest f
    -- An ampersand is printed as is, so it may start a character reference.
    by_cases hamp : c = '&'
    · subst hamp
      have hprint : mdPrinted f ('&' :: s) = '&' :: mdPrinted (flagsAfter f '&') s := by
        rw [mdPrinted, printed_ordinary (by decide +kernel) (by decide)]
        rfl
      have hplain : plainText ('&' :: s) = '&' :: plainText s := rfl
      obtain ⟨hsame, hskip⟩ :=
        charRef_mdPrinted (f := flagsAfter f '&') hnames (by rfl) hesc.2 hnul.2
      rw [hprint, hplain, mdUndo, if_neg fun h => absurd h.1 (by decide), if_pos rfl, hsame,
        replaceRefs, if_pos rfl]
      cases href : charRef names (plainText s) with
      | none => exact congrArg _ (hrest _)
      | some r =>
        obtain ⟨f', s', hlt, hsub, hundo, hreplace⟩ := hskip r.1 r.2 href
        dsimp only
        rw [hundo, hreplace]
        refine congrArg _ (ih s'.length ?_ _ ?_ ?_ rfl)
        · rw [← hn]
          exact Nat.lt_succ_of_lt hlt
        · exact fun h => hesc.2 (hsub h)
        · exact fun h => hnul.2 (hsub h)
    · -- Any other character is read back as itself.
      obtain ⟨d, hd, hden⟩ :=
        printed_denotes (f := f) hnames hbreak (Ne.symm hnul.1) (Ne.symm hesc.1) hamp
      have hplain : plainText (c :: s) = d :: plainText s := by
        rw [plainText, List.flatMap_cons, hd]
        rfl
      have hne : d ≠ '&' := by
        obtain rfl | rfl | rfl := displayed_eq hd
        · exact hamp
        · decide
        · decide
      rw [mdPrinted, hden.undo, hplain, replaceRefs, if_neg hne, hrest]

/-- The whole output of `md_word()` for a text without escape sequences, outside code blocks: behind
    the spacing, undoing the escapes gives back the text if and only if there is no character
    reference in it. -/
theorem mdWord_reversible_iff (hnames : NamedRefs names) {md : Md} (hcode : md.codeBlocks = 0)
    {s : CStr} (hesc : '\\' ∉ s) (hnul : NUL ∉ s) :
    ∃ md' out, mdWord s md = .ok md' ∧ md'.out = (mdPreword (beforeWord s md)).out ++ out ∧
      (mdUndo names 0 out = plainText s ↔ ¬ ContainsRef names (plainText s)) := by
  obtain ⟨md', hrun, hout⟩ := mdWord_plain hesc hnul hcode
  refine ⟨md', _, hrun, hout, ?_⟩
  rw [mdUndo_mdPrinted hnames _ hesc hnul]
  exact replaceRefs_eq_self_iff hnames (plainText s)

end

/-- The names that `md_word()` and `md_preword()` use. -/
def ownNames : List (String × CStr) :=
  [("lt", ['<']), ("gt", ['>']), ("equals", ['=']), ("nbsp", ['\u00A0']), ("zwnj", [])]

/-- The table of these names. -/
def ownRefs (name : CStr) : Option CStr :=
  (ownNames.find? fun entry => entry.1.toList = name).map Prod.snd

theorem ownRefs_namedRefs : NamedRefs ownRefs where
  lt := by decide
  gt := by decide
  equals := by decide
  nbsp := by decide
  zwnj := by decide
  length_le name v h := by
    obtain ⟨entry, hfind, rfl⟩ := Option.map_eq_some_iff.mp h
    have hname : entry.1.toList = name := by simpa using List.find?_some hfind
    have hall : ∀ entry ∈ ownNames, entry.2.length ≤ entry.1.toList.length := by decide
    exact hname ▸ hall entry (List.mem_of_find?_eq_some hfind)

/-- A text with an ampersand, but without a character reference. -/
theorem mdWord_reversible_ampersand :
    ∃ md' out, mdWord "<R&D>".toList {} = .ok md' ∧ md'.out = out ∧
      mdUndo ownRefs 0 out = "<R&D>".toList := by
  have hcode : ({} : Md).codeBlocks = 0 := rfl
  obtain ⟨md', out, hrun, hout, hiff⟩ := mdWord_reversible_iff ownRefs_namedRefs hcode
    (s := "<R&D>".toList) (by decide) (by decide)
  refine ⟨md', out, hrun, hout, hiff.mpr ?_⟩
  rw [← replaceRefs_eq_self_iff ownRefs_namedRefs]
  decide +kernel

/-- The ampersand is not escaped: text that looks like a character reference is displayed as the
    character. -/
theorem mdWord_reversible_false :
    ¬ ∀ names, NamedRefs names → ∀ (md : Md) (s : CStr), md.codeBlocks = 0 → '\\' ∉ s → NUL ∉ s →
      ∃ md' out, mdWord s md = .ok md' ∧ md'.out = (mdPreword (beforeWord s md)).out ++ out ∧
        mdUndo names 0 out = plainText s := by
  intro h
  obtain ⟨md', out, hrun, hout, hundo⟩ :=
    h ownRefs ownRefs_namedRefs {} "&lt;".toList rfl (by decide) (by decide)
  have hprint : (mdWord "&lt;".toList {}).map Md.out = .ok "&lt;".toList := by decide +kernel
  rw [hrun, Except.map, hout] at hprint
  obtain rfl : out = "&lt;".toList := Except.ok.inj hprint
  exact absurd hundo (by decide +kernel)

end Mandoc
