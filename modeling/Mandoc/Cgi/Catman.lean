import Mandoc.CString
import Mandoc.Lib.Markup

/-!
# Preformatted Pages

The function `resp_catman()` of `man.cgi` converts the lines of a preformatted page to HTML. A
character that is printed over an underscore becomes italic, a character that is printed over
another one becomes bold, and some pairs of characters stand for symbols.

The main result, `respCatmanLine_shows_iff`, says that a line shows what it should exactly if it
does not contain one of five pairs for the symbol `+`: the comparisons for these pairs look at
the backspace rather than at the byte behind it.
-/

namespace Mandoc

open Markup

/-! ## §1 The function -/

/-- `html_putchar()` -/
def htmlPutchar (c : Char) : CStr :=
  if c = '"' then "&quot;".toList
  else if c = '&' then "&amp;".toList
  else if c = '>' then "&gt;".toList
  else if c = '<' then "&lt;".toList
  else [c]

/-- Close out any bold or italic scopes. -/
def closeScopes (italic bold : Bool) : CStr :=
  (if italic then "</i>".toList else []) ++ (if bold then "</b>".toList else [])

/-- The pairs of `p[i]` and `p[i + 2]` for a bullet. -/
def catmanStars : List (Char × Char) :=
  [('+', 'o'), ('o', '+'), ('|', '='), ('=', '|'), ('*', '='), ('=', '*'), ('*', '|'), ('|', '*')]

/-- The bytes `p[i]` and `p[i + 1]` in the comparisons for a plus sign, except for the first one. -/
def catmanPluses : List (Char × Char) := [('-', '|'), ('+', '-'), ('-', '+'), ('+', '|'), ('|', '+')]

/-- The loop over the bytes of a line, and what follows it. The last argument is the line from the
    index `i` on, such that `i < len - 1` if it has at least two bytes. -/
def respCatmanLoop : Bool → Bool → CStr → CStr
  | italic, bold, [] => closeScopes italic bold ++ ['\n']
  | italic, bold, [c] =>
    closeScopes italic bold ++ (if c ≠ '\n' then htmlPutchar c else []) ++ ['\n']
  | italic, bold, c :: c1 :: p =>
    -- The catpage is out of state.
    if c = '\x08' ∨ c = '\n' then respCatmanLoop italic bold (c1 :: p)
    else if c1 ≠ '\x08' then
      closeScopes italic bold ++ htmlPutchar c ++ respCatmanLoop false false (c1 :: p)
    else
      match p with
      | [] => respCatmanLoop italic bold [c1]
      | c2 :: p =>
        if c = '_' then
          (if bold then "</b>".toList else []) ++ (if italic = false then "<i>".toList else []) ++
            htmlPutchar c2 ++ respCatmanLoop true false p
        else if (c, c2) ∈ catmanStars then
          closeScopes italic bold ++ ['*'] ++ respCatmanLoop false false p
        else if (c, c2) = ('|', '-') ∨ (c, c1) ∈ catmanPluses then
          closeScopes italic bold ++ ['+'] ++ respCatmanLoop false false p
        else
          (if italic then "</i>".toList else []) ++ (if bold = false then "<b>".toList else []) ++
            htmlPutchar c2 ++ respCatmanLoop false true p

/-- What `resp_catman()` prints for a line, which `getline()` returned. -/
def respCatmanLine (p : CStr) : CStr := respCatmanLoop false false p

/-! ## §2 Lines -/

/-- A character on a page. -/
structure CatChar where
  val : Char
  visible : ¬ (val = '\x08' ∨ val = '\n')

/-- A plain character, or two characters one over the other. -/
inductive CatGlyph where
  | plain (c : CatChar)
  | pair (x y : CatChar)

/-- The bytes of a glyph. -/
def CatGlyph.bytes : CatGlyph → CStr
  | .plain c => [c.val]
  | .pair x y => [x.val, '\x08', y.val]

/-- A line. The last line of a file may lack the newline. -/
def catLine (glyphs : List CatGlyph) (newline : Bool) : CStr :=
  glyphs.flatMap CatGlyph.bytes ++ (if newline then ['\n'] else [])

/-- The pairs for a symbol, in both orders. -/
def SymbolPair (pairs : List (Char × Char)) (x y : Char) : Prop := (x, y) ∈ pairs ∨ (y, x) ∈ pairs

instance (pairs : List (Char × Char)) (x y : Char) : Decidable (SymbolPair pairs x y) :=
  inferInstanceAs (Decidable (_ ∨ _))

/-- What a glyph should show. -/
def CatGlyph.shown : CatGlyph → Shown
  | .plain c => (c.val, [])
  | .pair x y =>
    if SymbolPair [('+', 'o'), ('|', '='), ('*', '='), ('*', '|')] x.val y.val then ('*', [])
    else if SymbolPair [('|', '-'), ('+', '-'), ('+', '|')] x.val y.val then ('+', [])
    else (y.val, [if x.val = '_' then ['i'] else ['b']])

/-- All elements are closed and properly nested, and the glyphs show what they should. -/
def ShowsGlyphs (glyphs : List CatGlyph) (html : CStr) : Prop :=
  shows [] html = some (glyphs.map CatGlyph.shown ++ [('\n', [])])

/-! ## §3 What is shown -/

/-- What the function shows for a glyph. -/
def CatGlyph.converted : CatGlyph → Shown
  | .plain c => (c.val, [])
  | .pair x y =>
    if x.val = '_' then (y.val, [['i']])
    else if (x.val, y.val) ∈ catmanStars then ('*', [])
    else if (x.val, y.val) = ('|', '-') then ('+', [])
    else (y.val, [['b']])

/-- The element that is open. -/
def openScopes (italic bold : Bool) : List (List Char) :=
  (if italic then [['i']] else []) ++ (if bold then [['b']] else [])

section

variable (stack : List (List Char)) (s : CStr)

/-- A character is shown as it is. -/
theorem shows_htmlPutchar (c : Char) :
    shows stack (htmlPutchar c ++ s) = (shows stack s).map ((c, stack) :: ·) := by
  unfold htmlPutchar
  split
  · rename_i h
    subst h
    exact shows_entity stack s rfl
  · split
    · rename_i h
      subst h
      exact shows_entity stack s rfl
    · rename_i hamp
      split
      · rename_i h
        subst h
        exact shows_entity stack s rfl
      · split
        · rename_i h
          subst h
          exact shows_entity stack s rfl
        · rename_i hlt
          exact shows_char stack s hlt hamp

/-- Closing the element that is open. -/
theorem shows_closeScopes {italic bold : Bool} (h : italic = false ∨ bold = false) :
    shows (openScopes italic bold) (closeScopes italic bold ++ s) = shows [] s := by
  cases italic with
  | false =>
    cases bold with
    | false => rfl
    | true => exact shows_close [] s rfl
  | true =>
    obtain rfl := h.resolve_left (Bool.noConfusion ·)
    exact shows_close [] s rfl

/-- Opening an italic scope. -/
theorem shows_italic {italic bold : Bool} (h : italic = false ∨ bold = false) :
    shows (openScopes italic bold) ((if bold then "</b>".toList else []) ++
      (if italic = false then "<i>".toList else []) ++ s) = shows [['i']] s := by
  cases italic with
  | false =>
    cases bold with
    | false => exact shows_open [] s rfl
    | true =>
      have hclose : shows [['b']] ("</b>".toList ++ ("<i>".toList ++ s)) = shows [] ("<i>".toList ++ s) :=
        shows_close [] _ rfl
      exact hclose.trans (shows_open [] s rfl)
  | true =>
    obtain rfl := h.resolve_left (Bool.noConfusion ·)
    rfl

/-- Opening a bold scope. -/
theorem shows_bold {italic bold : Bool} (h : italic = false ∨ bold = false) :
    shows (openScopes italic bold) ((if italic then "</i>".toList else []) ++
      (if bold = false then "<b>".toList else []) ++ s) = shows [['b']] s := by
  cases italic with
  | false =>
    cases bold with
    | false => exact shows_open [] s rfl
    | true => rfl
  | true =>
    obtain rfl := h.resolve_left (Bool.noConfusion ·)
    have hclose : shows [['i']] ("</i>".toList ++ ("<b>".toList ++ s)) = shows [] ("<b>".toList ++ s) :=
      shows_close [] _ rfl
    exact hclose.trans (shows_open [] s rfl)

end

/-- A line does not begin with a backspace. -/
theorem head_catLine (glyphs : List CatGlyph) (newline : Bool) :
    ∀ c ∈ (catLine glyphs newline).head?, c ≠ '\x08' := by
  intro c hc
  cases glyphs with
  | nil =>
    cases newline with
    | false => cases hc
    | true =>
      obtain rfl := Option.some.inj hc
      decide
  | cons g glyphs =>
    cases g with
    | plain d => exact Option.some.inj hc ▸ (not_or.mp d.visible).1
    | pair x y => exact Option.some.inj hc ▸ (not_or.mp x.visible).1

/-- An iteration for a plain character. -/
theorem respCatmanLoop_plain (italic bold : Bool) (c : CatChar) {p : CStr}
    (hp : ∀ c ∈ p.head?, c ≠ '\x08') : respCatmanLoop italic bold (c.val :: p) =
      closeScopes italic bold ++ htmlPutchar c.val ++ respCatmanLoop false false p := by
  cases p with
  | nil =>
    have hloop : respCatmanLoop italic bold [c.val] = closeScopes italic bold ++
        (if c.val ≠ '\n' then htmlPutchar c.val else []) ++ ['\n'] := by rw [respCatmanLoop]
    rw [hloop, if_pos (not_or.mp c.visible).2]
    rfl
  | cons c1 p =>
    rw [respCatmanLoop.eq_def]
    exact (if_neg c.visible).trans (if_pos (hp c1 rfl))

theorem backspace_notMem (c : Char) : (c, '\x08') ∉ catmanPluses := by
  simp [catmanPluses]

/-- An iteration for a pair. -/
theorem respCatmanLoop_pair (italic bold : Bool) (x y : CatChar) (p : CStr) :
    respCatmanLoop italic bold (x.val :: '\x08' :: y.val :: p) =
      if x.val = '_' then
        (if bold then "</b>".toList else []) ++ (if italic = false then "<i>".toList else []) ++
          htmlPutchar y.val ++ respCatmanLoop true false p
      else if (x.val, y.val) ∈ catmanStars then
        closeScopes italic bold ++ ['*'] ++ respCatmanLoop false false p
      else if (x.val, y.val) = ('|', '-') ∨ (x.val, '\x08') ∈ catmanPluses then
        closeScopes italic bold ++ ['+'] ++ respCatmanLoop false false p
      else
        (if italic then "</i>".toList else []) ++ (if bold = false then "<b>".toList else []) ++
          htmlPutchar y.val ++ respCatmanLoop false true p := by
  rw [respCatmanLoop.eq_def]
  exact (if_neg x.visible).trans (if_neg (not_not.mpr rfl))

/-- What an iteration for a pair shows. -/
theorem shows_respCatmanLoop_pair {italic bold : Bool} (h : italic = false ∨ bold = false)
    (x y : CatChar) (p : CStr) : ∃ italic' bold', (italic' = false ∨ bold' = false) ∧
      shows (openScopes italic bold) (respCatmanLoop italic bold (x.val :: '\x08' :: y.val :: p)) =
        (shows (openScopes italic' bold') (respCatmanLoop italic' bold' p)).map
          ((CatGlyph.pair x y).converted :: ·) := by
  rw [respCatmanLoop_pair, CatGlyph.converted]
  by_cases hunderscore : x.val = '_'
  · refine ⟨true, false, .inr rfl, ?_⟩
    rw [if_pos hunderscore, if_pos hunderscore, List.append_assoc, shows_italic _ h,
      shows_htmlPutchar]
    rfl
  · rw [if_neg hunderscore, if_neg hunderscore]
    by_cases hstar : (x.val, y.val) ∈ catmanStars
    · refine ⟨false, false, .inl rfl, ?_⟩
      rw [if_pos hstar, if_pos hstar, List.append_assoc, shows_closeScopes _ h,
        List.singleton_append, shows_char _ _ (by decide) (by decide)]
      rfl
    · rw [if_neg hstar, if_neg hstar]
      by_cases hplus : (x.val, y.val) = ('|', '-')
      · refine ⟨false, false, .inl rfl, ?_⟩
        rw [if_pos (.inl hplus), if_pos hplus, List.append_assoc, shows_closeScopes _ h,
          List.singleton_append, shows_char _ _ (by decide) (by decide)]
        rfl
      · refine ⟨false, true, .inl rfl, ?_⟩
        rw [if_neg (not_or.mpr ⟨hplus, backspace_notMem x.val⟩), if_neg hplus, List.append_assoc,
          shows_bold _ h, shows_htmlPutchar]
        rfl

/-- What is shown for a line: every element is closed, they are properly nested, and there is
    one character for each glyph. -/
theorem shows_respCatmanLoop (glyphs : List CatGlyph) (newline : Bool) {italic bold : Bool}
    (h : italic = false ∨ bold = false) :
    shows (openScopes italic bold) (respCatmanLoop italic bold (catLine glyphs newline)) =
      some (glyphs.map CatGlyph.converted ++ [('\n', [])]) := by
  induction glyphs generalizing italic bold with
  -- At the end of the line, the fonts are closed.
  | nil =>
    cases newline with
    | false => exact (shows_closeScopes ['\n'] h).trans rfl
    | true =>
      rw [catLine, List.flatMap_nil, if_pos rfl, List.nil_append, respCatmanLoop, if_neg (by simp),
        List.append_nil, shows_closeScopes _ h]
      rfl
  | cons g glyphs ih =>
    have hline : catLine (g :: glyphs) newline = g.bytes ++ catLine glyphs newline := by
      rw [catLine, List.flatMap_cons, List.append_assoc, catLine]
    rw [hline, List.map_cons, List.cons_append]
    -- A plain character closes them as well; an overstruck one may change them.
    cases g with
    | plain c =>
      have hrest := @ih false false (.inl rfl)
      rw [CatGlyph.bytes, List.singleton_append,
        respCatmanLoop_plain italic bold c (head_catLine glyphs newline), List.append_assoc,
        shows_closeScopes _ h, shows_htmlPutchar]
      rw [openScopes] at hrest
      exact (congrArg _ hrest).trans rfl
    | pair x y =>
      obtain ⟨italic', bold', h', hpair⟩ :=
        shows_respCatmanLoop_pair h x y (catLine glyphs newline)
      refine hpair.trans ?_
      rw [ih h']
      rfl

/-! ## §4 Which lines are converted as they should be -/

/-- The pairs for a plus sign that are not recognized. -/
def CatGlyph.Missed : CatGlyph → Prop
  | .plain _ => False
  | .pair x y => (x.val, y.val) ∈ catmanPluses

theorem mem_catmanStars_iff (a b : Char) :
    (a, b) ∈ catmanStars ↔ SymbolPair [('+', 'o'), ('|', '='), ('*', '='), ('*', '|')] a b := by
  simp only [catmanStars, SymbolPair, List.mem_cons, Prod.mk.injEq, List.not_mem_nil, or_false]
  tauto

theorem symbolPair_plus_iff (a b : Char) : SymbolPair [('|', '-'), ('+', '-'), ('+', '|')] a b ↔
    (a, b) = ('|', '-') ∨ (a, b) ∈ catmanPluses := by
  simp only [catmanPluses, SymbolPair, List.mem_cons, Prod.mk.injEq, List.not_mem_nil, or_false]
  tauto

theorem underscore_notMem (b : Char) :
    ('_', b) ∉ catmanStars ∧ ¬ (('_', b) = ('|', '-') ∨ ('_', b) ∈ catmanPluses) := by
  simp [catmanStars, catmanPluses]

theorem star_notMem_pluses {pair : Char × Char} (h : pair ∈ catmanStars) : pair ∉ catmanPluses := by
  have hall : (catmanStars.all fun pair => !catmanPluses.contains pair) = true := by decide
  simpa using List.all_eq_true.mp hall pair h

/-- The other glyphs are converted as they should be. -/
theorem converted_eq_shown_iff (g : CatGlyph) : g.converted = g.shown ↔ ¬ g.Missed := by
  cases g with
  | plain c => exact iff_of_true rfl id
  | pair x y =>
    simp only [CatGlyph.converted, CatGlyph.shown, CatGlyph.Missed, ← mem_catmanStars_iff,
      symbolPair_plus_iff]
    by_cases hunderscore : x.val = '_'
    · obtain ⟨hstar, hplus⟩ := underscore_notMem y.val
      rw [hunderscore, if_pos rfl, if_neg hstar, if_neg hplus, if_pos rfl]
      exact iff_of_true rfl (not_or.mp hplus).2
    · rw [if_neg hunderscore, if_neg hunderscore]
      by_cases hstar : (x.val, y.val) ∈ catmanStars
      · rw [if_pos hstar, if_pos hstar]
        exact iff_of_true rfl (star_notMem_pluses hstar)
      · rw [if_neg hstar, if_neg hstar]
        by_cases hbar : (x.val, y.val) = ('|', '-')
        · rw [if_pos hbar, if_pos (.inl hbar), hbar]
          exact iff_of_true rfl (by decide)
        · rw [if_neg hbar]
          by_cases hmissed : (x.val, y.val) ∈ catmanPluses
          · rw [if_pos (.inr hmissed)]
            refine iff_of_false (fun heq => ?_) (not_not.mpr hmissed)
            exact List.cons_ne_nil _ _ (congrArg Prod.snd heq)
          · rw [if_neg (not_or.mpr ⟨hbar, hmissed⟩)]
            exact iff_of_true rfl hmissed

/-- **Conversion.** A line is converted as it should be exactly if no pair is missed. -/
theorem respCatmanLine_shows_iff (glyphs : List CatGlyph) (newline : Bool) :
    ShowsGlyphs glyphs (respCatmanLine (catLine glyphs newline)) ↔ ∀ g ∈ glyphs, ¬ g.Missed := by
  have hshows := @shows_respCatmanLoop glyphs newline false false (.inl rfl)
  rw [ShowsGlyphs, respCatmanLine, show shows [] = shows (openScopes false false) from rfl, hshows]
  simp only [Option.some.injEq, List.append_cancel_right_eq, List.map_inj_left,
    converted_eq_shown_iff]

/-- A plus sign over a minus sign becomes a bold minus sign. -/
theorem respCatmanLine_missed : respCatmanLine "+\x08-\n".toList = "<b>-</b>\n".toList ∧
    ¬ ShowsGlyphs [.pair ⟨'+', by decide⟩ ⟨'-', by decide⟩] (respCatmanLine "+\x08-\n".toList) := by
  have hline : respCatmanLine "+\x08-\n".toList = "<b>-</b>\n".toList := by decide
  refine ⟨hline, ?_⟩
  rw [hline, ShowsGlyphs]
  decide

end Mandoc
