import Mandoc.Lib.Loop
import Mandoc.Roff.EscapeArgs
import Mandoc.Term.Glyphs

/-!
# Markdown Words

The functions of `mdoc_markdown.c` that print words. Characters that have a special meaning in
Markdown at the current place are preceded by a backslash or replaced by a named character
reference. A number of flags says which ones these are; `md_char()` maintains them.

- `mdWord` is the whole function, with escape sequences and fonts.
- `printed` is what it prints for one character outside code blocks, and `flagsAfter` is the change
  of the flags.
- `mdWord_plain` describes what is printed for text without escape sequences.
-/

namespace Mandoc

/-! ## §1 The static variables -/

/-- `outflags`, as far as it is used by the functions below. -/
structure OutFlags where
  /-- Blank character before next word. -/
  spc : Bool := false
  /-- Even before trailing punctuation. -/
  spcForce : Bool := false
  /-- Prevent linebreak in markdown code. -/
  nonl : Bool := false
  /-- Break markdown code line. -/
  nl : Bool := false
  /-- Insert an output line break. -/
  br : Bool := false
  /-- Insert a paragraph break. -/
  sp : Bool := false
  /-- Horizontal spacing mode. -/
  sm : Bool := false
  /-- Word keep mode. -/
  bk : Bool := false
deriving DecidableEq, Repr

/-- `escflags`: escape in generated markdown code. -/
structure EscFlags where
  /-- `#*+-` near the beginning of a line. -/
  bol : Bool := false
  /-- `.` after a leading number. -/
  num : Bool := false
  /-- `(` immediately after `]`. -/
  hyp : Bool := false
  /-- `]` when `[` is open. -/
  squ : Bool := false
  /-- `*` immediately after unrelated `*`. -/
  fon : Bool := false
  /-- A blank at the end of a line. -/
  eol : Bool := false
deriving DecidableEq, Repr

/-- The state of the formatter, and what it wrote to the standard output. -/
structure Md where
  outflags : OutFlags := {}
  escflags : EscFlags := {}
  codeBlocks : Nat := 0
  listBlocks : Nat := 0
  /-- `md_stack('\0')`: the markup at the beginning of each line. -/
  stack : CStr := []
  out : CStr := []
deriving DecidableEq, Repr

/-! ## §2 Characters -/

/-- `putchar(c)` -/
def putchar (md : Md) (c : Char) : Md := { md with out := md.out ++ [c] }

/-- `fputs(s, stdout)` -/
def fputs (md : Md) (s : CStr) : Md := { md with out := md.out ++ s }

/-- `md_named()`: print a single HTML named character reference. -/
def mdNamed (md : Md) (s : String) : Md :=
  let md := fputs md ('&' :: s.toList ++ [';'])
  { md with escflags := { md.escflags with fon := false, eol := false } }

/-- What `md_char()` does to the escape flags. -/
def EscFlags.char (f : EscFlags) (c : Char) : EscFlags :=
  let f := if c = NUL then f else { f with fon := c = '*' }
  let f := if c = ']' then f else { f with hyp := false }
  if c = ' ' ∨ c = '\t' ∨ c = '>' then f
  else { f with num := isdigit c && (f.num || f.bol), bol := false }

/-- `md_char()`: print a single raw character and maintain certain escape flags. -/
def mdChar (md : Md) (c : Char) : Md :=
  let md := if c = NUL then md else putchar md c
  { md with escflags := md.escflags.char c }

/-! ## §3 Spacing and raw words -/

/-- The markup at the beginning of a line, with a blank after each block quote. -/
def lineStart (stack : CStr) : CStr := stack.flatMap fun c => if c = '>' then [c, ' '] else [c]

/-- `md_preword()`: handle vertical and horizontal spacing. -/
def mdPreword (md : Md) : Md :=
  let md :=
    if 0 < md.listBlocks ∧ md.outflags.sp then
      { md with outflags := { md.outflags with sp := false, br := true } }
    else md
  -- End the old line if requested.
  let md :=
    if md.outflags.sp then putchar md '\n'
    else if md.outflags.br then fputs md "  ".toList
    else if md.outflags.nl ∧ md.escflags.eol then mdNamed md "zwnj"
    else md
  -- Start a new line if necessary.
  let md :=
    if md.outflags.nl ∨ md.outflags.br ∨ md.outflags.sp then
      { fputs (putchar md '\n') (lineStart md.stack) with
        outflags := { md.outflags with nl := false, br := false, sp := false }
        escflags := { bol := true } }
    else if md.outflags.spc then
      let md := if md.outflags.bk then fputs md "&nbsp;".toList else putchar md ' '
      { md with escflags := { md.escflags with fon := false } }
    else md
  { md with outflags := { md.outflags with spcForce := false, nonl := false, spc := md.outflags.sm } }

/-- One character of a raw word, with the character after it. -/
def rawChar (md : Md) (c next : Char) : Md :=
  let f := md.escflags
  let f :=
    if c = '*' then { f with fon := f.fon || next = NUL }
    else if c = '[' then { f with squ := true }
    else if c = ']' then { f with hyp := true, squ := false }
    else f
  mdChar { md with escflags := f } c

/-- The loop of `md_rawword()`. -/
def rawChars (md : Md) : CStr → Md
  | [] => md
  | c :: s => rawChars (rawChar md c (charAt s 0)) s

/-- `md_rawword()`: print markdown syntax elements. -/
def mdRawword (md : Md) (s : CStr) : Md :=
  let md := mdPreword md
  if s = [] then md
  else
    let md :=
      if md.escflags.fon then
        let md := { md with escflags := { md.escflags with fon := false } }
        if charAt s 0 = '*' ∧ md.codeBlocks = 0 then fputs md "&zwnj;".toList else md
      else md
    let md := rawChars md s
    { md with escflags := { md.escflags with eol := charAt s (s.length - 1) = ' ' } }

/-! ## §4 Words -/

/-- Print a backslash if the flag is set, except in code blocks. -/
def backslashIf (md : Md) (bs : Bool) : Md :=
  if bs ∧ md.codeBlocks = 0 then putchar md '\\' else md

/-- Print a named character reference instead of the character if the flag is set, except in code
    blocks. -/
def namedIf (md : Md) (b : Bool) (name : String) (c : Char) : Md :=
  if b ∧ md.codeBlocks = 0 then mdChar (mdNamed md name) NUL else mdChar md c

/-- `escflags |= ESC_HYP` -/
def setHyp (md : Md) : Md := { md with escflags := { md.escflags with hyp := true } }

/-- An iteration of the main loop of `md_word()` for a character that does not begin an escape
    sequence. -/
def plainChar (md : Md) (c : Char) : Md :=
  if c = ASCII_NBRSP then namedIf md true "nbsp" ' '
  else if c = ASCII_HYPH then mdChar (backslashIf md md.escflags.bol) '-'
  else if c = ASCII_BREAK then md
  else if c = '#' ∨ c = '+' ∨ c = '-' then mdChar (backslashIf md md.escflags.bol) c
  else if c = '(' then mdChar (backslashIf md md.escflags.hyp) c
  else if c = ')' then mdChar (backslashIf md md.escflags.num) c
  else if c = '*' ∨ c = '[' ∨ c = '_' ∨ c = '`' then mdChar (backslashIf md true) c
  else if c = '.' then mdChar (backslashIf md md.escflags.num) c
  else if c = '<' then namedIf md true "lt" c
  else if c = '=' then namedIf md md.escflags.bol "equals" c
  else if c = '>' then namedIf md true "gt" c
  else if c = ']' then mdChar (backslashIf (setHyp md) md.escflags.squ) c
  else mdChar md c

/-- The variables of the main loop of `md_word()`. -/
structure MdWordState where
  md : Md
  /-- Index of the next byte. -/
  s : Nat := 0
  prevfont : CStr := []
  currfont : CStr := []
  breakline : Bool := false
deriving DecidableEq, Repr

section

-- The string.
variable (s : CStr)

/-- The code point that an escape sequence stands for, or 0. -/
def escapeCodepoint (r : EscResult) : Res Int := do
  match r.rval with
  | .UNICODE => mcharsNum2uc (← readArg s (r.rarg + 1) r.rendarg)
  | .NUMBERED => return mcharsNum2char (← readArg s r.rarg r.rendarg)
  | .SPECIAL => return mcharsSpec2cp (← readArg s r.rarg r.rendarg)
  | .UNDEF => return signedByte (← rd s r.rarg)
  | _ => return 0

/-- `nextfont`: the font that an escape sequence selects. -/
def escapeFont (prevfont : CStr) : Esc → Option CStr
  | .FONTBOLD | .FONTCB => some "**".toList
  | .FONTITALIC | .FONTCI => some "*".toList
  | .FONTBI => some "***".toList
  | .FONT | .FONTCR | .FONTROMAN => some []
  | .FONTPREV => some prevfont
  | _ => none

/-- Print the markup for a font, if there is any. -/
def fontMarkup (md : Md) (font : CStr) : Md :=
  if font = [] then md
  else mdRawword { md with outflags := { md.outflags with spc := false } } font

/-- Select a font. -/
def selectFont (st : MdWordState) (nextfont : CStr) : MdWordState :=
  if st.md.codeBlocks = 0 then
    { st with
      md := fontMarkup (fontMarkup st.md st.currfont) nextfont
      prevfont := st.currfont
      currfont := nextfont }
  else st

/-- Print a character with a known code. -/
def printUc (md : Md) (uc : Int) : Md :=
  let uc := if (uc < 0x20 ∧ uc ≠ 0x09) ∨ (0x7E < uc ∧ uc < 0xA0) then 0xFFFD else uc
  let md :=
    if 0 < md.codeBlocks then fputs md (mcharsUc2str uc.toNat)
    else fputs md ("&#".toList ++ (toString uc.toNat).toList ++ [';'])
  { md with escflags := { md.escflags with fon := false } }

/-- What an escape sequence does before the line is broken. -/
def mdWordEscape (st : MdWordState) (r : EscResult) : Res MdWordState := do
  let uc ← escapeCodepoint s r
  let st := if r.rval = .BREAK then { st with breakline := true } else st
  let st := match escapeFont st.prevfont r.rval with
    | some nextfont => selectFont st nextfont
    | none => st
  let md := if uc ≠ 0 then printUc st.md uc else st.md
  return { st with md := mdChar md NUL, s := r.rend }

/-- A requested line break takes effect at the next blank, and at the end. -/
def breakWord (st : MdWordState) : MdWordState :=
  let isBlank := fun c => c = ' ' || c = ASCII_NBRSP
  if st.breakline ∧ (charAt s st.s = NUL ∨ isBlank (charAt s st.s)) then
    { st with
      md := fputs st.md "  \n".toList
      breakline := false
      s := skipWhile isBlank s st.s }
  else st

/-- The end of `md_word()`. -/
def endWord (st : MdWordState) : Md :=
  if st.currfont = [] then
    { st.md with escflags := { st.md.escflags with eol := charAt s (s.length - 1) = ' ' } }
  else fontMarkup st.md st.currfont

/-- An iteration of the main loop of `md_word()`. -/
def mdWordStep (st : MdWordState) : Res (Loop.Next MdWordState Md) := do
  let c ← rd s st.s
  if c = NUL then return .done (endWord s st)
  else if c = ASCII_BREAK then return .again { st with s := st.s + 1 }
  else if c = '\\' then
    let r ← mandocEscape s st.s
    if r.rval = .DEVICE then
      return .again { st with md := mdRawword st.md "markdown".toList, s := r.rend }
    else return .again (breakWord s (← mdWordEscape s st r))
  else return .again (breakWord s { st with md := plainChar st.md c, s := st.s + 1 })

/-- No spacing before closing delimiters. -/
def beforeWord (md : Md) : Md :=
  if s.length = 1 ∧ "!),.:;?]".toList.contains (charAt s 0) ∧ md.outflags.spcForce = false then
    { md with outflags := { md.outflags with spc := false } }
  else md

/-- `md_word()`: print text and mdoc(7) syntax elements. -/
def mdWord (md : Md) : Res Md :=
  let md := mdPreword (beforeWord s md)
  if s = [] then .ok md
  else
    -- No spacing after opening delimiters.
    let md :=
      if s.length = 1 ∧ (charAt s 0 = '(' ∨ charAt s 0 = '[') then
        { md with outflags := { md.outflags with spc := false } }
      else md
    Loop.run (mdWordStep s) .fuel (s.length + 1) { md }

end

/-! ## §5 Characters of plain text -/

/-- The output and the flags of the second state in place of those of a state that it extends. -/
def Md.onto (md d : Md) : Md := { md with out := md.out ++ d.out, escflags := d.escflags }

section

variable {md d : Md} {c : Char}

theorem Md.onto_putchar : putchar (md.onto d) c = md.onto (putchar d c) := by
  simp only [putchar, Md.onto, List.append_assoc]

theorem Md.onto_mdNamed {name : String} : mdNamed (md.onto d) name = md.onto (mdNamed d name) := by
  simp only [mdNamed, fputs, Md.onto, List.append_assoc]

theorem Md.onto_mdChar : mdChar (md.onto d) c = md.onto (mdChar d c) := by
  unfold mdChar
  split
  · rfl
  · rw [Md.onto_putchar]
    rfl

theorem Md.onto_backslashIf (hmd : md.codeBlocks = 0) (hd : d.codeBlocks = 0) {bs : Bool} :
    backslashIf (md.onto d) bs = md.onto (backslashIf d bs) := by
  have hcode : (md.onto d).codeBlocks = 0 := hmd
  unfold backslashIf
  rw [hcode, hd]
  split
  · exact Md.onto_putchar
  · rfl

theorem Md.onto_namedIf (hmd : md.codeBlocks = 0) (hd : d.codeBlocks = 0) {b : Bool}
    {name : String} : namedIf (md.onto d) b name c = md.onto (namedIf d b name c) := by
  have hcode : (md.onto d).codeBlocks = 0 := hmd
  unfold namedIf
  rw [hcode, hd]
  split
  · rw [Md.onto_mdNamed, Md.onto_mdChar]
  · exact Md.onto_mdChar

/-- What is printed for a character depends on the escape flags only. -/
theorem Md.onto_plainChar (hmd : md.codeBlocks = 0) (hd : d.codeBlocks = 0) :
    plainChar (md.onto d) c = md.onto (plainChar d c) := by
  have hflags : (md.onto d).escflags = d.escflags := rfl
  have hhyp : setHyp (md.onto d) = md.onto (setHyp d) := rfl
  have hset : (setHyp d).codeBlocks = 0 := hd
  unfold plainChar
  rw [hflags, hhyp]
  simp only [Md.onto_backslashIf hmd hd, Md.onto_backslashIf hmd hset, Md.onto_namedIf hmd hd,
    Md.onto_mdChar, ← apply_ite md.onto]

end

/-- What is printed for a character outside code blocks. -/
def printed (f : EscFlags) (c : Char) : CStr := (plainChar { escflags := f } c).out

/-- The escape flags behind a character outside code blocks. -/
def flagsAfter (f : EscFlags) (c : Char) : EscFlags := (plainChar { escflags := f } c).escflags

theorem plainChar_eq {md : Md} (hcode : md.codeBlocks = 0) (c : Char) :
    plainChar md c =
      { md with
        out := md.out ++ printed md.escflags c
        escflags := flagsAfter md.escflags c } := by
  have hself : md = md.onto { escflags := md.escflags } := by
    simp only [Md.onto, List.append_nil]
  conv_lhs => rw [hself]
  exact Md.onto_plainChar hcode rfl

/-- What is printed for text without escape sequences, outside code blocks. -/
def mdPrinted : EscFlags → CStr → CStr
  | _, [] => []
  | f, c :: s => printed f c ++ mdPrinted (flagsAfter f c) s

/-! ## §6 Words without escape sequences -/

/-- The main loop of `md_word()` on text without escape sequences. -/
theorem mdWordLoop_plain {s : CStr} (hesc : '\\' ∉ s) (hnul : NUL ∉ s) (n : Nat) {md : Md} {i : Nat}
    (hcode : md.codeBlocks = 0) (hi : i ≤ s.length) (hn : s.length - i < n) :
    ∃ md', Loop.run (mdWordStep s) .fuel n { md := md, s := i } = .ok md' ∧
      md'.out = md.out ++ mdPrinted md.escflags (s.drop i) := by
  -- By induction on the number of steps.
  induction n generalizing md i with
  | zero => exact absurd hn (Nat.not_lt_zero _)
  | succ n ih =>
    obtain heq | hlt := Nat.eq_or_lt_of_le hi
    · have hend : mdWordStep s { md := md, s := i } = .ok (.done (endWord s { md := md, s := i })) := by
        simp [mdWordStep, rd_of_le hi, charAt_of_ge (Nat.le_of_eq heq.symm)]
      refine ⟨endWord s { md := md, s := i }, ?_, ?_⟩
      · rw [Loop.run, hend]
      · rw [List.drop_of_length_le (Nat.le_of_eq heq.symm), mdPrinted, List.append_nil]
        rfl
    · have hmem : charAt s i ∈ s := by
        rw [charAt_eq_getElem hlt]
        exact List.getElem_mem hlt
      have hdrop : s.drop i = charAt s i :: s.drop (i + 1) := by
        rw [charAt_eq_getElem hlt]
        exact List.drop_eq_getElem_cons hlt
      have hne : charAt s i ≠ NUL := fun h => hnul (h ▸ hmem)
      have hbs : charAt s i ≠ '\\' := fun h => hesc (h ▸ hmem)
      -- A byte other than a backslash is printed on its own.
      have hstep : mdWordStep s { md := md, s := i } =
          .ok (.again { md := plainChar md (charAt s i), s := i + 1 }) := by
        simp only [mdWordStep, rd_of_le hi, Res.ok_bind, hne, hbs, if_false]
        split
        · next hbreak => rw [hbreak]; rfl
        · rfl
      have hcode' : (plainChar md (charAt s i)).codeBlocks = 0 := by
        rw [plainChar_eq hcode]
        exact hcode
      obtain ⟨md', hrun, hout⟩ := ih (i := i + 1) hcode' hlt (by omega)
      refine ⟨md', ?_, ?_⟩
      · rw [Loop.run, hstep]
        exact hrun
      · rw [hout, hdrop, plainChar_eq hcode, mdPrinted, List.append_assoc]

theorem mdPreword_codeBlocks (md : Md) : (mdPreword md).codeBlocks = md.codeBlocks := by
  unfold mdPreword
  dsimp only
  split_ifs <;> rfl

theorem beforeWord_codeBlocks (s : CStr) (md : Md) :
    (beforeWord s md).codeBlocks = md.codeBlocks := by
  unfold beforeWord
  split_ifs <;> rfl

/-- Text without escape sequences is printed character by character, behind the spacing. -/
theorem mdWord_plain {s : CStr} (hesc : '\\' ∉ s) (hnul : NUL ∉ s) {md : Md}
    (hcode : md.codeBlocks = 0) :
    ∃ md', mdWord s md = .ok md' ∧
      md'.out = (mdPreword (beforeWord s md)).out ++
        mdPrinted (mdPreword (beforeWord s md)).escflags s := by
  have hpre : (mdPreword (beforeWord s md)).codeBlocks = 0 := by
    rw [mdPreword_codeBlocks, beforeWord_codeBlocks, hcode]
  unfold mdWord
  dsimp only
  generalize mdPreword (beforeWord s md) = pre at hpre ⊢
  split
  · next hnil =>
    subst hnil
    exact ⟨pre, rfl, (List.append_nil _).symm⟩
  · split
    · exact mdWordLoop_plain hesc hnul _ hpre (Nat.zero_le _) (Nat.lt_succ_self _)
    · exact mdWordLoop_plain hesc hnul _ hpre (Nat.zero_le _) (Nat.lt_succ_self _)

end Mandoc
