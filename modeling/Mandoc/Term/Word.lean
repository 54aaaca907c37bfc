import Mandoc.Lib.Loop
import Mandoc.Roff.EscapeArgs
import Mandoc.Term.Glyphs

/-!
# Words in the Output Buffer

The formatters pass the words of a manual page to `term_word()`, which interprets the escape
sequences in a word and appends cells to the buffer of the current column. Before that, they ask
`term_strlen()` for the width of tags, headers, and table cells. This file models both functions
for the encoding `TERMENC_ASCII`.

- `Termp` is the state of a terminal, with the buffer of the current column.
- `bufferc`, `encode1`, and `encode` write to the buffer. A fault is reported if they read before
  its beginning.
- `termWord` and `termStrlen` are the two interpreters of the escape language.

The functions of the output device are fields of `Termp`, like in the source. Lengths of horizontal
movements involve floating point numbers; the field `roffsu` says how they are parsed. The size of
the memory allocated for the buffer is left out.
-/

namespace Mandoc

/-! ## §1 The state of a terminal -/

/-- The backspace. -/
abbrev BS : Char := '\x08'

/-- `enum termfont` -/
inductive TermFont where
  | NONE | BOLD | UNDER | BI
deriving DecidableEq, Repr

/-- `enum termtype` -/
inductive TermType where
  | CHAR | PS | PDF
deriving DecidableEq, Repr

/-- The flags of `struct termp` that deal with words. -/
structure TermFlags where
  /-- Space before a sentence. -/
  sentence : Bool := false
  /-- No space before words. -/
  nospace : Bool := false
  /-- No space (no autounset). -/
  nonospace : Bool := false
  /-- Make next word nonbreaking. -/
  nbrword : Bool := false
  /-- Keep words together. -/
  keep : Bool := false
  /-- ...starting with the next one. -/
  prekeep : Bool := false
  /-- Back up after next character. -/
  backafter : Bool := false
  /-- Back up before next character. -/
  backbefore : Bool := false
  /-- No line break in nofill mode. -/
  nonewline : Bool := false
  /-- Bypass output buffer. -/
  nobuf : Bool := false
deriving DecidableEq, Repr

/-- `struct termp_col` -/
structure TermCol where
  /-- Output buffer. -/
  buf : Nat → Char
  /-- Last byte in the buffer. -/
  lastcol : Nat
  /-- Byte in the buffer to be written. -/
  col : Nat
  /-- Current right margin. -/
  rmargin : Nat
  /-- Current left margin. -/
  offset : Nat
  /-- Offset for literal tabs. -/
  taboff : Nat

/-- What the output device is asked to do. -/
inductive TermCall where
  /-- `(*p->letter)(p, c)` -/
  | letter (c : Char)
  /-- `(*p->advance)(p, len)` -/
  | advance (len : Nat)
deriving DecidableEq, Repr

/-- `struct termp` -/
structure Termp where
  /-- Terminal, PS, or PDF. -/
  type : TermType
  /-- `p->getwidth` -/
  getwidth : Char → Nat
  /-- `a2roffsu()` and `p->hspan` for the scale `SCALE_EM`: the number of bytes that the length
      takes, and its value in basic units. -/
  roffsu : CStr → Option (Nat × Int)
  /-- Current table column. -/
  tcol : TermCol
  /-- Byte position in the buffer. -/
  col : Nat
  /-- Temporary indent for line. -/
  ti : Int
  /-- Vertical space to skip. -/
  skipvsp : Nat
  flags : TermFlags
  /-- Last font set. -/
  fontl : TermFont
  /-- Symmetric fonts. -/
  fontq : Nat → TermFont
  /-- Index of font stack. -/
  fonti : Nat
  /-- Map font I to BI. -/
  fontibi : Bool
  /-- The calls of the output device. -/
  out : List TermCall

/-- `ascii_getwidth()` -/
def asciiGetwidth (c : Char) : Nat :=
  if c = ASCII_BREAK ∨ c = ASCII_NBRZW ∨ c = ASCII_TABREF then 0 else 24

/-- `ascii_init()`, with an empty buffer. -/
def asciiInit (roffsu : CStr → Option (Nat × Int)) : Termp where
  type := .CHAR
  getwidth := asciiGetwidth
  roffsu := roffsu
  tcol := { buf := fun _ => NUL, lastcol := 0, col := 0, rmargin := 0, offset := 0, taboff := 0 }
  col := 0
  ti := 0
  skipvsp := 0
  flags := {}
  fontl := .NONE
  fontq := fun _ => .NONE
  fonti := 0
  fontibi := false
  out := []

/-- `isgraph()` in the C locale. -/
def isgraph (c : Char) : Bool := '!' ≤ c && c ≤ '~'

namespace Termp

/-- `(*p->letter)(p, c)` -/
def letter (p : Termp) (c : Char) : Termp := { p with out := p.out ++ [.letter c] }

/-- `(*p->advance)(p, len)` -/
def advance (p : Termp) (len : Nat) : Termp := { p with out := p.out ++ [.advance len] }

/-- `p->tcol->buf[p->col] = c` -/
def setCell (p : Termp) (c : Char) : Termp :=
  { p with tcol := { p.tcol with buf := Function.update p.tcol.buf p.col c } }

/-- `p->tcol->buf[p->col++] = c` -/
def pushCell (p : Termp) (c : Char) : Termp := { p.setCell c with col := p.col + 1 }

/-- Blanks do not overwrite what is already there. -/
def storeCell (p : Termp) (c : Char) : Termp :=
  if p.tcol.lastcol ≤ p.col ∨ (c ≠ ' ' ∧ c ≠ ASCII_NBRSP) then p.setCell c else p

/-- `if (p->tcol->lastcol < p->col) p->tcol->lastcol = p->col` -/
def raiseLastcol (p : Termp) : Termp :=
  if p.tcol.lastcol < p.col then { p with tcol := { p.tcol with lastcol := p.col } } else p

/-- Set or clear `TERMP_BACKBEFORE`. -/
def setBackbefore (p : Termp) (b : Bool) : Termp :=
  { p with flags := { p.flags with backbefore := b } }

/-- Set or clear `TERMP_BACKAFTER`. -/
def setBackafter (p : Termp) (b : Bool) : Termp :=
  { p with flags := { p.flags with backafter := b } }

/-- The current font. -/
def font (p : Termp) : TermFont := p.fontq p.fonti

/-- Change the current font. -/
def setFont (p : Termp) (f : TermFont) : Termp := { p with fontq := Function.update p.fontq p.fonti f }

end Termp

/-- `term_len()` -/
def termLen (p : Termp) (sz : Nat) : Nat := p.getwidth ' ' * sz

/-- `term_fontlast()` -/
def termFontlast (p : Termp) : Termp := { p.setFont p.fontl with fontl := p.font }

/-- `term_fontrepl()` -/
def termFontrepl (p : Termp) (f : TermFont) : Termp :=
  { p.setFont (if p.fontibi ∧ f = .UNDER then .BI else f) with fontl := p.font }

/-! ## §2 Writing to the buffer -/

/-- `bufferc()` -/
def bufferc (p : Termp) (c : Char) : Termp :=
  if p.flags.nobuf then p.letter c
  else
    let p := p.storeCell c
    Termp.raiseLastcol { p with col := p.col + 1 }

/-- The effect of `TERMP_BACKBEFORE` on the next character. -/
def backBefore (p : Termp) : Res Termp :=
  if p.flags.backbefore then
    if p.col = 0 then .error .overrun
    else
      let c := p.tcol.buf (p.col - 1)
      let p := if c = ' ' ∨ c = '\t' then { p with col := p.col - 1 } else p.pushCell BS
      .ok (p.setBackbefore false)
  else .ok p

/-- The cells that precede a character in italic or bold font. -/
def decorate (p : Termp) (f : TermFont) (c : Char) : Termp :=
  let p := if f = .UNDER ∨ f = .BI then (p.pushCell '_').pushCell BS else p
  if f = .BOLD ∨ f = .BI then (p.pushCell (if c = ASCII_HYPH then '-' else c)).pushCell BS else p

/-- `encode1()` -/
def encode1 (p : Termp) (c : Char) : Res Termp := do
  if p.flags.nobuf then return p.letter c
  else
    let f := if c = ASCII_HYPH ∨ isgraph c then p.font else .NONE
    let p ← backBefore p
    let p := (decorate p f c).storeCell c
    let p := Termp.raiseLastcol { p with col := p.col + 1 }
    return if p.flags.backafter then (p.setBackbefore true).setBackafter false else p

/-- One byte in `encode()`. -/
def encodeByte (p : Termp) (c : Char) : Res Termp :=
  if c = ASCII_HYPH ∨ isgraph c then encode1 p c
  else
    let p := p.storeCell c
    let p := { p with col := p.col + 1 }
    -- Postpone the effect of \z while handling an overstrike sequence from ascii_uc2str().
    .ok (if c = BS ∧ p.flags.backbefore then (p.setBackbefore false).setBackafter true else p)

/-- `encode()` -/
def encode (p : Termp) (word : CStr) : Res Termp :=
  if p.flags.nobuf then .ok (word.foldl Termp.letter p)
  else do return (← word.foldlM encodeByte p).raiseLastcol

/-- Print a character given by its code. -/
def encodeUc (p : Termp) (uc : Int) : Res Termp := do encode p (← asciiUc2str uc)

/-! ## §3 The width of a string -/

/-- The device name printed for `\*(.T`. -/
def deviceName (p : Termp) : CStr :=
  match p.type with
  | .PDF => "pdf".toList
  | .PS => "ps".toList
  | .CHAR => "ascii".toList

/-- The variables of the main loop of `term_strlen()`. -/
structure StrlenState where
  /-- Index of the next byte. -/
  cp : Nat
  /-- Width so far. -/
  sz : Nat := 0
  /-- The next character is skipped. -/
  skip : Bool := false
deriving DecidableEq, Repr

/-- `sz += cond_width(p, c, &skip)` -/
def StrlenState.condWidth (p : Termp) (st : StrlenState) (c : Char) : StrlenState :=
  if st.skip then { st with skip := false } else { st with sz := st.sz + p.getwidth c }

/-- Common handling for all escape sequences printing more than one character. -/
def StrlenState.addText (p : Termp) (st : StrlenState) (rhs : CStr) : StrlenState :=
  if st.skip then { st with skip := false } else { st with sz := st.sz + (rhs.map p.getwidth).sum }

/-- `rej` -/
def strlenRejs : List Char :=
  ['\\', ASCII_NBRSP, ASCII_NBRZW, ASCII_BREAK, ASCII_HYPH, ASCII_TABREF]

section

variable (p : Termp) (w : CStr)

/-- An iteration over the argument of `\o`: the index of the next byte, and the width of the
    widest character. -/
def overstrikeWidthStep (rhs : Nat) (st : Nat × Nat) : Res (Loop.Next (Nat × Nat) Nat) := do
  if rhs ≤ st.1 then return .done st.2
  else
    let c ← rd w st.1
    if c = '\\' then return .again ((← mandocEscape w (st.1 - 1)).rend, st.2)
    else return .again (st.1 + 1, max st.2 (p.getwidth c))

/-- What an escape sequence contributes to the width. -/
def strlenEscape (st : StrlenState) (r : EscResult) : Res StrlenState := do
  let st := { st with cp := r.rend }
  match r.rval with
  | .UNICODE =>
    let uc ← mcharsNum2uc (← readArg w (r.rarg + 1) r.rendarg)
    return st.addText p (← asciiUc2str uc)
  | .NUMBERED =>
    let uc := mcharsNum2char (← readArg w r.rarg r.rendarg)
    if uc < 0 then return st
    return st.addText p (← asciiUc2str uc)
  | .SPECIAL =>
    match mcharsSpec2str (← readArg w r.rarg r.rendarg) with
    | some rhs => return st.addText p rhs
    | none => return st
  | .UNDEF =>
    let uc := signedByte (← rd w r.rarg)
    return st.addText p (← asciiUc2str uc)
  | .DEVICE => return st.addText p (deviceName p)
  | .SKIPCHAR => return { st with skip := true }
  | .OVERSTRIKE =>
    let width ← Loop.run (overstrikeWidthStep p w r.rendarg) .fuel (r.rendarg - r.rarg + 1) (r.rarg, 0)
    return { st with sz := st.sz + width }
  | _ => return st

/-- An iteration of the main loop. -/
def strlenStep (st : StrlenState) : Res (Loop.Next StrlenState Nat) := do
  let c ← rd w st.cp
  if c = NUL then return .done st.sz
  else
    let rsz := strcspn (w.drop st.cp) strlenRejs
    let st := { (slice w st.cp (st.cp + rsz)).foldl (StrlenState.condWidth p) st with cp := st.cp + rsz }
    let c ← rd w st.cp
    if c = '\\' then return .again (← strlenEscape p w st (← mandocEscape w st.cp))
    else if c = ASCII_NBRSP then return .again { st.condWidth p ' ' with cp := st.cp + 1 }
    else if c = ASCII_HYPH then return .again { st.condWidth p '-' with cp := st.cp + 1 }
    -- The other bytes that end a run are not skipped.
    else return .again st

/-- `term_strlen()` -/
def termStrlen : Res Nat := Loop.run (strlenStep p w) .fuel (w.length + 1) { cp := 0 }

end

/-! ## §4 The escape sequences that draw -/

/-- One space of a horizontal movement to the right. -/
def horizStep (st : Termp × Int) : Res (Loop.Next (Termp × Int) Termp) :=
  let (p, bu) := st
  if bu ≤ 0 then .ok (.done p)
  else
    let p := if p.flags.backbefore then p.setBackbefore false else bufferc p ASCII_NBRSP
    .ok (.again (p, bu - termLen p 1))

/-- A horizontal movement to the left. -/
def horizBack (p : Termp) (bu : Int) : Res Termp := do
  let p ←
    if p.flags.backbefore then
      if p.col ≤ 1 then .error .abort
      else pure { p.setBackbefore false with col := p.col - 1 }
    else pure p
  if -bu ≤ termLen p p.col then return { p with col := p.col - (-bu).toNat / termLen p 1 }
  else
    let bu := bu + termLen p p.col
    let p := { p with col := 0 }
    if -bu < p.tcol.offset then
      return { p with ti := p.ti + bu, tcol := { p.tcol with offset := (p.tcol.offset + bu).toNat } }
    else
      return { p with ti := p.ti - p.tcol.offset, tcol := { p.tcol with offset := 0 } }

/-- One character of a horizontal line with a remaining width. -/
def hlineStep (cp : CStr) (csz : Nat) (st : Termp × Nat) : Res (Loop.Next (Termp × Nat) Termp) := do
  let (p, lsz) := st
  if lsz = 0 then return .done p
  else return .again (← encode p cp, if csz < lsz then lsz - csz else 0)

section

variable (w : CStr)

/-- `ESCAPE_HORIZ` -/
def horizEscape (p : Termp) (r : EscResult) : Res Termp := do
  if p.flags.backafter then return p.setBackafter false
  else
    let c ← rd w r.rarg
    let seq := if c = '|' then r.rarg + 1 else r.rarg
    let bu : Int := if c = '|' then -(termLen p p.col) else 0
    match p.roffsu (w.drop seq) with
    | none => return p
    | some (_, hspan) =>
      let bu := bu + hspan
      if 0 ≤ bu then Loop.run horizStep .fuel (bu.toNat + 1) (p, bu)
      else horizBack p bu

/-- The character that a horizontal line is drawn with, given after the length. -/
def hlineChar (cp rarg : Nat) : Res Int := do
  let c ← rd w cp
  let delim ← rd w (rarg - 1)
  if c = delim then return -1
  else if c = '\\' then
    let r ← mandocEscape w cp
    match r.rval with
    | .UNICODE => mcharsNum2uc (← readArg w (r.rarg + 1) r.rendarg)
    | .NUMBERED => return mcharsNum2char (← readArg w r.rarg r.rendarg)
    | .SPECIAL => return mcharsSpec2cp (← readArg w r.rarg r.rendarg)
    | .UNDEF => return signedByte (← rd w r.rend)
    | _ => return -1
  else return signedByte c

/-- `ESCAPE_HLINE` -/
def hlineEscape (p : Termp) (r : EscResult) : Res Termp := do
  match p.roffsu (w.drop r.rarg) with
  | none => return p
  | some (len, bu) =>
    if bu ≤ 0 ∧ p.tcol.rmargin ≤ p.tcol.offset then return p
    else
      let lsz := if bu ≤ 0 then p.tcol.rmargin - p.tcol.offset else bu.toNat
      let uc ← hlineChar w (r.rarg + len) r.rarg
      let uc := if uc < 0x20 ∨ (0x7E < uc ∧ uc < 0xA0) then ('_'.toNat : Int) else uc
      let cp ← asciiUc2str uc
      let csz ← termStrlen p cp
      Loop.run (hlineStep cp csz) .fuel (lsz + 1) (p, lsz)

/-- An iteration over the argument of `\o`. -/
def overstrikeStep (cp : Nat) (st : Termp × Nat) : Res (Loop.Next (Termp × Nat) Termp) := do
  let (p, seq) := st
  if cp ≤ seq then return .done p
  else
    let c ← rd w seq
    if c = '\\' then return .again (p, (← mandocEscape w (seq - 1)).rend)
    else
      let p ← encode1 p c
      if cp ≤ seq + 1 then return .again (p, seq + 1)
      else if p.flags.backbefore then return .again (p.setBackafter true, seq + 1)
      else return .again (p.setBackbefore true, seq + 1)

/-- Trim trailing backspace/blank pair. -/
def trimOverstrike (p : Termp) : Termp :=
  let c := p.tcol.buf (p.tcol.lastcol - 1)
  let p :=
    if 2 < p.tcol.lastcol ∧ (c = ' ' ∨ c = '\t') then
      { p with tcol := { p.tcol with lastcol := p.tcol.lastcol - 2 } }
    else p
  if p.tcol.lastcol < p.col then { p with col := p.tcol.lastcol } else p

/-- `ESCAPE_OVERSTRIKE` -/
def overstrikeEscape (p : Termp) (r : EscResult) : Res Termp := do
  let p ← Loop.run (overstrikeStep w r.rendarg) .fuel (r.rendarg - r.rarg + 1) (p, r.rarg)
  return trimOverstrike p

/-! ## §5 Printing a word -/

/-- What an escape sequence does to the buffer. -/
def wordEscape (p : Termp) (r : EscResult) : Res Termp := do
  match r.rval with
  | .UNICODE => encodeUc p (← mcharsNum2uc (← readArg w (r.rarg + 1) r.rendarg))
  | .NUMBERED =>
    let uc := mcharsNum2char (← readArg w r.rarg r.rendarg)
    if 0 ≤ uc then encodeUc p uc
    else return bufferc p ASCII_NBRZW
  | .SPECIAL =>
    match mcharsSpec2str (← readArg w r.rarg r.rendarg) with
    | some cp => encode p cp
    | none => return bufferc p ASCII_NBRZW
  | .UNDEF => encodeUc p (signedByte (← rd w r.rarg))
  | .FONTBOLD | .FONTCB => return termFontrepl p .BOLD
  | .FONTITALIC | .FONTCI => return termFontrepl p .UNDER
  | .FONTBI => return termFontrepl p .BI
  | .FONT | .FONTCR | .FONTROMAN => return termFontrepl p .NONE
  | .FONTPREV => return termFontlast p
  | .BREAK => return bufferc p '\n'
  | .NOSPACE =>
    if p.flags.backafter then return p.setBackafter false
    else
      let c ← rd w r.rend
      if c = NUL then return { p with flags := { p.flags with nospace := true, nonewline := true } }
      return p
  | .DEVICE => encode p (deviceName p)
  | .HORIZ => horizEscape w p r
  | .HLINE => hlineEscape w p r
  | .SKIPCHAR => return p.setBackafter true
  | .OVERSTRIKE => overstrikeEscape w p r
  | .IGNORE => return bufferc p ASCII_NBRZW
  | _ => return p

/-- An iteration of the main loop: the terminal, and the index of the next byte. -/
def wordStep (st : Termp × Nat) : Res (Loop.Next (Termp × Nat) Termp) := do
  let (p, word) := st
  let c ← rd w word
  if c = NUL then return .done { p with flags := { p.flags with nbrword := false } }
  else if c ≠ '\\' then
    if p.flags.nbrword ∧ c = ' ' then return .again (← encode p [ASCII_NBRSP], word + 1)
    else
      let ssz := strcspn (w.drop word) (if p.flags.nbrword then ['\\', ' '] else ['\\'])
      return .again (← encode p (slice w word (word + ssz)), word + ssz)
  else
    let r ← mandocEscape w word
    return .again (← wordEscape w p r, r.rend)

/-- The main loop of `term_word()`. -/
def termWordLoop (p : Termp) : Res Termp := Loop.run (wordStep w) .fuel (w.length + 1) (p, 0)

end

/-- The beginning of `term_word()`: the space before the word. -/
def termWordStart (p : Termp) : Termp :=
  if p.flags.nobuf then p
  else
    let p :=
      if p.flags.nospace then p
      else if p.flags.keep then bufferc p ASCII_NBRSP
      else
        let p := bufferc p ' '
        if p.flags.sentence then bufferc p ' ' else p
    { p with
      skipvsp := 0
      flags := { p.flags with
        keep := p.flags.keep || p.flags.prekeep
        nospace := p.flags.nonospace
        sentence := false
        nonewline := false } }

/-- `term_word()` -/
def termWord (p : Termp) (word : CStr) : Res Termp := termWordLoop word (termWordStart p)

end Mandoc
