import Mandoc.Lib.Loop
import Mandoc.Roff.Number

/-!
# Comments and Escape Sequences

The two functions through which `roff_parseln()` passes every line before it looks for
requests and macros: `roff_parse_comment()` removes comments and handles input line
continuation, and `roff_expand()` expands those escape sequences that produce parsable
input text. Also, `roff_getarg()`, which calls `roff_expand()` on macro arguments.
-/

namespace Mandoc

variable {X : Type}

/-! ## §1 Comments -/

/-- What the loop of `roff_parse_comment()` finds. -/
inductive LineEnd where
  /-- The line ends at an index, without continuation or comment. -/
  | plain (i : Nat)
  /-- The escape character at an index requests line continuation. -/
  | continued (i : Nat)
  /-- A comment starts at an index. -/
  | comment (i : Nat)
deriving DecidableEq, Repr

/-- The loop of `roff_parse_comment()`, over the rest of the line from the index `i` on.
    The newline character is the one that `mparse_buf_r()` appends to mark the end of
    input. -/
def commentScan (ec : Char) : CStr → Nat → Res LineEnd
  | [], i => .ok (.plain i)
  | [c], i =>
    if c = '\n' then .ok (.plain i)
    -- Unescaped byte: skip it.
    else if c ≠ ec then .ok (.plain (i + 1))
    else .ok (.continued i)
  | c :: d :: s, i =>
    -- assert(stesc[1] == '\0')
    if c = '\n' then .error .abort
    else if c ≠ ec then commentScan ec (d :: s) (i + 1)
    -- assert(stesc[2] == '\0')
    else if d = '\n' then if s = [] then .ok (.plain i) else .error .abort
    else if d = '"' || d = '#' then .ok (.comment i)
    -- Escaped escape character: skip them both.
    else if d = ec then commentScan ec s (i + 2)
    else commentScan ec (d :: s) (i + 1)

/-- `strstr(s, pat)`: the text following the first occurrence. -/
def strstr (pat : CStr) : CStr → Option CStr
  | [] => none
  | c :: s => if pat.isPrefixOf (c :: s) then some ((c :: s).drop pat.length) else strstr pat s

/-- Whether the text following `$OpenBSD` or `$NetBSD` belongs to an RCS id. -/
def isRcsId (cp : CStr) : Bool :=
  !(isalpha (charAt cp 0) || isdigit (charAt cp 0)) && cp.contains '$'

/-- Look for an RCS id in a comment. -/
def rcsIds (comment : CStr) (rcsids : List String) : List String :=
  match strstr "$OpenBSD".toList comment, strstr "$NetBSD".toList comment with
  | some cp, _ => if isRcsId cp then "OpenBSD" :: rcsids.erase "OpenBSD" else rcsids
  | none, some cp => if isRcsId cp then "NetBSD" :: rcsids.erase "NetBSD" else rcsids
  | none, none => rcsids

/-- The text of a comment, without the newline character marking the end of input and
    without trailing white space. -/
def commentText (comment : CStr) : CStr :=
  let comment := if comment.getLast? = some '\n' then comment.dropLast else comment
  comment.rdropWhile fun c => c = ' ' || c = '\t'

/-- Save comments preceding the title macro in the syntax tree. -/
def saveComment (r : Roff X) (ln pos : Nat) (comment : CStr) : Res (Roff X) :=
  if r.optComment then do
    let man ← addLeaf r.man ln pos .COMMENT fun n => { n with string := some (commentText comment) }
    return { r with man := man }
  else
    return r

/-- Discard white space at the end of a line, except after a backslash. -/
def stripBlanks (start : Nat) (buf : CStr) : Nat → CStr
  | 0 => buf.take 0
  | i + 1 =>
    if start < i + 1 ∧ charAt buf i = ' ' ∧ (i = start ∨ charAt buf (i - 1) ≠ '\\') then
      stripBlanks start buf i
    else
      buf.take (i + 1)

/-- `roff_parse_comment()` -/
def roffParseComment (r : Roff X) (buf : Buf) (ln pos : Nat) (ec : Char) :
    Res (Code × Roff X × Buf) := do
  match ← commentScan ec (buf.buf.drop pos) pos with
  | .plain i => return (ROFF_CONT, r, { buf with buf := buf.buf.take i })
  | .continued i => return (ROFF_IGN ||| ROFF_APPEND, r, { buf with buf := buf.buf.take i })
  | .comment i =>
    let comment := buf.buf.drop (i + 2)
    let r := { r with man := { r.man with rcsids := rcsIds comment r.man.rcsids } }
    let r ← saveComment r ln (i + 1) comment
    if charAt buf.buf (i + 1) = '#' then
      -- The comment requests line continuation.
      return (ROFF_IGN ||| ROFF_APPEND, r, { buf with buf := buf.buf.take i })
    else
      -- Discard the comment including preceding whitespace.
      return (ROFF_CONT, r, { buf with buf := stripBlanks pos buf.buf i })

/-! ## §2 Replacing text -/

/-- Limit on the number of expansions in a line. -/
abbrev EXPAND_LIMIT : Nat := 1000

/-- Limit on the size of a line. -/
abbrev SHRT_MAX : Nat := 32767

/-- `roff_expand_patch()`: replace the substring from the start position (inclusive) to the
    end position (exclusive) with the replacement string. -/
def roffExpandPatch (buf : Buf) (start : Nat) (repl : CStr) (stop : Nat) : Buf :=
  Buf.ofStr (buf.buf.take start ++ repl ++ buf.buf.drop stop)

/-- `while (pos < iend) { ... }`, for a sequence that does not need expansion: if we have a
    non-standard escape character, translate it to backslashes and translate backslashes to
    `\e`. The first argument is `iend - pos`. Return the buffer and the new position. -/
def translate (ec : Char) : Nat → Buf → Nat → Buf × Nat
  | 0, buf, pos => (buf, pos)
  | n + 1, buf, pos =>
    if charAt buf.buf pos = ec then
      let buf := { buf with buf := buf.buf.set pos '\\' }
      match n with
      | 0 => (buf, pos + 1)
      | m + 1 => translate ec m buf (pos + 2)
    else if charAt buf.buf pos = '\\' then
      translate ec n (roffExpandPatch buf pos "\\e".toList (pos + 1)) (pos + 2)
    else
      translate ec n buf (pos + 1)

/-- Reduce `\\\\` and `\.` in names. -/
def reduceName : CStr → CStr
  | [] => []
  | [c] => [c]
  | c :: d :: s =>
    if c = '\\' ∧ (d = '\\' ∨ d = '.') then d :: reduceName s else c :: reduceName (d :: s)

/-- Store a name in the buffer, where nothing but the name changes. -/
def storeName (buf : Buf) (iarg : Nat) (name : CStr) : Buf :=
  { buf with buf := buf.buf.take iarg ++ name ++ buf.buf.drop (iarg + name.length) }

/-! ## §3 Expansion -/

/-- State of the loop of `roff_expand()`. -/
structure ExpandState (X : Type) where
  r : Roff X
  buf : Buf
  pos : Nat
  /-- `expand_count`: to avoid infinite loops. -/
  count : Nat

/-- What `roff_expand()` returns: the result code, the state, and the buffer. -/
structure Expanded (X : Type) where
  code : Code
  r : Roff X
  buf : Buf

/-- What to do about an escape sequence that requires expansion. -/
inductive Expansion (X : Type) where
  /-- Paste the string over the sequence. -/
  | paste (r : Roff X) (res : CStr)
  /-- Continue the loop without counting an expansion. -/
  | continue (r : Roff X) (buf : Buf) (pos : Nat)

/-- The arguments of the current macro call, as pasted by `\$*` and `\$@`. -/
def pasteArgs (quoteArgs : Bool) (argv : List CStr) : CStr :=
  [' '].intercalate (argv.map fun arg => if quoteArgs then '"' :: arg ++ ['"'] else arg)

/-- The case `'*'`: the name of a string. -/
def expandString (r : Roff X) (buf : Buf) (name : CStr) (iend : Nat) : Expansion X :=
  if name = [] then .paste r []
  else
    let g := roffGetstrn r name [.USER, .PRE]
    match g.res with
    | some res => .paste g.r res
    | none =>
      -- If not overridden, let \*(.T through to the formatters.
      if name = ".T".toList then
        .continue { g.r with strtab := roffSetstrn g.r.strtab ".T".toList none 0 } buf iend
      else
        .paste g.r []

/-- The case `'$'`: an argument of the current macro call, or all of them. -/
def expandArg (r : Roff X) (buf : Buf) (pos : Nat) (c : Char) (iesc iend : Nat) : Expansion X :=
  match r.mstack with
  | [] => .paste r []
  | argv :: _ =>
    if '1' ≤ c ∧ c ≤ '9' then
      .paste r ((argv[c.toNat - '1'.toNat]?).getD [])
    else if c = '*' ∨ c = '@' then
      let args := pasteArgs (c = '@') argv
      .continue r
        ⟨buf.buf.take iesc ++ args ++ buf.buf.drop iend, iesc + args.length + (buf.sz - iend)⟩ pos
    else
      .paste r []

/-- The loop in the case `'w'`: add up the widths of the characters in the argument, with a
    bound on the number of iterations. -/
def widthLoop (buf : CStr) (iendarg : Nat) : Nat → Nat → Esc → Nat → Res Nat
  | 0, _, _, _ => .error .fuel
  | steps + 1, iarg, subtype, rsz =>
    if iendarg ≤ iarg then
      .ok rsz
    else do
      let asz := if subtype = .SKIPCHAR then 0 else 1
      if charAt buf iarg ≠ '\\' then
        widthLoop buf iendarg steps (iarg + 1) subtype (rsz + asz)
      else
        let s ← roffEscapeNull buf iarg
        match s.rval with
        | .SPECIAL | .NUMBERED | .UNICODE | .OVERSTRIKE | .UNDEF =>
          widthLoop buf iendarg steps s.rend s.rval (rsz + asz)
        | .DEVICE => widthLoop buf iendarg steps s.rend s.rval (rsz + asz * 8)
        | .EXPAND => .error .abort
        | _ => widthLoop buf iendarg steps s.rend s.rval rsz

/-- A number in decimal notation: `snprintf(ubuf, sizeof(ubuf), "%d", i)`. -/
def printInt (i : Int) : CStr := (toString i).toList

/-- One of the digits `1` and `0`. -/
def printBool (b : Bool) : CStr := if b then ['1'] else ['0']

/-- `switch (buf->buf[inam])`, for the sequence `s`, whose name has been reduced and now ends
    before the index `iendarg`. -/
def expandSeq (env : Env X) (r : Roff X) (buf : Buf) (pos : Nat) (s : EscResult)
    (iendarg : Nat) : Res (Expansion X) := do
  let c := charAt buf.buf s.rnam
  let arg := slice buf.buf s.rarg iendarg
  if c = '*' then
    return expandString r buf arg s.rend
  else if c = '$' then
    return expandArg r buf pos (charAt buf.buf s.rarg) s.resc s.rend
  else if c = 'A' then
    return .paste r (printBool (s.rarg < iendarg))
  else if c = 'B' then
    if s.rarg < iendarg ∧ iendarg < s.rend then
      let n ← roffEvalnum env (buf.buf.drop s.rarg) true 0 'u' false
      return .paste r (printBool (n.ok && n.pos = iendarg - s.rarg))
    else
      return .paste r (printBool false)
  else if c = 'V' then
    let buf := roffExpandPatch buf iendarg "\x7d".toList s.rend
    return .continue r (roffExpandPatch buf s.resc "$\x7b".toList s.rarg) pos
  else if c = 'n' then
    if s.rarg < iendarg then
      let (val, r) := roffGetregn r arg (charAt buf.buf (s.rnam + 1))
      return .paste r (printInt val)
    else
      return .paste r []
  else if c = 'w' then
    let rsz ← widthLoop buf.buf iendarg (buf.buf.length + 2) s.rarg .UNDEF 0
    return .paste r (printInt (rsz * 24))
  else
    return .paste r []

/-- Reduce the name of the sequence `s` in place. Return the new buffer and the index right
    after the name. -/
def reduceSeq (buf : Buf) (s : EscResult) : Buf × Nat :=
  let c := charAt buf.buf s.rnam
  if c = '*' ∨ c = 'n' then
    let name := reduceName (slice buf.buf s.rarg s.rendarg)
    (storeName buf s.rarg name, s.rarg + name.length)
  else
    (buf, s.rendarg)

open Loop in
/-- One iteration of `while (buf->buf[pos] != '\0')`. -/
def expandStep (env : Env X) (ec : Char) (st : ExpandState X) :
    Res (Next (ExpandState X) (Expanded X)) := do
  let c ← rd st.buf.buf st.pos
  if c = NUL then
    return .done ⟨ROFF_CONT, st.r, st.buf⟩
  -- Skip plain ASCII characters.
  else if c ≠ ec then
    if c = '\\' then
      let buf := roffExpandPatch st.buf st.pos "\\e".toList (st.pos + 1)
      return .again { st with buf := buf, pos := st.pos + 2 }
    else
      return .again { st with pos := st.pos + 1 }
  else
    let s ← roffEscape st.buf.buf st.pos
    -- Skip sequences that do not need expansion.
    if s.rval ≠ .EXPAND then
      let (buf, pos) := translate ec (s.rend - st.pos) st.buf st.pos
      return .again { st with buf := buf, pos := pos }
    else
      let (buf, iendarg) := reduceSeq st.buf s
      match ← expandSeq env st.r buf st.pos s iendarg with
      | .continue r buf pos => return .again ⟨r, buf, pos, st.count⟩
      | .paste r res =>
        if EXPAND_LIMIT < st.count + 1 ∨ SHRT_MAX < buf.sz + res.length then
          return .done ⟨ROFF_IGN, r, buf⟩
        else
          return .again ⟨r, roffExpandPatch buf s.resc res s.rend, st.pos, st.count + 1⟩

/-- `roff_expand()`, with a bound on the number of iterations. -/
def roffExpand (env : Env X) (fuel : Nat) (r : Roff X) (buf : Buf) (pos : Nat) (ec : Char) :
    Res (Expanded X) :=
  Loop.run (expandStep env ec) .fuel fuel ⟨r, buf, pos, 0⟩

/-! ## §4 Arguments -/

/-- What the loop of `roff_getarg()` finds: the argument, the text following it, and whether
    the argument contains a new escape character. -/
structure GetArg where
  arg : CStr
  rest : CStr
  newesc : Bool
deriving DecidableEq, Repr

/-- Skip the byte ending an argument, and the blanks following it. -/
def nextArg (s : CStr) : CStr := (s.drop 1).dropWhile (· = ' ')

/-- The loop of `roff_getarg()` over the rest of the line. The list `start` is the line
    before the loop, and `acc` the argument so far, which is moved to the left in place. -/
def getargLoop (start : CStr) (quoted : Bool) : CStr → CStr → Bool → GetArg
  | [], acc, newesc => ⟨acc, [], newesc⟩
  | [c], acc, newesc =>
    if c = ' ' ∧ quoted = false ∨ c = '"' ∧ quoted then ⟨acc, [], newesc⟩
    else ⟨acc ++ [c], [], newesc⟩
  | c :: d :: s, acc, newesc =>
    if c = '\\' then
      -- In copy mode, translate double to single backslashes and backslash-t to literal tabs.
      if d = 'a' ∨ d = 't' then getargLoop start quoted s (acc ++ ['\t']) newesc
      else if d = '\\' then getargLoop start quoted s (acc ++ ['\\']) true
      else if d = ' ' ∧ quoted = false then
        -- Skip escaped blanks: the blank itself is not moved.
        getargLoop start quoted s (acc ++ ['\\', charAt start (acc.length + 1)]) newesc
      else getargLoop start quoted (d :: s) (acc ++ [c]) newesc
    else if quoted = false then
      if c = ' ' then ⟨acc, nextArg (c :: d :: s), newesc⟩
      else getargLoop start quoted (d :: s) (acc ++ [c]) newesc
    else if c = '"' then
      -- Quoted quotes collapse.
      if d = '"' then getargLoop start quoted s (acc ++ ['"']) newesc
      else ⟨acc, nextArg (c :: d :: s), newesc⟩
    else getargLoop start quoted (d :: s) (acc ++ [c]) newesc

/-- What `roff_getarg()` returns: the argument, the rest of the line, the parse point, and the
    state. -/
structure Argument (X : Type) where
  arg : CStr
  rest : CStr
  pos : Nat
  r : Roff X

/-- `roff_getarg()`: parse a quoted or unquoted argument at the beginning of `src`. -/
def roffGetarg (env : Env X) (fuel : Nat) (r : Roff X) (src : CStr) (pos : Nat) :
    Res (Argument X) := do
  -- Quoting can only start with a new word.
  let quoted := charAt src 0 = '"'
  let start := if quoted then src.drop 1 else src
  let a := getargLoop start quoted start [] false
  let pos := pos + (start.length - a.rest.length) + if quoted then 1 else 0
  if a.newesc then
    let e ← roffExpand env fuel r (Buf.ofStr a.arg) 0 '\\'
    return ⟨if e.code = ROFF_IGN then [] else e.buf.buf, a.rest, pos, e.r⟩
  else
    return ⟨a.arg, a.rest, pos, r⟩

end Mandoc
