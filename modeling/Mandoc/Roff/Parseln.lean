import Mandoc.Roff.Requests

/-!
# The Line Parser

`roff_parseln()` with everything it dispatches to: the handlers that open, fill, and close
blocks, the handlers for text and for requests inside scopes, and the table of request
handlers.
-/

namespace Mandoc

variable {X : Type}

/-! ## §1 Names -/

/-- What `roff_parse()` returns: the token, the state, the buffer, and the parse point. -/
structure Parsed (X : Type) where
  tok : Tok
  r : Roff X
  buf : Buf
  pos : Nat

/-- `roff_parse()`: parse a request or macro name. -/
def roffParse (r : Roff X) (buf : Buf) (pos : Nat) : Res (Parsed X) := do
  let c := charAt buf.buf pos
  if c = NUL ∨ c = '"' ∨ c = '\t' ∨ c = ' ' then
    return ⟨.TOKEN_NONE, r, buf, pos⟩
  else
    let st ← roffGetname buf.buf pos
    let mac := st.name pos
    let g := roffGetstrn r mac [.USER, .REN]
    let r := { g.r with currentString := g.res }
    let t := match g.deftype with
      | .USER => .ROFF_USERDEF
      | .REN => .ROFF_RENAMED
      | _ => roffhashFind mac
    let buf := { buf with buf := st.buf }
    if t ≠ .TOKEN_NONE then
      return ⟨t, r, buf, st.cp⟩
    else if g.deftype = .UNDEF then
      -- Using an undefined macro defines it to be empty.
      return ⟨t, roffSetstr r mac (some []) 0, buf, pos⟩
    else
      return ⟨t, r, buf, pos⟩

/-! ## §2 Blocks -/

/-- Ignore groff compatibility mode for now. -/
def compatTok : Tok → Tok
  | .ROFF_de1 => .ROFF_de
  | .ROFF_dei1 => .ROFF_dei
  | .ROFF_am1 => .ROFF_am
  | .ROFF_ami1 => .ROFF_ami
  | tok => tok

/-- Whether the arguments of a block request are names of strings holding the names. -/
def Tok.isIndirect (tok : Tok) : Bool := tok = .ROFF_dei || tok = .ROFF_ami

/-- Resolve a name argument if it is indirect. An empty name is none. -/
def resolveName (r : Roff X) (tok : Tok) (iname : CStr) : CStr × Roff X :=
  if iname ≠ [] ∧ tok.isIndirect then
    let g := roffGetstrn r iname [.USER]
    (g.res.getD [], g.r)
  else
    (iname, r)

/-- Whether some table contains a definition of the name, as the first test in the loops of
    `roff_getstrn()` sees it. -/
def knowsName (r : Roff X) (name : CStr) : Bool :=
  r.strtab.any (·.key = name) || r.rentab.any (·.key = name)
    || predefs.any (·.1.toList = name) || isStd r.man.macroset name

/-- `roff_getstrn(r, iname, namesz, ROFFDEF_ANY)` in `roff_block()`, where the length is that
    of the resolved name. When it exceeds the name, the byte after the end of an equal key is
    read. -/
def appendedDef (r : Roff X) (iname : CStr) (namesz : Nat) : Res (GetStr X) :=
  if iname.length < namesz ∧ knowsName r iname then .error .overrun
  else .ok (roffGetstrn r (iname.take namesz) DefType.any)

/-- The definition of a macro that calls another one with all its arguments. -/
def callMacro (name : CStr) : CStr := '.' :: name ++ " \\$* \\\"\n".toList

/-- `switch (deftype)` in `roff_block()`: what to do before appending to the macro `name`. -/
def prepareAppend (g : GetStr X) (name : CStr) : Roff X :=
  let r := g.r
  match g.deftype with
  -- Copy predefined to user-defined.
  | .PRE => { r with strtab := roffSetstrn r.strtab name g.res 0 }
  -- Call original standard macro.
  | .REN => roffSetstr r name (some (callMacro (g.res.getD []))) 0
  -- Rename and call standard macro.
  | .STD =>
    let rname := "__".toList ++ name ++ "_renamed".toList
    { r with
      rentab := roffSetstrn r.rentab rname (some name) 0
      strtab := roffSetstrn r.strtab name (some (callMacro rname)) 0 }
  | _ => r

/-- Clear the existing string at the beginning of a macro definition, or prepare for appending
    to a macro. -/
def startBlock (r : Roff X) (tok : Tok) (iname name : CStr) : Res (Roff X) :=
  if tok = .ROFF_de ∨ tok = .ROFF_dei then
    .ok (roffSetstr r name (some []) 0)
  else if tok = .ROFF_am ∨ tok = .ROFF_ami then do
    return prepareAppend (← appendedDef r iname name.length) name
  else
    .ok r

/-- Set the custom end marker of the innermost scope. -/
def setEnd (r : Roff X) (name : CStr) : Roff X :=
  match r.last with
  | [] => r
  | p :: parents =>
    { r with last := { p with endMacro := if name = [] then p.endMacro else some name } :: parents }

/-- The end of `roff_block()`: get the custom end marker. -/
def blockEnd (a : Args X) (r : Roff X) (tok : Tok) (buf : CStr) (cp : Nat) : Res (Out X) := do
  if charAt buf cp = NUL then
    return a.out ROFF_IGN r
  else
    let st ← roffGetname buf cp
    let (name, r) := resolveName r tok (st.name cp)
    return a.out ROFF_IGN (setEnd r name)

/-- `roff_block()` -/
def roffBlock (a : Args X) : Res (Out X) := do
  let tok := compatTok a.tok
  if tok = .ROFF_ig then
    blockEnd a (roffnodePush a.r tok none a.ln a.ppos) tok a.buf.buf a.pos
  else
    -- Parse the macro name argument.
    let st ← roffGetname a.buf.buf a.pos
    let iname := st.name a.pos
    let (name, r) := resolveName a.r tok iname
    if name = [] then
      return a.out ROFF_IGN r
    else
      let r := roffnodePush r tok (some name) a.ln a.ppos
      let r ← startBlock r tok iname name
      -- The name has been NUL-terminated.
      if st.cp = a.pos + st.namesz then
        return a.out ROFF_IGN r
      else
        blockEnd a r tok st.buf st.cp

/-- Requests that define macros or ignore input. -/
def Tok.isBlock : Tok → Bool
  | .ROFF_am | .ROFF_ami | .ROFF_de | .ROFF_dei | .ROFF_ig => true
  | _ => false

/-- `roff_cblock()`: close a macro definition block or an "ignore" block. -/
def roffCblock (a : Args X) : Res (Out X) := do
  match a.r.last with
  | [] => return a.out ROFF_IGN a.r
  | p :: _ =>
    -- Remapped in roff_block().
    if p.tok = .ROFF_am1 ∨ p.tok = .ROFF_de1 then
      .error .abort
    else if p.tok.isBlock = false then
      return a.out ROFF_IGN a.r
    else
      let (_, r) := roffnodePop a.r
      let (_, r) := roffnodeCleanscope r
      -- If a conditional block with braces is still open, check for end markers.
      match r.last with
      | [] => return a.out ROFF_IGN r
      | q :: _ =>
        if q.endspan < 0 then
          let c ← roffCondCheckend r a.tok a.buf a.pos true
          return ⟨ROFF_IGN, c.r, c.buf, a.offs⟩
        else
          return a.out ROFF_IGN r

/-- The index after the custom end marker, if it occurs at `pos`. -/
def endMarker (p : Scope) (buf : CStr) (pos : Nat) : Option Nat :=
  match p.endMacro with
  | none => none
  | some stop =>
    let i := pos + stop.length
    let c := charAt buf i
    if stop.isPrefixOf (buf.drop pos) ∧ (c = NUL ∨ c = ' ' ∨ c = '\t') then
      some (skipWhile (fun c => c = ' ' || c = '\t') buf i)
    else
      none

/-- Append a line to the macro that is being defined, unless it is ignored. -/
def appendLine (r : Roff X) (tok : Tok) (line : CStr) : Res (Roff X) :=
  if tok = .ROFF_ig then .ok r
  else
    match r.last with
    | ⟨_, some name, _, _, _, _, _⟩ :: _ => .ok (roffSetstr r name (some line) 2)
    | _ => .error .null

/-- `roff_block_sub()` -/
def roffBlockSub (a : Args X) : Res (Out X) := do
  match a.r.last with
  | [] => .error .null
  | p :: _ =>
    match endMarker p a.buf.buf a.pos with
    | some i =>
      let (_, r) := roffnodePop a.r
      let (_, r) := roffnodeCleanscope r
      let t ← roffParse r a.buf i
      return ⟨if t.tok ≠ .TOKEN_NONE then ROFF_RERUN else ROFF_IGN, t.r, t.buf, a.offs⟩
    | none =>
      -- Handle the standard end marker.
      let t ← roffParse a.r a.buf a.pos
      if t.tok = .ROFF_cblock then
        roffCblock { a with r := t.r, tok := t.tok, buf := t.buf, pos := t.pos }
      else
        -- Not an end marker, so append the line to the block.
        let r ← appendLine t.r a.tok (t.buf.buf.drop a.ppos)
        return ⟨ROFF_IGN, r, t.buf, a.offs⟩

/-- `roff_block_text()` -/
def roffBlockText (a : Args X) : Res (Out X) := do
  return a.out ROFF_IGN (← appendLine a.r a.tok a.rest)

/-! ## §3 Requests -/

/-- `roffs[]`: the handler functions. For a token without a handler, a null pointer is
    called. -/
def roffProc (env : Env X) (fuel : Nat) (a : Args X) : Res (Out X) :=
  match a.tok with
  | .ROFF_br | .ROFF_brp | .ROFF_fi | .ROFF_nf => roffNoarg env a
  | .ROFF_ce | .ROFF_ft | .ROFF_ll | .ROFF_po | .ROFF_rj | .ROFF_sp | .ROFF_ti => roffOnearg env a
  | .ROFF_mc => roffMc a
  | .ROFF_ta => roffManyarg a
  | .ROFF_als => roffAls a
  | .ROFF_am | .ROFF_am1 | .ROFF_ami | .ROFF_ami1 | .ROFF_de | .ROFF_de1 | .ROFF_dei
  | .ROFF_dei1 | .ROFF_ig => roffBlock a
  | .ROFF_as | .ROFF_as1 | .ROFF_ds | .ROFF_ds1 => roffDs a
  | .ROFF_break => roffBreak a
  | .ROFF_cc => roffCc a
  | .ROFF_char => roffChar a
  | .ROFF_Dd | .ROFF_TH => roffDd a
  | .ROFF_ec => roffEc a
  | .ROFF_el | .ROFF_ie | .ROFF_if | .ROFF_while => roffCond env a
  | .ROFF_EN => roffEN env a
  | .ROFF_eo => roffEo a
  | .ROFF_EQ => roffEQ env a
  | .ROFF_it => roffIt env a
  | .ROFF_nop => roffNop a
  | .ROFF_nr => roffNr env a
  | .ROFF_return => roffReturn a
  | .ROFF_rm => roffRm a
  | .ROFF_rn => roffRn a
  | .ROFF_rr => roffRr a
  | .ROFF_shift => roffShift env a
  | .ROFF_so | .ROFF_soquiet => roffSo a
  | .ROFF_stringdown | .ROFF_stringup => roffStringup a
  | .ROFF_T_ => roffT_ env a
  | .ROFF_TE => roffTE env a
  | .ROFF_tr => roffTr a
  | .ROFF_TS => roffTS env a
  | .ROFF_cblock => roffCblock a
  | .lineIgnore _ => roffLineIgnore a
  | .insec _ => roffInsec a
  | .unsupp _ => roffUnsupp a
  | .ROFF_RENAMED => roffRenamed a
  | .ROFF_USERDEF => roffUserdef env fuel a
  | .TOKEN_NONE | .MDOC _ | .MAN _ => .error .null

/-- Tokens that are ignored inside tables, or that the table parser reads. -/
def Tok.inTable : Tok → Bool
  | .TOKEN_NONE | .ROFF_TS | .ROFF_br | .ROFF_ce | .ROFF_rj | .ROFF_sp => true
  | _ => false

/-- Tokens that abort `.ce` mode. -/
def Tok.abortsCe : Tok → Bool
  | .TOKEN_NONE | .ROFF_Dd | .ROFF_EQ | .ROFF_TH | .ROFF_TS => true
  | _ => false

/-- Let high level macros abort `.ce` mode. -/
def abortCe (r : Roff X) (tok : Tok) : Roff X :=
  match r.ceNode with
  | some n => if tok.abortsCe then { leaveCe r n with ceLines := 0, ceNode := none } else r
  | none => r

/-- `roff_req_or_macro()` -/
def roffReqOrMacro (env : Env X) (fuel : Nat) (a : Args X) : Res (Out X) := do
  if a.r.tbl ∧ a.tok.inTable then
    if a.tok ≠ .TOKEN_NONE then
      return a.out ROFF_IGN a.r
    else
      let pos := skipBlanks a.buf.buf (skipWhile (· ≠ ' ') a.buf.buf a.pos)
      return a.out ROFF_IGN (← readTbl env a.r a.ln a.buf.buf pos)
  else
    let r := abortCe a.r a.tok
    if a.tok = .TOKEN_NONE then
      -- Let the standard macro set parsers handle it.
      return a.out ROFF_CONT r
    else
      roffProc env fuel { a with r := r }

/-! ## §4 Conditional scopes -/

/-- The case `ROFF_break` in `roff_cond_sub()`: the rules up to the innermost loop become
    false. -/
def breakLoop : List Scope → List Scope
  | [] => []
  | p :: parents =>
    { p with rule := false } :: if p.tok = .ROFF_while then parents else breakLoop parents

/-- The arguments for the handler of the request or macro found at the parse point. -/
def Args.request (a : Args X) (t : Parsed X) : Args X :=
  { a with r := t.r, tok := t.tok, buf := t.buf, ppos := a.pos, pos := t.pos }

/-- `roff_cond_sub()` -/
def roffCondSub (env : Env X) (fuel : Nat) (a : Args X) : Res (Out X) := do
  -- If arguments follow the brace, skip them.
  let c ← roffCondCheckend a.r a.tok a.buf a.pos false
  let t ← roffParse c.r c.buf a.pos
  if t.tok = .ROFF_break then
    if c.irc.has ROFF_LOOPMASK then
      return ⟨ROFF_IGN ||| ROFF_LOOPEXIT, t.r, t.buf, a.offs⟩
    else if c.rr then
      return ⟨c.irc, { t.r with last := breakLoop t.r.last }, t.buf, a.offs⟩
    else
      return ⟨c.irc, t.r, t.buf, a.offs⟩
  else if c.rr ∨ t.tok.isStruct then
    let out ← roffReqOrMacro env fuel (a.request t)
    let irc := c.irc ||| out.code
    let irc := if irc.has ROFF_WHILE then irc &&& ~~~(ROFF_LOOPCONT ||| ROFF_LOOPEXIT) else irc
    return { out with code := irc }
  else
    return ⟨c.irc, t.r, t.buf, a.offs⟩

/-- `roff_cond_text()` -/
def roffCondText (a : Args X) : Res (Out X) := do
  -- If arguments follow the brace, preserve them.
  let c ← roffCondCheckend a.r a.tok a.buf a.pos true
  return ⟨if c.rr then c.irc ||| ROFF_CONT else c.irc, c.r, c.buf, a.offs⟩

/-- `roffs[t].text`: the handler for text lines inside a scope. -/
def roffText (a : Args X) : Res (Out X) :=
  if a.tok.isCond then roffCondText a
  else if a.tok.isBlock then roffBlockText a
  else .error .null

/-- `roffs[t].sub`: the handler for requests and macros inside a scope. -/
def roffSub (env : Env X) (fuel : Nat) (a : Args X) : Res (Out X) :=
  if a.tok.isCond then roffCondSub env fuel a
  else if a.tok.isBlock then roffBlockSub a
  else .error .null

/-! ## §5 Text lines -/

/-- The loop of `roff_parsetext()`, with a bound on the number of iterations: convert all
    breakable hyphens into `ASCII_HYPH`. -/
def hyphenLoop (start : Nat) : Nat → CStr → Nat → Res CStr
  | 0, _, _ => .error .fuel
  | steps + 1, buf, p => do
    let _ ← rd buf p
    let p := skipWhile (fun c => c ≠ '-' && c ≠ '\\') buf p
    if charAt buf p = NUL then
      return buf
    else if charAt buf p = '\\' then
      -- Skip over escapes.
      let s ← mandocEscape buf p
      if s.rval = .ERROR then
        return buf
      else
        hyphenLoop start steps buf (skipWhile (· = '-') buf s.rend)
    else if p = start then
      hyphenLoop start steps buf (p + 1)
    else
      let buf :=
        if isalpha (charAt buf (p - 1)) && isalpha (charAt buf (p + 1)) then buf.set p ASCII_HYPH
        else buf
      hyphenLoop start steps buf (p + 1)

/-- The effect of a line of text on centering: end it when the number of lines is used up. -/
def countCe (r : Roff X) : Roff X :=
  match r.ceNode with
  | some n =>
    if r.ceLines < 1 then { leaveCe r n with ceLines := 0, ceNode := none }
    else { r with ceLines := r.ceLines - 1 }
  | none => r

/-- `roff_parsetext()` -/
def roffParsetext (r : Roff X) (buf : Buf) (pos offs : Nat) : Res (Out X) := do
  -- Spring the input line trap.
  if r.itLines = 1 then
    return ⟨ROFF_REPARSE, { r with itMacro := [], itLines := 0 },
      Buf.ofStr (buf.buf ++ "\n.".toList ++ r.itMacro), 0⟩
  else
    let r := if 1 < r.itLines then { r with itLines := r.itLines - 1 } else r
    let r := if charAt buf.buf pos ≠ NUL then countCe r else r
    let text ← hyphenLoop pos (buf.buf.length + 2) buf.buf pos
    return ⟨ROFF_CONT, r, { buf with buf := text }, offs⟩

/-! ## §6 Lines -/

/-- `roff_getcontrol()`: the index after the control character, unless this is a line of
    text. -/
def roffGetcontrol (r : Roff X) (cp : CStr) (pos : Nat) : Option Nat :=
  let c := charAt cp pos
  let next :=
    if r.control ≠ NUL then if c = r.control then some (pos + 1) else none
    else if c = '\\' ∧ charAt cp (pos + 1) = '.' then some (pos + 2)
    else if c = '.' ∨ c = '\'' then some (pos + 1)
    else none
  next.map (skipWhile (fun c => c = ' ' || c = '\t') cp)

/-- The first stage of `roff_parseln()`: in-line equations, comments, and escape sequences.
    Either the line is done, or its expansion is to be processed. -/
def roffPrepare (env : Env X) (fuel : Nat) (r : Roff X) (ln : Nat) (buf : Buf) (offs : Nat) :
    Res (Out X) := do
  -- Handle in-line equation delimiters.
  let delims := if !r.tbl && r.lastEqn && (!r.eqn || r.eqnInline) then env.eqnDelim r.x else none
  match delims.bind fun d => roffEqndelim r d buf offs with
  | some (r, buf) => return ⟨ROFF_REPARSE, r, buf, offs⟩
  | none =>
    -- Handle comments and escape sequences.
    let (e, r, buf) ← roffParseComment r buf ln offs r.escape
    if e &&& ROFF_MASK = ROFF_IGN then
      return ⟨e, r, buf, offs⟩
    else
      let e ← roffExpand env fuel r buf offs r.escape
      return ⟨e.code, e.r, e.buf, offs⟩

/-- The second stage of `roff_parseln()`: if a scope is open and we're not a macro, pass the
    text through the macro's filter. -/
def roffFilter (r : Roff X) (ctl : Bool) (ln : Nat) (buf : Buf) (pos offs : Nat) :
    Res (Out X) :=
  match r.last with
  | p :: _ => if ctl then .ok ⟨ROFF_CONT, r, buf, offs⟩ else roffText ⟨r, p.tok, buf, ln, pos, pos, offs⟩
  | [] => .ok ⟨ROFF_CONT, r, buf, offs⟩

/-- The last stage of `roff_parseln()`: requests and macros. -/
def roffControl (env : Env X) (fuel : Nat) (r : Roff X) (ln : Nat) (buf : Buf)
    (ppos pos offs : Nat) : Res (Out X) := do
  -- Skip empty request lines.
  if charAt buf.buf pos = '"' ∨ charAt buf.buf pos = NUL then
    return ⟨ROFF_IGN, r, buf, offs⟩
  else
    match r.last with
    -- If a scope is open, go to the child handler for that macro.
    | p :: _ => roffSub env fuel ⟨r, p.tok, buf, ln, ppos, pos, offs⟩
    | [] =>
      let t ← roffParse { r with optComment := false } buf pos
      roffReqOrMacro env fuel ⟨t.r, t.tok, t.buf, ln, pos, t.pos, offs⟩

/-- The rest of `roff_parseln()`, for an expanded line: equations process all content
    themselves, and tables process almost all content themselves. -/
def roffDispatch (env : Env X) (fuel : Nat) (r : Roff X) (ln : Nat) (buf : Buf) (offs : Nat) :
    Res (Out X) := do
  let control := roffGetcontrol r buf.buf offs
  let pos := control.getD offs
  let f ← roffFilter r control.isSome ln buf pos offs
  if f.code &&& ROFF_MASK = ROFF_IGN then
    return f
  else
    let e := f.code &&& ~~~ROFF_MASK
    let line := f.buf.buf.drop offs
    if f.r.eqn ∧ line.take 3 ≠ ".EN".toList then
      return ⟨e, { f.r with x := env.eqnRead f.r.x line }, f.buf, f.offs⟩
    else if f.r.tbl ∧ (control = none ∨ charAt f.buf.buf pos = NUL) then
      return ⟨e, ← readTbl env f.r ln f.buf.buf offs, f.buf, f.offs⟩
    else if control = none then
      let out ← roffParsetext { f.r with optComment := false } f.buf pos f.offs
      return { out with code := out.code ||| e }
    else
      roffControl env fuel f.r ln f.buf offs pos f.offs

/-- `roff_parseln()`, with a bound on the iterations of each call of `roff_expand()`. -/
def roffParseln (env : Env X) (fuel : Nat) (r : Roff X) (ln : Nat) (buf : Buf) (offs : Nat) :
    Res (Out X) := do
  let p ← roffPrepare env fuel r ln buf offs
  if p.code ≠ ROFF_CONT then
    return p
  else
    roffDispatch env fuel p.r ln p.buf offs

end Mandoc
