import Mandoc.Roff.PlainLines
import Mandoc.Roff.Rename

/-!
# Capturing Macro Definitions

After a request `.de` or `.am`, every line up to the end marker becomes part of the definition.
The lines are still parsed: a control line is searched for a request or macro name before it is
stored, and a custom end marker is matched by a loop of its own.

## Shape of the proof

- `Defining` is the invariant that holds between the request and the end marker.
- `Stored` and `EndsBlock` say which lines are stored, and which line ends the block, in a way
  that has no other effect.
- `Body` is the run of the parser over the lines of the definition.
-/

namespace Mandoc

variable {X : Type}

/-! ## §1 Names -/

/-- Whether the name has got some definition. -/
def Known (r : Roff X) (name : CStr) : Prop :=
  (lookup r.strtab name).isSome ∨ (lookup r.rentab name).isSome ∨
    (predefs.find? (·.1.toList = name)).isSome ∨ isStd r.man.macroset name = true ∨
    roffhashFind name ≠ .TOKEN_NONE

/-- The token of a known name. -/
def tokOf (r : Roff X) (name : CStr) : Tok :=
  if (lookup r.strtab name).isSome then .ROFF_USERDEF
  else if (lookup r.rentab name).isSome then .ROFF_RENAMED
  else roffhashFind name

/-- What `roff_parse()` does once the name has been looked up. -/
def parseName (g : GetStr X) (buf : Buf) (mac : CStr) (pos cp : Nat) : Res (Parsed X) :=
  let r := { g.r with currentString := g.res }
  let t := match g.deftype with
    | .USER => .ROFF_USERDEF
    | .REN => .ROFF_RENAMED
    | _ => roffhashFind mac
  if t ≠ .TOKEN_NONE then
    .ok ⟨t, r, buf, cp⟩
  else if g.deftype = .UNDEF then
    .ok ⟨t, roffSetstr r mac (some []) 0, buf, pos⟩
  else
    .ok ⟨t, r, buf, pos⟩

theorem getstrn_of_user {r : Roff X} {name : CStr} (h : (lookup r.strtab name).isSome) :
    roffGetstrn r name [.USER, .REN] = ⟨lookup r.strtab name, .USER, r⟩ := by
  rw [roffGetstrn, h, if_pos (by decide)]

theorem getstrn_of_ren {r : Roff X} {name : CStr} (huser : ¬ (lookup r.strtab name).isSome)
    (h : (lookup r.rentab name).isSome) :
    roffGetstrn r name [.USER, .REN] = ⟨lookup r.rentab name, .REN, r⟩ := by
  rw [roffGetstrn, Bool.eq_false_of_not_eq_true huser, h, if_neg (by simp), if_pos (by decide)]

/-- Looking up any other name. -/
theorem getstrn_of_other {r : Roff X} {name : CStr} (huser : ¬ (lookup r.strtab name).isSome)
    (hren : ¬ (lookup r.rentab name).isSome) :
    roffGetstrn r name [.USER, .REN] =
      ⟨none, if (predefs.find? (·.1.toList = name)).isSome || isStd r.man.macroset name then .none
        else .UNDEF, r⟩ := by
  rw [roffGetstrn, Bool.eq_false_of_not_eq_true huser, Bool.eq_false_of_not_eq_true hren]
  cases (predefs.find? (·.1.toList = name)).isSome <;> cases isStd r.man.macroset name <;> rfl

/-- On a line without escape sequences, a word is parsed as a name. -/
theorem roffParse_eq {r : Roff X} {line : CStr} {sz pos : Nat} {ec : Char} (hline : Plain ec line)
    (hpos : pos < line.length) (hquote : charAt line pos ≠ '"')
    (hblank : endsWord (charAt line pos) = false) :
    roffParse r ⟨line, sz⟩ pos =
      parseName (roffGetstrn r (word line pos) [.USER, .REN]) ⟨line, sz⟩ (word line pos) pos
        (nextWord line pos) := by
  have hno : ¬ (charAt line pos = NUL ∨ charAt line pos = '"' ∨ charAt line pos = '\t' ∨
      charAt line pos = ' ') := by
    rintro (h | h | h | h)
    · exact charAt_ne_nul hline.noNul hpos h
    · exact hquote h
    · rw [h] at hblank
      exact absurd hblank (by decide)
    · rw [h] at hblank
      exact absurd hblank (by decide)
  rw [roffParse]
  dsimp only
  rw [if_neg hno, roffGetname_plain hline.noBackslash hline.noNul hpos.le, Res.ok_bind,
    getName_name_word hpos.le]
  rfl

/-- Parsing a known name does not change any definition. -/
theorem roffParse_known {r : Roff X} {line : CStr} {pos : Nat} {ec : Char} (sz : Nat)
    (hline : Plain ec line) (hpos : pos < line.length) (hquote : charAt line pos ≠ '"')
    (hblank : endsWord (charAt line pos) = false) (hknown : Known r (word line pos)) :
    ∃ cs pos', roffParse r ⟨line, sz⟩ pos =
      .ok ⟨tokOf r (word line pos), { r with currentString := cs }, ⟨line, sz⟩, pos'⟩ := by
  rw [roffParse_eq hline hpos hquote hblank, parseName, tokOf]
  by_cases huser : (lookup r.strtab (word line pos)).isSome
  · rw [getstrn_of_user huser, if_pos huser]
    exact ⟨_, _, rfl⟩
  · rw [if_neg huser]
    by_cases hren : (lookup r.rentab (word line pos)).isSome
    · rw [getstrn_of_ren huser hren, if_pos hren]
      exact ⟨_, _, rfl⟩
    · rw [getstrn_of_other huser hren, if_neg hren]
      by_cases htok : roffhashFind (word line pos) = .TOKEN_NONE
      -- The name is that of a predefined string or of a high-level macro.
      · have hstd : ((predefs.find? (·.1.toList = word line pos)).isSome ||
            isStd r.man.macroset (word line pos)) = true := by
          rcases hknown with h | h | h | h | h
          · exact absurd h huser
          · exact absurd h hren
          · simp [h]
          · simp [h]
          · exact absurd htok h
        rw [hstd, htok]
        exact ⟨_, _, rfl⟩
      · refine ⟨none, nextWord line pos, ?_⟩
        split_ifs
        · rfl
        · rfl

/-- Parsing an undefined name defines it to be empty. -/
theorem roffParse_unknown {r : Roff X} {line : CStr} {pos : Nat} {ec : Char} (sz : Nat)
    (hline : Plain ec line) (hpos : pos < line.length) (hquote : charAt line pos ≠ '"')
    (hblank : endsWord (charAt line pos) = false) (hknown : ¬ Known r (word line pos)) :
    roffParse r ⟨line, sz⟩ pos =
      .ok ⟨.TOKEN_NONE, roffSetstr { r with currentString := none } (word line pos) (some []) 0,
        ⟨line, sz⟩, pos⟩ := by
  simp only [Known, not_or] at hknown
  obtain ⟨huser, hren, hpre, hstd, htok⟩ := hknown
  have hnone : ((predefs.find? (·.1.toList = word line pos)).isSome ||
      isStd r.man.macroset (word line pos)) = false := by simp [hpre, hstd]
  rw [roffParse_eq hline hpos hquote hblank, getstrn_of_other huser hren, hnone,
    if_neg Bool.false_ne_true, parseName]
  dsimp only
  rw [if_neg htok, if_pos rfl, not_not.mp htok]

/-- Only the standard end marker has its token, unless the name has been redefined. -/
theorem tokOf_cblock_iff {r : Roff X} {name : CStr} :
    tokOf r name = .ROFF_cblock ↔
      name = ['.'] ∧ lookup r.strtab ['.'] = none ∧ lookup r.rentab ['.'] = none := by
  -- There is only one request with this token, and its name is a dot.
  have hreq : ∀ p ∈ reqtab, p.2 = .ROFF_cblock → p.1 = "." := by decide +kernel
  have hhash : roffhashFind name = .ROFF_cblock ↔ name = ['.'] := by
    constructor
    · intro h
      unfold roffhashFind at h
      split at h
      · next s t hfind =>
        have hs := List.mem_of_find?_eq_some hfind
        have hname := List.find?_some hfind
        rw [← of_decide_eq_true hname, hreq _ hs h]
        rfl
      · cases h
    · rintro rfl
      decide
  unfold tokOf
  -- Macros and renamed requests are looked up first.
  split_ifs with huser hren
  · refine iff_of_false (by simp) ?_
    rintro ⟨rfl, h, -⟩
    rw [h] at huser
    cases huser
  · refine iff_of_false (by simp) ?_
    rintro ⟨rfl, -, h⟩
    rw [h] at hren
    cases hren
  · rw [hhash]
    refine ⟨?_, And.left⟩
    rintro rfl
    exact ⟨rfl, Option.not_isSome_iff_eq_none.mp huser, Option.not_isSome_iff_eq_none.mp hren⟩

/-! ## §2 The definition in progress -/

/-- The macro `name` has the definition `value`, and all other definitions and the rest of the
    state are as in `r₀`. -/
structure Defined (r₀ : Roff X) (name : CStr) (value : Option CStr) (r : Roff X) : Prop where
  value : lookup r.strtab name = value
  user : ∀ key, key ≠ name → lookup r.strtab key = lookup r₀.strtab key
  ren : ∀ key, key ≠ name → lookup r.rentab key = lookup r₀.rentab key
  table : StrTable r.strtab
  frame : r = { r₀ with
    last := r.last, strtab := r.strtab, rentab := r.rentab, currentString := r.currentString }

/-- Between the request and the end marker: the macro `name` is being defined, and `value` is
    what has been stored for it so far. -/
structure Defining (r₀ : Roff X) (name : CStr) (stop value : Option CStr) (r : Roff X) : Prop
    extends Defined r₀ name value r where
  scope : ∃ p parents, r.last = p :: parents ∧ (p.tok = .ROFF_de ∨ p.tok = .ROFF_am) ∧
    p.name = some name ∧ p.endMacro = stop

/-- Scopes and the value of the last name that was looked up are not definitions. -/
theorem Defined.with_last {r₀ r : Roff X} {name : CStr} {value : Option CStr}
    (h : Defined r₀ name value r) (last : List Scope) (cs : Option CStr) :
    Defined r₀ name value { r with last := last, currentString := cs } where
  value := h.value
  user := h.user
  ren := h.ren
  table := h.table
  frame := by conv_lhs => rw [h.frame]

/-- A line that does not contain an in-line equation, and no escape sequences. -/
structure Regular (env : Env X) (r : Roff X) (line : CStr) : Prop where
  plain : Plain r.escape line
  noDelim : ∀ d, env.eqnDelim r.x = some d → r.lastEqn = true → r.tbl = false → d.1 ∉ line

/-- A line that is stored without any other effect. A control line contains the name of something
    that is defined, and that name is not an end marker. -/
structure Stored (env : Env X) (r : Roff X) (name : CStr) (stop : Option CStr) (line : CStr) : Prop
    extends Regular env r line where
  notEmpty : ∀ pos, roffGetcontrol r line 0 = some pos → pos < line.length ∧ charAt line pos ≠ '"'
  known : ∀ pos, roffGetcontrol r line 0 = some pos →
    word line pos = name ∨ Known r (word line pos)
  noMarker : ∀ pos, roffGetcontrol r line 0 = some pos →
    word line pos ≠ ['.'] ∧ some (word line pos) ≠ stop

/-- The definition grows by one line. -/
def storeLine (value : Option CStr) (line : CStr) : Option CStr :=
  some (value.getD [] ++ line ++ ['\n'])

/-- Looking up a name does not change any definition. -/
theorem Defining.withString {r₀ r : Roff X} {name : CStr} {stop value : Option CStr}
    (h : Defining r₀ name stop value r) (cs : Option CStr) :
    Defining r₀ name stop value { r with currentString := cs } where
  scope := h.scope
  value := h.value
  user := h.user
  ren := h.ren
  table := h.table
  frame := by conv_lhs => rw [h.frame]

theorem Defining.known {r₀ r : Roff X} {name key : CStr} {stop value : Option CStr}
    (h : Defining r₀ name stop value r) (hkey : key ≠ name) (hknown : Known r₀ key) :
    Known r key := by
  have hman : r.man = r₀.man := by rw [h.frame]
  unfold Known at hknown ⊢
  rwa [h.user key hkey, h.ren key hkey, hman]

/-- Setting the definition of the macro does not change any other definition. -/
theorem Defining.setstr {r₀ r : Roff X} {name string : CStr} {stop value : Option CStr}
    (h : Defining r₀ name stop value r) (append : Nat) :
    Defining r₀ name stop (setVal (some string) append value)
      (roffSetstr r name (some string) append) where
  scope := h.scope
  value := by
    have hlook : lookup (roffSetstrn r.strtab name (some string) append) name =
        setVal (some string) append (lookup r.strtab name) := lookup_setstrn_self h.table
    rwa [h.value] at hlook
  user := fun key hkey => (lookup_setstrn_of_ne hkey).trans (h.user key hkey)
  ren := fun key hkey => (lookup_setstrn_of_ne hkey).trans (h.ren key hkey)
  table := h.table.set ..
  frame := by
    rw [roffSetstr]
    conv_lhs => rw [h.frame]

/-- Storing a line changes the definition of the macro only. -/
theorem Defining.store {r₀ r : Roff X} {name line : CStr} {stop value : Option CStr}
    (h : Defining r₀ name stop value r) (hline : '\\' ∉ line) :
    Defining r₀ name stop (storeLine value line) (roffSetstr r name (some line) 2) := by
  have hcopy : copyMode line = line := by
    have := copyMode_append hline []
    rwa [List.append_nil, show copyMode [] = [] from rfl, List.append_nil] at this
  have hset : Defining r₀ name stop (setVal (some line) 2 value)
      (roffSetstr r name (some line) 2) := h.setstr 2
  rw [setVal, hcopy] at hset
  exact hset

/-! ## §3 One line -/

theorem strchrFrom_notMem {s : CStr} {c : Char} (h : c ∉ s) : strchrFrom s 0 c = none := by
  have hall : s.takeWhile (· ≠ c) = s :=
    List.takeWhile_eq_self_iff.mpr fun d hd => by
      have : d ≠ c := fun hdc => h (hdc ▸ hd)
      simpa using this
  have hskip : skipWhile (· ≠ c) s 0 = s.length := by
    rw [skipWhile, List.drop_zero, hall, Nat.zero_add]
  rw [strchrFrom, hskip, if_neg (lt_irrefl _)]

/-- The first stage passes a regular line on as it is. -/
theorem roffPrepare_regular {env : Env X} {fuel ln : Nat} {r : Roff X} {line : CStr}
    (hline : Regular env r line) (heqn : r.eqn = false) (hfuel : line.length < fuel) :
    roffPrepare env fuel r ln (Buf.ofStr line) 0 = .ok ⟨ROFF_CONT, r, Buf.ofStr line, 0⟩ := by
  have hdelim : ((if !r.tbl && r.lastEqn && (!r.eqn || r.eqnInline) then env.eqnDelim r.x
      else none).bind fun d => roffEqndelim r d (Buf.ofStr line) 0) = none := by
    split_ifs with hc
    · cases hd : env.eqnDelim r.x with
      | none => rfl
      | some d =>
        simp only [Bool.and_eq_true, Bool.not_eq_true'] at hc
        have hno := hline.noDelim d hd hc.1.2 hc.1.1
        rw [Option.bind_some, roffEqndelim, heqn, if_neg (by simp)]
        rw [show (Buf.ofStr line).buf = line from rfl, strchrFrom_notMem hno]
    · rfl
  rw [roffPrepare, hdelim]
  dsimp only
  rw [roffParseComment_plain hline.plain, Res.ok_bind]
  dsimp only
  rw [if_neg (by decide), roffExpand_plain env hline.plain hfuel]
  rfl

theorem appendLine_eq {r : Roff X} {p : Scope} {parents : List Scope} {name : CStr} {tok : Tok}
    (hlast : r.last = p :: parents) (hname : p.name = some name) (htok : tok ≠ .ROFF_ig)
    (line : CStr) : appendLine r tok line = .ok (roffSetstr r name (some line) 2) := by
  obtain ⟨_, _, _, _, _, _, _⟩ := p
  cases hname
  rw [appendLine, if_neg htok, hlast]

/-- Where a request line contains a name, there is no blank. -/
theorem endsWord_control {r : Roff X} {line : CStr} {pos : Nat}
    (hpos : roffGetcontrol r line 0 = some pos) (hlt : pos < line.length) :
    endsWord (charAt line pos) = false := by
  unfold roffGetcontrol at hpos
  obtain ⟨i, -, rfl⟩ := Option.map_eq_some_iff.mp hpos
  by_cases hi : i ≤ line.length
  · exact (skipWhile_spec (fun c => c = ' ' || c = '\t') hi).2.2.2 hlt
  · rw [skipWhile_of_ge _ (Nat.le_of_not_le hi)] at hlt
    omega

theorem word_eq_takeWhile (line : CStr) (pos : Nat) :
    word line pos = (line.drop pos).takeWhile fun c => !endsWord c := by
  rw [word, slice, wordEnd, skipWhile, Nat.add_sub_cancel_left]
  exact (List.prefix_iff_eq_take.mp (List.takeWhile_prefix _)).symm

/-- A custom end marker is recognised exactly where the word is the marker. -/
theorem endMarker_eq {p : Scope} {line stop : CStr} {pos : Nat} (hnul : NUL ∉ line)
    (hend : p.endMacro = some stop) (hstop : ∀ c ∈ stop, endsWord c = false) :
    endMarker p line pos =
      if word line pos = stop then some (skipWhile endsWord line (pos + stop.length)) else none := by
  have hchar : charAt line (pos + stop.length) = charAt (line.drop pos) stop.length :=
    (charAt_drop ..).symm
  rw [endMarker, hend]
  dsimp only
  rw [hchar, word_eq_takeWhile]
  have hnul' : NUL ∉ line.drop pos := fun h => hnul (List.mem_of_mem_drop h)
  generalize line.drop pos = rest at hnul' ⊢
  by_cases hw : (rest.takeWhile fun c => !endsWord c) = stop
  · -- The first word is the marker, so a blank or the end of the line follows.
    have hprefix : stop <+: rest := hw ▸ List.takeWhile_prefix _
    have hafter : charAt rest stop.length = NUL ∨ charAt rest stop.length = ' ' ∨
        charAt rest stop.length = '\t' := by
      have hsplit : rest = stop ++ rest.dropWhile fun c => !endsWord c := by
        conv_lhs => rw [← List.takeWhile_append_dropWhile (p := fun c => !endsWord c) (l := rest)]
        rw [hw]
      have hdrop := charAt_append stop (rest.dropWhile fun c => !endsWord c) 0
      rw [← hsplit, Nat.add_zero] at hdrop
      rw [hdrop]
      cases hr : rest.dropWhile fun c => !endsWord c with
      | nil => exact .inl rfl
      | cons c t =>
        have hc : endsWord c = true := by
          have h := List.head_dropWhile_not (fun c => !endsWord c) (l := rest) (by rw [hr]; simp)
          simp only [hr, List.head_cons] at h
          exact Bool.not_eq_eq_eq_not.mp h
        exact .inr (by simpa [endsWord] using hc)
    rw [if_pos hw, if_pos ⟨List.isPrefixOf_iff_prefix.mpr hprefix, hafter⟩]
    rfl
  · -- Conversely, a marker with a blank or the end behind it is the whole first word.
    rw [if_neg hw, if_neg]
    rintro ⟨hpre, hafter⟩
    obtain ⟨t, rfl⟩ := List.isPrefixOf_iff_prefix.mp hpre
    refine hw ?_
    have hdrop := charAt_append stop t 0
    rw [Nat.add_zero] at hdrop
    rw [hdrop] at hafter
    rw [List.takeWhile_append_of_pos fun c hc => by simpa using hstop c hc]
    cases t with
    | nil => rw [List.takeWhile_nil, List.append_nil]
    | cons c t =>
      rw [List.takeWhile_cons_of_neg, List.append_nil]
      rcases hafter with rfl | hc
      · exact absurd (List.mem_append_right _ List.mem_cons_self) hnul'
      · have hblank : endsWord c = true := by simpa [endsWord] using hc
        simp [hblank]

/-- A line of text that the filter ignores. -/
theorem roffDispatch_ignored {env : Env X} {fuel ln : Nat} {r : Roff X} {line : CStr} {f : Out X}
    (hctl : roffGetcontrol r line 0 = none)
    (hfilter : roffFilter r false ln (Buf.ofStr line) 0 0 = .ok f) (hcode : f.code = ROFF_IGN) :
    roffDispatch env fuel r ln (Buf.ofStr line) 0 = .ok f := by
  have hctl' : roffGetcontrol r (Buf.ofStr line).buf 0 = none := hctl
  have hmask : f.code &&& ROFF_MASK = ROFF_IGN := by
    rw [hcode]
    decide
  rw [roffDispatch]
  dsimp only
  rw [hctl']
  dsimp only [Option.getD_none, Option.isSome_none]
  rw [hfilter, Res.ok_bind, if_pos hmask]
  rfl

/-- Outside of equations, and for control lines with a name, tables do not interfere. -/
theorem roffDispatch_control {env : Env X} {fuel ln pos : Nat} {r : Roff X} {line : CStr}
    (heqn : r.eqn = false) (hctl : roffGetcontrol r line 0 = some pos) (hpos : pos < line.length)
    (hnul : NUL ∉ line) (hquote : charAt line pos ≠ '"') {p : Scope} {parents : List Scope}
    (hlast : r.last = p :: parents) :
    roffDispatch env fuel r ln (Buf.ofStr line) 0 =
      roffSub env fuel ⟨r, p.tok, Buf.ofStr line, ln, 0, pos, 0⟩ := by
  have hne := charAt_ne_nul hnul hpos
  have hfilter : roffFilter r true ln (Buf.ofStr line) pos 0 =
      .ok ⟨ROFF_CONT, r, Buf.ofStr line, 0⟩ := by
    rw [roffFilter, hlast]
    rfl
  have hcontrol : roffControl env fuel r ln (Buf.ofStr line) 0 pos 0 =
      roffSub env fuel ⟨r, p.tok, Buf.ofStr line, ln, 0, pos, 0⟩ := by
    unfold roffControl
    rw [if_neg (by rintro (h | h); exacts [hquote h, hne h])]
    split
    · next q qs hq =>
      obtain ⟨rfl, -⟩ := List.cons.inj (hlast.symm.trans hq)
      rfl
    · next hnil => exact absurd (hlast.symm.trans hnil) (by simp)
  rw [roffDispatch]
  dsimp only
  rw [show (Buf.ofStr line).buf = line from rfl, hctl]
  dsimp only [Option.getD_some, Option.isSome_some]
  rw [hfilter, Res.ok_bind]
  dsimp only
  rw [if_neg (by decide), heqn, if_neg (by simp), if_neg fun h => h.2.elim (by simp) hne,
    if_neg (by simp)]
  exact hcontrol

/-- Without an end marker, a control line is appended, too. -/
theorem roffBlockSub_stored {a : Args X} {p : Scope} {parents : List Scope} {t : Parsed X}
    (hlast : a.r.last = p :: parents) (hnone : endMarker p a.buf.buf a.pos = none)
    (hparse : roffParse a.r a.buf a.pos = .ok t) (htok : t.tok ≠ .ROFF_cblock) :
    roffBlockSub a = (appendLine t.r a.tok (t.buf.buf.drop a.ppos)).map fun r =>
      ⟨ROFF_IGN, r, t.buf, a.offs⟩ := by
  unfold roffBlockSub
  split
  · next hnil => exact absurd (hlast.symm.trans hnil) (by simp)
  · next q qs hq =>
    obtain ⟨rfl, -⟩ := List.cons.inj (hlast.symm.trans hq)
    rw [hnone]
    dsimp only
    rw [hparse, Res.ok_bind, if_neg htok]
    cases appendLine t.r a.tok (t.buf.buf.drop a.ppos) <;> rfl

/-- **Body lines.** A line that may be stored is stored. -/
theorem Defining.body {env : Env X} {fuel ln : Nat} {r₀ r : Roff X} {name line : CStr}
    {stop value : Option CStr} (h : Defining r₀ name stop value r) (heqn : r₀.eqn = false)
    (hstop : ∀ s, stop = some s → ∀ c ∈ s, endsWord c = false)
    (hline : Stored env r₀ name stop line) (hfuel : line.length < fuel) :
    ∃ out, roffParseln env fuel r ln (Buf.ofStr line) 0 = .ok out ∧ out.code = ROFF_IGN ∧
      Defining r₀ name stop (storeLine value line) out.r := by
  obtain ⟨p, parents, hlast, htok, hname, hend⟩ := h.scope
  have hf := h.frame
  have heqn' : r.eqn = false := by rw [hf]; exact heqn
  have hctl : ∀ l, roffGetcontrol r l 0 = roffGetcontrol r₀ l 0 := fun l => by rw [hf]; rfl
  have hreg : Regular env r line := by
    refine ⟨?_, ?_⟩
    · rw [hf]
      exact hline.plain
    · rw [hf]
      exact hline.noDelim
  have hcond : p.tok.isCond = false := by rcases htok with ht | ht <;> rw [ht] <;> rfl
  have hblock : p.tok.isBlock = true := by rcases htok with ht | ht <;> rw [ht] <;> rfl
  have hig : p.tok ≠ .ROFF_ig := by rcases htok with ht | ht <;> rw [ht] <;> simp
  rw [roffParseln, roffPrepare_regular hreg heqn' hfuel, Res.ok_bind, if_neg (by simp)]
  dsimp only
  cases hc : roffGetcontrol r line 0 with
  | none =>
    have hfilter : roffFilter r false ln (Buf.ofStr line) 0 0 =
        .ok ⟨ROFF_IGN, roffSetstr r name (some line) 2, Buf.ofStr line, 0⟩ := by
      rw [roffFilter, hlast]
      dsimp only
      rw [if_neg (by simp), roffText, hcond, if_neg (by simp), hblock, if_pos rfl, roffBlockText]
      dsimp only
      rw [appendLine_eq hlast hname hig]
      rfl
    refine ⟨⟨ROFF_IGN, roffSetstr r name (some line) 2, Buf.ofStr line, 0⟩, ?_, rfl,
      h.store hline.plain.noBackslash⟩
    exact roffDispatch_ignored hc hfilter rfl
  | some pos =>
    have hc₀ : roffGetcontrol r₀ line 0 = some pos := (hctl line).symm.trans hc
    obtain ⟨hpos, hquote⟩ := hline.notEmpty pos hc₀
    obtain ⟨hdot, hmarker⟩ := hline.noMarker pos hc₀
    have hblank := endsWord_control hc hpos
    have hplain := hreg.plain
    have hnone : endMarker p line pos = none := by
      cases hs : stop with
      | none => rw [endMarker, hend, hs]
      | some s =>
        rw [endMarker_eq hplain.noNul (hend.trans hs) (hstop s hs), if_neg]
        rintro rfl
        exact hmarker hs.symm
    -- Parsing the name does not change any definition but that of the macro itself.
    have hname' : ∃ t v, roffParse r (Buf.ofStr line) pos = .ok t ∧ t.buf = Buf.ofStr line ∧
        t.tok ≠ .ROFF_cblock ∧ v.getD [] = value.getD [] ∧ Defining r₀ name stop v t.r := by
      by_cases hknown : Known r (word line pos)
      · obtain ⟨cs, pos', hparse⟩ := roffParse_known (line.length + 1) hplain hpos hquote hblank hknown
        exact ⟨_, value, hparse, rfl, fun ht => hdot (tokOf_cblock_iff.mp ht).1, rfl,
          h.withString cs⟩
      · have hparse := roffParse_unknown (line.length + 1) hplain hpos hquote hblank hknown
        have hword : word line pos = name := by
          by_contra hne
          exact hknown ((hline.known pos hc₀).elim (absurd · hne) (h.known hne))
        have hvalue : value = none := by
          rw [hword, Known, h.value, not_or] at hknown
          exact Option.not_isSome_iff_eq_none.mp hknown.1
        refine ⟨_, setVal (some []) 0 value, hparse, rfl, by simp, ?_, ?_⟩
        · rw [hvalue]
          rfl
        · rw [hword]
          exact (h.withString none).setstr 0
    obtain ⟨t, v, hparse, hbuf, htok', hv, hdef⟩ := hname'
    obtain ⟨q, qs, hlast', -, hname'', -⟩ := hdef.scope
    refine ⟨⟨ROFF_IGN, roffSetstr t.r name (some line) 2, t.buf, 0⟩, ?_, rfl, ?_⟩
    · rw [roffDispatch_control heqn' hc hpos hplain.noNul hquote hlast, roffSub, hcond,
        if_neg (by simp), hblock, if_pos rfl, roffBlockSub_stored hlast hnone hparse htok', hbuf]
      rw [appendLine_eq hlast' hname'' hig]
      rfl
    · have hstore := hdef.store hline.plain.noBackslash
      rwa [storeLine, hv] at hstore

/-! ## §4 The end marker -/

/-- Text without backslashes does not contain a closing brace. -/
theorem checkendLoop_plain (rr : Bool) (r : Roff X) {s : CStr} (hs : '\\' ∉ s) :
    checkendLoop rr r s = (s, r, false) := by
  induction s with
  | nil => rfl
  | cons c s ih =>
    have hc : c ≠ '\\' := fun h => hs (h ▸ List.mem_cons_self)
    have hrest := ih fun h => hs (List.mem_cons_of_mem _ h)
    cases s with
    | nil => rfl
    | cons d s =>
      rw [checkendLoop, if_pos hc, hrest]

/-- Without a closing brace, only scopes ending with the line are closed. -/
theorem roffCondCheckend_plain {r : Roff X} {p : Scope} {parents : List Scope} {buf : Buf}
    (hlast : r.last = p :: parents) (hbuf : '\\' ∉ buf.buf) (tok : Tok) (pos : Nat)
    (preserve : Bool) : ∃ c last, roffCondCheckend r tok buf pos preserve = .ok c ∧
      c.r = { r with last := last } := by
  have hrest : '\\' ∉ buf.buf.drop pos := fun h => hbuf (List.mem_of_mem_drop h)
  unfold roffCondCheckend
  split
  · next hnil => exact absurd (hlast.symm.trans hnil) (by simp)
  · refine ⟨_, (cleanscope r.last).2, rfl, ?_⟩
    rw [checkendLoop_plain _ _ hrest]

/-- Whether an end marker is to be interpreted: it is the name of a user-defined macro or of a
    request. -/
def Called (r : Roff X) (stop : CStr) : Prop :=
  (lookup r.strtab stop).isSome ∨ roffhashFind stop ≠ .TOKEN_NONE

/-- Whether a word starts at an index. -/
def HasWord (line : CStr) (i : Nat) : Prop := i < line.length ∧ charAt line i ≠ '"'

/-- A line that ends a block without any other effect. After a custom end marker, the first
    argument has to be defined, if there is one, and it has to be the name of a macro or request
    if and only if the end marker is one. -/
inductive EndsBlock (env : Env X) (r : Roff X) : Option CStr → CStr → Prop where
  | standard {line : CStr} {pos : Nat} (hline : Regular env r line)
      (hctl : roffGetcontrol r line 0 = some pos) (hword : word line pos = ['.'])
      (huser : lookup r.strtab ['.'] = none) (hren : lookup r.rentab ['.'] = none) :
      EndsBlock env r none line
  | custom {line stop : CStr} {pos : Nat} (hline : Regular env r line)
      (hctl : roffGetcontrol r line 0 = some pos) (hbegin : HasWord line pos)
      (hword : word line pos = stop) (hstop : ∀ c ∈ stop, endsWord c = false)
      (hknown : HasWord line (skipWhile endsWord line (pos + stop.length)) →
        Known r (word line (skipWhile endsWord line (pos + stop.length))))
      (hcalled : (HasWord line (skipWhile endsWord line (pos + stop.length)) ∧
        tokOf r (word line (skipWhile endsWord line (pos + stop.length))) ≠ .TOKEN_NONE) ↔
          Called r stop) :
      EndsBlock env r (some stop) line

/-- Looking for an argument after the end marker. -/
theorem roffParse_argument {r : Roff X} {line : CStr} {i : Nat} {ec : Char} (hline : Plain ec line)
    (hblank : i < line.length → endsWord (charAt line i) = false)
    (hknown : HasWord line i → Known r (word line i)) :
    ∃ t cs, roffParse r (Buf.ofStr line) i = .ok t ∧ t.buf = Buf.ofStr line ∧
      t.r = { r with currentString := cs } ∧
      (t.tok ≠ .TOKEN_NONE ↔ HasWord line i ∧ tokOf r (word line i) ≠ .TOKEN_NONE) := by
  by_cases hw : HasWord line i
  · obtain ⟨cs, pos', hparse⟩ :=
      roffParse_known (line.length + 1) hline hw.1 hw.2 (hblank hw.1) (hknown hw)
    exact ⟨_, cs, hparse, rfl, rfl, (and_iff_right hw).symm⟩
  · have hc : charAt line i = NUL ∨ charAt line i = '"' := by
      by_cases hlt : i < line.length
      · exact .inr (by_contra fun hq => hw ⟨hlt, hq⟩)
      · exact .inl (charAt_of_ge (Nat.le_of_not_lt hlt))
    refine ⟨⟨.TOKEN_NONE, r, Buf.ofStr line, i⟩, r.currentString, ?_, rfl, rfl, ?_⟩
    · have hc' : charAt (Buf.ofStr line).buf i = NUL ∨ charAt (Buf.ofStr line).buf i = '"' ∨
          charAt (Buf.ofStr line).buf i = '\t' ∨ charAt (Buf.ofStr line).buf i = ' ' :=
        hc.imp_right .inl
      rw [roffParse]
      dsimp only
      rw [if_pos hc']
      rfl
    · exact iff_of_false (by simp) fun h => hw h.1

/-- After a custom end marker, the scope is closed and an argument is looked for. -/
theorem roffBlockSub_custom {a : Args X} {p : Scope} {parents : List Scope} {t : Parsed X} {i : Nat}
    (hlast : a.r.last = p :: parents) (hfound : endMarker p a.buf.buf a.pos = some i)
    (hparse : roffParse { a.r with last := (cleanscope parents).2 } a.buf i = .ok t) :
    roffBlockSub a =
      .ok ⟨if t.tok ≠ .TOKEN_NONE then ROFF_RERUN else ROFF_IGN, t.r, t.buf, a.offs⟩ := by
  have hpop : (roffnodeCleanscope (roffnodePop a.r).2).2 =
      { a.r with last := (cleanscope parents).2 } := by
    rw [roffnodePop, hlast]
    rfl
  unfold roffBlockSub
  split
  · next hnil => exact absurd (hlast.symm.trans hnil) (by simp)
  · next q qs hq =>
    obtain ⟨rfl, -⟩ := List.cons.inj (hlast.symm.trans hq)
    rw [hfound]
    dsimp only
    rw [hpop, hparse]
    rfl

/-- The standard end marker closes the block. -/
theorem roffBlockSub_standard {a : Args X} {p : Scope} {parents : List Scope} {t : Parsed X}
    (hlast : a.r.last = p :: parents) (hnone : endMarker p a.buf.buf a.pos = none)
    (hparse : roffParse a.r a.buf a.pos = .ok t) (htok : t.tok = .ROFF_cblock) :
    roffBlockSub a = roffCblock { a with r := t.r, tok := t.tok, buf := t.buf, pos := t.pos } := by
  unfold roffBlockSub
  split
  · next hnil => exact absurd (hlast.symm.trans hnil) (by simp)
  · next q qs hq =>
    obtain ⟨rfl, -⟩ := List.cons.inj (hlast.symm.trans hq)
    rw [hnone]
    dsimp only
    rw [hparse, Res.ok_bind, if_pos htok]

/-- Closing a macro definition only changes the stack of scopes. -/
theorem roffCblock_plain {a : Args X} {p : Scope} {parents : List Scope}
    (hlast : a.r.last = p :: parents) (htok : p.tok = .ROFF_de ∨ p.tok = .ROFF_am)
    (hbuf : '\\' ∉ a.buf.buf) :
    ∃ out last, roffCblock a = .ok out ∧ out.code = ROFF_IGN ∧ out.r = { a.r with last := last } := by
  have hone : ¬ (p.tok = .ROFF_am1 ∨ p.tok = .ROFF_de1) := by
    rcases htok with ht | ht <;> simp [ht]
  have hblock : p.tok.isBlock ≠ false := by rcases htok with ht | ht <;> rw [ht] <;> decide
  have hpop : (roffnodeCleanscope (roffnodePop a.r).2).2 =
      { a.r with last := (cleanscope parents).2 } := by
    rw [roffnodePop, hlast]
    rfl
  unfold roffCblock
  split
  · next hnil => exact absurd (hlast.symm.trans hnil) (by simp)
  · next q qs hq =>
    obtain ⟨rfl, -⟩ := List.cons.inj (hlast.symm.trans hq)
    rw [if_neg hone, if_neg hblock]
    dsimp only
    rw [hpop]
    dsimp only
    split
    · exact ⟨_, _, rfl, rfl, rfl⟩
    · next q' qs' hq' =>
      split
      -- A conditional block with braces is still open, but the line contains no brace.
      · obtain ⟨c, last, hc, hr⟩ := roffCondCheckend_plain
          (r := { a.r with last := (cleanscope parents).2 }) hq' hbuf a.tok a.pos true
        rw [hc]
        exact ⟨_, last, rfl, rfl, hr⟩
      · exact ⟨_, _, rfl, rfl, rfl⟩

/-- **The standard end marker.** -/
theorem Defining.standardEnd {env : Env X} {fuel : Nat} {r₀ r : Roff X} {name line : CStr}
    {stop value : Option CStr} (h : Defining r₀ name stop value r) (heqn : r₀.eqn = false)
    (hend : EndsBlock env r stop line) (hstop : stop = none) (hfuel : line.length < fuel)
    (ln : Nat) :
    ∃ out, roffParseln env fuel r ln (Buf.ofStr line) 0 = .ok out ∧ out.code = ROFF_IGN ∧
      Defined r₀ name value out.r := by
  obtain ⟨p, parents, hlast, htok, -, hmarker⟩ := h.scope
  have heqn' : r.eqn = false := by rw [h.frame]; exact heqn
  have hcond : p.tok.isCond = false := by rcases htok with ht | ht <;> rw [ht] <;> rfl
  have hblock : p.tok.isBlock = true := by rcases htok with ht | ht <;> rw [ht] <;> rfl
  cases hend with
  | custom => cases hstop
  | @standard _ pos hline hctl hword huser hren =>
    -- The line has two dots and a blank or its end, so the name of the request can be parsed.
    have hplain := hline.plain
    have hpos : pos < line.length := by
      by_contra hge
      rw [word_eq_takeWhile, List.drop_eq_nil_of_le (Nat.le_of_not_lt hge)] at hword
      cases hword
    have hquote : charAt line pos ≠ '"' := by
      intro hq
      have hdrop : line.drop pos = '"' :: line.drop (pos + 1) := by
        rw [List.drop_eq_getElem_cons hpos, ← charAt_eq_getElem hpos, hq]
      rw [word_eq_takeWhile, hdrop, List.takeWhile_cons_of_pos (by decide)] at hword
      exact absurd (List.cons.inj hword).1 (by decide)
    have hknown : Known r (word line pos) := by
      rw [hword]
      exact .inr (.inr (.inr (.inr (by decide))))
    -- There is no custom end marker to compare with.
    have hnone : endMarker p line pos = none := by rw [endMarker, hmarker]
    obtain ⟨cs, pos', hparse⟩ :=
      roffParse_known (line.length + 1) hplain hpos hquote (endsWord_control hctl hpos) hknown
    -- The request for the two dots closes the block.
    have hcblock : tokOf r (word line pos) = .ROFF_cblock := tokOf_cblock_iff.mpr ⟨hword, huser, hren⟩
    obtain ⟨out, last, hout, hcode, hr⟩ := roffCblock_plain (a := ⟨{ r with currentString := cs },
      tokOf r (word line pos), ⟨line, line.length + 1⟩, ln, 0, pos', 0⟩) hlast htok
      hplain.noBackslash
    refine ⟨out, ?_, hcode, ?_⟩
    · rw [roffParseln, roffPrepare_regular hline heqn' hfuel, Res.ok_bind, if_neg (by simp),
        roffDispatch_control heqn' hctl hpos hplain.noNul hquote hlast, roffSub, hcond,
        if_neg (by simp), hblock, if_pos rfl]
      exact (roffBlockSub_standard hlast hnone hparse hcblock).trans hout
    · rw [hr]
      exact h.toDefined.with_last last cs

/-- **A custom end marker.** -/
theorem Defining.customEnd {env : Env X} {fuel : Nat} {r₀ r : Roff X} {name line stop : CStr}
    {value : Option CStr} (h : Defining r₀ name (some stop) value r) (heqn : r₀.eqn = false)
    (hend : EndsBlock env r (some stop) line) (hfuel : line.length < fuel) (ln : Nat) :
    ∃ out, roffParseln env fuel r ln (Buf.ofStr line) 0 = .ok out ∧ Defined r₀ name value out.r ∧
      out.buf = Buf.ofStr line ∧ out.offs = 0 ∧
      (Called r stop → out.code = ROFF_RERUN) ∧ (¬ Called r stop → out.code = ROFF_IGN) := by
  obtain ⟨p, parents, hlast, htok, -, hmarker⟩ := h.scope
  have heqn' : r.eqn = false := by rw [h.frame]; exact heqn
  have hcond : p.tok.isCond = false := by rcases htok with ht | ht <;> rw [ht] <;> rfl
  have hblock : p.tok.isBlock = true := by rcases htok with ht | ht <;> rw [ht] <;> rfl
  cases hend with
  | @custom _ _ pos hline hctl hbegin hword hblanks hknown hcalled =>
    have hplain := hline.plain
    -- The line starts with the custom end marker.
    have hfound : endMarker p line pos = some (skipWhile endsWord line (pos + stop.length)) := by
      rw [endMarker_eq hplain.noNul hmarker hblanks, if_pos hword]
    set i := skipWhile endsWord line (pos + stop.length)
    set r' : Roff X := { r with last := (cleanscope parents).2 } with hr'
    have hle : pos + stop.length ≤ line.length := by
      rw [← hword, word, slice, List.length_take, List.length_drop]
      have := hbegin.1
      omega
    -- The first argument behind the marker is looked up as a request.
    obtain ⟨-, -, -, hafter⟩ := skipWhile_spec endsWord hle
    obtain ⟨t, cs, hparse, hbuf, hr, htok'⟩ :=
      roffParse_argument (r := r') hplain hafter hknown
    refine ⟨⟨if t.tok ≠ .TOKEN_NONE then ROFF_RERUN else ROFF_IGN, t.r, t.buf, 0⟩, ?_, ?_, hbuf,
      rfl, ?_, ?_⟩
    · rw [roffParseln, roffPrepare_regular hline heqn' hfuel, Res.ok_bind, if_neg (by simp),
        roffDispatch_control heqn' hctl hbegin.1 hplain.noNul hbegin.2 hlast, roffSub, hcond,
        if_neg (by simp), hblock, if_pos rfl]
      exact roffBlockSub_custom hlast hfound hparse
    · rw [hr]
      exact h.toDefined.with_last _ cs
    · intro hc
      -- The result depends on whether this argument is the name of something that can be called.
      exact if_pos (htok'.mpr (hcalled.mpr hc))
    · intro hc
      exact if_neg fun ht => hc (hcalled.mp (htok'.mp ht))

/-! ## §5 The request -/

/-- The name of the macro and the custom end marker on the request line. -/
def BlockNames (a : Args X) (name : CStr) (stop : Option CStr) : Prop :=
  ∃ st, roffGetname a.buf.buf a.pos = .ok st ∧ st.name a.pos = name ∧ name ≠ [] ∧
    ((st.cp = a.pos + st.namesz ∨ charAt st.buf st.cp = NUL) ∧ stop = none ∨
      ¬ (st.cp = a.pos + st.namesz ∨ charAt st.buf st.cp = NUL) ∧
        ∃ e, roffGetname st.buf st.cp = .ok e ∧
          stop = if e.name st.cp = [] then none else some (e.name st.cp))

/-- The requests that start the definition of a macro, and those that append to one. -/
def Tok.starts (tok : Tok) : Prop := tok = .ROFF_de ∨ tok = .ROFF_de1

def Tok.appends (tok : Tok) : Prop := tok = .ROFF_am ∨ tok = .ROFF_am1

instance (tok : Tok) : Decidable tok.starts := inferInstanceAs (Decidable (_ ∨ _))

/-- The previous value of a macro. That of a renamed macro is a call of it. -/
def previous (r : Roff X) (name : CStr) : Option CStr :=
  let g := roffGetstrn r name DefType.any
  match g.deftype with
  | .USER | .PRE => g.res
  | .REN => some (copyMode (callMacro (g.res.getD [])))
  | _ => none

theorem getstrn_any_r (r : Roff X) (name : CStr) : (roffGetstrn r name DefType.any).r = r := by
  unfold roffGetstrn
  dsimp only
  split_ifs
  all_goals first | rfl | simp_all

/-- Copying a predefined string does not change it. -/
theorem copyMode_predef {name v : CStr} {r : Roff X}
    (h : roffGetstrn r name DefType.any = ⟨some v, .PRE, r⟩) : copyMode v = v := by
  have hall : ∀ p ∈ predefs, copyMode p.2.toList = p.2.toList := by decide +kernel
  have hfind : (predefs.find? (·.1.toList = name)).map (·.2.toList) = some v := by
    unfold roffGetstrn at h
    dsimp only at h
    split_ifs at h
    all_goals first
      | exact congrArg GetStr.res h
      | exact absurd (congrArg GetStr.deftype h) (by simp)
  obtain ⟨p, hp, rfl⟩ := Option.map_eq_some_iff.mp hfind
  exact hall p (List.mem_of_find?_eq_some hp)

/-- Opening a scope does not change any definition. -/
theorem defined_push (r : Roff X) (hstr : StrTable r.strtab) (name : CStr) (tok : Tok)
    (ln pos : Nat) : Defined r name (lookup r.strtab name)
      (roffnodePush r tok (some name) ln pos) where
  value := rfl
  user := fun _ _ => rfl
  ren := fun _ _ => rfl
  table := hstr
  frame := rfl

theorem lookup_of_getstrn_ne {r : Roff X} {name : CStr}
    (h : (roffGetstrn r name DefType.any).deftype ≠ .USER) : lookup r.strtab name = none := by
  by_contra hne
  obtain ⟨v, hv⟩ := Option.ne_none_iff_exists'.mp hne
  exact h (congrArg GetStr.deftype (roffGetstrn_user hv))

/-- A predefined string has got a value. -/
theorem getstrn_pre {r : Roff X} {name : CStr}
    (h : (roffGetstrn r name DefType.any).deftype = .PRE) :
    ∃ v, roffGetstrn r name DefType.any = ⟨some v, .PRE, r⟩ := by
  unfold roffGetstrn at h ⊢
  dsimp only at h ⊢
  split_ifs at h ⊢
  all_goals try cases h
  next hpre =>
    obtain ⟨p, hp⟩ := Option.isSome_iff_exists.mp (Bool.and_eq_true_iff.mp hpre).1
    exact ⟨p.2.toList, by rw [hp]; rfl⟩

/-- What `.am` does with the previous definition, unless it is a standard macro. -/
theorem prepareAppend_defining {r₀ r : Roff X} {name : CStr} {value : Option CStr}
    (h : Defining r₀ name none value r)
    (hstd : (roffGetstrn r name DefType.any).deftype ≠ .STD) :
    Defining r₀ name none (previous r name)
      (prepareAppend (roffGetstrn r name DefType.any) name) := by
  have hgr := getstrn_any_r r name
  cases hd : (roffGetstrn r name DefType.any).deftype with
  | USER =>
    have hv := lookup_of_getstrn_user hd
    rw [prepareAppend, previous, hgr, hd]
    dsimp only
    rw [← hv, h.value]
    exact h
  | PRE =>
    -- Copy predefined to user-defined.
    obtain ⟨v, hv⟩ := getstrn_pre hd
    rw [prepareAppend, previous, hv]
    dsimp only
    refine ⟨⟨?_, fun key hkey => (lookup_setstrn_of_ne hkey).trans (h.user key hkey), h.ren,
      h.table.set .., ?_⟩, h.scope⟩
    · rw [lookup_setstrn_self h.table, setVal, copyMode_predef hv]
      simp
    · conv_lhs => rw [h.frame]
  | REN =>
    -- Call original standard macro.
    rw [prepareAppend, previous, hgr, hd]
    dsimp only
    set call := callMacro ((roffGetstrn r name DefType.any).res.getD [])
    have hset : Defining r₀ name none (setVal (some call) 0 value)
        (roffSetstr r name (some call) 0) := h.setstr 0
    rw [setVal] at hset
    simpa using hset
  | STD => exact absurd hd hstd
  | UNDEF =>
    obtain rfl : value = none := h.value.symm.trans (lookup_of_getstrn_ne (by rw [hd]; simp))
    rw [prepareAppend, previous, hgr, hd]
    exact h
  | none =>
    obtain rfl : value = none := h.value.symm.trans (lookup_of_getstrn_ne (by rw [hd]; simp))
    rw [prepareAppend, previous, hgr, hd]
    exact h

/-- Setting the end marker does not change any definition. -/
theorem Defining.setEnd {r₀ r : Roff X} {name stop : CStr} {value : Option CStr}
    (h : Defining r₀ name none value r) :
    Defining r₀ name (if stop = [] then none else some stop) value (Mandoc.setEnd r stop) := by
  obtain ⟨p, parents, hlast, htok, hname, hend⟩ := h.scope
  have hset : Mandoc.setEnd r stop = { r with
      last := { p with endMacro := if stop = [] then p.endMacro else some stop } :: parents } := by
    unfold Mandoc.setEnd
    split
    · next hnil => exact absurd (hlast.symm.trans hnil) (by simp)
    · next q qs hq =>
      obtain ⟨rfl, rfl⟩ := List.cons.inj (hlast.symm.trans hq)
      rfl
  rw [hset]
  refine ⟨h.toDefined.with_last _ r.currentString, _, parents, rfl, htok, hname, ?_⟩
  dsimp only
  rw [hend]

/-- **The request.** Before the first line, the definition is empty or the previous one. -/
theorem roffBlock_defining {a : Args X} {name : CStr} {stop : Option CStr}
    (hnames : BlockNames a name stop) (hstr : StrTable a.r.strtab)
    (htok : a.tok.starts ∨ a.tok.appends ∧ (roffGetstrn a.r name DefType.any).deftype ≠ .STD) :
    ∃ out value, roffBlock a = .ok out ∧ out.code = ROFF_IGN ∧
      Defining a.r name stop value out.r ∧
      (a.tok.starts → value = some []) ∧ (a.tok.appends → value = previous a.r name) := by
  obtain ⟨st, hst, rfl, hne, hend⟩ := hnames
  set name := st.name a.pos with hname
  set tok := compatTok a.tok with htok'
  have hkind : tok = .ROFF_de ∨ tok = .ROFF_am := by
    rcases htok with (h | h) | ⟨h | h, -⟩ <;> rw [htok', h] <;> simp [compatTok]
  have hresolve : ∀ (r : Roff X) n, resolveName r tok n = (n, r) := by
    intro r n
    unfold resolveName
    rw [if_neg]
    rintro ⟨-, h⟩
    rcases hkind with hk | hk <;> rw [hk] at h <;> exact absurd h (by decide)
  set r₁ := roffnodePush a.r tok (some name) a.ln a.ppos with hr₁
  have hpush : Defining a.r name none (lookup a.r.strtab name) r₁ :=
    ⟨defined_push a.r hstr name tok a.ln a.ppos, _, a.r.last, rfl, hkind, rfl, rfl⟩
  have hgetstrn : (roffGetstrn r₁ name DefType.any).deftype = (roffGetstrn a.r name DefType.any).deftype ∧
      previous r₁ name = previous a.r name := by
    have huser : lookup r₁.strtab name = lookup a.r.strtab name := rfl
    have hren : lookup r₁.rentab name = lookup a.r.rentab name := rfl
    have hcongr := roffGetstrn_congr huser hren rfl DefType.any
    refine ⟨hcongr.2, ?_⟩
    unfold previous
    dsimp only
    rw [hcongr.1, hcongr.2]
  obtain ⟨r₂, value, hstart, hdef, hvalue, hvalue'⟩ : ∃ r₂ value,
      startBlock r₁ tok name name = .ok r₂ ∧ Defining a.r name none value r₂ ∧
      (a.tok.starts → value = some []) ∧ (a.tok.appends → value = previous a.r name) := by
    rcases htok with hs | ⟨ha, hstd⟩
    · have hde : tok = .ROFF_de := by rcases hs with h | h <;> rw [htok', h] <;> rfl
      have hno : ¬ a.tok.appends := by
        rintro (h | h) <;> rcases hs with h' | h' <;> cases h.symm.trans h'
      have hempty : Defining a.r name none (setVal (some []) 0 (lookup a.r.strtab name))
          (roffSetstr r₁ name (some []) 0) := hpush.setstr 0
      refine ⟨roffSetstr r₁ name (some []) 0, some [], ?_, hempty, fun _ => rfl,
        fun h => absurd h hno⟩
      rw [startBlock, if_pos (.inl hde)]
    · have ham : tok = .ROFF_am := by rcases ha with h | h <;> rw [htok', h] <;> rfl
      have hno : ¬ a.tok.starts := by
        rintro (h | h) <;> rcases ha with h' | h' <;> cases h.symm.trans h'
      have hprep := prepareAppend_defining hpush (by rw [hgetstrn.1]; exact hstd)
      refine ⟨_, _, ?_, hprep, fun h => absurd h hno, fun _ => hgetstrn.2⟩
      rw [startBlock, ham, if_neg (by simp), if_pos (.inl rfl), appendedDef,
        if_neg fun h => lt_irrefl _ h.1, List.take_length]
      rfl
  -- The custom end marker is optional.
  have hblock : roffBlock a = (if st.cp = a.pos + st.namesz then .ok (a.out ROFF_IGN r₂)
      else blockEnd a r₂ tok st.buf st.cp) := by
    rw [roffBlock]
    dsimp only
    rw [← htok', if_neg (by rcases hkind with h | h <;> rw [h] <;> simp), hst, Res.ok_bind,
      ← hname, hresolve]
    dsimp only
    rw [if_neg hne, ← hr₁, hstart]
    rfl
  rcases hend with ⟨hno, rfl⟩ | ⟨hyes, e, he, rfl⟩
  · refine ⟨a.out ROFF_IGN r₂, value, ?_, rfl, hdef, hvalue, hvalue'⟩
    rw [hblock]
    split_ifs with hcp
    · rfl
    · rw [blockEnd, if_pos (hno.resolve_left hcp)]
      rfl
  · refine ⟨a.out ROFF_IGN (Mandoc.setEnd r₂ (e.name st.cp)), value, ?_, rfl, hdef.setEnd, hvalue,
      hvalue'⟩
    rw [hblock, if_neg fun h => hyes (.inl h), blockEnd, if_neg fun h => hyes (.inr h), he,
      Res.ok_bind, hresolve]
    rfl

/-! ## §6 The whole definition -/

/-- The run of the parser over the lines of a definition, each of them with its line number:
    no line makes the caller do anything. -/
inductive Body (env : Env X) (fuel : Nat) : Roff X → List (Nat × CStr) → Roff X → Prop where
  | nil {r : Roff X} : Body env fuel r [] r
  | cons {r r' : Roff X} {ln : Nat} {line : CStr} {lines : List (Nat × CStr)} {out : Out X}
      (hline : roffParseln env fuel r ln (Buf.ofStr line) 0 = .ok out)
      (hcode : out.code = ROFF_IGN) (hrest : Body env fuel out.r lines r') :
      Body env fuel r ((ln, line) :: lines) r'

/-- The definition after all lines of the body. -/
def storeLines (value : Option CStr) (lines : List (Nat × CStr)) : Option CStr :=
  if lines = [] then value
  else some (value.getD [] ++ lines.flatMap fun l => l.2 ++ ['\n'])

theorem storeLines_cons (value : Option CStr) (ln : Nat) (line : CStr) (lines : List (Nat × CStr)) :
    storeLines (storeLine value line) lines = storeLines value ((ln, line) :: lines) := by
  cases lines with
  | nil => simp [storeLines, storeLine]
  | cons l lines => simp [storeLines, storeLine]

/-- **The body.** All lines of the body are stored in order. -/
theorem Defining.run {env : Env X} {fuel : Nat} {r₀ : Roff X} {name : CStr} {stop : Option CStr}
    (heqn : r₀.eqn = false) (hstop : ∀ s, stop = some s → ∀ c ∈ s, endsWord c = false)
    {lines : List (Nat × CStr)} :
    (∀ l ∈ lines, Stored env r₀ name stop l.2 ∧ l.2.length < fuel) →
      ∀ {r : Roff X} {value : Option CStr}, Defining r₀ name stop value r →
        ∃ r', Body env fuel r lines r' ∧ Defining r₀ name stop (storeLines value lines) r' := by
  induction lines with
  | nil => exact fun _ r value h => ⟨r, .nil, h⟩
  | cons l lines ih =>
    intro hlines r value h
    obtain ⟨hline, hfuel⟩ := hlines l List.mem_cons_self
    have hbody : ∃ out, roffParseln env fuel r l.1 (Buf.ofStr l.2) 0 = .ok out ∧
        out.code = ROFF_IGN ∧ Defining r₀ name stop (storeLine value l.2) out.r :=
      h.body heqn hstop hline hfuel
    obtain ⟨out, hout, hcode, hdef⟩ := hbody
    obtain ⟨r', hbody, hdef'⟩ := ih (fun l' hl' => hlines l' (List.mem_cons_of_mem l hl')) hdef
    rw [storeLines_cons _ l.1] at hdef'
    exact ⟨r', .cons hout hcode hbody, hdef'⟩

/-- The definition that a request and the lines following it are meant to make. -/
def intended (a : Args X) (name : CStr) (lines : List (Nat × CStr)) : Option CStr :=
  storeLines (if a.tok.starts then some [] else previous a.r name) lines

/-- After the end line, the macro has the intended definition, no other definition has changed,
    and the end line is handed back if the end marker is to be interpreted. Here, `r₀` is the
    state before the request, and `r` the one before the end line. -/
structure Captured (r₀ : Roff X) (name : CStr) (stop value : Option CStr) (r : Roff X) (line : CStr)
    (out : Out X) : Prop where
  value : lookup out.r.strtab name = value
  others : ∀ key, key ≠ name → ∀ want,
    (roffGetstrn out.r key want).res = (roffGetstrn r₀ key want).res ∧
      (roffGetstrn out.r key want).deftype = (roffGetstrn r₀ key want).deftype
  called : ∀ s, stop = some s → Called r s →
    out.code = ROFF_RERUN ∧ out.buf = Buf.ofStr line ∧ out.offs = 0
  ignored : (∀ s, stop = some s → ¬ Called r s) → out.code = ROFF_IGN

theorem Defined.others {r₀ r : Roff X} {name : CStr} {value : Option CStr}
    (h : Defined r₀ name value r) {key : CStr} (hkey : key ≠ name) (want : List DefType) :
    (roffGetstrn r key want).res = (roffGetstrn r₀ key want).res ∧
      (roffGetstrn r key want).deftype = (roffGetstrn r₀ key want).deftype :=
  roffGetstrn_congr (h.user key hkey) (h.ren key hkey) (by rw [h.frame]) want

/-- **Capturing a definition.** If no line of the body, and no first argument of a custom end
    marker, is an empty request or contains an undefined name, an in-line equation, or the wrong
    end marker, and the first argument is to be interpreted if and only if the end marker is, then
    the macro gets the intended definition. -/
theorem roffBlock_captures {env : Env X} {fuel : Nat} {a : Args X} {name : CStr}
    {stop : Option CStr} {lines : List (Nat × CStr)}
    (htok : a.tok.starts ∨ a.tok.appends ∧ (roffGetstrn a.r name DefType.any).deftype ≠ .STD)
    (hnames : BlockNames a name stop) (hstr : StrTable a.r.strtab) (heqn : a.r.eqn = false)
    (hstop : ∀ s, stop = some s → ∀ c ∈ s, endsWord c = false)
    (hlines : ∀ l ∈ lines, Stored env a.r name stop l.2 ∧ l.2.length < fuel) :
    ∃ out r', roffBlock a = .ok out ∧ out.code = ROFF_IGN ∧ Body env fuel out.r lines r' ∧
      Defining a.r name stop (intended a name lines) r' ∧
      ∀ ln line, EndsBlock env r' stop line → line.length < fuel →
        ∃ fin, roffParseln env fuel r' ln (Buf.ofStr line) 0 = .ok fin ∧
          Captured a.r name stop (intended a name lines) r' line fin := by
  obtain ⟨out, value, hout, hcode, hdef, hstarts, happends⟩ := roffBlock_defining hnames hstr htok
  have hvalue : value = if a.tok.starts then some [] else previous a.r name := by
    split_ifs with hs
    · exact hstarts hs
    · exact happends (htok.resolve_left hs).1
  subst hvalue
  -- All lines of the body are appended; what remains is the end marker.
  obtain ⟨r', hbody, hdef'⟩ := hdef.run heqn hstop hlines
  refine ⟨out, r', hout, hcode, hbody, hdef', fun ln line hend hfuel => ?_⟩
  cases hs : stop with
  -- Two dots end the definition, and nothing is called.
  | none =>
    obtain ⟨fin, hfin, hcode', hd⟩ := hdef'.standardEnd heqn hend hs hfuel ln
    refine ⟨fin, hfin, hd.value, fun key hkey => hd.others hkey, ?_, fun _ => hcode'⟩
    intro s hs'
    cases hs'
  -- A custom marker ends it, and may call a macro or a request.
  | some s =>
    subst hs
    obtain ⟨fin, hfin, hd, hbuf, hoffs, hcalled, hignored⟩ := hdef'.customEnd heqn hend hfuel ln
    refine ⟨fin, hfin, hd.value, fun key hkey => hd.others hkey, ?_, fun h => hignored (h s rfl)⟩
    intro s' hs' hc
    cases hs'
    exact ⟨hcalled hc, hbuf, hoffs⟩

/-- The line `.de x yy` or the like, in a state where the macro `foo` is defined. -/
def deLine (line : CStr) : Args Unit :=
  { r := { roffAlloc () with strtab := roffSetstrn [] "foo".toList (some "bar\n".toList) 0 }
    tok := .ROFF_de, buf := Buf.ofStr line, ln := 1, ppos := 0, pos := 0, offs := 0 }

theorem plain_of_decide {s : CStr} (h : decide ('\\' ∉ s ∧ NUL ∉ s ∧ '\n' ∉ s) = true) :
    Plain '\\' s :=
  ⟨(of_decide_eq_true h).1, (of_decide_eq_true h).1, (of_decide_eq_true h).2.1,
    (of_decide_eq_true h).2.2⟩

/-- A definition with a line of text, and a call of a macro whose name resembles the end
    marker. -/
theorem roffBlock_captures_foo : ∃ out r', roffBlock (deLine "x fo".toList) = .ok out ∧
    Body plainEnv 100 out.r [(2, "some text".toList), (3, ".foo arg".toList)] r' ∧
    ∃ fin, roffParseln plainEnv 100 r' 4 (Buf.ofStr ".fo".toList) 0 = .ok fin ∧
      Captured (deLine "x fo".toList).r ['x'] (some "fo".toList)
        (some "some text\n.foo arg\n".toList) r' ".fo".toList fin := by
  set a := deLine "x fo".toList with ha
  have hnames : BlockNames a ['x'] (some "fo".toList) :=
    ⟨⟨"x fo".toList, 1, 2⟩, by decide +kernel, by decide, by decide,
      .inr ⟨by decide, ⟨"x fo".toList, 2, 4⟩, by decide +kernel, by decide⟩⟩
  have htext : Stored plainEnv a.r ['x'] (some "fo".toList) "some text".toList := by
    refine ⟨⟨plain_of_decide (by decide), ?_⟩, ?_, ?_, ?_⟩
    · intro d hd
      cases hd
    -- This is not a control line.
    · intro pos h
      cases h
    · intro pos h
      cases h
    · intro pos h
      cases h
  have hpos : ∀ pos, roffGetcontrol a.r ".foo arg".toList 0 = some pos → pos = 1 :=
    fun pos h => (Option.some.inj h).symm
  have hcall : Stored plainEnv a.r ['x'] (some "fo".toList) ".foo arg".toList := by
    refine ⟨⟨plain_of_decide (by decide), ?_⟩, ?_, ?_, ?_⟩
    · intro d hd
      cases hd
    · intro pos h
      rw [hpos pos h]
      decide
    · intro pos h
      rw [hpos pos h]
      exact .inr (.inl (by decide))
    · intro pos h
      rw [hpos pos h]
      decide
  have hblank : ∀ c ∈ "fo".toList, endsWord c = false := by simp [endsWord]
  have hstop : ∀ s, some "fo".toList = some s → ∀ c ∈ s, endsWord c = false := by
    intro s hs
    cases hs
    exact hblank
  have hlines : ∀ l ∈ [((2 : Nat), "some text".toList), (3, ".foo arg".toList)],
      Stored plainEnv a.r ['x'] (some "fo".toList) l.2 ∧ l.2.length < 100 := by
    intro l hl
    rcases List.mem_cons.mp hl with rfl | hl
    · exact ⟨htext, by decide⟩
    · rw [List.mem_singleton.mp hl]
      exact ⟨hcall, by decide⟩
  obtain ⟨out, r', hout, -, hbody, hdef, hfin⟩ :=
    roffBlock_captures (.inl (.inl rfl)) hnames (.set _ _ _ .nil) rfl hstop hlines
  refine ⟨out, r', hout, hbody, hfin 4 ".fo".toList ?_ (by decide)⟩
  have hf := hdef.frame
  have hnone : ¬ Called r' "fo".toList := by
    have huser : lookup r'.strtab "fo".toList = none := hdef.user _ (by decide)
    rintro (h | h)
    · rw [huser] at h
      cases h
    · exact h (by decide)
  have hreg : Regular plainEnv r' ".fo".toList := by
    refine ⟨?_, ?_⟩
    · rw [hf]
      exact plain_of_decide (by decide)
    · intro d hd
      cases hd
  have hctl : roffGetcontrol r' ".fo".toList 0 = some 1 := by
    rw [hf]
    rfl
  exact .custom hreg hctl ⟨by decide, by decide⟩ (by decide) hblank
    (fun h => absurd h.1 (by decide)) (iff_of_false (fun h => absurd h.1.1 (by decide)) hnone)

/-- The end marker is a macro, but the word that follows it is not, so the end line is ignored. -/
theorem roffBlock_not_captured :
    ¬ ∀ (a : Args Unit) (name stop line : CStr) (fuel : Nat), a.tok = .ROFF_de →
      BlockNames a name (some stop) → StrTable a.r.strtab → a.r.last = [] →
      Plain '\\' line → line.length < fuel →
      (∃ pos, roffGetcontrol a.r line 0 = some pos ∧ word line pos = stop) →
      ∃ out fin, roffBlock a = .ok out ∧
        roffParseln plainEnv fuel out.r 2 (Buf.ofStr line) 0 = .ok fin ∧
        Captured a.r name (some stop) (some []) out.r line fin := by
  intro h
  obtain ⟨out, fin, hout, hfin, hcap⟩ := h (deLine "x foo".toList) ['x'] "foo".toList
    ".foo bar".toList 100 rfl
    ⟨⟨"x foo".toList, 1, 2⟩, by decide +kernel, by decide, by decide,
      .inr ⟨by decide, ⟨"x foo".toList, 3, 5⟩, by decide +kernel, by decide⟩⟩
    (.set _ _ _ .nil) rfl (plain_of_decide (by decide)) (by decide) ⟨1, by decide, by decide⟩
  have hcalled : (roffBlock (deLine "x foo".toList)).map
      (fun out => (lookup out.r.strtab "foo".toList).isSome) = .ok true := by decide +kernel
  have hcode : ((roffBlock (deLine "x foo".toList)) >>= fun out =>
      (roffParseln plainEnv 100 out.r 2 (Buf.ofStr ".foo bar".toList) 0).map (·.code)) =
        .ok ROFF_IGN := by decide +kernel
  rw [hout] at hcalled hcode
  rw [Res.ok_bind, hfin] at hcode
  have hrerun := (hcap.called _ rfl (.inl (Except.ok.inj hcalled))).1
  exact absurd (hrerun.symm.trans (Except.ok.inj hcode)) (by decide)

end Mandoc
