import Mandoc.Eqn.Progress

/-!
# Replacing Defined Names

`eqn_next()` limits the number of replacements to `EQN_NEST_MAX` to stop recursive
definitions.  The replacements are counted until reading gets beyond the end of the rightmost
replacement, so names that are not nested are counted, too, if they are close together.

`EqnReads` is reading without a limit: the first token of the text is replaced if it is a defined
name, and delivered otherwise.  The tokens that `eqn_next()` delivers are the same ones if and
only if the replacements are `WithinLimit`.
-/

namespace Mandoc

/-! ## §1 Reading without a limit -/

/-- A token as it stands in the text. -/
structure TextToken where
  quoted : Bool
  text : CStr
deriving DecidableEq, Repr

/-- The first token of a text. -/
structure FirstToken where
  /-- The number of blanks in front of it. -/
  blanks : Nat
  token : TextToken
  /-- The text behind it, and behind the closing quote. -/
  behind : CStr

/-- The text from the next token on. -/
def FirstToken.rest (f : FirstToken) : CStr := f.behind.dropWhile eqnBlank

/-- Find the first token of a text. -/
def firstToken (s : CStr) : Option FirstToken :=
  let blanks := (s.takeWhile eqnBlank).length
  match s.dropWhile eqnBlank with
  | [] => none
  | c :: q =>
    if c = '"' then
      some { blanks, token := ⟨true, q.takeWhile (· ≠ '"')⟩,
             behind := (q.dropWhile (· ≠ '"')).drop 1 }
    else if c = '\x7b' || c = '\x7d' then some { blanks, token := ⟨false, [c]⟩, behind := q }
    else
      some { blanks, token := ⟨false, c :: q.takeWhile fun c => !eqnBreak c⟩,
             behind := q.dropWhile fun c => !eqnBreak c }

/-- The value of a defined name.  A quoted token is not a name. -/
def definedValue (defs : List EqnDef) (t : TextToken) : Option CStr :=
  if t.quoted then none
  else (defs.find? fun d => d.key ≠ [] && d.key = t.text).map EqnDef.val

/-- What is done with the first token of a text. -/
inductive EqnReadStep where
  /-- The token is delivered; the next one is that many bytes later. -/
  | token (t : TextToken) (len : Nat)
  /-- Behind some blanks, a name with that many bytes is replaced by a value. -/
  | replace (blanks toksz valsz : Nat)
deriving DecidableEq, Repr

/-- Reading a text until the end. -/
inductive EqnReads (defs : List EqnDef) : CStr → List EqnReadStep → Prop where
  | done {s : CStr} (hf : firstToken s = none) : EqnReads defs s []
  | token {s : CStr} {f : FirstToken} {steps : List EqnReadStep} (hf : firstToken s = some f)
      (hdef : definedValue defs f.token = none) (h : EqnReads defs f.rest steps) :
      EqnReads defs s (.token f.token (s.length - f.rest.length) :: steps)
  | replace {s v : CStr} {f : FirstToken} {steps : List EqnReadStep}
      (hf : firstToken s = some f) (hdef : definedValue defs f.token = some v)
      (h : EqnReads defs (v ++ f.behind) steps) :
      EqnReads defs s (.replace f.blanks f.token.text.length v.length :: steps)

/-- The tokens that are delivered. -/
def deliveredTokens : List EqnReadStep → List TextToken
  | [] => []
  | .token t _ :: steps => t :: deliveredTokens steps
  | .replace _ _ _ :: steps => deliveredTokens steps

/-- Whenever a name is replaced, fewer than `EQN_NEST_MAX` names have been replaced since the last
    time that reading went on behind the end of the replaced text.  Besides the number of these
    replacements, there is the number of bytes up to that end: a value that is longer than the name
    moves the end, a shorter value does not. -/
def WithinLimit : Nat → Nat → List EqnReadStep → Prop
  | _, _, [] => True
  | subcnt, region, .token _ len :: steps =>
    WithinLimit (if region ≤ len then 0 else subcnt) (region - len) steps
  | subcnt, region, .replace blanks toksz valsz :: steps =>
    subcnt < EQN_NEST_MAX ∧
      WithinLimit (subcnt + 1) (max (region - blanks + (valsz - toksz)) valsz) steps

/-- The limit can be checked. -/
instance decidableWithinLimit : ∀ (subcnt region : Nat) (steps : List EqnReadStep),
    Decidable (WithinLimit subcnt region steps)
  | _, _, [] => isTrue trivial
  | subcnt, region, .token _ len :: steps =>
    decidableWithinLimit (if region ≤ len then 0 else subcnt) (region - len) steps
  | subcnt, region, .replace blanks toksz valsz :: steps =>
    have := decidableWithinLimit (subcnt + 1)
      (max (region - blanks + (valsz - toksz)) valsz) steps
    inferInstanceAs (Decidable (_ ∧ _))

/-! ## §2 One token -/

variable {mode : ParseMode} {ep : EqnNode}

theorem drop_of_charAt_nul {s : CStr} (hs : NUL ∉ s) {i : Nat} (h : charAt s i = NUL) :
    s.drop i = [] :=
  List.drop_of_length_le (Nat.le_of_not_lt fun hlt => charAt_ne_nul hs hlt h)

/-- The byte at some position, and what follows. -/
theorem charAt_drop_cons {s q : CStr} {c : Char} {i : Nat} (h : s.drop i = c :: q) :
    charAt s i = c ∧ s.drop (i + 1) = q := by
  constructor
  · rw [← Nat.add_zero i, ← charAt_drop, h]
    rfl
  · rw [← List.drop_drop, h]
    rfl

theorem drop_closingQuote {s q : CStr} (hs : NUL ∉ s) {i : Nat} (h : s.drop i = q) :
    s.drop (if charAt s i = NUL then i else i + 1) = q.drop 1 := by
  subst h
  split
  · next hnul => rw [drop_of_charAt_nul hs hnul]; rfl
  · rw [List.drop_drop]

/-- What `eqn_next()` finds is the first token. -/
theorem eqnDelimit_firstToken (hm : mode ≠ .QUOTED) (hd : NUL ∉ ep.data) :
    match firstToken (ep.data.drop ep.start) with
    | none => ∃ start, eqnDelimit mode ep = (none, { ep with start := start, toksz := 0 })
    | some f => ∃ start next, eqnDelimit mode ep = (some f.token.quoted,
          { ep with start := start, toksz := f.token.text.length, next := next }) ∧
        (ep.data.drop start).take f.token.text.length = f.token.text ∧
        ep.data.drop next = f.rest ∧
        (f.token.quoted = false → start = ep.start + f.blanks ∧
          ep.data.drop (start + f.token.text.length) = f.behind) := by
  have hdrop := drop_skipWhile eqnBlank ep.data ep.start
  simp only [eqnDelimit, firstToken, if_neg hm, decide_eq_false hm, Bool.false_or]
  cases hrest : (ep.data.drop ep.start).dropWhile eqnBlank with
  | nil =>
    rw [hrest] at hdrop
    have hnul : charAt ep.data (skipWhile eqnBlank ep.data ep.start) = NUL :=
      charAt_of_ge (List.drop_eq_nil_iff.mp hdrop)
    exact ⟨_, if_pos hnul⟩
  | cons c q =>
    rw [hrest] at hdrop
    obtain ⟨hc, hq⟩ := charAt_drop_cons hdrop
    have hne : c ≠ NUL := by
      rintro rfl
      exact hd (List.mem_of_mem_drop (hdrop ▸ List.mem_cons_self ..))
    simp only [hc, if_neg hne, decide_eq_true_eq, Bool.or_eq_true]
    cases decEq c '"' with
    | isTrue hquote =>
      -- The string between quotes.
      have htok := drop_skipWhile (fun x => decide (x ≠ c)) ep.data
        (skipWhile eqnBlank ep.data ep.start + 1)
      have hlen : skipWhile (fun x => decide (x ≠ c)) ep.data
          (skipWhile eqnBlank ep.data ep.start + 1) -
          (skipWhile eqnBlank ep.data ep.start + 1) =
          (q.takeWhile fun x => decide (x ≠ '"')).length := by
        rw [skipWhile.eq_1 (fun x => decide (x ≠ c)), hq, Nat.add_sub_cancel_left, hquote]
      simp only [if_pos hquote]
      refine ⟨_, _, congrArg (Prod.mk (some true)) (by rw [hlen]), ?_, ?_, fun h => by cases h⟩
      · rw [hq]
        exact (List.prefix_iff_eq_take.mp (List.takeWhile_prefix _)).symm
      · rw [drop_skipWhile, drop_closingQuote hd htok, hq, hquote]
        rfl
    | isFalse hquote =>
      simp only [if_neg hquote]
      cases Classical.em (c = '\x7b' ∨ c = '\x7d') with
      | inl hbrace =>
        simp only [if_pos hbrace]
        exact ⟨_, _, congrArg (Prod.mk (some false)) (by rw [Nat.add_sub_cancel_left]; rfl),
          congrArg (List.take 1) hdrop, by rw [drop_skipWhile, hq]; rfl, fun _ => ⟨rfl, hq⟩⟩
      | inr hbrace =>
        have htok := drop_skipWhile (fun x => !eqnBreak x) ep.data
          (skipWhile eqnBlank ep.data ep.start + 1)
        have hend : skipWhile (fun x => !eqnBreak x) ep.data
            (skipWhile eqnBlank ep.data ep.start + 1) =
            skipWhile eqnBlank ep.data ep.start +
              (c :: q.takeWhile fun x => !eqnBreak x).length := by
          rw [skipWhile.eq_1 (fun x => !eqnBreak x), hq, List.length_cons]
          omega
        simp only [if_neg hbrace, hend, Nat.add_sub_cancel_left]
        refine ⟨_, _, rfl, ?_, ?_, fun _ => ⟨rfl, ?_⟩⟩
        · rw [hdrop, List.length_cons, List.take_succ_cons]
          exact congrArg (c :: ·) (List.prefix_iff_eq_take.mp (List.takeWhile_prefix _)).symm
        · rw [drop_skipWhile, ← hend, htok, hq]
          rfl
        · rw [← hend, htok, hq]

/-- The definition that is found is the first one with that key. -/
theorem eqnDefFind_value (ep : EqnNode) :
    ((eqnDefFind ep).bind (ep.defs[·]?)).map EqnDef.val = definedValue ep.defs ⟨false, ep.token⟩ := by
  have hfind : ∀ (p : EqnDef → Bool) (l : List EqnDef),
      (l.findIdx? p).bind (l[·]?) = l.find? p := by
    intro p l
    induction l with
    | nil => rfl
    | cons d l ih =>
      rw [List.findIdx?_cons, List.find?_cons]
      cases hd : p d with
      | true => rfl
      | false =>
        rw [if_neg Bool.false_ne_true, ← ih]
        cases l.findIdx? p <;> rfl
  rw [eqnDefFind, hfind]
  rfl

/-- The token that a call has delivered, as it stands in the text. -/
def EqnNext.raw (n : EqnNext) : TextToken := ⟨n.tok = .QUOTED, n.ep.token⟩

/-- Only a quoted token is classified as one. -/
theorem raw_eqnClassify (mode : ParseMode) (quoted : Bool) (ep : EqnNode) :
    (eqnClassify mode quoted ep).raw = ⟨quoted, ep.token⟩ := by
  have hkey : ∀ tok, eqnKeyword ep.token = some tok → tok ≠ .QUOTED := by
    intro tok htok
    obtain ⟨x, hx, rfl⟩ := Option.map_eq_some_iff.mp htok
    have hall : ∀ x ∈ eqnToks, x.2 ≠ .QUOTED := by decide
    exact hall x (List.mem_of_find?_eq_some hx)
  rw [EqnNext.raw, (eqnClassify_spec mode quoted ep).1]
  congr 1
  unfold eqnClassify
  cases quoted with
  | true => rfl
  | false =>
    rw [if_neg Bool.false_ne_true]
    split
    · rfl
    · split
      · exact decide_eq_false (hkey _ ‹_›)
      · split
        · rfl
        · split <;> rfl

/-! ## §3 One call -/

/-- What a call of `eqn_next()` does when reading without a limit would do some steps. -/
inductive NextOutcome (defs : List EqnDef) (subcnt region : Nat) (steps : List EqnReadStep)
    (n : EqnNext) : Prop where
  /-- There are no more tokens. -/
  | eof (htok : n.tok = .EOF) (hsteps : deliveredTokens steps = [])
      (hlimit : WithinLimit subcnt region steps)
  /-- The next token is delivered, and the limit matters for the rest of the text. -/
  | token {steps' : List EqnReadStep} (htok : n.tok ≠ .EOF)
      (hsteps : deliveredTokens steps = n.raw :: deliveredTokens steps')
      (hreads : EqnReads n.ep.defs (n.ep.data.drop n.ep.next) steps')
      (hlimit : WithinLimit subcnt region steps ↔
        WithinLimit (if n.ep.sublen ≤ n.ep.next then 0 else n.ep.subcnt)
          (n.ep.sublen - n.ep.next) steps')
      (hclean : n.ep.Clean) (hdefs : n.ep.defs = defs)
  /-- A name is delivered because there have been too many replacements. -/
  | exceeded (htok : n.tok ≠ .EOF) (hname : definedValue defs n.raw ≠ none)
      (hlimit : ¬ WithinLimit subcnt region steps)

/-- A replacement within the limit does not change what the call delivers. -/
theorem NextOutcome.replace {defs : List EqnDef} {subcnt region blanks toksz valsz : Nat}
    {steps : List EqnReadStep} {n : EqnNext} (hmax : subcnt < EQN_NEST_MAX)
    (h : NextOutcome defs (subcnt + 1) (max (region - blanks + (valsz - toksz)) valsz) steps n) :
    NextOutcome defs subcnt region (.replace blanks toksz valsz :: steps) n := by
  have hlimit : WithinLimit subcnt region (.replace blanks toksz valsz :: steps) ↔
      WithinLimit (subcnt + 1) (max (region - blanks + (valsz - toksz)) valsz) steps :=
    and_iff_right hmax
  cases h with
  | eof htok hsteps hl => exact .eof htok hsteps (hlimit.mpr hl)
  | token htok hsteps hreads hl hclean hdefs =>
    exact .token htok hsteps hreads (hlimit.trans hl) hclean hdefs
  | exceeded htok hname hl => exact .exceeded htok hname fun hw => hl (hlimit.mp hw)

/-- The next token comes later, inside the text. -/
theorem eqnDelimit_next {q : Bool} {ep' : EqnNode} (h : eqnDelimit mode ep = (some q, ep')) :
    ep.start < ep'.next ∧ ep'.next ≤ ep.data.length ∧ (q = false → ep'.start ≤ ep'.next) := by
  cases q with
  | true =>
    obtain ⟨_, _, _, rfl, hlt, hle⟩ := eqnDelimit_quoted h
    exact ⟨hlt, hle, nofun⟩
  | false =>
    obtain ⟨start, toksz, next, rfl, hstart, hpos, hnext, hle, -⟩ := eqnDelimit_plain h
    have hlt : ep.start < next := by omega
    exact ⟨hlt, hle, fun _ => Nat.le_trans (Nat.le_add_right start toksz) hnext⟩

/-- The definition of the first token. -/
theorem eqnDefFind_firstToken {f : FirstToken} {start next : Nat} (hq : f.token.quoted = false)
    (htext : (ep.data.drop start).take f.token.text.length = f.token.text) :
    ((eqnDefFind { ep with
        start := start, toksz := f.token.text.length, next := next }).bind (ep.defs[·]?)).map
      EqnDef.val = definedValue ep.defs f.token := by
  refine (eqnDefFind_value { ep with
    start := start, toksz := f.token.text.length, next := next }).trans ?_
  rw [EqnNode.token, htext, ← hq]

/-- A token that is not replaced. -/
theorem tokenOutcome {f : FirstToken} {steps : List EqnReadStep} {start toksz next : Nat}
    (hc : ep.Clean) (hlt : ep.start < next) (hle : next ≤ ep.data.length)
    (hrest : ep.data.drop next = f.rest) (h : EqnReads ep.defs f.rest steps)
    (htext : (ep.data.drop start).take toksz = f.token.text) :
    NextOutcome ep.defs ep.subcnt (ep.sublen - ep.start)
      (.token f.token ((ep.data.drop ep.start).length - f.rest.length) :: steps)
      (eqnClassify mode f.token.quoted
        { ep with start := start, toksz := toksz, next := next }) := by
  obtain ⟨hep, htok, -⟩ := eqnClassify_spec mode f.token.quoted
    { ep with start := start, toksz := toksz, next := next }
  have hraw : (eqnClassify mode f.token.quoted
      { ep with start := start, toksz := toksz, next := next }).raw = f.token := by
    rw [raw_eqnClassify, EqnNode.token, htext]
  refine .token htok (?_ : _ = _ :: deliveredTokens steps) ?_ ?_ ?_ ?_
  · rw [deliveredTokens, hraw]
  · rw [hep]
    exact hrest ▸ h
  · -- The number of bytes up to the next token.
    have hlen : (ep.data.drop ep.start).length - f.rest.length = next - ep.start := by
      rw [← hrest, List.length_drop, List.length_drop]
      omega
    have hregion : ep.sublen - ep.start - (next - ep.start) = ep.sublen - next := by omega
    have hreset : ep.sublen - ep.start ≤ next - ep.start ↔ ep.sublen ≤ next := by omega
    rw [hep, WithinLimit, hlen, hregion]
    simp only [hreset]
  · rw [hep]
    exact ⟨hc.data, hc.defs⟩
  · rw [hep]

theorem drop_eqnSubstitute (val : CStr) (hle : ep.start ≤ ep.data.length) :
    (eqnSubstitute ep val).data.drop ep.start = val ++ ep.data.drop (ep.start + ep.toksz) := by
  rw [eqnSubstitute, List.append_assoc]
  exact List.drop_left' (List.length_take_of_le hle)

theorem region_eqnSubstitute {blanks : Nat} (start : Nat) (hstart : ep.start = start + blanks)
    (val : CStr) : (eqnSubstitute ep val).sublen - ep.start =
      max (ep.sublen - start - blanks + (val.length - ep.toksz)) val.length := by
  rw [eqnSubstitute]
  dsimp only
  omega

/-- The loop of `eqn_next()`. -/
theorem eqnNextLoop_outcome (hmode : mode = .SUB ∨ mode = .TOK) (rounds : Nat) (moved : Bool)
    {steps : List EqnReadStep} (h : EqnReads ep.defs (ep.data.drop ep.start) steps)
    (hc : ep.Clean) (hrounds : EQN_NEST_MAX < ep.subcnt + rounds) (hpos : 0 < rounds) :
    ∃ n, eqnNextLoop mode rounds moved ep = .ok n ∧
      NextOutcome ep.defs ep.subcnt (ep.sublen - ep.start) steps n := by
  induction rounds generalizing ep steps moved with
  | zero => exact absurd hpos (Nat.lt_irrefl 0)
  | succ rounds ih =>
    have hquoted : mode ≠ .QUOTED := by
      rcases hmode with rfl | rfl <;> exact nofun
    have hnosub : mode ≠ .NOSUB := by
      rcases hmode with rfl | rfl <;> exact nofun
    have hdelim := @eqnDelimit_firstToken mode ep hquoted hc.data
    unfold eqnNextLoop
    cases h with
    | done hf =>
      rw [hf] at hdelim
      obtain ⟨start, hd⟩ := hdelim
      rw [hd]
      exact ⟨_, rfl, .eof rfl rfl trivial⟩
    | @token _ f steps hf hdef h =>
      rw [hf] at hdelim
      obtain ⟨start, next, hd, htext, hrest, -⟩ := hdelim
      obtain ⟨hlt, hle, -⟩ := eqnDelimit_next hd
      have hout := @tokenOutcome mode ep f steps start f.token.text.length next hc hlt hle hrest h
        htext
      rw [hd]
      cases hq : f.token.quoted with
      | true =>
        rw [hq] at hout
        exact ⟨_, rfl, hout⟩
      | false =>
        rw [hq] at hout
        have hnone := Option.map_eq_none_iff.mp
          ((@eqnDefFind_firstToken ep f start next hq htext).trans hdef)
        simp only [if_neg hnosub, hnone]
        exact ⟨_, rfl, hout⟩
    | @replace _ v f steps hf hdef h =>
      have hq : f.token.quoted = false := by
        rw [Bool.eq_false_iff]
        intro hq
        rw [definedValue, if_pos hq] at hdef
        cases hdef
      rw [hf] at hdelim
      obtain ⟨start, next, hd, htext, -, hplain⟩ := hdelim
      obtain ⟨rfl, hbehind⟩ := hplain hq
      obtain ⟨d, hfind, rfl⟩ := Option.map_eq_some_iff.mp
        ((@eqnDefFind_firstToken ep f _ next hq htext).trans hdef)
      rw [hd, hq]
      simp only [if_neg hnosub, hfind]
      cases Nat.lt_or_ge ep.subcnt EQN_NEST_MAX with
      | inl hmax =>
        -- The value is read instead.
        rw [if_neg (Nat.not_lt_of_le hmax)]
        obtain ⟨-, hle, hnext⟩ := eqnDelimit_next hd
        set ep' : EqnNode := { ep with
          start := ep.start + f.blanks, toksz := f.token.text.length, next := next
          subcnt := ep.subcnt + 1 }
        have hval : NUL ∉ d.val := by
          obtain ⟨i, -, hi⟩ := Option.bind_eq_some_iff.mp hfind
          exact hc.defs d (List.mem_of_getElem? hi)
        have hclean : (eqnSubstitute ep' d.val).Clean := eqnSubstitute_clean ⟨hc.data, hc.defs⟩ hval
        have hstart : ep'.start ≤ ep'.data.length := Nat.le_trans (hnext hq) hle
        have hreads : EqnReads ep.defs ((eqnSubstitute ep' d.val).data.drop ep'.start) steps := by
          rw [drop_eqnSubstitute d.val hstart]
          exact hbehind ▸ h
        obtain ⟨n, hn, hout⟩ := @ih (eqnSubstitute ep' d.val) _ steps hreads hclean
          (by simp only [eqnSubstitute, ep']; omega) (by omega)
        have hregion := @region_eqnSubstitute ep' f.blanks ep.start rfl d.val
        exact ⟨n, hn, .replace hmax (hregion ▸ hout)⟩
      | inr hmax =>
        -- The name itself is delivered.
        rw [if_pos (Nat.lt_succ_of_le hmax)]
        obtain ⟨hep, htok, -⟩ := eqnClassify_spec mode false { ep with
          start := ep.start + f.blanks, toksz := f.token.text.length, next := next
          subcnt := ep.subcnt + 1 }
        refine ⟨_, rfl, .exceeded htok ?_ fun hw => absurd hw.1 (Nat.not_lt_of_le hmax)⟩
        rw [raw_eqnClassify, EqnNode.token, htext, ← hq, hdef]
        exact Option.some_ne_none _

/-- One call of `eqn_next()`.  The number of replacements is reset behind the replaced text. -/
theorem eqnNext_outcome (hmode : mode = .SUB ∨ mode = .TOK) {steps : List EqnReadStep}
    (h : EqnReads ep.defs (ep.data.drop ep.next) steps) (hc : ep.Clean) :
    ∃ n, eqnNext mode ep = .ok n ∧
      NextOutcome ep.defs (if ep.sublen ≤ ep.next then 0 else ep.subcnt) (ep.sublen - ep.next)
        steps n := by
  have hloop : ∀ subcnt, ∃ n, eqnNextLoop mode (EQN_NEST_MAX + 1) false
      { ep with subcnt := subcnt, start := ep.next } = .ok n ∧
      NextOutcome ep.defs subcnt (ep.sublen - ep.next) steps n := fun subcnt =>
    eqnNextLoop_outcome hmode _ _ h ⟨hc.data, hc.defs⟩
      (Nat.lt_of_lt_of_le (Nat.lt_succ_self _) (Nat.le_add_left _ _)) (Nat.succ_pos _)
  unfold eqnNext
  cases Nat.lt_or_ge ep.next ep.sublen with
  | inl hlt =>
    simp only [if_neg (Nat.not_le_of_lt hlt)]
    exact hloop ep.subcnt
  | inr hle =>
    simp only [if_pos hle]
    exact hloop 0

/-! ## §4 Definitions without recursion -/

/-- No definition refers to itself, not even through others: there are ranks such that all defined
names in a value have a lower rank than the name.  Braces are not names because what they are
replaced with could become a part of another name. -/
structure NonRecursive (defs : List EqnDef) (rank : CStr → Nat) : Prop where
  name : ∀ {t v : CStr}, definedValue defs ⟨false, t⟩ = some v → ∀ c ∈ t, eqnBreak c = false
  rank : ∀ {t v : CStr}, definedValue defs ⟨false, t⟩ = some v →
    ∀ w ∈ v.splitOnP eqnBreak, definedValue defs ⟨false, w⟩ ≠ none → rank w < rank t

/-- How many replacements the words of a text cause. -/
def textWeight (weight : CStr → Nat) (s : CStr) : Nat :=
  ((s.splitOnP eqnBreak).map weight).sum

/-- How many replacements a word causes, including those in values, down to some depth. -/
def wordWeight (defs : List EqnDef) : Nat → CStr → Nat
  | 0, _ => 0
  | n + 1, t =>
    match definedValue defs ⟨false, t⟩ with
    | none => 0
    | some v => textWeight (wordWeight defs n) v + 1

section

variable {defs : List EqnDef} {rank : CStr → Nat} {weight : CStr → Nat}

theorem wordWeight_of_none {t : CStr} (h : definedValue defs ⟨false, t⟩ = none) (n : Nat) :
    wordWeight defs n t = 0 := by
  cases n with
  | zero => rfl
  | succ n => rw [wordWeight, h]

/-- The depth does not matter when it is larger than the rank. -/
theorem wordWeight_succ (hdefs : NonRecursive defs rank) {n : Nat} {t : CStr} (h : rank t < n) :
    wordWeight defs (n + 1) t = wordWeight defs n t := by
  induction n generalizing t with
  | zero => exact absurd h (Nat.not_lt_zero _)
  | succ n ih =>
    rw [wordWeight, wordWeight.eq_2]
    cases hdef : definedValue defs ⟨false, t⟩ with
    | none => rfl
    | some v =>
      have hwords : ∀ w ∈ v.splitOnP eqnBreak, wordWeight defs (n + 1) w = wordWeight defs n w := by
        intro w hw
        cases hword : definedValue defs ⟨false, w⟩ with
        | none => rw [wordWeight_of_none hword, wordWeight_of_none hword]
        | some _ =>
          have hlt := hdefs.rank hdef w hw (by simp [hword])
          exact ih (Nat.lt_of_lt_of_le hlt (Nat.le_of_lt_succ h))
      exact congrArg (·.sum + 1) (List.map_congr_left hwords)

/-- The ranks of all names are bounded. -/
theorem exists_rank_lt (defs : List EqnDef) (rank : CStr → Nat) :
    ∃ n, ∀ t v, definedValue defs ⟨false, t⟩ = some v → rank t < n := by
  refine ⟨((defs.map fun d => rank d.key).sum) + 1, fun t v hdef => ?_⟩
  obtain ⟨d, hfind, -⟩ := Option.map_eq_some_iff.mp hdef
  have hkey := List.find?_some hfind
  rw [Bool.and_eq_true, decide_eq_true_eq, decide_eq_true_eq] at hkey
  obtain rfl : d.key = t := hkey.2
  exact Nat.lt_succ_of_le
    (List.le_sum_of_mem (List.mem_map_of_mem (List.mem_of_find?_eq_some hfind)))

/-- What can stand behind a word. -/
def WordEnds (s : CStr) : Prop := ∀ c ∈ s.head?, eqnBreak c = true

theorem textWeight_break (a b : CStr) {c : Char} (hc : eqnBreak c = true) :
    textWeight weight (a ++ c :: b) = textWeight weight a + textWeight weight b := by
  rw [textWeight, List.splitOnP_append_cons a b hc, List.map_append, List.sum_append]
  rfl

theorem textWeight_word {a : CStr} (h : ∀ c ∈ a, eqnBreak c = false) :
    textWeight weight a = weight a := by
  rw [textWeight, List.splitOnP_eq_singleton h]
  exact Nat.add_zero _

theorem textWeight_cons (hnil : weight [] = 0) {c : Char} (hc : eqnBreak c = true) (s : CStr) :
    textWeight weight (c :: s) = textWeight weight s := by
  have h := @textWeight_break weight [] s c hc
  rw [textWeight_word fun _ hm => absurd hm List.not_mem_nil, hnil, Nat.zero_add] at h
  exact h

/-- Words in front of the end of a word. -/
theorem textWeight_append (hnil : weight [] = 0) (a : CStr) {b : CStr} (hb : WordEnds b) :
    textWeight weight (a ++ b) = textWeight weight a + textWeight weight b := by
  cases b with
  | nil =>
    rw [List.append_nil, textWeight_word fun _ hm => absurd hm List.not_mem_nil, hnil]
    rfl
  | cons c b =>
    have hc := hb c rfl
    rw [textWeight_break a b hc, textWeight_cons hnil hc]

/-- Blanks do not matter. -/
theorem textWeight_dropWhile (hnil : weight [] = 0) (s : CStr) :
    textWeight weight (s.dropWhile eqnBlank) = textWeight weight s := by
  induction s with
  | nil => rfl
  | cons c s ih =>
    rw [List.dropWhile_cons]
    split
    · next hc =>
      rw [ih, textWeight_cons hnil]
      rw [eqnBreak, hc]
      rfl
    · rfl

theorem length_dropWhile_le (p : Char → Bool) (s : CStr) : (s.dropWhile p).length ≤ s.length :=
  (List.dropWhile_suffix p).length_le

/-- The word at the beginning of a text, and what follows. -/
theorem textWeight_span (hnil : weight [] = 0) {c : Char} (hc : eqnBreak c = false) (q : CStr) :
    textWeight weight (c :: q) =
        weight (c :: q.takeWhile fun c => !eqnBreak c) +
          textWeight weight (q.dropWhile fun c => !eqnBreak c) ∧
      WordEnds (q.dropWhile fun c => !eqnBreak c) := by
  have hword : ∀ x ∈ c :: q.takeWhile fun c => !eqnBreak c, eqnBreak x = false := by
    intro x hx
    rcases List.mem_cons.mp hx with rfl | hmem
    · exact hc
    · simpa using List.mem_takeWhile_imp hmem
  have hends : WordEnds (q.dropWhile fun c => !eqnBreak c) := by
    intro x hx
    have hhead := List.head?_dropWhile_not (fun c => !eqnBreak c) q
    rw [Option.mem_def.mp hx] at hhead
    simpa using hhead
  have hsplit := @textWeight_append weight hnil (c :: q.takeWhile fun c => !eqnBreak c) _ hends
  rw [textWeight_word hword, List.cons_append, List.takeWhile_append_dropWhile] at hsplit
  exact ⟨hsplit, hends⟩

/-- The words behind a quoted string. -/
theorem textWeight_closingQuote (hnil : weight [] = 0) (q : CStr) :
    textWeight weight ((q.dropWhile (· ≠ '"')).drop 1) ≤ textWeight weight q := by
  have hsplit := @List.takeWhile_append_dropWhile _ (fun c => decide (c ≠ '"')) q
  have hhead := List.head?_dropWhile_not (fun c => decide (c ≠ '"')) q
  cases hdrop : q.dropWhile (· ≠ '"') with
  | nil =>
    rw [List.drop_nil, textWeight_word fun _ hm => absurd hm List.not_mem_nil, hnil]
    exact Nat.zero_le _
  | cons c b =>
    rw [hdrop] at hsplit hhead
    have hc : c = '"' := by simpa using hhead
    rw [← hsplit, textWeight_break _ b (by rw [hc]; rfl)]
    exact Nat.le_add_left _ _

/-- The first token of a text, and the words behind it. -/
theorem firstToken_weight (hnil : weight [] = 0) {s : CStr} {f : FirstToken}
    (hf : firstToken s = some f) :
    f.rest.length < s.length ∧ textWeight weight f.rest ≤ textWeight weight s ∧
      (f.token.quoted = false → (∀ c ∈ f.token.text, eqnBreak c = false) →
        textWeight weight s = weight f.token.text + textWeight weight f.behind ∧
          WordEnds f.behind) := by
  rw [FirstToken.rest, textWeight_dropWhile hnil]
  have hrest := length_dropWhile_le eqnBlank f.behind
  have hblanks := length_dropWhile_le eqnBlank s
  rw [← @textWeight_dropWhile weight hnil s]
  simp only [firstToken] at hf
  cases hs : s.dropWhile eqnBlank with
  | nil =>
    rw [hs] at hf
    cases hf
  | cons c q =>
    rw [hs, List.length_cons] at hblanks
    simp only [hs] at hf
    split_ifs at hf with hquote hbrace
    · -- The quoted string is skipped, together with the quotes.
      obtain rfl := Option.some.inj hf
      have hlen : ((q.dropWhile (· ≠ '"')).drop 1).length ≤ q.length := by
        rw [List.length_drop]
        exact Nat.le_trans (Nat.sub_le ..) (length_dropWhile_le _ q)
      refine ⟨by dsimp only at *; omega, ?_, nofun⟩
      rw [textWeight_cons hnil (by rw [hquote]; rfl)]
      exact textWeight_closingQuote hnil q
    · obtain rfl := Option.some.inj hf
      have hc : eqnBreak c = true := by
        have hor : c = '\x7b' ∨ c = '\x7d' := by simpa using hbrace
        rcases hor with rfl | rfl <;> rfl
      refine ⟨by dsimp only at *; omega, by rw [textWeight_cons hnil hc], fun _ hplain => ?_⟩
      exact Bool.noConfusion (hc.symm.trans (hplain c (List.mem_cons_self ..)))
    · obtain rfl := Option.some.inj hf
      have hlen := length_dropWhile_le (fun c => !eqnBreak c) q
      have hblank : eqnBlank c = false := by
        have hhead := List.head?_dropWhile_not eqnBlank s
        rw [hs] at hhead
        exact hhead
      have hc : eqnBreak c = false := by
        simp only [eqnBreak, hblank, decide_eq_false hquote, Bool.false_or]
        simpa using hbrace
      obtain ⟨hsplit, hends⟩ := @textWeight_span weight hnil c hc q
      exact ⟨by dsimp only at *; omega, hsplit ▸ Nat.le_add_left _ _, fun _ _ => ⟨hsplit, hends⟩⟩

end

section

variable {defs : List EqnDef} {rank : CStr → Nat}

/-- If no definition is recursive, replacing all names comes to an end. -/
theorem exists_eqnReads (hdefs : NonRecursive defs rank) (s : CStr) :
    ∃ steps, EqnReads defs s steps := by
  obtain ⟨n, hn⟩ := exists_rank_lt defs rank
  have hnil : wordWeight defs n [] = 0 := by
    apply wordWeight_of_none
    simp [definedValue, List.find?_eq_none]
  -- Induction on the number of replacements, and on the length of the text.
  suffices h : ∀ k l (s : CStr), textWeight (wordWeight defs n) s ≤ k → s.length ≤ l →
      ∃ steps, EqnReads defs s steps from h _ _ s (Nat.le_refl _) (Nat.le_refl _)
  intro k
  induction k using Nat.strong_induction_on with
  | _ k ihk =>
    intro l
    induction l with
    | zero =>
      intro s _ hl
      obtain rfl := List.length_eq_zero_iff.mp (Nat.le_zero.mp hl)
      exact ⟨[], .done rfl⟩
    | succ l ihl =>
      intro s hk hl
      cases hf : firstToken s with
      | none => exact ⟨[], .done hf⟩
      | some f =>
        obtain ⟨hlen, hrest, hplain⟩ := @firstToken_weight (wordWeight defs n) hnil s f hf
        cases hdef : definedValue defs f.token with
        | none =>
          obtain ⟨steps, hsteps⟩ := ihl f.rest (Nat.le_trans hrest hk) (by omega)
          exact ⟨_, .token hf hdef hsteps⟩
        | some v =>
          -- The words of the value cause one replacement less than the name.
          have hq : f.token.quoted = false := by
            rw [Bool.eq_false_iff]
            intro hq
            rw [definedValue, if_pos hq] at hdef
            cases hdef
          have hname : definedValue defs ⟨false, f.token.text⟩ = some v := by
            rw [← hdef, ← hq]
          obtain ⟨hweight, hends⟩ := hplain hq (hdefs.name hname)
          have hword : wordWeight defs n f.token.text =
              textWeight (wordWeight defs n) v + 1 := by
            rw [← wordWeight_succ hdefs (hn _ v hname), wordWeight, hname]
          have hlt : textWeight (wordWeight defs n) (v ++ f.behind) < k := by
            rw [textWeight_append hnil v hends]
            omega
          obtain ⟨steps, hsteps⟩ := ihk _ hlt _ _ (Nat.le_refl _) (Nat.le_refl _)
          exact ⟨_, .replace hf hdef hsteps⟩

end

/-! ## §5 All calls -/

/-- The tokens that some calls of `eqn_next()` deliver, up to the end of the text. -/
def eqnTokens : List ParseMode → EqnNode → EqnRes (List TextToken)
  | [], _ => .ok []
  | mode :: modes, ep => do
    let n ← eqnNext mode ep
    if n.tok = .EOF then return []
    return n.raw :: (← eqnTokens modes n.ep)

/-- A call that delivers a token. -/
theorem eqnTokens_cons {modes : List ParseMode} {n : EqnNext} (hn : eqnNext mode ep = .ok n)
    (htok : n.tok ≠ .EOF) :
    eqnTokens (mode :: modes) ep = (eqnTokens modes n.ep).map (n.raw :: ·) := by
  rw [eqnTokens, hn]
  change (if n.tok = .EOF then _ else _) = _
  rw [if_neg htok]
  cases eqnTokens modes n.ep <;> rfl

theorem eqnTokens_eof {modes : List ParseMode} {n : EqnNext} (hn : eqnNext mode ep = .ok n)
    (htok : n.tok = .EOF) : eqnTokens (mode :: modes) ep = .ok [] := by
  rw [eqnTokens, hn]
  exact if_pos htok

theorem EqnReads.delivered {defs : List EqnDef} {s : CStr} {steps : List EqnReadStep}
    (h : EqnReads defs s steps) : ∀ t ∈ deliveredTokens steps, definedValue defs t = none := by
  induction h with
  | done _ => exact fun _ ht => absurd ht List.not_mem_nil
  | token _ hdef _ ih => exact List.forall_mem_cons.mpr ⟨hdef, ih⟩
  | replace _ _ _ ih => exact ih

/-- Within the limit, the calls deliver all tokens. -/
theorem eqnTokens_of_withinLimit {modes : List ParseMode} {steps : List EqnReadStep}
    (hmodes : ∀ m ∈ modes, m = .SUB ∨ m = .TOK)
    (h : EqnReads ep.defs (ep.data.drop ep.next) steps) (hc : ep.Clean)
    (hlimit : WithinLimit (if ep.sublen ≤ ep.next then 0 else ep.subcnt) (ep.sublen - ep.next)
      steps) :
    eqnTokens modes ep = .ok ((deliveredTokens steps).take modes.length) := by
  induction modes generalizing ep steps with
  | nil => rfl
  | cons mode modes ih =>
    obtain ⟨hmode, hrest⟩ := List.forall_mem_cons.mp hmodes
    obtain ⟨n, hn, hout⟩ := eqnNext_outcome hmode h hc
    cases hout with
    | eof htok hsteps _ => rw [eqnTokens_eof hn htok, hsteps, List.take_nil]
    | token htok hsteps hreads hl hclean _ =>
      rw [eqnTokens_cons hn htok, ih hrest hreads hclean (hl.mp hlimit), hsteps]
      rfl
    | exceeded _ _ hl => exact absurd hlimit hl

/-- If the calls deliver all tokens, the replacements are within the limit. -/
theorem withinLimit_of_eqnTokens {modes : List ParseMode} {steps : List EqnReadStep}
    (hmodes : ∀ m ∈ modes, m = .SUB ∨ m = .TOK)
    (h : EqnReads ep.defs (ep.data.drop ep.next) steps) (hc : ep.Clean)
    (hlen : (deliveredTokens steps).length < modes.length)
    (heq : eqnTokens modes ep = .ok (deliveredTokens steps)) :
    WithinLimit (if ep.sublen ≤ ep.next then 0 else ep.subcnt) (ep.sublen - ep.next) steps := by
  induction modes generalizing ep steps with
  | nil => exact absurd hlen (Nat.not_lt_zero _)
  | cons mode modes ih =>
    obtain ⟨hmode, hrest⟩ := List.forall_mem_cons.mp hmodes
    obtain ⟨n, hn, hout⟩ := eqnNext_outcome hmode h hc
    cases hout with
    | eof _ _ hl => exact hl
    | token htok hsteps hreads hl hclean _ =>
      rw [hsteps] at hlen heq
      rw [eqnTokens_cons hn htok] at heq
      cases hmore : eqnTokens modes n.ep with
      | error e =>
        rw [hmore] at heq
        cases heq
      | ok toks =>
        rw [hmore] at heq
        obtain ⟨-, rfl⟩ := List.cons.inj (Except.ok.inj heq)
        exact hl.mpr (ih hrest hreads hclean (Nat.lt_of_succ_lt_succ hlen) hmore)
    | exceeded htok hname _ =>
      -- The name that is delivered would have been replaced.
      rw [eqnTokens_cons hn htok] at heq
      cases hmore : eqnTokens modes n.ep with
      | error e =>
        rw [hmore] at heq
        cases heq
      | ok toks =>
        rw [hmore] at heq
        have hmem : n.raw ∈ deliveredTokens steps :=
          Except.ok.inj heq ▸ List.mem_cons_self ..
        exact absurd (h.delivered _ hmem) hname

/-- If all sequences of calls deliver the tokens, the replacements are within the limit. -/
theorem withinLimit_of_forall (hc : ep.Clean) {steps : List EqnReadStep}
    (h : EqnReads ep.defs (ep.data.drop ep.next) steps)
    (hall : ∀ modes : List ParseMode, (∀ m ∈ modes, m = .SUB ∨ m = .TOK) →
      eqnTokens modes ep = .ok ((deliveredTokens steps).take modes.length)) :
    WithinLimit (if ep.sublen ≤ ep.next then 0 else ep.subcnt) (ep.sublen - ep.next) steps := by
  -- One call for each token, and one more for the end of the text.
  have hmodes : ∀ m ∈ List.replicate ((deliveredTokens steps).length + 1) ParseMode.TOK,
      m = .SUB ∨ m = .TOK := fun m hm => .inr (List.eq_of_mem_replicate hm)
  have hlen : (List.replicate ((deliveredTokens steps).length + 1) ParseMode.TOK).length =
      (deliveredTokens steps).length + 1 := List.length_replicate
  have htokens := hall _ hmodes
  rw [hlen, List.take_of_length_le (Nat.le_succ _)] at htokens
  exact withinLimit_of_eqnTokens hmodes h hc (hlen.symm ▸ Nat.lt_succ_self _) htokens

/-- **Complete substitution.**  The calls of `eqn_next()` deliver the tokens of the text in which
    all defined names are replaced if and only if the replacements are within the limit. -/
theorem eqnNext_expands_iff (hc : ep.Clean) {steps : List EqnReadStep}
    (h : EqnReads ep.defs (ep.data.drop ep.next) steps) :
    (∀ modes : List ParseMode, (∀ m ∈ modes, m = .SUB ∨ m = .TOK) →
        eqnTokens modes ep = .ok ((deliveredTokens steps).take modes.length)) ↔
      WithinLimit (if ep.sublen ≤ ep.next then 0 else ep.subcnt) (ep.sublen - ep.next) steps :=
  ⟨withinLimit_of_forall hc h, fun hlimit _ hmodes => eqnTokens_of_withinLimit hmodes h hc hlimit⟩

/-! ## §6 Short texts -/

/-- Reading a text, for at most the given number of steps. -/
def readText (defs : List EqnDef) : Nat → CStr → Option (List EqnReadStep)
  | 0, _ => none
  | n + 1, s =>
    match firstToken s with
    | none => some []
    | some f =>
      match definedValue defs f.token with
      | none =>
        (readText defs n f.rest).map (.token f.token (s.length - f.rest.length) :: ·)
      | some v =>
        (readText defs n (v ++ f.behind)).map
          (.replace f.blanks f.token.text.length v.length :: ·)

/-- The function reads the text. -/
theorem eqnReads_of_readText {defs : List EqnDef} {n : Nat} {s : CStr} {steps : List EqnReadStep}
    (h : readText defs n s = some steps) : EqnReads defs s steps := by
  induction n generalizing s steps with
  | zero => cases h
  | succ n ih =>
    rw [readText] at h
    cases hf : firstToken s with
    | none =>
      rw [hf] at h
      obtain rfl := Option.some.inj h
      exact .done hf
    | some f =>
      simp only [hf] at h
      cases hdef : definedValue defs f.token with
      | none =>
        simp only [hdef] at h
        obtain ⟨steps', hsteps, rfl⟩ := Option.map_eq_some_iff.mp h
        exact .token hf hdef (ih hsteps)
      | some v =>
        simp only [hdef] at h
        obtain ⟨steps', hsteps, rfl⟩ := Option.map_eq_some_iff.mp h
        exact .replace hf hdef (ih hsteps)

/-- The value of `x` is longer than the name, and the value of `yy` is shorter. -/
def xDefs : List EqnDef :=
  [{ key := ['x'], val := "yy yy".toList }, { key := ['y', 'y'], val := ['z'] }]

/-- An equation with some words `x`. -/
def xEquation (n : Nat) : EqnNode :=
  { defs := xDefs, data := (List.replicate n "x ".toList).flatten }

/-- The two names. -/
theorem definedValue_xDefs {t v : CStr} (h : definedValue xDefs ⟨false, t⟩ = some v) :
    t = ['x'] ∧ v = "yy yy".toList ∨ t = ['y', 'y'] ∧ v = ['z'] := by
  obtain ⟨d, hfind, rfl⟩ := Option.map_eq_some_iff.mp h
  have hmem := List.mem_of_find?_eq_some hfind
  have hkey := List.find?_some hfind
  rw [Bool.and_eq_true, decide_eq_true_eq, decide_eq_true_eq] at hkey
  obtain rfl : d.key = t := hkey.2
  rcases List.mem_cons.mp hmem with rfl | hmem
  · exact .inl ⟨rfl, rfl⟩
  · obtain rfl := List.mem_singleton.mp hmem
    exact .inr ⟨rfl, rfl⟩

/-- The definitions are not recursive: only the value of `x` contains a defined name. -/
theorem nonRecursive_xDefs : NonRecursive xDefs fun t => if t = ['x'] then 1 else 0 := by
  constructor
  · intro t v h
    rcases definedValue_xDefs h with ⟨rfl, -⟩ | ⟨rfl, -⟩ <;> simp [eqnBreak, eqnBlank]
  · intro t v h w hw hdef
    rcases definedValue_xDefs h with ⟨rfl, rfl⟩ | ⟨rfl, rfl⟩
    · have hall : ∀ w ∈ "yy yy".toList.splitOnP eqnBreak, w ≠ ['x'] := by decide +kernel
      rw [if_neg (hall w hw), if_pos rfl]
      exact Nat.one_pos
    · have hall : ∀ w ∈ ['z'].splitOnP eqnBreak, definedValue xDefs ⟨false, w⟩ = none := by
        decide +kernel
      exact absurd (hall w hw) hdef

theorem clean_xEquation (n : Nat) : (xEquation n).Clean := by
  have hdefs : ∀ d ∈ xDefs, NUL ∉ d.val := by decide +kernel
  refine ⟨fun hmem => ?_, hdefs⟩
  obtain ⟨s, hs, hnul⟩ := List.mem_flatten.mp hmem
  rw [List.eq_of_mem_replicate hs] at hnul
  exact absurd hnul (by decide +kernel)

/-- Twice the word `x` is four times the letter `z`. -/
theorem eqnNext_expands_sample : (xEquation 2).Clean ∧
    ∀ modes : List ParseMode, (∀ m ∈ modes, m = .SUB ∨ m = .TOK) →
      eqnTokens modes (xEquation 2) =
        .ok ((List.replicate 4 ⟨false, ['z']⟩).take modes.length) := by
  refine ⟨clean_xEquation 2, ?_⟩
  have hsample : (readText xDefs 100 (xEquation 2).data).any fun steps =>
      deliveredTokens steps = List.replicate 4 ⟨false, ['z']⟩ && decide (WithinLimit 0 0 steps) :=
    by decide +kernel
  obtain ⟨steps, hsteps, hprop⟩ := Option.any_eq_true _ _ |>.mp hsample
  rw [Bool.and_eq_true, decide_eq_true_eq, decide_eq_true_eq] at hprop
  rw [← hprop.1]
  exact (eqnNext_expands_iff (clean_xEquation 2) (eqnReads_of_readText hsteps)).mpr hprop.2

/-- In a long row of words `x`, the end of the replaced text stays behind the place where
    `eqn_next()` reads because it does not move back when `yy` is replaced by `z`. -/
theorem eqnNext_not_expands : NonRecursive xDefs (fun t => if t = ['x'] then 1 else 0) ∧
    ∃ steps, EqnReads xDefs (xEquation 43).data steps ∧
      deliveredTokens steps = List.replicate 86 ⟨false, ['z']⟩ ∧
      ¬ ∀ modes : List ParseMode, (∀ m ∈ modes, m = .SUB ∨ m = .TOK) →
        eqnTokens modes (xEquation 43) = .ok ((deliveredTokens steps).take modes.length) := by
  have hsample : (readText xDefs 1000 (xEquation 43).data).any fun steps =>
      deliveredTokens steps = List.replicate 86 ⟨false, ['z']⟩ && !decide (WithinLimit 0 0 steps) :=
    by decide +kernel
  obtain ⟨steps, hsteps, hprop⟩ := Option.any_eq_true _ _ |>.mp hsample
  rw [Bool.and_eq_true, decide_eq_true_eq, Bool.not_eq_true', decide_eq_false_iff_not] at hprop
  have hreads := eqnReads_of_readText hsteps
  exact ⟨nonRecursive_xDefs, steps, hreads, hprop.1, fun hall =>
    hprop.2 (@withinLimit_of_forall (xEquation 43) (clean_xEquation 43) steps hreads hall)⟩

end Mandoc
