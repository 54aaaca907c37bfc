import Mandoc.Term.PsDecode

/-!
# Backspaces that the PostScript Device Can Decode

When `term_field()` prints a field, blanks and tabs are not passed on as letters, and neither are
the characters of zero width. So the character in the buffer before a backspace need not be the
letter that the device got last.

- `Decodable` says which requests can be decoded, in terms of the requests alone.
- `psTexts_ok_iff` says when a document made of fields and of unbuffered words is printed without
  a failure.
- `backWord_fails` is a word that leaves a backspace at the beginning of a field.
-/

namespace Mandoc

/-! ## §1 What was asked for before

The lists of requests in this section have the most recent request first. -/

/-- The character that is delayed. -/
def delayed : List PsCall → Option Char
  | .letter c :: l => if psChar c = BS then delayed l else some (psChar c)
  | _ => none

/-- The last letter was a backspace. -/
def pending : List PsCall → Bool
  | .letter c :: _ => psChar c = BS
  | _ :: l => pending l
  | [] => false

/-- The last character was printed over another one, at the same position. An underscore and a
    second copy of a character only change the font. -/
def overstrikes : List PsCall → Bool
  | .letter c :: l =>
    if psChar c = BS then overstrikes l
    else pending l && (overstrikes l || (delayed l ≠ some '_' && delayed l ≠ some (psChar c)))
  | _ :: l => overstrikes l
  | [] => false

/-- The request fits behind the ones before it: a backspace directly follows a character, and a
    character that overstrikes another one is in the tables. -/
def Fits (before : List PsCall) : PsCall → Prop
  | .letter arg =>
    if psChar arg = BS then ∃ c l, before = .letter c :: l ∧ psChar c ≠ BS
    else overstrikes (.letter arg :: before) → inGlyphs (psChar arg)
  | _ => True

/-- Each request fits behind the ones before it. -/
def Decodable (l : List PsCall) : Prop := ∀ c before, c :: before <:+ l → Fits before c

theorem decodable_nil : Decodable [] := by
  intro c before h
  exact absurd (List.suffix_nil.mp h) (List.cons_ne_nil _ _)

theorem decodable_cons {c : PsCall} {l : List PsCall} :
    Decodable (c :: l) ↔ Decodable l ∧ Fits l c := by
  constructor
  · intro h
    exact ⟨fun c' before hs => h c' before (hs.trans (List.suffix_cons c l)), h c l List.suffix_rfl⟩
  · intro ⟨hl, hc⟩ c' before hs
    obtain heq | hs := List.suffix_cons_iff.mp hs
    · obtain ⟨rfl, rfl⟩ := List.cons_eq_cons.mp heq
      exact hc
    · exact hl c' before hs

/-! ## §2 The state of the decoder -/

/-- The state of the decoder, in terms of the requests. -/
def decodeOf (l : List PsCall) : Decode := ⟨delayed l, pending l, overstrikes l⟩

/-- A character is delayed and no backspace is pending if and only if the last request was a
    character. -/
theorem follows_character_iff (l : List PsCall) :
    (∃ c l', l = .letter c :: l' ∧ psChar c ≠ BS) ↔ ¬ (delayed l = none ∨ pending l) := by
  cases l with
  | nil => exact iff_of_false (by simp) (by simp [delayed])
  | cons c l =>
    cases c with
    | letter c =>
      by_cases hbs : psChar c = BS
      · exact iff_of_false (by simp [hbs]) (by simp [pending, hbs])
      · exact iff_of_true ⟨c, l, rfl, hbs⟩ (by simp [delayed, pending, hbs])
    | advance len => exact iff_of_false (by simp) (by simp [delayed])
    | endline => exact iff_of_false (by simp) (by simp [delayed])

section Letter

variable {c : Char} {k : Decode}

theorem Decode.letter_backspace (hbs : psChar c = BS) :
    k.letter c = if k.last = none ∨ k.back then none else some { k with back := true } := by
  simp only [Decode.letter, if_pos hbs]

theorem Decode.letter_plain (hbs : psChar c ≠ BS) (hback : k.back = false) :
    k.letter c = k.remember (psChar c) false := by
  simp only [Decode.letter, if_neg hbs, hback, Bool.false_eq_true, if_false]

theorem Decode.letter_underlined (hbs : psChar c ≠ BS) (hback : k.back = true)
    (hunder : k.last = some '_') :
    k.letter c = some { k with last := some (psChar c), back := false } := by
  simp only [Decode.letter, if_neg hbs, hback, if_true, if_pos hunder]

theorem Decode.letter_bold (hbs : psChar c ≠ BS) (hback : k.back = true)
    (hunder : k.last ≠ some '_') (hbold : k.last = some (psChar c)) :
    k.letter c = some { k with back := false } := by
  simp only [Decode.letter, if_neg hbs, hback, if_true, if_neg hunder, if_pos hbold]

theorem Decode.letter_overstrikes (hbs : psChar c ≠ BS) (hback : k.back = true)
    (hunder : k.last ≠ some '_') (hbold : k.last ≠ some (psChar c)) :
    k.letter c = k.remember (psChar c) true := by
  simp only [Decode.letter, if_neg hbs, hback, if_true, if_neg hunder, if_neg hbold]

theorem Decode.remember_eq (strike : Bool) :
    k.remember c strike = if k.prints then some ⟨some c, false, strike⟩ else none := by
  unfold Decode.remember Decode.flush
  split_ifs <;> rfl

end Letter

/-- What a step of the decoder does, if it works: the new state is like the definitions say, and it
    works if the delayed character can be printed and the request fits. -/
structure Steps (l : List PsCall) (c : PsCall) : Prop where
  state : ∀ k ∈ (decodeOf l).call c, k = decodeOf (c :: l)
  works : ((∃ k, k ∈ (decodeOf l).call c) ∧ (decodeOf (c :: l)).prints) ↔
    (decodeOf l).prints ∧ Fits l c

/-- A step that yields some state under a condition. -/
theorem Steps.of_ite {l : List PsCall} {c : PsCall} {p : Prop} [Decidable p]
    (h : (decodeOf l).call c = if p then some (decodeOf (c :: l)) else none)
    (hp : (p ∧ (decodeOf (c :: l)).prints) ↔ (decodeOf l).prints ∧ Fits l c) : Steps l c := by
  refine ⟨fun k hk => ?_, ?_⟩
  · rw [h] at hk
    split_ifs at hk
    · exact (Option.mem_some.mp hk).symm
    · cases hk
  · rw [← hp, h]
    refine and_congr_left fun _ => ?_
    split_ifs with hcond
    · exact iff_of_true ⟨_, rfl⟩ hcond
    · exact iff_of_false (fun ⟨k, hk⟩ => by cases hk) hcond

/-- Blanks and the ends of lines. -/
theorem steps_flush {l : List PsCall} {c : PsCall} (h : ∀ arg, c ≠ .letter arg) : Steps l c := by
  have hcall : (decodeOf l).call c = (decodeOf l).flush := by
    cases c with
    | letter arg => exact absurd rfl (h arg)
    | advance len => rfl
    | endline => rfl
  have hstate : decodeOf (c :: l) = { decodeOf l with last := none } := by
    cases c with
    | letter arg => exact absurd rfl (h arg)
    | advance len => rfl
    | endline => rfl
  have hfits : Fits l c := by
    cases c with
    | letter arg => exact absurd rfl (h arg)
    | advance len => trivial
    | endline => trivial
  refine Steps.of_ite (p := (decodeOf l).prints) (by rw [hcall, hstate]; rfl) ?_
  have hprints : ({ decodeOf l with last := none } : Decode).prints := Bool.or_true _
  rw [hstate]
  exact ⟨fun h => ⟨h.1, hfits⟩, fun h => ⟨h.1, hprints⟩⟩

theorem steps_backspace {l : List PsCall} {arg : Char} (hbs : psChar arg = BS) :
    Steps l (.letter arg) := by
  have hstate : decodeOf (.letter arg :: l) = { decodeOf l with back := true } := by
    simp only [decodeOf, delayed, pending, overstrikes, hbs, if_true, decide_true]
  have hcall : (decodeOf l).call (.letter arg) =
      if ¬ ((decodeOf l).last = none ∨ (decodeOf l).back) then
        some (decodeOf (.letter arg :: l)) else none := by
    rw [ite_not, hstate]
    exact Decode.letter_backspace hbs
  refine Steps.of_ite hcall ?_
  have hfits : Fits l (.letter arg) ↔ ¬ ((decodeOf l).last = none ∨ (decodeOf l).back) := by
    rw [Fits, if_pos hbs]
    exact follows_character_iff l
  rw [hfits, hstate, and_comm]
  rfl

theorem steps_character {l : List PsCall} {arg : Char} (hbs : psChar arg ≠ BS) :
    Steps l (.letter arg) := by
  have hfits : Fits l (.letter arg) ↔ (decodeOf (.letter arg :: l)).prints := by
    rw [Fits, if_neg hbs]
    simp only [decodeOf, Decode.prints, delayed, if_neg hbs, Option.all_some, Bool.or_eq_true,
      Bool.not_eq_true']
    exact ⟨fun h => by
      cases hover : overstrikes (.letter arg :: l) with
      | false => exact Or.inl rfl
      | true => exact Or.inr (h hover), fun h hover => h.resolve_left (by rw [hover]; exact Bool.noConfusion)⟩
  have hstate : ∀ strike, overstrikes (.letter arg :: l) = strike →
      decodeOf (.letter arg :: l) = ⟨some (psChar arg), false, strike⟩ := by
    intro strike hstrike
    simp only [decodeOf, delayed, pending, if_neg hbs, decide_eq_false hbs, hstrike]
  have hover : overstrikes (.letter arg :: l) =
      (pending l && (overstrikes l || (delayed l ≠ some '_' && delayed l ≠ some (psChar arg)))) := by
    rw [overstrikes, if_neg hbs]
  -- The character before is printed, unless this one only changes its font.
  have hremember : ∀ strike, overstrikes (.letter arg :: l) = strike →
      (decodeOf l).letter arg = (decodeOf l).remember (psChar arg) strike →
      Steps l (.letter arg) := by
    intro strike hstrike hcall
    refine Steps.of_ite (p := (decodeOf l).prints) ?_ (and_congr_right fun _ => hfits.symm)
    rw [hstate strike hstrike, ← Decode.remember_eq]
    exact hcall
  have hfont : ((decodeOf (.letter arg :: l)).prints → (decodeOf l).prints) →
      overstrikes (.letter arg :: l) = overstrikes l →
      (decodeOf l).letter arg = some ⟨some (psChar arg), false, overstrikes l⟩ →
      Steps l (.letter arg) := by
    intro hprints hstrike hcall
    refine Steps.of_ite (p := True) ?_ ?_
    · rw [hstate _ hstrike, if_pos trivial]
      exact hcall
    · rw [true_and, hfits, iff_and_self]
      exact hprints
  cases hback : pending l with
  | false =>
    exact hremember false (by rw [hover, hback]; rfl) (Decode.letter_plain hbs hback)
  | true =>
    by_cases hunder : delayed l = some '_'
    · refine hfont (fun _ => ?_) (by rw [hover, hback, hunder]; simp)
        (Decode.letter_underlined hbs hback hunder)
      -- The underscore is in the tables.
      show (!overstrikes l || (delayed l).all inGlyphs) = true
      rw [hunder]
      exact Bool.or_true _
    · by_cases hbold : delayed l = some (psChar arg)
      · have hsame : overstrikes (.letter arg :: l) = overstrikes l := by
          rw [hover, hback, hbold]
          simp
        refine hfont (fun hprints => ?_) hsame ?_
        · rw [hstate _ hsame, ← hbold] at hprints
          exact hprints
        · rw [← hbold]
          exact Decode.letter_bold hbs hback hunder hbold
      · exact hremember true (by rw [hover, hback]; simp [hunder, hbold])
          (Decode.letter_overstrikes hbs hback hunder hbold)

/-- The step lemma, for each request. -/
theorem steps (l : List PsCall) (c : PsCall) : Steps l c := by
  cases c with
  | letter arg =>
    by_cases hbs : psChar arg = BS
    · exact steps_backspace hbs
    · exact steps_character hbs
  | advance len => exact steps_flush fun _ => PsCall.noConfusion
  | endline => exact steps_flush fun _ => PsCall.noConfusion

theorem Decode.calls_reverse_cons (c : PsCall) (l : List PsCall) (k : Decode) :
    Decode.calls (c :: l).reverse k = (Decode.calls l.reverse k).bind (Decode.call c) := by
  rw [List.reverse_cons, Decode.calls_append]
  exact congrArg _ (funext fun _ => Option.bind_fun_some _)

/-- The state of the decoder behind a list of requests. -/
theorem calls_state {l : List PsCall} {k : Decode} (h : k ∈ Decode.calls l.reverse .start) :
    k = decodeOf l := by
  induction l generalizing k with
  | nil => exact (Option.mem_some.mp h).symm
  | cons c l ih =>
    rw [Decode.calls_reverse_cons] at h
    obtain ⟨k₁, hk₁, h⟩ := Option.bind_eq_some_iff.mp h
    rw [ih hk₁] at h
    exact (steps l c).state k h

/-- The requests can be decoded if and only if each of them fits. -/
theorem calls_isSome_iff (l : List PsCall) :
    (∃ k ∈ Decode.calls l.reverse .start, k.prints) ↔ Decodable l := by
  induction l with
  | nil => exact iff_of_true ⟨.start, rfl, rfl⟩ decodable_nil
  | cons c l ih =>
    rw [decodable_cons, ← ih, Decode.calls_reverse_cons]
    obtain ⟨hstate, hworks⟩ := steps l c
    constructor
    · intro ⟨k, hk, hprints⟩
      obtain ⟨k₁, hk₁, hk⟩ := Option.bind_eq_some_iff.mp hk
      obtain rfl := calls_state hk₁
      obtain ⟨hprints₁, hfits⟩ := hworks.mp ⟨⟨k, hk⟩, hstate k hk ▸ hprints⟩
      exact ⟨⟨_, hk₁, hprints₁⟩, hfits⟩
    · intro ⟨⟨k₁, hk₁, hprints₁⟩, hfits⟩
      obtain rfl := calls_state hk₁
      obtain ⟨⟨k, hk⟩, hprints⟩ := hworks.mpr ⟨hprints₁, hfits⟩
      exact ⟨k, Option.bind_eq_some_iff.mpr ⟨_, hk₁, hk⟩, hstate k hk ▸ hprints⟩

/-- A document is printed if and only if each request fits, and no backspace is pending behind the
    margins or on a page that is open at the end. -/
theorem psDocument_ok_iff_decodable (d : PsDevice) (head foot calls : List PsCall) :
    (∃ st, psDocument d head foot calls = .ok st) ↔
      Decodable (marginCalls head foot ++ calls).reverse ∧
        pending (marginCalls head foot).reverse = false ∧
        (pending (marginCalls head foot ++ calls).reverse →
          (calls.foldl d.ink (false, d.top)).1 = false) := by
  have hstate : ∀ {l k}, k ∈ Decode.calls l .start → k = decodeOf l.reverse := by
    intro l k hk
    rw [← List.reverse_reverse l] at hk
    exact calls_state hk
  rw [psDocument_ok_iff, ← calls_isSome_iff, List.reverse_reverse]
  constructor
  · intro ⟨k, hk, hback, k', hk', hprints, hend⟩
    have hall : k' ∈ Decode.calls (marginCalls head foot ++ calls) .start := by
      rw [Decode.calls_append]
      exact Option.bind_eq_some_iff.mpr ⟨k, hk, hk'⟩
    obtain rfl := hstate hk
    obtain rfl := hstate hall
    exact ⟨⟨_, hall, hprints⟩, hback, hend⟩
  · intro ⟨⟨k', hall, hprints⟩, hback, hend⟩
    obtain rfl := hstate hall
    rw [Decode.calls_append] at hall
    obtain ⟨k, hk, hk'⟩ := Option.bind_eq_some_iff.mp hall
    obtain rfl := hstate hk
    exact ⟨_, hk, hback, _, hk', hprints, hend⟩

/-! ## §3 Fields and words -/

/-- A call of a function of the device. -/
def TermCall.request : TermCall → PsCall
  | .letter c => .letter c
  | .advance len => .advance len

/-- What the formatter prints. -/
inductive PsText where
  /-- `term_field()` -/
  | field (p : Termp) (tabs : Tabs) (vbl nbr : Nat)
  /-- `term_word()`. If the terminal is not in no-buffer mode, nothing is printed yet. -/
  | word (p : Termp) (word : CStr)
  /-- `(*p->endline)(p)` -/
  | endline

/-- The requests to the device. -/
def PsText.requests : PsText → Res (List PsCall)
  | .field p tabs vbl nbr =>
    (termField { p with out := [] } tabs vbl nbr).map fun r => r.1.out.map TermCall.request
  | .word p w => (termWord { p with out := [] } w).map fun p => p.out.map TermCall.request
  | .endline => .ok [.endline]

/-- The requests to the device, for one text after the other. -/
def textRequests : List PsText → Res (List PsCall)
  | [] => .ok []
  | t :: l => do return (← t.requests) ++ (← textRequests l)

/-- A document made of texts. -/
def psTexts (d : PsDevice) (head foot body : List PsText) : Res PsState := do
  psDocument d (← textRequests head) (← textRequests foot) (← textRequests body)

/-- A document made of texts is printed if and only if the fields and words can be read, each
    request fits, and no backspace is pending behind the margins or on a page that is open at the
    end. -/
theorem psTexts_ok_iff (d : PsDevice) (head foot body : List PsText) :
    (∃ st, psTexts d head foot body = .ok st) ↔
      ∃ h f b, textRequests head = .ok h ∧ textRequests foot = .ok f ∧ textRequests body = .ok b ∧
        Decodable (marginCalls h f ++ b).reverse ∧ pending (marginCalls h f).reverse = false ∧
        (pending (marginCalls h f ++ b).reverse → (b.foldl d.ink (false, d.top)).1 = false) := by
  constructor
  · intro ⟨st, hst⟩
    obtain ⟨h, hhead, hst⟩ := Res.bind_eq_ok.mp hst
    obtain ⟨f, hfoot, hst⟩ := Res.bind_eq_ok.mp hst
    obtain ⟨b, hbody, hst⟩ := Res.bind_eq_ok.mp hst
    exact ⟨h, f, b, hhead, hfoot, hbody, (psDocument_ok_iff_decodable d h f b).mp ⟨st, hst⟩⟩
  · intro ⟨h, f, b, hhead, hfoot, hbody, hfits⟩
    obtain ⟨st, hst⟩ := (psDocument_ok_iff_decodable d h f b).mpr hfits
    exact ⟨st, by rw [psTexts, hhead, Res.ok_bind, hfoot, Res.ok_bind, hbody, Res.ok_bind, hst]⟩

/-! ## §4 A backspace at the beginning of a field -/

/-- `ps_getwidth()` -/
def PsDevice.getwidth (d : PsDevice) (c : Char) : Nat :=
  d.wx .NONE (if c.toNat ≤ 32 ∨ 32 + MAXCHAR ≤ c.toNat then 0 else c.toNat - 32)

/-- `pspdf_alloc()`: the terminal. -/
def pspdfAlloc (d : PsDevice) (roffsu : CStr → Option (Nat × Int)) : Termp :=
  { asciiInit roffsu with type := d.type, getwidth := d.getwidth }

/-- A device for letter paper. The blank has the width 250, and all other characters have the width
    500, like `n` and `x` in the fonts. -/
def letterDevice : PsDevice where
  type := .PS
  fontName _ := "Times-Roman".toList
  wx _ i := if i = 0 then 250 else 500
  wx_pos f i := by
    split_ifs
    · exact Nat.succ_pos _
    · exact Nat.succ_pos _
  scale := 11
  medianame := "Letter".toList
  left := 6184
  left_pos := Nat.succ_pos _
  top := 63911
  bottom := 7988
  header := 67205
  footer := 3294
  lineheight := 1400
  width := 612
  height := 791
  points := dec

/-- `a2roffsu()` and `ps_hspan()`, for a length of minus three units of the width of an `n`. -/
def minusThree (s : CStr) : Option (Nat × Int) :=
  if "-3n".toList <+: s then some (3, -1500) else none

/-- The word `\fBx\h'-3n'\&` writes an `x` in bold font, moves back to the beginning of the buffer,
    and replaces the first one of the two copies of the letter by a character of zero width. So the
    backspace is the first character that is printed, and an assertion fails. -/
theorem backWord_fails :
    ¬ ∀ (d : PsDevice) (p p' : Termp) (word : CStr), termWord p word = .ok p' →
      ∃ st, psTexts d [.word { p with flags.nobuf := true } "FOO(1)".toList] []
        [.field p' .none 0 p'.tcol.lastcol, .endline] = .ok st := by
  intro h
  let p := { pspdfAlloc letterDevice minusThree with flags := { nospace := true } }
  have hrun : ((termWord p "\\fBx\\h'-3n'\\&".toList).map fun p' =>
      (psTexts letterDevice [.word { p with flags.nobuf := true } "FOO(1)".toList] []
        [.field p' .none 0 p'.tcol.lastcol, .endline]).isOk) = .ok false := by decide +kernel
  obtain ⟨p', hp', hfail⟩ := Res.map_eq_ok.mp hrun
  obtain ⟨st, hst⟩ := h letterDevice p p' _ hp'
  rw [hst] at hfail
  cases hfail

end Mandoc
