import Mandoc.Html.Output
import Mandoc.Lib.Loop
import Mandoc.Roff.EscapeArgs

/-!
# Encoding Text for Attributes

The function `print_encode()` of `html.c` interprets the escape sequences in a string and
writes the string such that the characters `<`, `>`, `&`, and `"` lose their meaning in HTML.
It is used for running text and for the values of attributes. This file models the latter
case, `norecurse == 1`, where font changes are ignored.

- `encodeStep` is one iteration of the main loop, for the part of a string before the index
  `pend`. It calls the functions of `Mandoc.Html.Output`.
- `AttrText` is the grammar of texts that are safe within an attribute.

Apart from the line break that the escape sequence `\p` requests, everything that the functions
called by the main loop emit is safe.
-/

namespace Mandoc

open Spacing

/-! ## §1 Characters -/

/-- The bytes that may need to be encoded. -/
def encodeRejs : List Char := [' ', '\\', '<', '>', '&', '"', ASCII_NBRSP, ASCII_HYPH, ASCII_BREAK]

/-- A numeric character reference. -/
def numericReference (c : Int) : CStr := "&#x".toList ++ formatHex4 c.toNat ++ [';']

/-- The character references with a name. -/
def namedReferences : List CStr := ["&lt;", "&gt;", "&amp;", "&quot;", "&nbsp;"].map String.toList

/-- `print_escape()`: the result is `none` if the byte needs no special treatment. -/
def printEscape (h : Html) (c : Char) : Option Html :=
  if c = '<' then some (printWord h "&lt;".toList)
  else if c = '>' then some (printWord h "&gt;".toList)
  else if c = '&' then some (printWord h "&amp;".toList)
  else if c = '"' then some (printWord h "&quot;".toList)
  else if c = ASCII_NBRSP then some (printWord h "&nbsp;".toList)
  else if c = ASCII_HYPH then some (printByte h '-')
  else if c = ASCII_BREAK then some h
  else none

/-- The end of the main loop: print a character with a known code. -/
def printCodepoint (h : Html) (c : Int) : Html :=
  let c := if (c < 0x20 ∧ c ≠ 0x09) ∨ (0x7E < c ∧ c < 0xA0) then 0xFFFD else c
  if 0x7E < c then printWord h (numericReference c)
  else
    match printEscape h (Char.ofNat c.toNat) with
    | some h => h
    | none => printByte h (Char.ofNat c.toNat)

/-- `print_otag(h, TAG_BR, "")`: the element has no end tag, and there are line breaks around it. -/
def printOtagBr (h : Html) : Html :=
  let h := printIndent (printEndline h)
  let h := { h with flags := { h.flags with nospace := h.flags.nonospace } }
  let h := printWord (printByte h '<') "br".toList
  printEndline (printByte (printByte h '/') '>')

/-! ## §2 The main loop -/

/-- The variables of the main loop. -/
structure EncodeState where
  h : Html
  /-- Index of the next byte. -/
  p : Nat
  /-- A line break was requested at the end of the word. -/
  breakline : Bool := false
  /-- The text ends with the request not to print a space after it. -/
  nospace : Bool := false
deriving DecidableEq, Repr

/-- Set or clear the flag `HTML_SKIPCHAR`. -/
def EncodeState.setSkip (st : EncodeState) (b : Bool) : EncodeState :=
  { st with h := { st.h with flags := { st.h.flags with skipchar := b } } }

/-- A space ends a word, and so does the non-breaking space. -/
def isWordEnd (c : Char) : Bool := c = ' ' || c = ASCII_NBRSP

section

-- The function `mchars_spec2cp()`, the string, and the end of the part to be printed.
variable (spec2cp : CStr → Int) (buf : CStr) (pend : Nat)

/-- Print the ordinary bytes at the beginning of an iteration. -/
def encodeRun (st : EncodeState) : EncodeState :=
  let n := min (strcspn (buf.drop st.p) encodeRejs) (pend - st.p)
  { st with h := printWord st.h (slice buf st.p (st.p + n)), p := st.p + n }

/-- What an escape sequence does, depending on its type. -/
def encodeEscape (st : EncodeState) (r : EscResult) : Res EncodeState :=
  let st := { st with p := r.rend }
  if r.rval.isFont ∨ r.rval = .ERROR then .ok st
  else if r.rval = .SKIPCHAR then .ok (st.setSkip true)
  else if st.h.flags.skipchar then .ok (st.setSkip false)
  else
    match r.rval with
    | .UNICODE => do
      let c ← mcharsNum2uc (← readArg buf (r.rarg + 1) r.rendarg)
      return { st with h := printCodepoint st.h c }
    | .NUMBERED => do
      let c := mcharsNum2char (← readArg buf r.rarg r.rendarg)
      if c < 0 then return st
      return { st with h := printCodepoint st.h c }
    | .SPECIAL => do
      let c := spec2cp (← readArg buf r.rarg r.rendarg)
      if c ≤ 0 then return st
      return { st with h := printCodepoint st.h c }
    | .UNDEF => do
      let c ← rd buf r.rarg
      return { st with h := printCodepoint st.h (signedByte c) }
    | .DEVICE => .ok { st with h := printWord st.h "html".toList }
    | .BREAK => .ok { st with breakline := true }
    | .NOSPACE => do
      let c ← rd buf st.p
      return { st with nospace := st.nospace || c = NUL }
    | .OVERSTRIKE => do
      if r.rendarg - r.rarg = 0 then return st
      let c ← rd buf (r.rendarg - 1)
      return { st with h := printCodepoint st.h (signedByte c) }
    | _ => .ok st

/-- An iteration of the main loop behind the ordinary bytes. -/
def encodeSpecial (st : EncodeState) : Res (Loop.Next EncodeState (Html × Bool)) := do
  if st.breakline ∧ (pend ≤ st.p ∨ isWordEnd (charAt buf st.p)) then
    let n := ((slice buf st.p pend).takeWhile isWordEnd).length
    return .again { st with h := printOtagBr st.h, p := st.p + n, breakline := false }
  else if pend ≤ st.p then return .done (st.h, st.nospace)
  else
    let c ← rd buf st.p
    if c = ' ' then return .again { st with h := printEndword st.h, p := st.p + 1 }
    else
      match printEscape st.h c with
      | some h => return .again { st with h := h, p := st.p + 1 }
      | none => return .again (← encodeEscape spec2cp buf st (← mandocEscape buf st.p))

/-- An iteration of the main loop. -/
def encodeStep (st : EncodeState) : Res (Loop.Next EncodeState (Html × Bool)) := do
  if pend ≤ st.p then return .done (st.h, st.nospace)
  else
    let c ← rd buf st.p
    if st.h.flags.skipchar ∧ c ≠ '\\' then
      return .again { st.setSkip false with p := st.p + 1 }
    else encodeSpecial spec2cp buf pend (encodeRun buf pend st)

/-- `print_encode(h, buf + p, buf + pend, 1)` -/
def printEncodeTo (h : Html) (p : Nat) : Res (Html × Bool) :=
  Loop.run (encodeStep spec2cp buf pend) .fuel (pend - p + 1) { h, p }

end

/-- `print_encode(h, p, NULL, 1)` -/
def printEncode (spec2cp : CStr → Int) (h : Html) (p : CStr) : Res (Html × Bool) :=
  printEncodeTo spec2cp p p.length h 0

/-! ## §3 Text that is safe within an attribute -/

/-- A character reference, as it is printed for a special character. -/
def IsReference (r : CStr) : Prop :=
  r ∈ namedReferences ∨ ∃ c : Int, 0x7E < c ∧ r = numericReference c

/-- A byte that has no special meaning in the value of an attribute. -/
def IsAttrByte (c : Char) : Prop := c ≠ '<' ∧ c ≠ '>' ∧ c ≠ '&' ∧ c ≠ '"'

/-- Text without markup: an ampersand begins a character reference, which is not divided by
    white space. -/
inductive AttrText : List (Mark Char) → Prop where
  | nil : AttrText []
  /-- White space may be inserted. -/
  | sep {ms : List (Mark Char)} : AttrText ms → AttrText (.sep :: ms)
  /-- An ordinary byte. -/
  | byte {c : Char} {ms : List (Mark Char)} :
      IsAttrByte c → AttrText ms → AttrText (.sym c :: ms)
  /-- A character reference. -/
  | ref {r : CStr} {ms : List (Mark Char)} :
      IsReference r → AttrText ms → AttrText (r.map .sym ++ ms)

section

variable {ms ms' : List (Mark Char)}

theorem AttrText.append (h : AttrText ms) (h' : AttrText ms') : AttrText (ms ++ ms') := by
  induction h with
  | nil => exact h'
  | sep _ ih => exact .sep ih
  | byte hc _ ih => exact .byte hc ih
  | ref hr _ ih =>
    rw [List.append_assoc]
    exact .ref hr ih

theorem AttrText.of_bytes {s : CStr} (h : ∀ c ∈ s, IsAttrByte c) : AttrText (s.map .sym) := by
  induction s with
  | nil => exact .nil
  | cons c s ih =>
    exact .byte (h c (List.mem_cons_self ..)) (ih fun d hd => h d (List.mem_cons_of_mem c hd))

theorem AttrText.of_reference {r : CStr} (h : IsReference r) : AttrText (r.map .sym) := by
  have hall := AttrText.ref h .nil
  rwa [List.append_nil] at hall

/-- A byte that cannot end the value of the attribute, or begin an element. -/
def NoMarkup (c : Char) : Prop := c ≠ '<' ∧ c ≠ '>' ∧ c ≠ '"'

/-- The digits of a number. -/
theorem mem_toDigits {b n : Nat} (hb : 1 < b) {c : Char} (h : c ∈ Nat.toDigits b n) :
    ∃ d, d < b ∧ c = Nat.digitChar d := by
  induction n using Nat.strong_induction_on with
  | _ n ih =>
    rw [Nat.toDigits_eq_if hb] at h
    split at h
    · next hlt => exact ⟨n, hlt, List.mem_singleton.mp h⟩
    · next hge =>
      have hpos : 0 < n := Nat.lt_of_lt_of_le (Nat.zero_lt_of_lt hb) (Nat.le_of_not_lt hge)
      obtain h | h := List.mem_append.mp h
      · exact ih _ (Nat.div_lt_self hpos hb) h
      · exact ⟨n % b, Nat.mod_lt _ (Nat.zero_lt_of_lt hb), List.mem_singleton.mp h⟩

theorem noMarkup_hexDigit {d : Nat} (hd : d < 16) : NoMarkup (toupper (Nat.digitChar d)) := by
  have hall : ∀ d : Fin 16, toupper (Nat.digitChar d) ≠ '<' ∧ toupper (Nat.digitChar d) ≠ '>' ∧
      toupper (Nat.digitChar d) ≠ '"' := by decide
  exact hall ⟨d, hd⟩

/-- Character references contain no markup. -/
theorem IsReference.noMarkup {r : CStr} (h : IsReference r) {c : Char} (hc : c ∈ r) :
    NoMarkup c := by
  obtain h | ⟨code, -, rfl⟩ := h
  · have hall : namedReferences.all fun r => r.all fun c => c ≠ '<' && c ≠ '>' && c ≠ '"' := by
      decide
    have := List.all_eq_true.mp (List.all_eq_true.mp hall r h) c hc
    simpa [NoMarkup, and_assoc] using this
  · simp only [numericReference, formatHex4, List.mem_append, List.mem_map, List.mem_replicate,
      List.mem_singleton] at hc
    obtain (hc | ⟨-, rfl⟩ | ⟨d, hd, rfl⟩) | rfl := hc
    · have hall : "&#x".toList.all fun c => c ≠ '<' && c ≠ '>' && c ≠ '"' := by decide
      have := List.all_eq_true.mp hall c hc
      simpa [NoMarkup, and_assoc] using this
    · unfold NoMarkup
      decide
    · obtain ⟨n, hn, rfl⟩ := mem_toDigits (by decide) hd
      exact noMarkup_hexDigit hn
    · unfold NoMarkup
      decide

/-- Safe text contains no markup. -/
theorem AttrText.noMarkup (h : AttrText ms) {c : Char} (hc : c ∈ syms ms) : NoMarkup c := by
  induction h with
  | nil => exact absurd hc (List.not_mem_nil)
  | sep _ ih => exact ih hc
  | byte hb _ ih =>
    obtain rfl | hc := List.mem_cons.mp hc
    · exact ⟨hb.1, hb.2.1, hb.2.2.2⟩
    · exact ih hc
  | ref hr _ ih =>
    rw [syms_append, syms_map_sym, List.mem_append] at hc
    obtain hc | hc := hc
    · exact hr.noMarkup hc
    · exact ih hc

end

/-! ## §4 What the functions emit -/

/-- What the second state holds is what the first one holds, followed by the text. -/
def Emits (h h' : Html) (ms : List (Mark Char)) : Prop :=
  ∀ ms₀, Holds h ms₀ → Holds h' (ms₀ ++ ms)

/-- Everything emitted between the two states is safe. -/
def AttrSafe (h h' : Html) : Prop := ∃ ms, AttrText ms ∧ Emits h h' ms

section

variable {h h' h'' : Html} {ms ms' : List (Mark Char)}

theorem Emits.trans (h₁ : Emits h h' ms) (h₂ : Emits h' h'' ms') : Emits h h'' (ms ++ ms') := by
  intro ms₀ hh
  rw [← List.append_assoc]
  exact h₂ _ (h₁ _ hh)

theorem emits_printByte (h : Html) (c : Char) : Emits h (printByte h c) [.sym c] :=
  fun _ hh => hh.byte (.sym c .nil)

theorem emits_printWord (h : Html) (s : CStr) : Emits h (printWord h s) (s.map .sym) :=
  fun _ hh => hh.word s

/-- The flags and the indentation do not matter. -/
theorem emits_nil (hflag : h'.flags.buffer = h.flags.buffer) (hcol : h'.col = h.col)
    (hbuf : h'.buf = h.buf) (hout : h'.out = h.out) : Emits h h' [] := by
  intro ms₀ hh
  rw [List.append_nil]
  refine ⟨fun hfalse => ?_, fun htrue => ?_⟩
  · rw [hbuf, hout]
    exact hh.direct (hflag ▸ hfalse)
  · rw [hcol, hbuf, hout]
    exact hh.buffered (hflag ▸ htrue)

theorem AttrSafe.refl (h : Html) : AttrSafe h h := ⟨[], .nil, emits_nil rfl rfl rfl rfl⟩

theorem AttrSafe.trans (h₁ : AttrSafe h h') (h₂ : AttrSafe h' h'') : AttrSafe h h'' := by
  obtain ⟨ms, hms, hemits⟩ := h₁
  obtain ⟨ms', hms', hemits'⟩ := h₂
  exact ⟨ms ++ ms', hms.append hms', hemits.trans hemits'⟩

theorem attrSafe_printByte (h : Html) {c : Char} (hc : IsAttrByte c) :
    AttrSafe h (printByte h c) :=
  ⟨_, .byte hc .nil, emits_printByte h c⟩

theorem attrSafe_bytes (h : Html) {s : CStr} (hs : ∀ c ∈ s, IsAttrByte c) :
    AttrSafe h (printWord h s) :=
  ⟨_, .of_bytes hs, emits_printWord h s⟩

theorem attrSafe_reference (h : Html) {r : CStr} (hr : IsReference r) :
    AttrSafe h (printWord h r) :=
  ⟨_, .of_reference hr, emits_printWord h r⟩

theorem attrSafe_printEndword (h : Html) : AttrSafe h (printEndword h) :=
  ⟨_, .sep .nil, fun _ hh => hh.endword⟩

theorem attrSafe_setSkip (st : EncodeState) (b : Bool) : AttrSafe st.h (st.setSkip b).h :=
  ⟨[], .nil, emits_nil rfl rfl rfl rfl⟩

/-- Special characters become character references. -/
theorem attrSafe_printEscape {c : Char} (hesc : printEscape h c = some h') : AttrSafe h h' := by
  have hnamed : ∀ r ∈ namedReferences, AttrSafe h (printWord h r) := fun r hr =>
    attrSafe_reference h (.inl hr)
  unfold printEscape at hesc
  split at hesc
  · cases hesc; exact hnamed _ (by decide)
  split at hesc
  · cases hesc; exact hnamed _ (by decide)
  split at hesc
  · cases hesc; exact hnamed _ (by decide)
  split at hesc
  · cases hesc; exact hnamed _ (by decide)
  split at hesc
  · cases hesc; exact hnamed _ (by decide)
  split at hesc
  · cases hesc; exact attrSafe_printByte h (by unfold IsAttrByte; decide)
  split at hesc
  · cases hesc; exact .refl h
  · cases hesc

theorem printEscape_eq_none_iff (h : Html) (c : Char) :
    printEscape h c = none ↔ IsAttrByte c ∧ c ≠ ASCII_NBRSP ∧ c ≠ ASCII_HYPH ∧ c ≠ ASCII_BREAK := by
  unfold printEscape IsAttrByte
  split_ifs <;> simp [*]

/-- A character given by its code. -/
theorem attrSafe_printCodepoint (h : Html) (c : Int) : AttrSafe h (printCodepoint h c) := by
  unfold printCodepoint
  generalize (if (c < 0x20 ∧ c ≠ 0x09) ∨ (0x7E < c ∧ c < 0xA0) then 0xFFFD else c) = code
  dsimp only
  split
  · next hcode => exact attrSafe_reference h (.inr ⟨_, hcode, rfl⟩)
  · split
    · next hesc => exact attrSafe_printEscape hesc
    · next hesc => exact attrSafe_printByte h ((printEscape_eq_none_iff _ _).mp hesc).1

theorem isAttrByte_of_notMem {c : Char} (hc : c ∉ encodeRejs) : IsAttrByte c := by
  simp only [encodeRejs, List.mem_cons, not_or] at hc
  exact ⟨hc.2.2.1, hc.2.2.2.1, hc.2.2.2.2.1, hc.2.2.2.2.2.1⟩

theorem attrSafe_encodeRun (buf : CStr) (pend : Nat) (st : EncodeState) :
    AttrSafe st.h (encodeRun buf pend st).h := by
  apply attrSafe_bytes
  intro c hc
  have hspan : c ∈ (buf.drop st.p).takeWhile fun c => !encodeRejs.contains c := by
    have htake : slice buf st.p
        (st.p + min (strcspn (buf.drop st.p) encodeRejs) (pend - st.p)) <+:
        (buf.drop st.p).takeWhile fun c => !encodeRejs.contains c := by
      rw [slice, Nat.add_sub_cancel_left, Nat.min_comm, ← List.take_take, strcspn,
        ← List.prefix_iff_eq_take.mp (List.takeWhile_prefix _)]
      exact List.take_prefix _ _
    exact htake.subset hc
  apply isAttrByte_of_notMem
  simpa using List.mem_takeWhile_imp hspan

/-- Whatever the escape sequence is, what it prints is safe. -/
theorem attrSafe_encodeEscape (spec2cp : CStr → Int) (buf : CStr) (st : EncodeState)
    (r : EscResult) : Ensures (encodeEscape spec2cp buf st r) fun st' => AttrSafe st.h st'.h := by
  have hsame : AttrSafe st.h st.h := .refl st.h
  have hchar : ∀ c, AttrSafe st.h (printCodepoint st.h c) := attrSafe_printCodepoint st.h
  have hhtml : "html".toList.all fun c => c ∉ encodeRejs := by decide
  unfold encodeEscape
  dsimp only
  refine Ensures.ite (fun _ => Ensures.ok_iff.mpr hsame) fun _ => ?_
  refine Ensures.ite (fun _ => Ensures.ok_iff.mpr (attrSafe_setSkip _ true)) fun _ => ?_
  refine Ensures.ite (fun _ => Ensures.ok_iff.mpr (attrSafe_setSkip _ false)) fun _ => ?_
  split
  · exact Ensures.call fun _ => Ensures.call fun _ => Ensures.pure_iff.mpr (hchar _)
  · exact Ensures.call fun _ => Ensures.ite (fun _ => Ensures.pure_iff.mpr hsame) fun _ =>
      Ensures.pure_iff.mpr (hchar _)
  · exact Ensures.call fun _ => Ensures.ite (fun _ => Ensures.pure_iff.mpr hsame) fun _ =>
      Ensures.pure_iff.mpr (hchar _)
  · exact Ensures.call fun _ => Ensures.pure_iff.mpr (hchar _)
  · exact Ensures.ok_iff.mpr (attrSafe_bytes st.h fun c hc =>
      isAttrByte_of_notMem (of_decide_eq_true (List.all_eq_true.mp hhtml c hc)))
  · exact Ensures.ok_iff.mpr hsame
  · exact Ensures.call fun _ => Ensures.pure_iff.mpr hsame
  · exact Ensures.ite (fun _ => Ensures.pure_iff.mpr hsame) fun _ => Ensures.call fun _ =>
      Ensures.pure_iff.mpr (hchar _)
  · exact Ensures.ok_iff.mpr hsame

/-- The line break is written as an element. -/
theorem emits_printOtagBr (h : Html) : ∃ ms, Emits h (printOtagBr h) ms ∧ '<' ∈ syms ms := by
  have hline : Emits h (printIndent (printEndline h)) ([.sep] ++ [.sep]) :=
    Emits.trans (fun _ hh => hh.endline.1) fun _ hh => hh.indent
  have htag : ∀ h : Html, Emits h (printByte (printByte (printWord (printByte h '<') "br".toList)
      '/') '>') ([.sym '<'] ++ "br".toList.map .sym ++ [.sym '/'] ++ [.sym '>']) := fun h =>
    (((emits_printByte h '<').trans (emits_printWord _ _)).trans (emits_printByte _ '/')).trans
      (emits_printByte _ '>')
  have hend : ∀ h : Html, Emits h (printEndline h) [.sep] := fun h _ hh => hh.endline.1
  unfold printOtagBr
  generalize printIndent (printEndline h) = h₁ at hline
  have hflags : Emits h₁ { h₁ with flags := { h₁.flags with nospace := h₁.flags.nonospace } } [] :=
    emits_nil rfl rfl rfl rfl
  refine ⟨_, ((hline.trans hflags).trans (htag _)).trans (hend _), ?_⟩
  simp only [syms_append, List.mem_append]
  exact .inl (.inr (.inl (.inl (.inl (List.mem_singleton.mpr rfl)))))

/-- What a state holds determines the text, apart from white space. -/
theorem Holds.visible_eq (hh : Holds h ms) :
    visible isspace (h.out ++ h.buf) = visible isspace (syms ms) := by
  cases hbuffer : h.flags.buffer with
  | false =>
    obtain ⟨hbuf, hout⟩ := hh.direct hbuffer
    rw [hbuf, List.append_nil]
    exact hout.visible_eq
  | true => exact (hh.flush hbuffer fun _ hnil => absurd hnil List.not_mem_nil).visible_eq

/-- Text with an element in it is not safe. -/
theorem not_attrSafe_of_emits (hh : ∃ ms₀, Holds h ms₀) (hemits : Emits h h' ms)
    (hlt : '<' ∈ syms ms) : ¬ AttrSafe h h' := by
  rintro ⟨ms', htext, hemits'⟩
  obtain ⟨ms₀, hh⟩ := hh
  have heq := (hemits ms₀ hh).visible_eq.symm.trans (hemits' ms₀ hh).visible_eq
  rw [syms_append, syms_append, visible_append, visible_append] at heq
  have hmem : '<' ∈ visible isspace (syms ms') := by
    rw [← List.append_cancel_left heq]
    exact List.mem_filter.mpr ⟨hlt, by decide⟩
  exact (htext.noMarkup (List.mem_filter.mp hmem).1).1 rfl

end

end Mandoc
