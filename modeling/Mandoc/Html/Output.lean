import Mandoc.CString
import Mandoc.Lib.Spacing

/-!
# The HTML Output Buffer

The low level output functions of `html.c` break lines between words. A word that may not fit
on the current line is held back in a buffer: `print_endword()` activates the buffer, and
`print_byte()` collects the word there. The buffer is flushed at the end of the word or of
the line, and when the line gets too long, it is flushed to a new line and deactivated.

The main result, `printEndline_lossless`, says that this neither loses nor duplicates text, and
that it does not split words. The column counts the bytes written to the current line, so
that it is far from the limits of its type.
-/

namespace Mandoc

open Spacing

/-! ## §1 The output functions -/

/-- Bits of `flags` in `struct html`. -/
structure HtmlFlags where
  /-- Suppress the next space. -/
  nospace : Bool := false
  /-- Never add spaces. -/
  nonospace : Bool := false
  /-- Skip the next character. -/
  skipchar : Bool := false
  /-- Collect a word to see if it fits. -/
  buffer : Bool := false
deriving DecidableEq, Repr

/-- `struct html`, as far as the output is concerned, and what was written to the standard
    output. The output buffer is represented by its first `bufcol` bytes. -/
structure Html where
  flags : HtmlFlags := {}
  /-- Current output indentation level. -/
  indent : Nat := 0
  /-- Indent disabled by `<pre>`. -/
  noindent : Nat := 0
  /-- Current output byte position. -/
  col : Nat := 0
  buf : CStr := []
  out : CStr := []
deriving DecidableEq, Repr

/-- `putchar()` and `fwrite()` -/
def Html.put (h : Html) (s : CStr) : Html := { h with out := h.out ++ s }

/-- `print_indent()` -/
def printIndent (h : Html) : Html :=
  if h.col ≠ 0 ∨ h.noindent ≠ 0 then h
  else { h.put (List.replicate (h.indent * 2) ' ') with col := h.indent * 2 }

/-- `sizeof(h->buf)` -/
def bufSize : Nat := 80

/-- `print_byte()` -/
def printByte (h : Html) (c : Char) : Html :=
  if h.flags.buffer = false then { h.put [c] with col := h.col + 1 }
  else if h.col + h.buf.length < bufSize then { h with buf := h.buf ++ [c] }
  else
    let h := printIndent { h.put ['\n'] with col := 0 }
    let h := ((h.put [' ', ' ']).put h.buf).put [c]
    { h with
      col := (h.indent + 1) * 2 + h.buf.length + 1
      buf := []
      flags := { h.flags with buffer := false } }

/-- `print_word()` -/
def printWord (h : Html) (cp : CStr) : Html := cp.foldl printByte h

/-- `print_endline()` -/
def printEndline (h : Html) : Html :=
  if h.col = 0 then h
  else
    let h := if h.buf = [] then h else (h.put [' ']).put h.buf
    { h.put ['\n'] with
      buf := []
      col := 0
      flags := { h.flags with nospace := true, buffer := false } }

/-- `print_endword()` -/
def printEndword (h : Html) : Html :=
  if h.noindent ≠ 0 then printByte h ' '
  else if h.flags.buffer = false then
    { h with col := h.col + 1, buf := [], flags := { h.flags with buffer := true } }
  else if h.buf = [] then h
  else { (h.put [' ']).put h.buf with col := h.col + h.buf.length + 1, buf := [] }

/-! ## §2 Calls -/

/-- A call of an output function, or a change of the indentation by one of their callers. -/
inductive OutCall where
  | byte (c : Char)
  | word (cp : CStr)
  | endword
  | indent
  | endline
  | setIndent (levels pre : Nat)
deriving DecidableEq, Repr

/-- The effect of a call. -/
def OutCall.run (h : Html) : OutCall → Html
  | byte c => printByte h c
  | word cp => printWord h cp
  | endword => printEndword h
  | indent => printIndent h
  | endline => printEndline h
  | setIndent levels pre => { h with indent := levels, noindent := pre }

/-- The text passed in by a call: its bytes, or a place where white space may be inserted. -/
def OutCall.marks : OutCall → List (Mark Char)
  | byte c => [.sym c]
  | word cp => cp.map .sym
  | endword | indent | endline => [.sep]
  | setIndent _ _ => []

/-- The effect of some calls. -/
def runCalls (h : Html) (calls : List OutCall) : Html := calls.foldl OutCall.run h

/-- The text passed in by some calls. -/
def passed (calls : List OutCall) : List (Mark Char) := calls.flatMap OutCall.marks

/-! ## §3 What the buffer holds -/

/-- The output together with the buffer is a rendering of the text: without a buffer, all of it was
    written. With a buffer, the end of the text is still in the buffer, and blanks may be
    inserted before it. -/
structure Holds (h : Html) (ms : List (Mark Char)) : Prop where
  direct : h.flags.buffer = false → h.buf = [] ∧ Renders isspace ms h.out
  buffered : h.flags.buffer = true → h.col ≠ 0 ∧
    ∃ ms₁ ms₂, ms = ms₁ ++ ms₂ ∧ Open isspace ms₁ h.out ∧ Renders isspace ms₂ h.buf

variable {h : Html} {ms : List (Mark Char)}

/-- Indentation consists of blanks. -/
theorem printIndent_spec (h : Html) :
    ∃ w, (∀ c ∈ w, isspace c) ∧ (printIndent h).out = h.out ++ w ∧
      (printIndent h).flags = h.flags ∧ (printIndent h).buf = h.buf ∧
      (h.col ≠ 0 → printIndent h = h) := by
  unfold printIndent
  split
  · exact ⟨[], by simp, by simp, rfl, rfl, fun _ => rfl⟩
  · next hnot =>
    rw [not_or, not_not] at hnot
    refine ⟨_, ?_, rfl, rfl, rfl, fun hcol => absurd hnot.1 hcol⟩
    intro c hc
    rw [List.eq_of_mem_replicate hc]
    decide

theorem Holds.flush (hh : Holds h ms) (hbuffer : h.flags.buffer = true) {w : CStr}
    (hw : ∀ c ∈ w, isspace c) : Renders isspace ms (h.out ++ (w ++ h.buf)) := by
  obtain ⟨-, ms₁, ms₂, rfl, hopen, hrest⟩ := hh.buffered hbuffer
  exact hopen.append hw hrest

/-- A byte is appended to the text. -/
theorem Holds.byte (hh : Holds h ms) {c : Char} {m : List (Mark Char)}
    (hm : Renders isspace m [c]) : Holds (printByte h c) (ms ++ m) := by
  cases hbuffer : h.flags.buffer with
  | false =>
    obtain ⟨hbuf, hout⟩ := hh.direct hbuffer
    rw [printByte, if_pos hbuffer]
    exact ⟨fun _ => ⟨hbuf, hout.append hm⟩,
      fun htrue => absurd (hbuffer.symm.trans htrue) (by simp)⟩
  | true =>
    obtain ⟨hcol, ms₁, ms₂, hms, hopen, hrest⟩ := hh.buffered hbuffer
    rw [printByte, if_neg (by simp [hbuffer])]
    split
    · refine ⟨fun hfalse => absurd (hbuffer.symm.trans hfalse) (by simp), fun _ => ⟨hcol, ms₁, _, ?_,
        hopen, hrest.append hm⟩⟩
      rw [hms, List.append_assoc]
    · -- The line is too long: the buffer goes to a new line.
      obtain ⟨w, hw, hout, -, hbuf, -⟩ := printIndent_spec { h.put ['\n'] with col := 0 }
      refine ⟨fun _ => ⟨rfl, ?_⟩, fun htrue => absurd htrue (by simp)⟩
      generalize printIndent { h.put ['\n'] with col := 0 } = h' at hout hbuf
      have hblank : ∀ b ∈ '\n' :: w ++ [' ', ' '], isspace b := by
        intro b hb
        simp only [List.cons_append, List.mem_cons, List.mem_append, List.not_mem_nil,
          or_false] at hb
        obtain rfl | hb | rfl | rfl := hb
        · decide
        · exact hw b hb
        · decide
        · decide
      have hall := (hh.flush hbuffer hblank).append hm
      have hwritten : (((h'.put [' ', ' ']).put h'.buf).put [c]).out =
          h.out ++ ('\n' :: w ++ [' ', ' '] ++ h.buf) ++ [c] := by
        simp only [Html.put, hout, hbuf]
        simp
      exact hwritten ▸ hall

theorem Holds.word (hh : Holds h ms) (cp : CStr) : Holds (printWord h cp) (ms ++ cp.map .sym) := by
  induction cp generalizing h ms with
  | nil => simpa [printWord] using hh
  | cons c cp ih =>
    have hrest := ih (hh.byte (.sym c .nil))
    rwa [List.append_assoc] at hrest

theorem isspace_of_mem_singleton {c : Char} (hc : c ∈ [' ']) : isspace c := by
  rw [List.mem_singleton.mp hc]
  decide

/-- At the end of a word, white space may be inserted. -/
theorem Holds.endword (hh : Holds h ms) : Holds (printEndword h) (ms ++ [.sep]) := by
  unfold printEndword
  split
  · -- In preformatted text, a blank is printed.
    exact hh.byte (Renders.sep [' '] (fun _ => isspace_of_mem_singleton) .nil)
  cases hbuffer : h.flags.buffer with
  | false =>
    obtain ⟨hbuf, hout⟩ := hh.direct hbuffer
    rw [if_pos rfl]
    exact ⟨fun hfalse => absurd hfalse (by simp),
      fun _ => ⟨by simp, _, [], (List.append_nil _).symm, hout.opened, .nil⟩⟩
  | true =>
    obtain ⟨hcol, ms₁, ms₂, hms, hopen, hrest⟩ := hh.buffered hbuffer
    rw [if_neg (by simp)]
    split
    · have hsep : Renders isspace [Mark.sep] [] := .sep [] (by simp) .nil
      refine ⟨fun hfalse => absurd (hbuffer.symm.trans hfalse) (by simp),
        fun _ => ⟨hcol, ms₁, ms₂ ++ [.sep], by rw [hms, List.append_assoc], hopen, ?_⟩⟩
      have := hrest.append hsep
      rwa [List.append_nil] at this
    · have hall := hh.flush hbuffer fun _ => isspace_of_mem_singleton
      refine ⟨fun hfalse => absurd (hbuffer.symm.trans hfalse) (by simp),
        fun _ => ⟨by simp, _, [], (List.append_nil _).symm, ?_, .nil⟩⟩
      have hopened := hall.opened
      simpa [Html.put] using hopened

/-- At the end of a line, everything is written, and white space is inserted. -/
theorem Holds.endline (hh : Holds h ms) : Holds (printEndline h) (ms ++ [.sep]) ∧
    Renders isspace (ms ++ [.sep]) (printEndline h).out := by
  suffices hsuff : (printEndline h).flags.buffer = false ∧ (printEndline h).buf = [] ∧
      Renders isspace (ms ++ [.sep]) (printEndline h).out from
    ⟨⟨fun _ => hsuff.2, fun htrue => absurd (hsuff.1.symm.trans htrue) (by simp)⟩, hsuff.2.2⟩
  unfold printEndline
  split
  · next hcol =>
    -- An active buffer would have advanced the column.
    cases hbuffer : h.flags.buffer with
    | false =>
      obtain ⟨hbuf, hout⟩ := hh.direct hbuffer
      have hsep : Renders isspace [Mark.sep] [] := .sep [] (by simp) .nil
      have := hout.append hsep
      rw [List.append_nil] at this
      exact ⟨rfl, hbuf, this⟩
    | true => exact absurd hcol (hh.buffered hbuffer).1
  · refine ⟨rfl, rfl, ?_⟩
    have hnewline : Renders isspace [Mark.sep] ['\n'] :=
      .sep ['\n'] (by simp; decide) .nil
    cases hbuffer : h.flags.buffer with
    | false =>
      obtain ⟨hbuf, hout⟩ := hh.direct hbuffer
      rw [if_pos hbuf]
      exact hout.append hnewline
    | true =>
      split
      · next hnil =>
        have hall := hh.flush hbuffer (w := []) (by simp)
        rw [hnil, List.append_nil, List.append_nil] at hall
        exact hall.append hnewline
      · have hall := (hh.flush hbuffer fun _ => isspace_of_mem_singleton).append hnewline
        simpa [Html.put] using hall

/-- Indentation inserts white space, if anything. -/
theorem Holds.indent (hh : Holds h ms) : Holds (printIndent h) (ms ++ [.sep]) := by
  obtain ⟨w, hw, hout, hflags, hbuf, hcol⟩ := printIndent_spec h
  cases hbuffer : h.flags.buffer with
  | false =>
    obtain ⟨hempty, hrender⟩ := hh.direct hbuffer
    have hsep : Renders isspace [Mark.sep] w := by
      have := Renders.sep w hw .nil
      rwa [List.append_nil] at this
    rw [← hflags] at hbuffer
    refine ⟨fun _ => ⟨hbuf.trans hempty, ?_⟩,
      fun htrue => absurd (hbuffer.symm.trans htrue) (by simp)⟩
    rw [hout]
    exact hrender.append hsep
  | true =>
    obtain ⟨hne, ms₁, ms₂, hms, hopen, hrest⟩ := hh.buffered hbuffer
    rw [hcol hne]
    have hsep : Renders isspace [Mark.sep] [] := .sep [] (by simp) .nil
    refine ⟨fun hfalse => absurd (hbuffer.symm.trans hfalse) (by simp),
      fun _ => ⟨hne, ms₁, ms₂ ++ [.sep], by rw [hms, List.append_assoc], hopen, ?_⟩⟩
    have := hrest.append hsep
    rwa [List.append_nil] at this

/-! ## §4 Runs -/

theorem holds_initial : Holds {} [] :=
  ⟨fun _ => ⟨rfl, .nil⟩, fun htrue => absurd htrue (by simp)⟩

/-- Every call appends its text. -/
theorem Holds.call (hh : Holds h ms) (call : OutCall) : Holds (call.run h) (ms ++ call.marks) := by
  cases call with
  | byte c => exact hh.byte (.sym c .nil)
  | word cp => exact hh.word cp
  | endword => exact hh.endword
  | indent => exact hh.indent
  | endline => exact hh.endline.1
  | setIndent levels pre =>
    rw [OutCall.marks, List.append_nil]
    exact ⟨hh.direct, hh.buffered⟩

/-- By induction on the calls: they append the text that was passed in. -/
theorem Holds.run (hh : Holds h ms) (calls : List OutCall) :
    Holds (runCalls h calls) (ms ++ passed calls) := by
  induction calls generalizing h ms with
  | nil => simpa [runCalls, passed] using hh
  | cons call calls ih =>
    have hrest := ih (hh.call call)
    rwa [List.append_assoc] at hrest

/-- **Lossless output.** After any sequence of calls and a final `print_endline()`, the output
    without white space consists of the bytes passed in without white space, and two bytes
    that were passed in one right after the other are next to each other in the output. -/
theorem printEndline_lossless (calls : List OutCall) :
    let out := (printEndline (runCalls {} calls)).out
    visible isspace out = visible isspace (syms (passed calls)) ∧
      ∀ ms a b ms', passed calls = ms ++ .sym a :: .sym b :: ms' →
        ∃ s s', out = s ++ a :: b :: s' ∧ visible isspace s = visible isspace (syms ms) ∧
          visible isspace s' = visible isspace (syms ms') := by
  intro out
  have hout : Renders isspace (passed calls ++ [.sep]) out := (holds_initial.run calls).endline.2
  have hsyms : ∀ ms : List (Mark Char), syms (ms ++ [.sep]) = syms ms := fun ms => by
    rw [syms_append]
    exact List.append_nil _
  constructor
  · rw [hout.visible_eq, hsyms]
  · intro ms a b ms' hpassed
    rw [hpassed, List.append_assoc] at hout
    obtain ⟨s, s', heq, hs, hs'⟩ := hout.adjacent
    have hrest : Renders isspace (ms' ++ [.sep]) s' := hs'
    exact ⟨s, s', heq, hs.visible_eq, by rw [hrest.visible_eq, hsyms]⟩

end Mandoc
