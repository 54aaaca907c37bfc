import Mandoc.Html.EncodeScan
import Mandoc.Lib.Guarantees
import Mandoc.Roff.EscapeSafety

/-!
# Link Templates

The target of a link is made from a template, which is the value of the output option `man` or
`includes`: `%N` or `%I` stands for a name, and `%S` for a section. The function `print_href()`
divides the template at the percent signs, and calls `print_encode()` for the pieces.

The main result, `printHref_inside_iff`, says exactly when all of this stays inside of the strings:
a percent sign must not be the last byte of the template, and the parser for escape sequences
must stay inside of the strings. `hrefPieces` lists the calls of `print_encode()`.
-/

namespace Mandoc

/-! ## §1 The function -/

/-- The output options, and what the function learns about the file system. -/
structure HrefEnv where
  base_man1 : CStr
  base_man2 : Option CStr
  base_includes : CStr
  /-- `stat()` finds a file of that name. -/
  statFound : CStr → Bool

/-- The template. The name of the file is printed by `asprintf()`, which prints `(null)` for a
    null pointer. -/
def hrefBase (env : HrefEnv) (name : CStr) (sec : Option CStr) (man : Bool) : CStr :=
  if man then
    match env.base_man2 with
    | none => env.base_man1
    | some base_man2 =>
      if env.statFound (name ++ '.' :: sec.getD "(null)".toList) then env.base_man1 else base_man2
  else env.base_includes

section

-- The function `mchars_spec2cp()`, and the arguments of `print_href()`.
variable (spec2cp : CStr → Int) (base name : CStr) (sec : Option CStr) (man : Bool)

/-- Print what stands for the percent sign at the index `p` and for the byte after it. -/
def printDirective (h : Html) (p : Nat) : Res Html := do
  let c ← rd base (p + 1)
  if man ∧ c = 'S' then
    match sec with
    | none => return printByte h '1'
    | some sec => return (← printEncode spec2cp h sec).1
  else if man ∧ c = 'N' ∨ man = false ∧ c = 'I' then return (← printEncode spec2cp h name).1
  else return (← printEncodeTo spec2cp base (p + 2) h p).1

/-- `strchr(pp, '%')`: the index of the percent sign, or the index of the terminating NUL. -/
def nextPercent (pp : Nat) : Nat := skipWhile (· ≠ '%') base pp

/-- An iteration of the loop in `print_href()`, for the output state and the index `pp`. -/
def hrefStep (s : Html × Nat) : Res (Loop.Next (Html × Nat) Html) := do
  let _ ← rd base s.2
  let p := nextPercent base s.2
  if p < base.length then
    let (h, _) ← printEncodeTo spec2cp base p s.1 s.2
    return .again (← printDirective spec2cp base name sec man h p, p + 2)
  else if s.2 < base.length then return .done (← printEncodeTo spec2cp base base.length s.1 s.2).1
  else return .done s.1

end

/-- `print_href()` -/
def printHref (spec2cp : CStr → Int) (env : HrefEnv) (h : Html) (name : CStr) (sec : Option CStr)
    (man : Bool) : Res Html :=
  let base := hrefBase env name sec man
  Loop.run (hrefStep spec2cp base name sec man) .fuel (base.length + 1) (h, 0)

/-! ## §2 The calls -/

/-- A part of a string that is printed by one call of `print_encode()`. -/
structure Piece where
  buf : CStr
  first : Nat
  last : Nat
deriving DecidableEq, Repr

/-- A whole string. -/
def Piece.whole (s : CStr) : Piece := ⟨s, 0, s.length⟩

section

variable (base name : CStr) (sec : Option CStr) (man : Bool)

/-- What is printed for the percent sign at the index `p`. -/
def directivePieces (p : Nat) : List Piece :=
  if man ∧ charAt base (p + 1) = 'S' then sec.toList.map Piece.whole
  else if man ∧ charAt base (p + 1) = 'N' ∨ man = false ∧ charAt base (p + 1) = 'I' then [.whole name]
  else [⟨base, p, p + 2⟩]

/-- What is printed from the index `pp` on, with a bound on the number of percent signs. -/
def hrefPieces : Nat → Nat → List Piece
  | 0, _ => []
  | steps + 1, pp =>
    let p := nextPercent base pp
    if p < base.length then
      ⟨base, pp, p⟩ :: (directivePieces base name sec man p ++ hrefPieces steps (p + 2))
    else if pp < base.length then [⟨base, pp, base.length⟩]
    else []

end

/-! ## §3 Staying inside -/

/-- The computation ends without reading beyond the end of a string: it delivers a result, or an
    assertion fails. -/
def StaysInside {α : Type} (x : Res α) : Prop := Guarantees (· = .abort) x fun _ => True

/-- From a place in a string to the next one, whatever is skipped. -/
def Moves (buf : CStr) (pend i j : Nat) : Prop :=
  ∃ skip skip', ScanStep buf pend (i, skip) (j, skip')

/-- The function looks for a character or an escape sequence at the index `j`. -/
def Visits (buf : CStr) (pend i j : Nat) : Prop := Relation.ReflTransGen (Moves buf pend) i j

/-- The parser only fails in an allowed way on the escape sequences found from an index on. -/
def EscapesFrom (allowed : Fault → Prop) (buf : CStr) (pend i : Nat) : Prop :=
  ∀ j, Visits buf pend i j → j < pend → charAt buf j = '\\' →
    Guarantees allowed (mandocEscape buf j) fun _ => True

/-- Printing the piece stays inside of the string: it does not end behind the terminating NUL, and
    the parser stays inside of the string. -/
def Piece.Inside (q : Piece) : Prop :=
  q.last ≤ q.buf.length ∧ EscapesFrom (· = .abort) q.buf q.last q.first

/-- No assertion fails while the piece is printed. -/
def Piece.Completes (q : Piece) : Prop := EscapesFrom (fun _ => False) q.buf q.last q.first

/-- Printing the pieces stays inside of the strings, as far as they are printed at all. -/
def PiecesInside : List Piece → Prop
  | [] => True
  | q :: qs => q.Inside ∧ (q.Completes → PiecesInside qs)

section

variable {allowed : Fault → Prop} {buf : CStr} {pend i : Nat}

theorem escapesFrom_end (hi : pend ≤ i) : EscapesFrom allowed buf pend i := by
  intro j hvisit hj
  obtain rfl | ⟨k, ⟨skip, skip', hstep⟩, -⟩ := Relation.ReflTransGen.cases_head hvisit
  · exact absurd hj (Nat.not_lt.mpr hi)
  · cases hstep with
    | byte hlt => exact absurd hlt (Nat.not_lt.mpr hi)
    | escape hlt => exact absurd hlt (Nat.not_lt.mpr hi)

theorem escapesFrom_byte (hi : i < pend) (hc : charAt buf i ≠ '\\') :
    EscapesFrom allowed buf pend i ↔ EscapesFrom allowed buf pend (i + 1) := by
  constructor
  · intro h j hvisit
    exact h j (.head ⟨false, false, .byte hi hc⟩ hvisit)
  · intro h j hvisit hj hesc
    obtain rfl | ⟨k, ⟨skip, skip', hstep⟩, hrest⟩ := Relation.ReflTransGen.cases_head hvisit
    · exact absurd hesc hc
    · obtain ⟨rfl, -⟩ := Prod.mk.inj ((scanStep_byte_iff hi hc).mp hstep)
      exact h j hrest hj hesc

theorem escapesFrom_bytes {n : Nat} (h : ∀ k, k < n → i + k < pend ∧ charAt buf (i + k) ≠ '\\') :
    EscapesFrom allowed buf pend i ↔ EscapesFrom allowed buf pend (i + n) := by
  induction n with
  | zero => rfl
  | succ n ih =>
    obtain ⟨hlt, hne⟩ := h n (Nat.lt_succ_self n)
    exact (ih fun k hk => h k (Nat.lt_succ_of_lt hk)).trans (escapesFrom_byte hlt hne)

theorem escapesFrom_escape (hi : i < pend) (hc : charAt buf i = '\\') :
    EscapesFrom allowed buf pend i ↔
      Guarantees allowed (mandocEscape buf i) fun r => EscapesFrom allowed buf pend r.rend := by
  constructor
  · intro h
    refine ⟨fun r hr j hvisit => h j (.head ⟨false, _, .escape hi hc hr⟩ hvisit), ?_⟩
    exact (h i .refl hi hc).2
  · intro h j hvisit hj hesc
    obtain rfl | ⟨k, ⟨skip, skip', hstep⟩, hrest⟩ := Relation.ReflTransGen.cases_head hvisit
    · exact h.mono fun _ _ => trivial
    · cases hstep with
      | byte _ hbyte => exact absurd hc hbyte
      | escape _ _ hr => exact h.1 _ hr j hrest hj hesc

/-! ## §4 One piece -/

/-- What an iteration of `print_encode()` that begins at the index `i` says about the escape
    sequences found from there on. -/
def MoveSpec (allowed : Fault → Prop) (buf : CStr) (pend i : Nat) :
    Res (Loop.Next EncodeState (Html × Bool)) → Prop
  | .error e => EscapesFrom allowed buf pend i ↔ allowed e
  | .ok (.done _) => EscapesFrom allowed buf pend i
  | .ok (.again st') => i < pend ∧ i < st'.p ∧
    (EscapesFrom allowed buf pend i ↔ EscapesFrom allowed buf pend st'.p)

variable {st : EncodeState} {res : Res (Loop.Next EncodeState (Html × Bool))}

/-- The second part of an iteration. -/
theorem EncodeSpecial.moveSpec (h : EncodeSpecial buf pend st res) (hi : i < pend) (hle : i ≤ st.p)
    (hiff : EscapesFrom allowed buf pend i ↔ EscapesFrom allowed buf pend st.p) :
    MoveSpec allowed buf pend i res := by
  cases h with
  | @breakline n _ _ hskipped hpos =>
    refine ⟨hi, ?_, hiff.trans (escapesFrom_bytes hskipped)⟩
    obtain hlt | hge := Nat.lt_or_ge st.p pend
    · exact Nat.lt_of_le_of_lt hle (Nat.lt_add_of_pos_right (hpos hlt))
    · exact Nat.lt_of_lt_of_le hi (hge.trans (Nat.le_add_right _ _))
  | finish _ hge => exact hiff.mpr (escapesFrom_end hge)
  | byte _ hlt hne =>
    exact ⟨hi, Nat.lt_succ_of_le hle, hiff.trans (escapesFrom_byte hlt hne)⟩
  | escape hlt hc hr hprogress hdone =>
    refine ⟨hi, hdone.p ▸ Nat.lt_of_le_of_lt hle hprogress, hiff.trans ?_⟩
    rw [escapesFrom_escape hlt hc, hr, Guarantees.ok_iff, hdone.p]
  | fail hlt hc hr =>
    refine hiff.trans ?_
    rw [escapesFrom_escape hlt hc, hr, Guarantees.error_iff]

/-- One iteration. -/
theorem EncodeIteration.moveSpec (h : EncodeIteration buf pend st res) :
    MoveSpec allowed buf pend st.p res := by
  cases h with
  | finish hle => exact escapesFrom_end hle
  | skip hlt _ hne => exact ⟨hlt, Nat.lt_succ_self _, escapesFrom_byte hlt hne⟩
  | special hlt _ _ _ hords _ hspecial =>
    apply hspecial.moveSpec hlt (Nat.le_add_right _ _)
    refine escapesFrom_bytes fun k hk => ⟨(hords k hk).1, fun heq => (hords k hk).2 ?_⟩
    rw [heq]
    decide

/-- The main loop fails if and only if the parser for escape sequences does. By induction on the
    bound, which decreases with every iteration. -/
theorem encodeLoop_guarantees_iff (spec2cp : CStr → Int) (hs : NUL ∉ buf) (hpend : pend ≤ buf.length)
    {n : Nat} (hn : pend - st.p < n) :
    (Guarantees allowed (Loop.run (encodeStep spec2cp buf pend) .fuel n st) fun _ => True) ↔
      EscapesFrom allowed buf pend st.p := by
  induction n generalizing st with
  | zero => exact absurd hn (Nat.not_lt_zero _)
  | succ n ih =>
    have hspec : MoveSpec allowed buf pend st.p (encodeStep spec2cp buf pend st) :=
      (encodeStep_cases spec2cp hs hpend st).moveSpec
    unfold Loop.run
    cases hstep : encodeStep spec2cp buf pend st with
    | error e =>
      rw [hstep] at hspec
      exact Guarantees.error_iff.trans hspec.symm
    | ok next =>
      rw [hstep] at hspec
      cases next with
      | done r => exact iff_of_true (Guarantees.ok_iff.mpr trivial) hspec
      | again st' =>
        obtain ⟨hlt, hprogress, hiff⟩ := hspec
        exact (ih (by omega)).trans hiff.symm

theorem printEncodeTo_guarantees_iff (spec2cp : CStr → Int) (hs : NUL ∉ buf)
    (hpend : pend ≤ buf.length) (h : Html) (i : Nat) :
    (Guarantees allowed (printEncodeTo spec2cp buf pend h i) fun _ => True) ↔
      EscapesFrom allowed buf pend i :=
  encodeLoop_guarantees_iff spec2cp hs hpend (Nat.lt_succ_self _)

end

/-! ## §5 All pieces -/

/-- Print a piece. -/
def printPiece (spec2cp : CStr → Int) (h : Html) (q : Piece) : Res (Html × Bool) :=
  printEncodeTo spec2cp q.buf q.last h q.first

/-- A piece of a string: it ends inside of the string, or it is a percent sign that is the last
    byte of a template, together with the terminating NUL. -/
def Piece.Proper (q : Piece) : Prop :=
  NUL ∉ q.buf ∧ (q.last ≤ q.buf.length ∨
    (q.last = q.first + 2 ∧ q.buf.length = q.first + 1 ∧ charAt q.buf q.first = '%'))

theorem mandocEscape_nul (buf : CStr) : mandocEscape buf buf.length = .error .overrun := by
  have hread : rd buf (nameIndex buf buf.length) = .error .overrun :=
    rd_of_gt (nameIndex_gt buf buf.length)
  rw [mandocEscape, roffEscapeNull, escapeRec, escapeAt, escapeStart, hread]
  rfl

/-- The terminating NUL is taken for an escape character. -/
theorem encodeSpecial_nul (spec2cp : CStr → Int) {buf : CStr} {st : EncodeState}
    (hp : st.p = buf.length) (hbrk : st.breakline = false) :
    encodeSpecial spec2cp buf (buf.length + 1) st = .error .overrun := by
  have hnul : rd buf st.p = .ok NUL := by
    rw [hp, rd_of_le (Nat.le_refl _), charAt_of_ge (Nat.le_refl _)]
  have hnone : printEscape st.h NUL = none :=
    (printEscape_eq_none_iff _ _).mpr (by unfold IsAttrByte; decide)
  rw [encodeSpecial, if_neg (by simp [hbrk]), if_neg (by omega), hnul, Res.ok_bind,
    if_neg (by decide), hnone, hp, mandocEscape_nul]
  rfl

/-- A percent sign that is the last byte of a template is fatal: the terminating NUL is passed to
    the parser for escape sequences. -/
theorem not_staysInside_of_percent (spec2cp : CStr → Int) (h : Html) {buf : CStr} {p : Nat}
    (hlen : buf.length = p + 1) (hc : charAt buf p = '%') :
    ¬ StaysInside (printEncodeTo spec2cp buf (p + 2) h p) := by
  have hpend : p + 2 = buf.length + 1 := by omega
  have hdrop : buf.drop p = ['%'] := by
    have hlt : p < buf.length := by omega
    rw [List.drop_eq_getElem_cons hlt, ← charAt_eq_getElem hlt, hc,
      List.drop_eq_nil_of_le (by omega)]
  -- The second iteration, if the percent sign is skipped.
  have hnext : ∀ st : EncodeState, st.p = buf.length → st.breakline = false →
      st.h.flags.skipchar = false →
      encodeStep spec2cp buf (buf.length + 1) st = .error .overrun := by
    intro st hp hbrk hskip
    have hrun : (encodeRun buf (buf.length + 1) st).p = buf.length := by
      simp [encodeRun, hp, strcspn]
    rw [encodeStep, if_neg (by omega), hp, rd_of_le (Nat.le_refl _), Res.ok_bind,
      if_neg (by simp [hskip])]
    exact encodeSpecial_nul spec2cp hrun hbrk
  have hfirst : rd buf p = .ok '%' := by
    rw [rd_of_le (by omega), hc]
  have hover : printEncodeTo spec2cp buf (p + 2) h p = .error .overrun := by
    rw [printEncodeTo, hpend, show buf.length + 1 - p + 1 = 1 + 1 + 1 by omega, Loop.run]
    rw [encodeStep, if_neg (by dsimp only; omega), hfirst, Res.ok_bind]
    by_cases hskip : h.flags.skipchar = true
    · rw [if_pos ⟨hskip, by decide⟩]
      have hsecond : ∀ st : EncodeState, st.p = buf.length → st.breakline = false →
          st.h.flags.skipchar = false → Loop.run (encodeStep spec2cp buf (buf.length + 1)) .fuel
            (1 + 1) st = .error .overrun := by
        intro st hp hbrk hflag
        rw [Loop.run, hnext st hp hbrk hflag]
      exact hsecond _ (by dsimp only; omega) rfl rfl
    · rw [if_neg (by simp [hskip])]
      have hrun : (encodeRun buf (buf.length + 1) { h, p }).p = buf.length := by
        have hspan : strcspn ['%'] encodeRejs = 1 := by decide
        simp only [encodeRun, hdrop, hspan]
        omega
      rw [encodeSpecial_nul spec2cp hrun rfl]
  rw [hover, StaysInside, Guarantees.error_iff]
  decide

theorem staysInside_printPiece_iff (spec2cp : CStr → Int) (h : Html) {q : Piece} (hq : q.Proper) :
    StaysInside (printPiece spec2cp h q) ↔ q.Inside := by
  obtain ⟨hs, hle | ⟨hlast, hlen, hc⟩⟩ := hq
  · exact (printEncodeTo_guarantees_iff spec2cp hs hle h q.first).trans
      (and_iff_right hle).symm
  · refine iff_of_false ?_ fun hinside => ?_
    · rw [printPiece, hlast]
      exact not_staysInside_of_percent spec2cp h hlen hc
    · have := hinside.1
      omega

theorem staysInside_bind_iff {α β : Type} {x : Res α} {f : α → Res β} {P : Prop}
    (hf : ∀ a, StaysInside (f a) ↔ P) : StaysInside (x >>= f) ↔
      StaysInside x ∧ ((Guarantees (fun _ => False) x fun _ => True) → P) := by
  cases x with
  | error e => simp [StaysInside]
  | ok a => simpa [StaysInside] using hf a

/-- Printing a piece, and then others. -/
theorem staysInside_piece_bind_iff (spec2cp : CStr → Int) (h : Html) {q : Piece} (hq : q.Proper)
    {β : Type} {f : Html × Bool → Res β} {qs : List Piece}
    (hf : ∀ a, StaysInside (f a) ↔ PiecesInside qs) :
    StaysInside (printPiece spec2cp h q >>= f) ↔ PiecesInside (q :: qs) := by
  rw [staysInside_bind_iff hf, staysInside_printPiece_iff spec2cp h hq, PiecesInside]
  refine and_congr_right fun hinside => imp_congr ?_ Iff.rfl
  exact printEncodeTo_guarantees_iff spec2cp hq.1 hinside.1 h q.first

section

variable {base name : CStr} {sec : Option CStr} {man : Bool}

theorem Piece.Proper.whole {s : CStr} (hs : NUL ∉ s) : (Piece.whole s).Proper :=
  ⟨hs, .inl (Nat.le_refl _)⟩

/-- The byte at the next percent sign. -/
theorem charAt_nextPercent {pp : Nat} (h : nextPercent base pp < base.length) :
    charAt base (nextPercent base pp) = '%' := by
  have hlen : ((base.drop pp).takeWhile (· ≠ '%')).length < (base.drop pp).length := by
    rw [List.length_drop]
    exact Nat.lt_sub_of_add_lt (Nat.add_comm _ _ ▸ h)
  have htest := charAt_length_takeWhile _ hlen
  rw [charAt_drop] at htest
  simpa [nextPercent, skipWhile] using htest

/-- What stands for a percent sign. -/
theorem staysInside_directive_iff (spec2cp : CStr → Int) (hbase : NUL ∉ base) (hname : NUL ∉ name)
    (hsec : ∀ s ∈ sec, NUL ∉ s) (h : Html) {p : Nat} (hp : p < base.length)
    (hc : charAt base p = '%') {β : Type} {f : Html → Res β} {qs : List Piece}
    (hf : p + 2 ≤ base.length → ∀ h, StaysInside (f h) ↔ PiecesInside qs) :
    StaysInside (printDirective spec2cp base name sec man h p >>= f) ↔
      PiecesInside (directivePieces base name sec man p ++ qs) := by
  have hself : (Piece.mk base p (p + 2)).Proper := by
    refine ⟨hbase, ?_⟩
    obtain hle | hgt := Nat.lt_or_ge (p + 1) base.length
    · exact .inl hle
    · exact .inr ⟨rfl, Nat.le_antisymm hgt hp, hc⟩
  unfold printDirective directivePieces
  rw [rd_of_le hp, Res.ok_bind]
  obtain hlt | hge := Nat.lt_or_ge (p + 1) base.length
  · have hpiece : ∀ q : Piece, q.Proper →
        (StaysInside (printPiece spec2cp h q >>= fun r => f r.1) ↔ PiecesInside (q :: qs)) :=
      fun q hq => staysInside_piece_bind_iff spec2cp h hq fun r => hf hlt r.1
    split
    · cases sec with
      | none => exact hf hlt _
      | some s =>
        rw [bind_assoc]
        exact hpiece (.whole s) (.whole (hsec s rfl))
    split
    · rw [bind_assoc]
      exact hpiece (.whole name) (.whole hname)
    · rw [bind_assoc]
      exact hpiece _ hself
  · -- The byte after the percent sign is the terminating NUL.
    have hnul : charAt base (p + 1) = NUL := charAt_of_ge hge
    have hnot : ¬ (Piece.mk base p (p + 2)).Inside := fun hinside => by
      have := hinside.1
      dsimp only at this
      omega
    have hsecond : ¬ (man = true ∧ NUL = 'N' ∨ man = false ∧ NUL = 'I') := by
      rintro (⟨-, h'⟩ | ⟨-, h'⟩)
      · exact absurd h' (by decide)
      · exact absurd h' (by decide)
    have hfirst : ¬ (man = true ∧ NUL = 'S') := fun h' => absurd h'.2 (by decide)
    rw [hnul, if_neg hfirst, if_neg hsecond, if_neg hfirst, if_neg hsecond, bind_assoc]
    refine iff_of_false (fun h' => hnot ?_) fun h' => hnot h'.1
    exact (staysInside_printPiece_iff spec2cp h hself).mp
      ((Guarantees.bind_iff.mp h').mono fun _ _ => trivial)

/-- The loop over the percent signs. By induction on the bound. -/
theorem hrefLoop_inside_iff (spec2cp : CStr → Int) (hbase : NUL ∉ base) (hname : NUL ∉ name)
    (hsec : ∀ s ∈ sec, NUL ∉ s) (h : Html) {n pp : Nat} (hpp : pp ≤ base.length)
    (hn : base.length - pp < n) :
    StaysInside (Loop.run (hrefStep spec2cp base name sec man) .fuel n (h, pp)) ↔
      PiecesInside (hrefPieces base name sec man n pp) := by
  induction n generalizing h pp with
  | zero => exact absurd hn (Nat.not_lt_zero _)
  | succ n ih =>
    have hle : pp ≤ nextPercent base pp := le_skipWhile _ _ _
    have hend : nextPercent base pp ≤ base.length := skipWhile_le _ hpp
    rw [Loop.run_succ, hrefStep, hrefPieces, rd_of_le hpp, Res.ok_bind]
    dsimp only
    split
    · next hlt =>
      have hprefix : (Piece.mk base pp (nextPercent base pp)).Proper := ⟨hbase, .inl hend⟩
      rw [bind_assoc]
      apply staysInside_piece_bind_iff spec2cp h hprefix
      intro r
      rw [bind_assoc]
      apply staysInside_directive_iff spec2cp hbase hname hsec r.1 hlt (charAt_nextPercent hlt)
      intro hlt' h'
      exact ih h' hlt' (by omega)
    split
    · have hrest : (Piece.mk base pp base.length).Proper := ⟨hbase, .inl (Nat.le_refl _)⟩
      rw [bind_assoc]
      apply staysInside_piece_bind_iff spec2cp h hrest
      exact fun r => iff_of_true (Guarantees.ok_iff.mpr trivial) trivial
    · exact iff_of_true (Guarantees.ok_iff.mpr trivial) trivial

/-- **Link templates.** The function ends without reading beyond the end of the template, of the
    name, or of the section, if and only if no percent sign that it comes to is the last byte of
    the template, and the parser for escape sequences stays inside of the strings, for all the
    sequences that are parsed before an assertion fails. -/
theorem printHref_inside_iff (spec2cp : CStr → Int) (env : HrefEnv) (h : Html) {name : CStr}
    {sec : Option CStr} (man : Bool) (hbase : NUL ∉ hrefBase env name sec man) (hname : NUL ∉ name)
    (hsec : ∀ s ∈ sec, NUL ∉ s) :
    StaysInside (printHref spec2cp env h name sec man) ↔
      PiecesInside (hrefPieces (hrefBase env name sec man) name sec man
        ((hrefBase env name sec man).length + 1) 0) :=
  hrefLoop_inside_iff spec2cp hbase hname hsec h (Nat.zero_le _) (Nat.lt_succ_self _)

/-- The parser stays inside of a string that does not end in a lone delimiter. -/
theorem escapesFrom_of_not_endsInLoneDelim {buf : CStr} (hs : NUL ∉ buf)
    (hend : ¬ EndsInLoneDelim buf '\\') (pend i : Nat) :
    EscapesFrom (· = .abort) buf pend i := by
  intro j _ _ hc
  have hlone : ∀ k, charAt buf k = '\\' → ¬ LoneDelim buf k := fun k hk hlone =>
    hend ((loneDelim_iff_endsInLoneDelim buf (by decide)).mp ⟨k, hk, hlone⟩)
  obtain ⟨-, r, hr, -⟩ := safeAt_of_not_loneDelim hs (by decide) hlone hc
  rw [mandocEscape, hr, Res.ok_bind]
  exact Guarantees.ite (fun _ => Guarantees.error_iff.mpr rfl) fun _ => Guarantees.pure_iff.mpr trivial

theorem Piece.inside_of_notMem {q : Piece} (hs : NUL ∉ q.buf) (hesc : '\\' ∉ q.buf)
    (hle : q.last ≤ q.buf.length) : q.Inside := by
  refine ⟨hle, escapesFrom_of_not_endsInLoneDelim hs ?_ q.last q.first⟩
  rintro ⟨pre, k, c, -, heq⟩
  exact hesc (heq ▸ List.mem_append_right _ (List.mem_cons_self ..))

/-- The link to a manual page. -/
theorem printHref_inside_manual : StaysInside (printHref (fun _ => -1)
    ⟨"%N.%S.html".toList, none, [], fun _ => false⟩ {} "ls".toList (some ['1']) true) :=
  (printHref_inside_iff _ ⟨"%N.%S.html".toList, none, [], fun _ => false⟩ {} true (by decide)
    (by decide) fun s hs => by cases hs; decide).mpr (by
    have hpieces : hrefPieces "%N.%S.html".toList "ls".toList (some ['1']) true 11 0 =
        [⟨"%N.%S.html".toList, 0, 0⟩, .whole "ls".toList, ⟨"%N.%S.html".toList, 2, 3⟩, .whole ['1'],
          ⟨"%N.%S.html".toList, 5, 10⟩] := by decide +kernel
    have hinside : ∀ q : Piece, (NUL ∉ q.buf ∧ '\\' ∉ q.buf ∧ q.last ≤ q.buf.length) → q.Inside :=
      fun q h => q.inside_of_notMem h.1 h.2.1 h.2.2
    exact hpieces ▸ ⟨hinside _ (by decide), fun _ => ⟨hinside _ (by decide), fun _ =>
      ⟨hinside _ (by decide), fun _ => ⟨hinside _ (by decide), fun _ =>
        ⟨hinside _ (by decide), fun _ => trivial⟩⟩⟩⟩⟩)

/-- The template `a%` ends with a percent sign. -/
theorem printHref_outside_percent : ¬ ∀ (spec2cp : CStr → Int) (env : HrefEnv) (h : Html)
    (name : CStr) (sec : Option CStr) (man : Bool), NUL ∉ hrefBase env name sec man → NUL ∉ name →
    (∀ s ∈ sec, NUL ∉ s) → StaysInside (printHref spec2cp env h name sec man) := by
  intro hall
  have hstay := hall (fun _ => -1) ⟨[], none, "a%".toList, fun _ => false⟩ {} "stdio.h".toList none
    false (by decide) (by decide) (by simp)
  have hover : printHref (fun _ => -1) ⟨[], none, "a%".toList, fun _ => false⟩ {} "stdio.h".toList
      none false = .error .overrun := by decide +kernel
  rw [hover] at hstay
  exact absurd (Guarantees.error_iff.mp hstay) (by decide)

end

end Mandoc
