import Mandoc.Roff.NumExpr
import Mandoc.Roff.Parseln

/-!
# Lines without Escape Sequences

What the functions that look at every input line do to a line that contains neither a
backslash nor the current escape character: there is no comment, nothing is expanded, and a
name extends to the next blank or tab.
-/

namespace Mandoc

variable {X : Type}

/-! ## §1 Plain text -/

/-- The text of an input line without the backslash and without the escape character `ec`. -/
structure Plain (ec : Char) (s : CStr) : Prop where
  noBackslash : '\\' ∉ s
  noEscape : ec ∉ s
  noNul : NUL ∉ s
  noNewline : '\n' ∉ s

namespace Plain

variable {ec : Char} {s t : CStr}

theorem append (hs : Plain ec s) (ht : Plain ec t) : Plain ec (s ++ t) where
  noBackslash h := (List.mem_append.mp h).elim hs.noBackslash ht.noBackslash
  noEscape h := (List.mem_append.mp h).elim hs.noEscape ht.noEscape
  noNul h := (List.mem_append.mp h).elim hs.noNul ht.noNul
  noNewline h := (List.mem_append.mp h).elim hs.noNewline ht.noNewline

theorem of_subset (hs : Plain ec s) (h : t ⊆ s) : Plain ec t where
  noBackslash ht := hs.noBackslash (h ht)
  noEscape ht := hs.noEscape (h ht)
  noNul ht := hs.noNul (h ht)
  noNewline ht := hs.noNewline (h ht)

theorem tail {c : Char} (hs : Plain ec (c :: s)) : Plain ec s :=
  hs.of_subset (List.subset_cons_self c s)

/-- The bytes inside a plain line are neither special nor the terminating NUL. -/
theorem charAt_ne (hs : Plain ec s) {i : Nat} (hi : i < s.length) :
    charAt s i ≠ '\\' ∧ charAt s i ≠ ec ∧ charAt s i ≠ NUL := by
  have hmem : charAt s i ∈ s := by
    rw [charAt_eq_getElem hi]
    exact List.getElem_mem hi
  exact ⟨fun h => hs.noBackslash (h ▸ hmem), fun h => hs.noEscape (h ▸ hmem),
    fun h => hs.noNul (h ▸ hmem)⟩

end Plain

/-! ## §2 Comments and expansion -/

/-- A plain line does not contain a comment. -/
theorem commentScan_plain {ec : Char} {s : CStr} (hs : Plain ec s) (i : Nat) :
    commentScan ec s i = .ok (.plain (i + s.length)) := by
  induction s generalizing i with
  | nil => rfl
  | cons c s ih =>
    have hnl : c ≠ '\n' := fun h => hs.noNewline (h ▸ List.mem_cons_self)
    have hec : c ≠ ec := fun h => hs.noEscape (h ▸ List.mem_cons_self)
    cases s with
    | nil => rw [commentScan, if_neg hnl, if_pos hec]; rfl
    | cons d s =>
      rw [commentScan, if_neg hnl, if_pos hec, ih hs.tail, List.length_cons, List.length_cons,
        List.length_cons]
      congr 2
      omega

theorem roffParseComment_plain {ec : Char} {r : Roff X} {buf : Buf} (hs : Plain ec buf.buf)
    (ln : Nat) : roffParseComment r buf ln 0 ec = .ok (ROFF_CONT, r, buf) := by
  rw [roffParseComment, List.drop_zero, commentScan_plain hs, Res.ok_bind]
  dsimp only
  rw [Nat.zero_add, List.take_length]
  rfl

theorem expandStep_plain (env : Env X) {ec : Char} {st : ExpandState X}
    (hlt : st.pos < st.buf.buf.length) (hbs : charAt st.buf.buf st.pos ≠ '\\')
    (hec : charAt st.buf.buf st.pos ≠ ec) (hnul : charAt st.buf.buf st.pos ≠ NUL) :
    expandStep env ec st = .ok (.again { st with pos := st.pos + 1 }) := by
  rw [expandStep, rd_of_le hlt.le, Res.ok_bind, if_neg hnul, if_pos hec, if_neg hbs]
  rfl

theorem expandStep_end (env : Env X) {ec : Char} {st : ExpandState X}
    (hpos : st.pos = st.buf.buf.length) :
    expandStep env ec st = .ok (.done ⟨ROFF_CONT, st.r, st.buf⟩) := by
  rw [expandStep, hpos, rd_of_le le_rfl, Res.ok_bind, if_pos (charAt_of_ge le_rfl)]
  rfl

/-- A plain line is not changed by the expansion of escape sequences. -/
theorem roffExpand_plain (env : Env X) {ec : Char} {r : Roff X} {buf : Buf}
    (hs : Plain ec buf.buf) {fuel : Nat} (hfuel : buf.buf.length < fuel) :
    roffExpand env fuel r buf 0 ec = .ok ⟨ROFF_CONT, r, buf⟩ := by
  have hrun : ∀ n k, k + n = buf.buf.length → ∀ fuel, n < fuel →
      Loop.run (expandStep env ec) .fuel fuel ⟨r, buf, k, 0⟩ = .ok ⟨ROFF_CONT, r, buf⟩ := by
    intro n
    induction n with
    | zero =>
      intro k hk fuel hfuel
      obtain ⟨m, rfl⟩ := Nat.exists_eq_succ_of_ne_zero hfuel.ne'
      rw [Loop.run, expandStep_end env (by simpa using hk)]
    | succ n ih =>
      intro k hk fuel hfuel
      obtain ⟨m, rfl⟩ := Nat.exists_eq_succ_of_ne_zero (Nat.ne_zero_of_lt hfuel)
      have hlt : k < buf.buf.length := by omega
      obtain ⟨hbs, hec, hnul⟩ := hs.charAt_ne hlt
      rw [Loop.run, expandStep_plain env hlt hbs hec hnul]
      exact ih (k + 1) (by omega) m (Nat.lt_of_succ_lt_succ hfuel)
  exact hrun buf.buf.length 0 (Nat.zero_add _) fuel hfuel

/-! ## §3 Names -/

/-- One step of a loop skipping bytes. -/
theorem skipWhile_step (p : Char → Bool) {s : CStr} {i : Nat} (hi : i < s.length) :
    skipWhile p s i = if p (charAt s i) then skipWhile p s (i + 1) else i := by
  rw [charAt_eq_getElem hi, skipWhile, List.drop_eq_getElem_cons hi, List.takeWhile_cons]
  split
  · rw [List.length_cons, skipWhile]
    omega
  · rfl

/-- Where a loop skipping bytes ends: all bytes before satisfy the test, and the one there
    does not. -/
theorem skipWhile_spec (p : Char → Bool) {s : CStr} {i : Nat} (hi : i ≤ s.length) :
    i ≤ skipWhile p s i ∧ skipWhile p s i ≤ s.length ∧
      (∀ j, i ≤ j → j < skipWhile p s i → p (charAt s j) = true) ∧
      (skipWhile p s i < s.length → p (charAt s (skipWhile p s i)) = false) := by
  obtain ⟨n, hn⟩ : ∃ n, i + n = s.length := ⟨s.length - i, Nat.add_sub_cancel' hi⟩
  induction n generalizing i with
  | zero =>
    have hge : s.length ≤ i := Nat.le_of_eq hn.symm
    rw [skipWhile_of_ge p hge]
    exact ⟨le_rfl, hi, fun j h1 h2 => absurd h2 (Nat.not_lt.mpr h1), fun h => by omega⟩
  | succ n ih =>
    have hlt : i < s.length := by omega
    rw [skipWhile_step p hlt]
    cases hp : p (charAt s i) with
    | false => exact ⟨le_rfl, hi, fun j h1 h2 => absurd h2 (Nat.not_lt.mpr h1), fun _ => hp⟩
    | true =>
      obtain ⟨h1, h2, h3, h4⟩ := ih (i := i + 1) hlt (by omega)
      refine ⟨Nat.le_of_succ_le h1, h2, fun j hij hj => ?_, h4⟩
      rcases hij.eq_or_lt with rfl | hij
      · exact hp
      · exact h3 j hij hj

/-- Whether a byte ends a name. -/
def endsWord (c : Char) : Bool := c = ' ' || c = '\t'

/-- The index of the end of the word at an index: the next blank or tab. -/
def wordEnd (buf : CStr) (pos : Nat) : Nat := skipWhile (fun c => !endsWord c) buf pos

/-- There are no blanks in a word, and unless the line ends there, a word ends at a blank. -/
theorem wordEnd_spec {buf : CStr} {pos : Nat} (hpos : pos ≤ buf.length) :
    pos ≤ wordEnd buf pos ∧ wordEnd buf pos ≤ buf.length ∧
      (∀ j, pos ≤ j → j < wordEnd buf pos → endsWord (charAt buf j) = false) ∧
      (wordEnd buf pos < buf.length → endsWord (charAt buf (wordEnd buf pos)) = true) := by
  obtain ⟨hge, hle, hin, hstop⟩ := skipWhile_spec (fun c => !endsWord c) hpos
  refine ⟨hge, hle, fun j h1 h2 => ?_, fun h => ?_⟩
  · exact Bool.not_eq_eq_eq_not.mp (hin j h1 h2)
  · exact Bool.not_eq_eq_eq_not.mp (hstop h)

/-- The word at an index. -/
def word (buf : CStr) (pos : Nat) : CStr := slice buf pos (wordEnd buf pos)

/-- The index of the next word. -/
def nextWord (buf : CStr) (pos : Nat) : Nat :=
  skipBlanks buf (if wordEnd buf pos < buf.length then wordEnd buf pos + 1 else wordEnd buf pos)

/-- The loop of `roff_getname()`, on a word without backslashes. -/
theorem getnameLoop_plain {buf : CStr} {name : Nat} (hnul : NUL ∉ buf)
    (hbs : ∀ j, name ≤ j → j < wordEnd buf name → charAt buf j ≠ '\\')
    (n : Nat) : ∀ k steps, name + k + n = wordEnd buf name → name ≤ buf.length → n < steps →
      getnameLoop name steps ⟨buf, k, name + k⟩ =
        .ok ⟨buf, k + n, if wordEnd buf name < buf.length then wordEnd buf name + 1
          else wordEnd buf name⟩ := by
  induction n with
  | zero =>
    intro k steps hk hname hsteps
    obtain ⟨-, hle, -, hstop⟩ := wordEnd_spec hname
    obtain ⟨m, rfl⟩ := Nat.exists_eq_succ_of_ne_zero hsteps.ne'
    rw [getnameLoop]
    dsimp only
    have hkw : name + k = wordEnd buf name := hk
    rw [hkw, rd_of_le hle, Res.ok_bind, Nat.add_zero]
    by_cases hlt : wordEnd buf name < buf.length
    -- The name ends at a blank.
    · have hblank : charAt buf (wordEnd buf name) = ' ' ∨ charAt buf (wordEnd buf name) = '\t' := by
        simpa [endsWord] using hstop hlt
      rw [if_neg (charAt_ne_nul hnul hlt), if_pos (by simpa using hblank), if_pos hlt]
      rfl
    -- The name ends at the end of the line.
    · rw [if_pos (charAt_of_ge (Nat.le_of_not_lt hlt)), if_neg hlt]
      rfl
  | succ n ih =>
    intro k steps hk hname hsteps
    obtain ⟨-, hle, hin, -⟩ := wordEnd_spec hname
    obtain ⟨m, rfl⟩ := Nat.exists_eq_succ_of_ne_zero (Nat.ne_zero_of_lt hsteps)
    have hlt : name + k < wordEnd buf name := by omega
    have hlen : name + k < buf.length := hlt.trans_le hle
    have hne : charAt buf (name + k) ≠ '\\' := hbs _ (Nat.le_add_right _ _) hlt
    have hword : ¬ (charAt buf (name + k) = ' ' ∨ charAt buf (name + k) = '\t') := by
      simpa [endsWord] using hin (name + k) (Nat.le_add_right _ _) hlt
    rw [getnameLoop]
    dsimp only
    rw [rd_of_le hlen.le, Res.ok_bind, if_neg (charAt_ne_nul hnul hlen),
      if_neg (by simpa using hword), if_pos hne, if_neg (lt_irrefl _),
      Nat.add_assoc, ih (k + 1) m (by omega) hname (Nat.lt_of_succ_lt_succ hsteps)]
    congr 2
    omega

/-- At a word without backslashes, `roff_getname()` finds the word, and the next one. -/
theorem roffGetname_word {buf : CStr} {pos : Nat} (hnul : NUL ∉ buf)
    (hbs : ∀ j, pos ≤ j → j < wordEnd buf pos → charAt buf j ≠ '\\') (hpos : pos ≤ buf.length) :
    roffGetname buf pos = .ok ⟨buf, wordEnd buf pos - pos, nextWord buf pos⟩ := by
  obtain ⟨hge, hle, -, -⟩ := wordEnd_spec hpos
  rw [roffGetname, rd_of_le hpos, Res.ok_bind]
  by_cases hnil : charAt buf pos = NUL
  · have hend : pos = buf.length := eq_length_of_charAt_nul hnul hpos hnil
    have hw : wordEnd buf pos = pos := skipWhile_of_ge _ (Nat.le_of_eq hend.symm)
    rw [if_pos hnil, nextWord, hw, Nat.sub_self, if_neg (by omega), skipBlanks,
      skipWhile_of_ge _ (Nat.le_of_eq hend.symm)]
    rfl
  · have hloop := getnameLoop_plain hnul hbs (wordEnd buf pos - pos) 0 (buf.length + 1)
      (by omega) hpos (by omega)
    rw [Nat.add_zero pos, Nat.zero_add] at hloop
    rw [if_neg hnil, hloop, Res.ok_bind]
    dsimp only
    rw [rd_of_le (by split <;> omega), Res.ok_bind]
    rfl

/-- On a line without backslashes, `roff_getname()` finds a word everywhere. -/
theorem roffGetname_plain {buf : CStr} (hbs : '\\' ∉ buf) (hnul : NUL ∉ buf) {pos : Nat}
    (hpos : pos ≤ buf.length) :
    roffGetname buf pos = .ok ⟨buf, wordEnd buf pos - pos, nextWord buf pos⟩ := by
  refine roffGetname_word hnul (fun j _ hj hc => hbs ?_) hpos
  have hlt : j < buf.length := hj.trans_le (wordEnd_spec hpos).2.1
  rw [← hc, charAt_eq_getElem hlt]
  exact List.getElem_mem hlt

theorem getName_name_word {buf : CStr} {pos cp : Nat} (hpos : pos ≤ buf.length) :
    GetName.name ⟨buf, wordEnd buf pos - pos, cp⟩ pos = word buf pos := by
  have hge : pos ≤ wordEnd buf pos := (wordEnd_spec hpos).1
  rw [GetName.name, word, Nat.add_sub_cancel' hge]

end Mandoc
