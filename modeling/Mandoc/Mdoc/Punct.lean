import Mandoc.Lib.Loop
import Mandoc.Roff.Number

/-!
# Trailing Punctuation

Some mdoc(7) macros do not take the punctuation at the end of their line as arguments. The function
`args_checkpunct()` of `mdoc_argv.c` decides whether the rest of a line is such punctuation. Each
word is copied to the buffer `dbuf` and then classified by the function `mdoc_isdelim()`.

The buffer is shorter than the longest delimiter, the vertical bar that the predefined string `Ba`
expands to. Lines that contain this delimiter are not recognized, and there are no others.
-/

namespace Mandoc

/-! ## §1 Delimiters -/

/-- `enum mdelim` -/
inductive Mdelim where
  | NONE | OPEN | MIDDLE | CLOSE
deriving DecidableEq, Repr

/-- The predefined string `Ba`. -/
def predefBa : CStr := "\\fR|\\fP".toList

/-- `mdoc_isdelim()` -/
def mdocIsdelim : CStr → Mdelim
  | [] => .NONE
  | [c] =>
    if "([".toList.contains c then .OPEN
    else if c = '|' then .MIDDLE
    else if ".,;:?!)]".toList.contains c then .CLOSE
    else .NONE
  | c :: rest =>
    if c ≠ '\\' then .NONE
    else if rest = ".".toList then .CLOSE
    else if rest = "fR|\\fP".toList then .MIDDLE
    else .NONE

/-- Size of the buffer for a delimiter. -/
abbrev DELIMSZ : Nat := 6

/-- `for (j = 0; buf[i] && ' ' != buf[i] && j < DELIMSZ; j++, i++) dbuf[j] = buf[i]`: the bytes
    copied to `dbuf`, and the new value of `i`. The argument counts down the remaining space. -/
def copyDelim (buf : CStr) : Nat → Nat → CStr × Nat
  | 0, i => ([], i)
  | n + 1, i =>
    if charAt buf i = NUL ∨ charAt buf i = ' ' then ([], i)
    else
      let (dbuf, end_) := copyDelim buf n (i + 1)
      (charAt buf i :: dbuf, end_)

/-- An iteration over the remaining words. -/
def punctStep (buf : CStr) (i : Nat) : Res (Loop.Next Nat Bool) :=
  if charAt buf i = NUL then .ok (.done true)
  else
    let (dbuf, i) := copyDelim buf DELIMSZ i
    if dbuf.length = DELIMSZ then .ok (.done false)
    else if mdocIsdelim dbuf = .NONE ∨ mdocIsdelim dbuf = .OPEN then .ok (.done false)
    else .ok (.again (skipBlanks buf i))

/-- `args_checkpunct()` -/
def argsCheckpunct (buf : CStr) (i : Nat) : Res Bool :=
  -- First token must be a close-delimiter.
  let (dbuf, i) := copyDelim buf DELIMSZ i
  if dbuf.length = DELIMSZ then .ok false
  else if mdocIsdelim dbuf ≠ .CLOSE then .ok false
  -- Remaining must NOT be open/none.
  else Loop.run (punctStep buf) .fuel (buf.length + 1) (skipBlanks buf i)

/-! ## §2 Words -/

/-- The words of a line, which are separated by blanks. -/
def blankWords (s : CStr) : List CStr := (s.splitOn ' ').filter (· ≠ [])

section

variable {s : CStr}

@[simp] theorem blankWords_nil : blankWords [] = [] := rfl

theorem blankWords_blank (s : CStr) : blankWords (' ' :: s) = blankWords s := by
  have hsplit : (' ' :: s).splitOn ' ' = [] :: s.splitOn ' ' := by
    rw [List.splitOn_cons_eq_if_modifyHead, if_pos (beq_self_eq_true _)]
  simp [blankWords, hsplit]

theorem blankWords_dropBlanks (s : CStr) : blankWords (s.dropWhile (· = ' ')) = blankWords s := by
  induction s with
  | nil => rfl
  | cons c s ih =>
    by_cases hc : c = ' '
    · subst hc
      rw [List.dropWhile_cons_of_pos (by simp), ih, blankWords_blank]
    · rw [List.dropWhile_cons_of_neg (by simpa using hc)]

/-- The first word, at the beginning of a line. -/
theorem blankWords_word {w rest : CStr} (hw : w ≠ []) (hnot : ' ' ∉ w)
    (hrest : rest.head? = none ∨ rest.head? = some ' ') :
    blankWords (w ++ rest) = w :: blankWords rest := by
  have hsplit : w.splitOn ' ' = [w] := List.splitOn_eq_singleton hnot
  obtain hnil | hblank := hrest
  · rw [List.head?_eq_none_iff.mp hnil, List.append_nil, blankWords, hsplit]
    simp [hw]
  · obtain ⟨rest, rfl⟩ := List.head?_eq_some_iff.mp hblank
    rw [blankWords_blank, blankWords, List.splitOn_append_cons_self, hsplit, List.singleton_append,
      List.filter_cons_of_pos (by simpa using hw)]
    rfl

end

/-! ## §3 Punctuation -/

/-- The classes of delimiters that may follow the first word. -/
def IsPunct (w : CStr) : Prop := mdocIsdelim w = .CLOSE ∨ mdocIsdelim w = .MIDDLE

instance : DecidablePred IsPunct := fun w => by
  unfold IsPunct
  infer_instance

/-- A sequence of blank-separated words: the first one is a closing delimiter, and every further
    one is a closing or middle delimiter. -/
def PunctLine (s : CStr) : Prop :=
  s.head? ≠ some ' ' ∧
    ∃ w ws, blankWords s = w :: ws ∧ mdocIsdelim w = .CLOSE ∧ ∀ v ∈ ws, IsPunct v

/-- The punctuation that the buffer has enough space for. -/
def FitsDelim (w : CStr) : Prop := w.length < DELIMSZ ∧ IsPunct w

instance : DecidablePred FitsDelim := fun w => by
  unfold FitsDelim
  infer_instance

section

variable {buf w : CStr} {i : Nat}

/-- The delimiters: only one of them has more than two bytes. -/
theorem mdocIsdelim_long (h : 2 < w.length) :
    mdocIsdelim w = if w = predefBa then .MIDDLE else .NONE := by
  match w with
  | [] | [_] => simp at h
  | c :: d :: rest =>
    have hba : c :: d :: rest = predefBa ↔ c = '\\' ∧ d :: rest = "fR|\\fP".toList := by
      have hcons : predefBa = '\\' :: "fR|\\fP".toList := by decide
      rw [hcons, List.cons.injEq]
    have hdot : d :: rest ≠ ".".toList := by
      rintro heq
      obtain ⟨-, rfl⟩ := List.cons.inj heq
      simp at h
    unfold mdocIsdelim
    dsimp only
    simp only [hba, if_neg hdot]
    by_cases hc : c = '\\'
    · simp only [hc, ne_eq, not_true_eq_false, if_false, true_and]
    · simp only [hc, ne_eq, not_false_eq_true, if_true, false_and, if_false]

/-- All punctuation other than the vertical bar of `Ba` fits into the buffer. -/
theorem fitsDelim_iff (w : CStr) : FitsDelim w ↔ IsPunct w ∧ w ≠ predefBa := by
  constructor
  · rintro ⟨hlen, hpunct⟩
    refine ⟨hpunct, ?_⟩
    rintro rfl
    exact absurd hlen (by decide)
  · rintro ⟨hpunct, hne⟩
    refine ⟨Nat.lt_of_not_le fun hle => ?_, hpunct⟩
    have hlong := @mdocIsdelim_long w (Nat.lt_of_lt_of_le (by decide) hle)
    rw [if_neg hne] at hlong
    obtain h | h := hpunct <;> exact absurd (hlong.symm.trans h) (by decide)

/-- The bytes of the next word are copied, unless there are too many. -/
theorem copyDelim_eq (hs : NUL ∉ buf) (n i : Nat) :
    copyDelim buf n i = (((buf.drop i).takeWhile (· ≠ ' ')).take n,
      i + (((buf.drop i).takeWhile (· ≠ ' ')).take n).length) := by
  induction n generalizing i with
  | zero => rfl
  | succ n ih =>
    unfold copyDelim
    by_cases hlt : i < buf.length
    · have hnul := charAt_ne_nul hs hlt
      rw [List.drop_eq_getElem_cons hlt, ← charAt_eq_getElem hlt]
      by_cases hblank : charAt buf i = ' '
      · rw [if_pos (.inr hblank), List.takeWhile_cons_of_neg (by simpa using hblank)]
        rfl
      · rw [if_neg (not_or.mpr ⟨hnul, hblank⟩), List.takeWhile_cons_of_pos (by simpa using hblank),
          ih, List.take_succ_cons, List.length_cons]
        simp only [Nat.add_assoc, Nat.add_comm 1]
    · have hge := Nat.le_of_not_lt hlt
      rw [if_pos (.inl (charAt_of_ge hge)), List.drop_eq_nil_of_le hge]
      rfl

/-- The first word of the rest of a line, and where the next one begins. -/
theorem exists_first_word (hlt : i < buf.length) (hhead : (buf.drop i).head? ≠ some ' ') :
    ∃ w, (buf.drop i).takeWhile (· ≠ ' ') = w ∧ w ≠ [] ∧
      blankWords (buf.drop i) = w :: blankWords (buf.drop (skipBlanks buf (i + w.length))) ∧
      (buf.drop (skipBlanks buf (i + w.length))).head? ≠ some ' ' := by
  generalize hw : (buf.drop i).takeWhile (· ≠ ' ') = w
  have hsplit : buf.drop i = w ++ (buf.drop i).dropWhile (· ≠ ' ') := by
    rw [← hw, List.takeWhile_append_dropWhile]
  have hrest : buf.drop (i + w.length) = (buf.drop i).dropWhile (· ≠ ' ') := by
    rw [← List.drop_drop, hsplit, List.drop_left, ← hsplit]
  have hnext : buf.drop (skipBlanks buf (i + w.length)) =
      (buf.drop (i + w.length)).dropWhile (· = ' ') := drop_skipWhile ..
  -- The word is not empty since it does not begin with a blank.
  have hne : w ≠ [] := by
    have hcons := List.drop_eq_getElem_cons hlt
    have hc : buf[i] ≠ ' ' := fun hc => hhead (by rw [hcons, List.head?_cons, hc])
    rw [← hw, hcons, List.takeWhile_cons_of_pos (by simpa using hc)]
    exact List.cons_ne_nil _ _
  refine ⟨w, rfl, hne, ?_, ?_⟩
  · rw [hnext, blankWords_dropBlanks, hrest, ← blankWords_word hne, ← hsplit]
    · rw [← hw]
      exact fun hmem => by simpa using List.mem_takeWhile_imp hmem
    · -- Behind the word is a blank or the end.
      have hstop := List.head?_dropWhile_not (fun c => decide (c ≠ ' ')) (buf.drop i)
      cases hd : ((buf.drop i).dropWhile (· ≠ ' ')).head? with
      | none => exact .inl rfl
      | some c =>
        rw [hd] at hstop
        exact .inr (congrArg some (by simpa using hstop))
  · rw [hnext]
    intro hblank
    have hstop := List.head?_dropWhile_not (fun c => decide (c = ' ')) (buf.drop (i + w.length))
    rw [hblank] at hstop
    simp at hstop

/-- A word that fits into the buffer is copied as a whole. -/
theorem copyDelim_word (hs : NUL ∉ buf) (hw : (buf.drop i).takeWhile (· ≠ ' ') = w) :
    (w.length < DELIMSZ → copyDelim buf DELIMSZ i = (w, i + w.length)) ∧
      (DELIMSZ ≤ w.length → (copyDelim buf DELIMSZ i).1.length = DELIMSZ) := by
  rw [copyDelim_eq hs, hw]
  refine ⟨fun hlt => ?_, fun hle => ?_⟩
  · rw [List.take_of_length_le hlt.le]
  · rw [List.length_take, Nat.min_eq_left hle]

/-- Where a word begins or the line ends, the loop tests all remaining words. -/
theorem punctRun_eq (hs : NUL ∉ buf) {n : Nat} (hn : buf.length < i + n)
    (hhead : (buf.drop i).head? ≠ some ' ') :
    Loop.run (punctStep buf) .fuel (n + 1) i =
      .ok (decide (∀ v ∈ blankWords (buf.drop i), FitsDelim v)) := by
  induction n generalizing i with
  | zero =>
    have hge : buf.length ≤ i := hn.le
    rw [Loop.run_succ, punctStep, if_pos (charAt_of_ge hge), List.drop_eq_nil_of_le hge]
    rfl
  | succ n ih =>
    by_cases hlt : i < buf.length
    · obtain ⟨w, hw, hne, hwords, hhead'⟩ := exists_first_word hlt hhead
      obtain ⟨hshort, hlong⟩ := copyDelim_word hs hw
      have hpos := List.length_pos_iff.mpr hne
      have hle : i + w.length ≤ skipBlanks buf (i + w.length) := le_skipWhile ..
      rw [Loop.run_succ, punctStep, if_neg (charAt_ne_nul hs hlt)]
      obtain hlen | hlen := Nat.lt_or_ge w.length DELIMSZ
      · simp only [hshort hlen, if_neg (Nat.ne_of_lt hlen)]
        have hiff : FitsDelim w ↔ ¬ (mdocIsdelim w = .NONE ∨ mdocIsdelim w = .OPEN) := by
          simp only [FitsDelim, IsPunct, hlen, true_and]
          cases mdocIsdelim w <;> simp
        split
        · next hbad =>
          have hfit : ¬ FitsDelim w := fun hfit => hiff.mp hfit hbad
          simp [hwords, hfit]
        · next hgood =>
          have hfit : FitsDelim w := hiff.mpr hgood
          simp only [Res.ok_bind]
          rw [ih (by omega) hhead', hwords]
          simp [hfit]
      · -- The word is too long.
        have hfit : ¬ FitsDelim w := fun hfit => absurd hfit.1 (Nat.not_lt.mpr hlen)
        simp [hlong hlen, hwords, hfit]
    · have hge := Nat.le_of_not_lt hlt
      rw [Loop.run_succ, punctStep, if_pos (charAt_of_ge hge), List.drop_eq_nil_of_le hge]
      rfl

/-- What the function tests: a closing delimiter is never too long. -/
theorem argsCheckpunct_eq (hs : NUL ∉ buf) (i : Nat) : ∃ b, argsCheckpunct buf i = .ok b ∧
    (b = true ↔ (buf.drop i).head? ≠ some ' ' ∧
      ∃ w ws, blankWords (buf.drop i) = w :: ws ∧ mdocIsdelim w = .CLOSE ∧ ∀ v ∈ ws, FitsDelim v) := by
  -- If there is no word, nothing is copied.
  have hempty : (buf.drop i).takeWhile (· ≠ ' ') = [] → argsCheckpunct buf i = .ok false := by
    intro hnil
    have hcopy : copyDelim buf DELIMSZ i = ([], i) := by
      rw [copyDelim_eq hs, hnil]
      rfl
    simp [argsCheckpunct, hcopy, mdocIsdelim]
  by_cases hlt : i < buf.length
  · by_cases hhead : (buf.drop i).head? = some ' '
    · obtain ⟨rest, hrest⟩ := List.head?_eq_some_iff.mp hhead
      refine ⟨false, hempty (by rw [hrest]; rfl), ?_⟩
      simp only [hhead, ne_eq, not_true_eq_false, false_and, Bool.false_eq_true]
    · obtain ⟨w, hw, hne, hwords, hhead'⟩ := exists_first_word hlt hhead
      obtain ⟨hshort, hlong⟩ := copyDelim_word hs hw
      unfold argsCheckpunct
      obtain hlen | hlen := Nat.lt_or_ge w.length DELIMSZ
      · simp only [hshort hlen, if_neg (Nat.ne_of_lt hlen)]
        split
        · next hopen =>
          refine ⟨false, rfl, ?_⟩
          simp [hwords, hopen]
        · next hclose =>
          have hpos := List.length_pos_iff.mpr hne
          have hle : i + w.length ≤ skipBlanks buf (i + w.length) := le_skipWhile ..
          rw [punctRun_eq hs (by omega) hhead']
          refine ⟨_, rfl, ?_⟩
          simp only [hwords, hhead, decide_eq_true_eq, List.cons.injEq, ne_eq,
            not_false_eq_true, true_and]
          refine ⟨fun hall => ⟨_, _, ⟨rfl, rfl⟩, not_not.mp hclose, hall⟩, ?_⟩
          rintro ⟨w', ws, ⟨rfl, rfl⟩, -, hall⟩
          exact hall
      · have hopen : mdocIsdelim w ≠ .CLOSE := by
          rw [mdocIsdelim_long (Nat.lt_of_lt_of_le (by decide) hlen)]
          split <;> decide
        simp [hlong hlen, hwords, hopen]
  · have hnil := List.drop_eq_nil_of_le (Nat.le_of_not_lt hlt)
    exact ⟨false, hempty (by rw [hnil]; rfl), by simp [hnil]⟩

/-- **Trailing punctuation.** The function always returns. Its result says whether the rest of the
    line is punctuation, if and only if it is not punctuation with the vertical bar of `Ba`. -/
theorem argsCheckpunct_correct_iff {buf : CStr} (hs : NUL ∉ buf) (i : Nat) :
    ∃ b, argsCheckpunct buf i = .ok b ∧
      ((b = true ↔ PunctLine (buf.drop i)) ↔
        ¬ (PunctLine (buf.drop i) ∧ predefBa ∈ blankWords (buf.drop i))) := by
  obtain ⟨b, hb, hiff⟩ := argsCheckpunct_eq hs i
  refine ⟨b, hb, ?_⟩
  rw [hiff]
  constructor
  · rintro hcorrect ⟨hline, hba⟩
    -- The vertical bar would have to fit into the buffer.
    obtain ⟨-, w, ws, hwords, hclose, hall⟩ := hcorrect.mpr hline
    rw [hwords] at hba
    obtain rfl | hmem := List.mem_cons.mp hba
    · exact absurd hclose (by decide)
    · exact ((fitsDelim_iff _).mp (hall _ hmem)).2 rfl
  · rintro hno
    constructor
    · rintro ⟨hhead, w, ws, hwords, hclose, hall⟩
      exact ⟨hhead, w, ws, hwords, hclose, fun v hv => (hall v hv).2⟩
    · intro hline
      have ⟨hhead, w, ws, hwords, hclose, hall⟩ := hline
      refine ⟨hhead, w, ws, hwords, hclose, fun v hv => (fitsDelim_iff v).mpr ⟨hall v hv, ?_⟩⟩
      rintro rfl
      exact hno ⟨hline, by rw [hwords]; exact List.mem_cons_of_mem _ hv⟩

/-- A full stop and a vertical bar. -/
theorem argsCheckpunct_ba_false : argsCheckpunct ". \\fR|\\fP".toList 0 = .ok false ∧
    PunctLine ". \\fR|\\fP".toList := by
  refine ⟨by decide +kernel, by decide, ".".toList, ["\\fR|\\fP".toList], by decide +kernel,
    by decide, fun v hv => ?_⟩
  rw [List.mem_singleton.mp hv]
  decide

/-- Two full stops. -/
theorem argsCheckpunct_correct_dots :
    argsCheckpunct ". .".toList 0 = .ok true ∧ PunctLine ". .".toList := by
  obtain ⟨b, hb, hiff⟩ := argsCheckpunct_correct_iff (show NUL ∉ ". .".toList by decide) 0
  have htrue : argsCheckpunct ". .".toList 0 = .ok true := by decide +kernel
  obtain rfl := Except.ok.inj (hb.symm.trans htrue)
  have hba : predefBa ∉ blankWords (". .".toList.drop 0) := by decide +kernel
  exact ⟨htrue, (hiff.mpr fun h => hba h.2).mp rfl⟩

end

end Mandoc
