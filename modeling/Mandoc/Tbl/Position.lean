import Mandoc.Roff.PlainLines
import Mandoc.Roff.Prefix
import Mandoc.Tbl.DataLine

/-!
# The position of a line

A line of a table can be read from an index that is not zero, for example behind the request `.nop`.  The parsers of the options, of the layout, and of text blocks do not look at what is
before that index.  The parser of data does: it looks for the lines that consist of one special
character at the beginning of the input line.

- `tblRead_append_iff` says when the line is treated like the same line without a prefix.
-/

namespace Mandoc

/-- A result with an index, shifted. -/
def shiftPos {α : Type} (k : Nat) (r : α × Nat) : α × Nat := (r.1, k + r.2)

section

variable {l s : CStr}

/-! ## §1 Options -/

theorem argLength_append (l s : CStr) (pos : Nat) :
    argLength (l ++ s) (l.length + pos) = argLength s pos := by
  unfold argLength
  rw [drop_append_length, List.length_append]
  simp only [Nat.add_assoc, Nat.add_lt_add_iff_left]

theorem optArg_append (l s : CStr) (opts : TblOpts) (pos : Nat) (key : OptKey) :
    optArg opts (l ++ s) (l.length + pos) key =
      (optArg opts s pos key).map (shiftPos l.length) := by
  unfold optArg
  dsimp only
  rw [skipWhile_append, charAt_append, Nat.add_assoc, ← apply_ite (l.length + ·), argLength_append,
    Res.map_bind]
  refine bind_congr fun len => ?_
  simp only [Nat.add_assoc, charAt_append, ← apply_ite (l.length + ·)]
  rfl

theorem optArg_progress (opts : TblOpts) (p : CStr) (pos : Nat) (key : OptKey) :
    Ensures (optArg opts p pos key) fun r => pos ≤ r.2 := by
  have hskip := le_skipWhile isBlank p pos
  unfold optArg
  apply Ensures.call
  intro len
  rw [Ensures.pure_iff]
  dsimp only
  split_ifs <;> omega

theorem optionLoop_append (l s : CStr) (n : Nat) {n' : Nat} (opts : TblOpts) (pos : Nat)
    (hn : s.length - pos < n) (hn' : s.length - pos < n') :
    optionLoop (l ++ s) n' opts (l.length + pos) =
      (optionLoop s n opts pos).map (shiftPos l.length) := by
  -- By induction on the number of steps; only the part behind the prefix is read.
  induction n generalizing n' opts pos with
  | zero => exact absurd hn (Nat.not_lt_zero _)
  | succ n ih =>
    obtain ⟨n', rfl⟩ := Nat.exists_eq_succ_of_ne_zero (Nat.ne_of_gt (Nat.zero_lt_of_lt hn'))
    have hskip := le_skipWhile (fun c => isBlank c || decide (c = ',')) s pos
    rw [optionLoop, optionLoop]
    dsimp only
    rw [skipWhile_append]
    generalize skipWhile (fun c => isBlank c || decide (c = ',')) s pos = i at hskip ⊢
    rw [charAt_append, drop_append_length, Nat.add_assoc, Nat.add_assoc, slice_isPrefix,
      List.length_append]
    split
    · rfl
    split
    · simp only [Nat.add_lt_add_iff_left]
      split
      · exact ih _ _ (by omega) (by omega)
      · rfl
    · next hlen =>
      have hle := (List.takeWhile_prefix (l := s.drop i) isalpha).length_le
      rw [List.length_drop] at hle
      generalize ((s.drop i).takeWhile isalpha).length = len at hlen hle ⊢
      split
      · next key _ =>
        -- An option that is known may have an argument.
        rw [optArg_append, Res.map_bind]
        cases harg : optArg opts s (i + len) key.2 with
        | error e => rfl
        | ok r =>
          have hprog := (optArg_progress opts s (i + len) key.2).of_eq_ok harg
          rw [Res.map_ok, Res.ok_bind, Res.ok_bind]
          exact ih _ _ (by omega) (by omega)
      · split
        · exact ih _ _ (by omega) (by omega)
        · exact ih _ _ (by omega) (by omega)

theorem tblOption_append (l s : CStr) (tbl : Tbl) (pos : Nat) :
    tblOption tbl (l ++ s) (l.length + pos) =
      (tblOption tbl s pos).map (shiftPos l.length) := by
  unfold tblOption
  rw [optionLoop_append l s (s.length + 1) tbl.opts pos (by omega)
    (by rw [List.length_append]; omega), Res.map_bind]
  cases optionLoop s (s.length + 1) tbl.opts pos with
  | error e => rfl
  | ok r => rfl

/-! ## §2 Modifiers -/

/-- The index of the parser of modifiers, shifted. -/
def ModState.shift (k : Nat) (st : ModState) : ModState := { st with pos := k + st.pos }

section

variable {X : Type} (env : Env X)

theorem modWidth_append (l s : CStr) (st : ModState) :
    modWidth env (l ++ s) (st.shift l.length) =
      (modWidth env s st).map (ModState.shift l.length) := by
  obtain ⟨cell, opts, pos⟩ := st
  unfold modWidth ModState.shift
  dsimp only
  rw [charAt_append]
  split
  · rw [Nat.add_assoc, roffEvalnum_append, Res.map_bind]
    cases roffEvalnum env s false (pos + 1) 'n' true with
    | error e => rfl
    | ok n =>
      obtain ⟨ok, q, val⟩ := n
      rw [Res.map_ok, Res.ok_bind, Res.ok_bind, Num.shift]
      dsimp only
      rw [charAt_append, Nat.add_assoc]
      split
      · rfl
      · rfl
  · rw [skipWhile_append, slice_isPrefix]
    rfl

theorem modFont_append (l s : CStr) (st : ModState) :
    modFont (l ++ s) (st.shift l.length) = (modFont s st).shift l.length := by
  obtain ⟨cell, opts, pos⟩ := st
  unfold modFont ModState.shift
  dsimp only
  rw [skipWhile_append]
  simp only [Nat.add_assoc, charAt_append, slice_isPrefix]
  generalize skipWhile isBlank s pos = q
  generalize (if charAt s q = NUL then 0 else 1) = isz
  generalize (if strchr " \t." (charAt s (q + isz)) = true then isz else isz + 1) = isz
  split
  · rfl
  split
  · rfl
  · rfl

theorem modVert_shift (k : Nat) (firstRow : Bool) (st : ModState) :
    modVert firstRow (st.shift k) = (modVert firstRow st).shift k := by
  obtain ⟨cell, opts, pos⟩ := st
  unfold modVert ModState.shift
  dsimp only
  split
  · rfl
  · rfl

theorem modSkip_append (l s : CStr) (st : ModState) :
    modSkip (l ++ s) (st.shift l.length) = (modSkip s st).shift l.length := by
  obtain ⟨cell, opts, pos⟩ := st
  unfold modSkip ModState.shift
  dsimp only
  rw [charAt_append, Nat.add_assoc, ← apply_ite (l.length + ·), skipWhile_append]

theorem modifier_append (l s : CStr) (firstRow : Bool) (c : Char) (st : ModState) :
    modifier env (l ++ s) firstRow c (st.shift l.length) =
      (modifier env s firstRow c st).map (ModState.shift l.length) := by
  unfold modifier
  split
  case h_4 => exact congrArg Except.ok (modFont_append l s st)
  case h_6 => exact congrArg Except.ok (modSkip_append l s st)
  case h_7 => exact congrArg Except.ok (modSkip_append l s st)
  case h_10 => exact modWidth_append env l s st
  case h_13 => exact congrArg Except.ok (modVert_shift l.length firstRow st)
  all_goals rfl

theorem modFont_progress (p : CStr) (st : ModState) : st.pos ≤ (modFont p st).pos := by
  have hskip := le_skipWhile isBlank p st.pos
  unfold modFont
  dsimp only
  generalize skipWhile isBlank p st.pos = q at hskip ⊢
  generalize (if charAt p q = NUL then 0 else 1) = isz
  generalize (if strchr " \t." (charAt p (q + isz)) = true then isz else isz + 1) = isz
  have hle := hskip.trans (Nat.le_add_right q isz)
  split
  · exact hskip
  split
  · exact hle
  · exact hle

theorem modSkip_progress (p : CStr) (st : ModState) : st.pos ≤ (modSkip p st).pos := by
  refine Nat.le_trans ?_ (le_skipWhile _ _ _)
  split
  · exact Nat.le_succ _
  · exact Nat.le_refl _

/-- A modifier does not go backwards. -/
theorem modifier_progress (p : CStr) (firstRow : Bool) (c : Char) (st : ModState) :
    Ensures (modifier env p firstRow c st) fun st' => st.pos ≤ st'.pos := by
  unfold modifier
  split
  case h_4 => exact Ensures.pure_iff.mpr (modFont_progress p st)
  case h_10 =>
    unfold modWidth
    apply Ensures.ite
    · intro _
      apply Ensures.bind ((evalnum_progress env _).1 _ _ _ _)
      intro n hn
      have hle : st.pos ≤ n.pos := Nat.le_of_succ_le hn
      apply Ensures.ite
      · exact fun _ => Ensures.pure_iff.mpr (Nat.le_succ_of_le hle)
      · exact fun _ => Ensures.pure_iff.mpr hle
    · exact fun _ => Ensures.pure_iff.mpr (le_skipWhile _ _ _)
  case h_13 =>
    rw [Ensures.pure_iff, modVert]
    split
    · exact Nat.le_refl _
    · exact Nat.le_refl _
  case h_6 => exact Ensures.pure_iff.mpr (modSkip_progress p st)
  case h_7 => exact Ensures.pure_iff.mpr (modSkip_progress p st)
  all_goals exact Ensures.pure_iff.mpr (Nat.le_refl _)

/-- The loop over the modifiers. -/
theorem mods_append (l s : CStr) (firstRow : Bool) (n : Nat) {n' : Nat} (st : ModState)
    (hn : s.length - st.pos < n) (hn' : s.length - st.pos < n') :
    mods env (l ++ s) firstRow n' (st.shift l.length) =
      (mods env s firstRow n st).map (ModState.shift l.length) := by
  induction n generalizing n' st with
  | zero => exact absurd hn (Nat.not_lt_zero _)
  | succ n ih =>
    obtain ⟨n', rfl⟩ := Nat.exists_eq_succ_of_ne_zero (Nat.ne_of_gt (Nat.zero_lt_of_lt hn'))
    obtain ⟨cell, opts, pos⟩ := st
    have hskip := le_skipWhile isBlank s pos
    dsimp only at hn hn'
    rw [mods, mods]
    unfold ModState.shift
    dsimp only
    rw [skipWhile_append, charAt_append, Nat.add_assoc]
    generalize skipWhile isBlank s pos = q at hskip ⊢
    split
    · rfl
    next hend =>
    -- The list of modifiers is not at the end of the line.
    have hlt : q < s.length := by
      refine lt_length_of_charAt_ne_nul fun hnul => hend ?_
      rw [hnul]
      rfl
    split
    · have hparen := le_skipWhile (fun c => decide (c ≠ ')')) s (q + 1)
      rw [skipWhile_append, charAt_append, Nat.add_assoc]
      split
      · exact ih ⟨cell, opts, _⟩ (by dsimp only; omega) (by dsimp only; omega)
      · rfl
    split
    · next hdigit =>
      have hdigits : q < skipWhile isdigit s q := by
        rw [skipWhile_step isdigit hlt, if_pos hdigit]
        exact le_skipWhile isdigit s (q + 1)
      rw [skipWhile_append, slice_isPrefix]
      exact ih ⟨_, opts, skipWhile isdigit s q⟩ (by dsimp only; omega) (by dsimp only; omega)
    · have hmodifier := modifier_append env l s firstRow (tolower (charAt s q)) ⟨cell, opts, q + 1⟩
      unfold ModState.shift at hmodifier
      dsimp only at hmodifier
      rw [hmodifier, Res.map_bind]
      cases hst : modifier env s firstRow (tolower (charAt s q)) ⟨cell, opts, q + 1⟩ with
      | error e => rfl
      | ok st' =>
        have hprog := (modifier_progress env s firstRow _ _).of_eq_ok hst
        dsimp only at hprog
        rw [Res.map_ok, Res.ok_bind, Res.ok_bind]
        exact ih st' (by omega) (by omega)

theorem mods_append_length (l s : CStr) (firstRow : Bool) (cell : TblCell) (opts : OptBits)
    (pos : Nat) :
    mods env (l ++ s) firstRow ((l ++ s).length + 1) ⟨cell, opts, l.length + pos⟩ =
      (mods env s firstRow (s.length + 1) ⟨cell, opts, pos⟩).map (ModState.shift l.length) := by
  have hlen : (l ++ s).length = l.length + s.length := List.length_append
  exact mods_append env l s firstRow _ ⟨cell, opts, pos⟩ (by dsimp only; omega)
    (by dsimp only; omega)

/-- The loop does not go backwards. -/
theorem mods_progress (p : CStr) (firstRow : Bool) (n : Nat) (st : ModState) :
    Ensures (mods env p firstRow n st) fun st' => st.pos ≤ st'.pos := by
  induction n generalizing st with
  | zero => exact Ensures.error_iff.mpr trivial
  | succ n ih =>
    have hskip := le_skipWhile isBlank p st.pos
    rw [mods]
    dsimp only
    apply Ensures.ite
    · exact fun _ => Ensures.pure_iff.mpr hskip
    intro _
    apply Ensures.ite
    · intro _
      have hparen := le_skipWhile (fun c => decide (c ≠ ')')) p (skipWhile isBlank p st.pos + 1)
      apply Ensures.ite
      · refine fun _ => (ih _).mono fun st' h => ?_
        dsimp only at h
        omega
      · intro _
        rw [Ensures.pure_iff]
        dsimp only
        omega
    intro _
    apply Ensures.ite
    · refine fun _ => (ih _).mono fun st' h => ?_
      exact (hskip.trans (le_skipWhile _ _ _)).trans h
    · intro _
      apply Ensures.bind (modifier_progress env p firstRow _ _)
      intro st1 h1
      refine (ih st1).mono fun st' h => ?_
      dsimp only at h1
      omega

/-! ## §3 Layout -/

theorem leadingLines_append (l s : CStr) (n : Nat) {n' : Nat} (opts : OptBits) (vert : Nat) {pos : Nat}
    (hn : s.length - pos < n) (hn' : s.length - pos < n') :
    leadingLines (l ++ s) n' opts vert (l.length + pos) =
      ((leadingLines s n opts vert pos).1, shiftPos l.length (leadingLines s n opts vert pos).2) := by
  induction n generalizing n' opts vert pos with
  | zero => exact absurd hn (Nat.not_lt_zero _)
  | succ n ih =>
    obtain ⟨n', rfl⟩ := Nat.exists_eq_succ_of_ne_zero (Nat.ne_of_gt (Nat.zero_lt_of_lt hn'))
    rw [leadingLines, leadingLines, charAt_append, Nat.add_assoc]
    have hlt : charAt s pos ≠ NUL → pos < s.length := lt_length_of_charAt_ne_nul
    split
    · next hblank =>
      have hpos := hlt fun h => by rw [h] at hblank; cases hblank
      exact ih _ _ (by omega) (by omega)
    split
    · next hbar =>
      have hpos := hlt (by rw [hbar]; decide)
      split
      · exact ih _ _ (by omega) (by omega)
      · exact ih _ _ (by omega) (by omega)
    · rfl

/-- Vertical lines and blanks are read if there are any. -/
theorem leadingLines_progress (p : CStr) (n : Nat) (opts : OptBits) (vert pos : Nat) :
    pos ≤ (leadingLines p n opts vert pos).2.2 ∧
      (0 < n → charAt p pos = '|' → pos < (leadingLines p n opts vert pos).2.2) ∧
      (isBlank (charAt p pos) = false → charAt p pos ≠ '|' →
        (leadingLines p n opts vert pos).2.2 = pos) := by
  induction n generalizing opts vert pos with
  | zero => exact ⟨Nat.le_refl _, fun h => absurd h (Nat.lt_irrefl _), fun _ _ => rfl⟩
  | succ n ih =>
    rw [leadingLines]
    split
    · next hblank =>
      have hle := (ih opts vert (pos + 1)).1
      refine ⟨Nat.le_of_succ_le hle, fun _ _ => hle, fun h => ?_⟩
      rw [hblank] at h
      cases h
    split
    · next hbar =>
      have hle : ∀ opts vert, pos + 1 ≤ (leadingLines p n opts vert (pos + 1)).2.2 :=
        fun opts vert => (ih opts vert (pos + 1)).1
      split
      · exact ⟨Nat.le_of_succ_le (hle _ _), fun _ _ => hle _ _, fun _ h => absurd hbar h⟩
      · exact ⟨Nat.le_of_succ_le (hle _ _), fun _ _ => hle _ _, fun _ h => absurd hbar h⟩
    · next hbar => exact ⟨Nat.le_refl _, fun _ h => absurd h hbar, fun _ _ => rfl⟩

theorem nextKey_append (l s : CStr) (n : Nat) {n' pos : Nat} (hn : s.length - pos < n)
    (hn' : s.length - pos < n') :
    nextKey (l ++ s) n' (l.length + pos) = shiftPos l.length (nextKey s n pos) := by
  induction n generalizing n' pos with
  | zero => exact absurd hn (Nat.not_lt_zero _)
  | succ n ih =>
    obtain ⟨n', rfl⟩ := Nat.exists_eq_succ_of_ne_zero (Nat.ne_of_gt (Nat.zero_lt_of_lt hn'))
    have hskip := le_skipWhile isBlank s pos
    rw [nextKey, nextKey, skipWhile_append, charAt_append, Nat.add_assoc]
    generalize skipWhile isBlank s pos = q at hskip ⊢
    split
    · rfl
    next hend =>
    have hlt : q < s.length := by
      refine lt_length_of_charAt_ne_nul fun hnul => hend ?_
      rw [hnul]
      rfl
    split
    · exact ih (by omega) (by omega)
    · rfl

/-- At a byte that does not end the layout, something is read. -/
theorem nextKey_progress (p : CStr) (n : Nat) (pos : Nat) :
    pos ≤ (nextKey p n pos).2 ∧
      (0 < n → charAt p pos ≠ '.' → charAt p pos ≠ NUL → pos < (nextKey p n pos).2) := by
  induction n generalizing pos with
  | zero => exact ⟨Nat.le_refl _, fun h => absurd h (Nat.lt_irrefl _)⟩
  | succ n ih =>
    have hskip := le_skipWhile isBlank p pos
    rw [nextKey]
    split
    · next hend =>
      refine ⟨hskip, fun _ hdot hnul => Nat.lt_of_le_of_ne hskip fun heq => ?_⟩
      dsimp only at heq
      rw [← heq] at hend
      simp [hdot, hnul] at hend
    split
    · have hle := (ih (skipWhile isBlank p pos + 1)).1
      exact ⟨by omega, fun _ _ _ => by omega⟩
    · exact ⟨by dsimp only; omega, fun _ _ _ => by dsimp only; omega⟩

theorem cell_append (l s : CStr) (tbl : Tbl) (irow pos : Nat) :
    cell env (l ++ s) tbl irow (l.length + pos) =
      (cell env s tbl irow pos).map (shiftPos l.length) := by
  have hlen : (l ++ s).length = l.length + s.length := List.length_append
  unfold cell
  cases tbl.rows[irow]? with
  | none => rfl
  | some rp =>
    dsimp only
    rw [leadingLines_append l s (s.length + 1) _ _ (by omega) (by omega)]
    generalize leadingLines s (s.length + 1) tbl.opts.opts rp.vert pos = lines
    obtain ⟨opts, vert, pos⟩ := lines
    dsimp only [shiftPos]
    rw [nextKey_append l s (s.length + 1) (by omega) (by omega)]
    generalize nextKey s (s.length + 1) pos = key
    obtain ⟨c, pos⟩ := key
    dsimp only [shiftPos]
    cases c with
    | none => rfl
    | some c =>
      dsimp only
      rw [Res.map_bind]
      rw [mods_append_length, Res.bind_map]
      rfl

/-- At a byte that belongs to a layout cell, something is read. -/
theorem cell_progress (p : CStr) (tbl : Tbl) (irow : Nat) {pos : Nat}
    (hblank : isBlank (charAt p pos) = false) (hdot : charAt p pos ≠ '.') (hnul : charAt p pos ≠ NUL) :
    Ensures (cell env p tbl irow pos) fun r => pos < r.2 := by
  unfold cell
  cases tbl.rows[irow]? with
  | none => exact Ensures.error_iff.mpr trivial
  | some rp =>
    dsimp only
    obtain ⟨hle, hbar, hsame⟩ := leadingLines_progress p (p.length + 1) tbl.opts.opts rp.vert pos
    generalize leadingLines p (p.length + 1) tbl.opts.opts rp.vert pos = lines at hle hbar hsame ⊢
    obtain ⟨opts, vert, q⟩ := lines
    obtain ⟨hle', hkey⟩ := nextKey_progress p (p.length + 1) q
    have hlt : pos < (nextKey p (p.length + 1) q).2 := by
      by_cases hc : charAt p pos = '|'
      · exact Nat.lt_of_lt_of_le (hbar (Nat.succ_pos _) hc) hle'
      · have heq : q = pos := hsame hblank hc
        rw [heq] at hkey ⊢
        exact hkey (Nat.succ_pos _) hdot hnul
    generalize nextKey p (p.length + 1) q = key at hlt ⊢
    obtain ⟨c, q'⟩ := key
    cases c with
    | none => exact Ensures.pure_iff.mpr hlt
    | some c =>
      apply Ensures.bind (mods_progress env p _ _ _)
      intro st hst
      exact Ensures.pure_iff.mpr (Nat.lt_of_lt_of_le hlt hst)

/-- Behind skipped blanks, there is no blank. -/
theorem isBlank_skipWhile (p : CStr) (pos : Nat) :
    isBlank (charAt p (skipWhile isBlank p pos)) = false := by
  by_cases hlt : skipWhile isBlank p pos < p.length
  · have hpos : pos ≤ p.length := (le_skipWhile isBlank p pos).trans hlt.le
    exact (skipWhile_spec isBlank hpos).2.2.2 hlt
  · rw [charAt_of_ge (Nat.le_of_not_lt hlt)]
    rfl

theorem layoutLoop_append (l s : CStr) (n : Nat) {n' : Nat} (tbl : Tbl) (rp : Option Nat) {pos : Nat}
    (hn : s.length - pos < n) (hn' : s.length - pos < n') :
    layoutLoop env (l ++ s) n' tbl rp (l.length + pos) = layoutLoop env s n tbl rp pos := by
  -- By induction on the number of steps; only the part behind the prefix is read.
  induction n generalizing n' tbl rp pos with
  | zero => exact absurd hn (Nat.not_lt_zero _)
  | succ n ih =>
    obtain ⟨n', rfl⟩ := Nat.exists_eq_succ_of_ne_zero (Nat.ne_of_gt (Nat.zero_lt_of_lt hn'))
    have hskip := le_skipWhile isBlank s pos
    have hblank := isBlank_skipWhile s pos
    unfold layoutLoop
    dsimp only
    rw [skipWhile_append, charAt_append, Nat.add_assoc]
    generalize skipWhile isBlank s pos = q at hskip hblank ⊢
    have hlt : charAt s q ≠ NUL → q < s.length := lt_length_of_charAt_ne_nul
    split
    · next hcomma =>
      have hq := hlt (by rw [hcomma]; decide)
      exact ih _ _ (by omega) (by omega)
    split
    · rfl
    next hnul =>
    have hq := hlt hnul
    split
    · rfl
    next hdot =>
    -- A cell moves the position, so there are steps left for the rest.
    have hcell : ∀ (tbl : Tbl) (irow : Nat),
        (cell env (l ++ s) tbl irow (l.length + q) >>= fun r =>
          layoutLoop env (l ++ s) n' r.1 (some irow) r.2) =
        cell env s tbl irow q >>= fun r => layoutLoop env s n r.1 (some irow) r.2 := by
      intro tbl irow
      rw [cell_append, Res.bind_map]
      cases hr : cell env s tbl irow q with
      | error e => rfl
      | ok r =>
        have hprog := (cell_progress env s tbl irow hblank hdot hnul).of_eq_ok hr
        rw [Res.ok_bind, Res.ok_bind]
        exact ih _ _ (by omega) (by omega)
    cases rp with
    | none => exact hcell _ _
    | some irow => exact hcell _ _

theorem tblLayout_append (l s : CStr) (tbl : Tbl) (pos : Nat) :
    tblLayout env (l ++ s) tbl (l.length + pos) = tblLayout env s tbl pos := by
  have hlen : (l ++ s).length = l.length + s.length := List.length_append
  exact layoutLoop_append env l s _ tbl none (by omega) (by omega)

end

/-! ## §4 Data -/

theorem cellEnd_append (hs : NUL ∉ s) (hl : NUL ∉ l) (tab : Char) (n : Nat) {n' i : Nat}
    (hn : s.length - i < n) (hn' : s.length - i < n') :
    cellEnd (l ++ s) tab n' (l.length + i) = (cellEnd s tab n i).map (l.length + ·) := by
  induction n generalizing n' i with
  | zero => exact absurd hn (Nat.not_lt_zero _)
  | succ n ih =>
    obtain ⟨n', rfl⟩ := Nat.exists_eq_succ_of_ne_zero (Nat.ne_of_gt (Nat.zero_lt_of_lt hn'))
    rw [cellEnd_succ, cellEnd_succ, charAt_append, Nat.add_assoc]
    split
    · rfl
    next hstop =>
    have hlt := lt_length_of_charAt_ne_nul (not_or.mp hstop).1
    split
    · next hc =>
      rw [mandocEscape_append hs hl, Res.bind_map, Res.map_bind]
      cases hesc : mandocEscape s i with
      | error e => rfl
      | ok esc =>
        have hend := lt_rend hs hc hesc
        rw [Res.ok_bind, Res.ok_bind]
        exact ih (by omega) (by omega)
    · exact ih (by omega) (by omega)

theorem trailing_le (p : CStr) (i j : Nat) :
    ((slice p i j).reverse.takeWhile (· = ' ')).length ≤ j := by
  refine (List.takeWhile_prefix _).length_le.trans ?_
  rw [List.length_reverse, slice, List.length_take]
  omega

theorem trimField_append (l s : CStr) (opts : TblOpts) (i j : Nat) :
    trimField opts (l ++ s) (l.length + i) (l.length + j) =
      (l.length + (trimField opts s i j).1, l.length + (trimField opts s i j).2) := by
  unfold trimField
  split
  · dsimp only
    rw [skipWhile_append, slice_isPrefix, Nat.add_sub_assoc (trailing_le s _ _)]
  · rfl

theorem copyField_append (l s : CStr) (i j : Nat) :
    copyField (l ++ s) (l.length + i) (l.length + j) = copyField s i j := by
  unfold copyField
  rw [slice_isPrefix, List.drop_length_add_append]
  simp only [Nat.add_lt_add_iff_left]

theorem fillDat_append (l s : CStr) (tbl : Tbl) (dp : TblSpan) (prev : List TblSpan) (dat : TblDat)
    (i j pos : Nat) :
    fillDat (l ++ s) tbl dp prev dat (l.length + i) (l.length + j) (l.length + pos) =
      (fillDat s tbl dp prev dat i j pos).map (shiftPos l.length) := by
  unfold fillDat
  rw [slice_isPrefix, copyField_append, charAt_append, Nat.add_assoc, ← apply_ite (l.length + ·)]
  split
  · rfl
  · rfl

theorem addDat_append (l s : CStr) (tbl : Tbl) (dp : TblSpan) (prev : List TblSpan)
    (cells : List TblCell) (icell : Nat) (cp : TblCell) (i j : Nat) :
    addDat (l ++ s) tbl dp prev cells icell cp (l.length + i) (l.length + j) =
      (addDat s tbl dp prev cells icell cp i j).map (shiftPos l.length) := by
  rw [addDat_eq, addDat_eq, Res.map_bind, slice_isPrefix, trimField_append]
  refine bind_congr fun prev => ?_
  exact fillDat_append ..

theorem getdata_append (hs : NUL ∉ s) (hl : NUL ∉ l) (tbl : Tbl) (i : Nat) :
    getdata (l ++ s) tbl (l.length + i) = (getdata s tbl i).map (shiftPos l.length) := by
  have hlen : (l ++ s).length = l.length + s.length := List.length_append
  unfold getdata
  cases tbl.spans with
  | nil => rfl
  | cons dp prev =>
    dsimp only
    rw [cellEnd_append hs hl tbl.opts.tab (s.length + 1) (by omega) (by omega), Res.bind_map,
      Res.map_bind]
    refine bind_congr fun j => ?_
    cases tbl.rows[dp.layout]? with
    | none => rfl
    | some row =>
      dsimp only
      split
      · exact addDat_append ..
      · cases row.cells.getLast? with
        | none => rfl
        | some last =>
          dsimp only
          split
          · exact addDat_append ..
          · rw [hlen]
            rfl

/-- A field that has been read is not empty, or there is a separator behind it. -/
theorem addDat_progress (p : CStr) (tbl : Tbl) (dp : TblSpan) (prev : List TblSpan)
    (cells : List TblCell) (icell : Nat) (cp : TblCell) {i j : Nat} (hij : i ≤ j)
    (hnul : charAt p i ≠ NUL) :
    Ensures (addDat p tbl dp prev cells icell cp i j) fun r => i < r.2 := by
  rw [addDat_eq]
  apply Ensures.call
  intro prev'
  unfold fillDat
  apply Ensures.ite
  · -- The beginning of a text block has got two bytes.
    intro htext
    have hlen := congrArg List.length htext
    rw [slice, List.length_take] at hlen
    have hstart : i ≤ (trimField tbl.opts p i j).1 := by
      unfold trimField
      split
      · exact le_skipWhile _ _ _
      · exact Nat.le_refl _
    have hend : (trimField tbl.opts p i j).2 ≤ j := by
      unfold trimField
      split
      · exact Nat.sub_le _ _
      · exact Nat.le_refl _
    rw [Ensures.ok_iff]
    simp only [List.length_cons, List.length_nil] at hlen
    omega
  · intro _
    rw [Ensures.ok_iff]
    dsimp only
    split
    · next hend =>
      refine Nat.lt_of_le_of_ne hij fun heq => hnul ?_
      rw [heq]
      exact hend
    · omega

theorem getdata_progress (hs : NUL ∉ s) (tbl : Tbl) {i : Nat} (hnul : charAt s i ≠ NUL) :
    Ensures (getdata s tbl i) fun r => i < r.2 := by
  unfold getdata
  cases tbl.spans with
  | nil => exact Ensures.error_iff.mpr trivial
  | cons dp prev =>
    refine Ensures.call_eq fun j hj => ?_
    have hij := le_cellEnd hs hj
    cases tbl.rows[dp.layout]? with
    | none => exact Ensures.error_iff.mpr trivial
    | some row =>
      dsimp only
      split
      · exact addDat_progress s _ _ _ _ _ _ hij hnul
      · cases row.cells.getLast? with
        | none => exact Ensures.error_iff.mpr trivial
        | some last =>
          apply Ensures.ite
          · exact fun _ => addDat_progress s _ _ _ _ _ _ hij hnul
          · exact fun _ => Ensures.pure_iff.mpr (lt_length_of_charAt_ne_nul hnul)

theorem dataLoop_append (hs : NUL ∉ s) (hl : NUL ∉ l) (n : Nat) {n' : Nat} (tbl : Tbl) {i : Nat}
    (hn : s.length - i < n) (hn' : s.length - i < n') :
    dataLoop (l ++ s) n' tbl (l.length + i) = dataLoop s n tbl i := by
  induction n generalizing n' tbl i with
  | zero => exact absurd hn (Nat.not_lt_zero _)
  | succ n ih =>
    obtain ⟨n', rfl⟩ := Nat.exists_eq_succ_of_ne_zero (Nat.ne_of_gt (Nat.zero_lt_of_lt hn'))
    rw [dataLoop, dataLoop, charAt_append]
    split
    · rfl
    next hnul =>
    have hlt := lt_length_of_charAt_ne_nul hnul
    rw [getdata_append hs hl, Res.bind_map]
    cases hr : getdata s tbl i with
    | error e => rfl
    | ok r =>
      have hprog := (getdata_progress hs tbl hnul).of_eq_ok hr
      rw [Res.ok_bind, Res.ok_bind]
      exact ih _ (by omega) (by omega)

theorem tblCdata_append (hs : NUL ∉ s) (hl : NUL ∉ l) (tbl : Tbl) (pos : Nat) :
    tblCdata (l ++ s) tbl (l.length + pos) = tblCdata s tbl pos := by
  have hlen : (l ++ s).length = l.length + s.length := List.length_append
  unfold tblCdata
  cases tbl.spans with
  | nil => rfl
  | cons dp prev =>
    dsimp only
    rw [drop_append_length, charAt_append, Nat.add_assoc, charAt_append, Nat.add_assoc,
      skipWhile_append, ← apply_ite (l.length + ·), charAt_append, drop_append_length, Nat.add_assoc,
      dataLoop_append hs hl (s.length + 1) _ (by omega) (by omega)]

/-- A data line that is not a special line, neither with the prefix nor without it. -/
theorem tblData_append (hs : NUL ∉ s) (hl : NUL ∉ l) {tbl : Tbl} (hinv : tbl.Inv)
    (hpart : tbl.part ≠ .LAYOUT) (hcursor : tbl.cursor < tbl.rows.length)
    (hls : ¬ SpecialLine (l ++ s)) (hp : ¬ SpecialLine s) (pos : Nat) :
    tblData (l ++ s) tbl (l.length + pos) = tblData s tbl pos := by
  have hlen : (l ++ s).length = l.length + s.length := List.length_append
  rw [tblData_eq hinv hpart hcursor hls, tblData_eq hinv hpart hcursor hp]
  exact dataLoop_append hs hl _ _ (by omega) (by omega)

/-! ## §5 Special lines -/

/-- The texts of the special lines. -/
def IsSpecial (text : CStr) : Prop := text = ['.'] ∨ text = ['_'] ∨ text = ['=']

/-- The lines that are mistaken: a prefix in front of the text of a special line, or a prefix that
    looks like a special line in front of an empty text. -/
def Mistaken (pre text : CStr) : Prop :=
  (pre ≠ [] ∧ IsSpecial text) ∨ (text = [] ∧ IsSpecial pre)

theorem not_isSpecial_nil : ¬ IsSpecial [] := by
  unfold IsSpecial
  decide

theorem specialLine_iff {p : CStr} (hp : NUL ∉ p) : SpecialLine p ↔ IsSpecial p := by
  unfold SpecialLine IsSpecial
  cases p with
  | nil => decide
  | cons c p =>
    cases p with
    | nil => simp [charAt]
    | cons d p =>
      have hd : d ≠ NUL := fun h => hp (h ▸ List.mem_cons_of_mem _ List.mem_cons_self)
      simp [charAt, hd]

/-- The lines that are mistaken are special with the prefix only, or without the prefix only. -/
theorem mistaken_iff (hs : NUL ∉ s) (hl : NUL ∉ l) :
    Mistaken l s ↔ ¬ (SpecialLine (l ++ s) ↔ SpecialLine s) := by
  have hls : NUL ∉ l ++ s := fun h => (List.mem_append.mp h).elim hl hs
  rw [specialLine_iff hls, specialLine_iff hs]
  unfold Mistaken
  cases l with
  | nil =>
    refine iff_of_false ?_ (not_not.mpr Iff.rfl)
    rintro (⟨h, -⟩ | ⟨-, h⟩)
    · exact h rfl
    · exact not_isSpecial_nil h
  | cons c l =>
    cases s with
    | nil => simp [not_isSpecial_nil]
    | cons d s =>
      have hlong : ¬ IsSpecial (c :: l ++ d :: s) := by
        unfold IsSpecial
        simp
      rw [iff_false_left hlong, not_not]
      simp

/-- A special line adds no data row that consists of data. -/
theorem tblData_special {p : CStr} {tbl : Tbl} (hcursor : tbl.cursor < tbl.rows.length)
    (hp : SpecialLine p) (pos : Nat) : ∃ tbl', tblData p tbl pos = .ok tbl' ∧
      (tbl' = tbl ∨ ∃ sp prev, tbl'.spans = sp :: prev ∧ sp.pos ≠ .DATA) := by
  rw [Tbl.cursor] at hcursor
  unfold tblData
  dsimp only
  rw [if_neg (Nat.not_le_of_lt hcursor)]
  by_cases hdot : charAt p 0 = '.'
  · rw [if_pos ⟨hp.1, hdot⟩]
    exact ⟨tbl, rfl, .inl rfl⟩
  · rw [if_neg fun h => hdot h.2, if_pos ⟨hp.1, hp.2.resolve_left hdot⟩]
    refine ⟨_, rfl, .inr ⟨_, _, rfl, ?_⟩⟩
    dsimp only
    split
    · decide
    · decide

/-- Any other line does. -/
theorem tblData_ordinary {p : CStr} {tbl : Tbl} (hinv : tbl.Inv) (hpart : tbl.part ≠ .LAYOUT)
    (hcursor : tbl.cursor < tbl.rows.length) (hp : ¬ SpecialLine p) (pos : Nat) :
    Ensures (tblData p tbl pos) fun tbl' => tbl' ≠ tbl ∧
      ∃ sp prev, tbl'.spans = sp :: prev ∧ sp.pos = .DATA := by
  rw [tblData_eq hinv hpart hcursor hp]
  refine (dataLoop_frame p _ pos rfl).mono fun tbl' hframe => ?_
  obtain ⟨new, prev, hspans, hprev⟩ := hframe.spans
  refine ⟨?_, _, _, hspans, rfl⟩
  rintro rfl
  -- There are more data rows than before.
  have hlen := congrArg List.length hprev
  rw [List.length_map, List.length_map, List.length_append] at hlen
  have hmore := congrArg List.length hspans
  rw [List.length_cons] at hmore
  omega

/-- If only one of two lines is special, they are treated in different ways. -/
theorem tblData_ne {p q : CStr} {tbl : Tbl} (hinv : tbl.Inv) (hpart : tbl.part ≠ .LAYOUT)
    (hcursor : tbl.cursor < tbl.rows.length) (hp : SpecialLine p) (hq : ¬ SpecialLine q)
    (i j : Nat) : tblData p tbl i ≠ tblData q tbl j := by
  intro heq
  obtain ⟨tbl', hok, hspecial⟩ := tblData_special hcursor hp i
  obtain ⟨hne, sp, prev, hspans, hdata⟩ :=
    (tblData_ordinary hinv hpart hcursor hq j).of_eq_ok (heq.symm.trans hok)
  rcases hspecial with h | ⟨sp', prev', hspans', hdata'⟩
  · exact hne h
  · rw [hspans] at hspans'
    rw [(List.cons.inj hspans').1] at hdata
    exact hdata' hdata

/-! ## §6 Lines -/

section

variable {X : Type} (env : Env X)

theorem readSection_layout_append (l s : CStr) {tbl : Tbl} (hpart : tbl.part = .LAYOUT) (pos : Nat) :
    readSection (l ++ s) env tbl (l.length + pos) = readSection s env tbl pos := by
  unfold readSection
  rw [hpart]
  exact tblLayout_append env l s tbl pos

/-- A line that is not data. -/
theorem tblRead_append (hs : NUL ∉ s) (hl : NUL ∉ l) {tbl : Tbl} (hinv : tbl.Inv)
    (hpart : tbl.part ≠ .DATA) (pos : Nat) : tblRead (l ++ s) env tbl (l.length + pos) = tblRead s env tbl pos := by
  cases hcase : tbl.part with
  | OPTS =>
    unfold tblRead
    rw [if_pos hcase, if_pos hcase]
    dsimp only
    rw [drop_append_length, tblOption_append, Res.bind_map]
    split
    · cases hr : tblOption { tbl with part := .LAYOUT } s pos with
      | error e => rfl
      | ok r =>
        have hlayout := ((tblOption_inv s pos hinv.enterLayout).of_eq_ok hr).2
        obtain ⟨tbl', q⟩ := r
        rw [Res.ok_bind, Res.ok_bind, shiftPos]
        dsimp only
        rw [charAt_append, readSection_layout_append env l s hlayout]
    · exact readSection_layout_append env l s rfl pos
  | LAYOUT => rw [tblRead_layout env hcase, tblRead_layout env hcase, tblLayout_append]
  | DATA => exact absurd hcase hpart
  | CDATA => rw [tblRead_cdata env hcase, tblRead_cdata env hcase, tblCdata_append hs hl]

/-- **Lines behind a prefix.**  A line is treated like the same line without a prefix unless it is
    a data line that is mistaken. -/
theorem tblRead_append_iff (hs : NUL ∉ s) (hl : NUL ∉ l) {tbl : Tbl} (hreach : tbl.Reachable) :
    tblRead (l ++ s) env tbl l.length = tblRead s env tbl 0 ↔
      ¬ (tbl.part = .DATA ∧ Mistaken l s) := by
  have hinv := hreach.inv
  by_cases hpart : tbl.part = .DATA
  · have hnot : tbl.part ≠ .LAYOUT := by
      rw [hpart]
      decide
    have hcursor : tbl.cursor < tbl.rows.length := by
      rcases hreach.rows_ne_nil with h | h | h
      · exact absurd (hpart.symm.trans h) (by decide)
      · exact absurd h hnot
      · exact hinv.cursor_lt h
    rw [tblRead_data env hpart, tblRead_data env hpart, mistaken_iff hs hl]
    by_cases hls : SpecialLine (l ++ s)
    · by_cases hp : SpecialLine s
      · -- There is no prefix.
        have hmistaken : ¬ Mistaken l s := by
          rw [mistaken_iff hs hl]
          exact not_not.mpr (iff_of_true hls hp)
        have hnil : l = [] := by
          by_contra hne
          exact hmistaken (.inl ⟨hne, (specialLine_iff hs).mp hp⟩)
        subst hnil
        exact iff_of_true rfl fun h => h.2 (iff_of_true hls hp)
      · exact iff_of_false (tblData_ne hinv hnot hcursor hls hp _ _)
          fun h => h ⟨hpart, fun hiff => hp (hiff.mp hls)⟩
    · by_cases hp : SpecialLine s
      · exact iff_of_false (tblData_ne hinv hnot hcursor hp hls _ _).symm
          fun h => h ⟨hpart, fun hiff => hls (hiff.mpr hp)⟩
      · exact iff_of_true (tblData_append hs hl hinv hnot hcursor hls hp 0)
          fun h => h.2 (iff_of_false hls hp)
  · exact iff_of_true (tblRead_append env hs hl hinv hpart 0) fun h => hpart h.1

end

/-- A data line behind a request. -/
theorem tblRead_append_nop :
    tblRead (".nop ".toList ++ "x\ty".toList) plainEnv pairTbl ".nop ".toList.length =
        tblRead "x\ty".toList plainEnv pairTbl 0 ↔
      ¬ (pairTbl.part = .DATA ∧ Mistaken ".nop ".toList "x\ty".toList) :=
  tblRead_append_iff plainEnv (by decide) (by decide)
    (.lines .alloc (show readLines ["l l.", "a\tb"] tblAlloc = .ok pairTbl by decide +kernel))

/-- Behind a request, the character for a horizontal line is data. -/
theorem tblRead_append_line : ¬ ∀ (l s : CStr) (tbl : Tbl), NUL ∉ l → NUL ∉ s → tbl.Reachable →
    tblRead (l ++ s) plainEnv tbl l.length = tblRead s plainEnv tbl 0 := by
  intro h
  have heq := h ".nop ".toList "_".toList pairTbl (by decide) (by decide)
    (.lines .alloc (show readLines ["l l.", "a\tb"] tblAlloc = .ok pairTbl by decide +kernel))
  have hpos := congrArg (fun r => r.toOption.bind fun tbl => tbl.spans.head?.map TblSpan.pos) heq
  revert hpos
  decide +kernel

end

end Mandoc
