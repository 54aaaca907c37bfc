import Mandoc.Term.Cells

/-!
# Characters Struck Over Each Other

The escape sequence `\o` prints the characters of its argument on top of each other. The function
`term_word()` sets `TERMP_BACKBEFORE` between them, such that `encode1()` adds a backspace to the
buffer before each character except the first one. A blank in the last cell is not struck over, but
replaced, and one that remains at the end is trimmed, together with the backspace before it.

- `Struck` and `Overstruck` say which cells were written since the beginning of the sequence,
  before the next character is printed, and after it.
- `overstrikeRun_spec` is the invariant of the loop over the argument.
- `Isolated` says that the text before and after the sequence is not altered, and that the text of
  the sequence is as wide as one character.

The trimming does not ask where the last blank comes from: `StrikeFits` are the arguments for which
it was printed by the sequence itself, behind another character.
-/

namespace Mandoc

/-- `isblank()` in the C locale. -/
def isblank (c : Char) : Bool := c = ' ' || c = '\t'

/-! ## §1 Cells from the write position on -/

/-- Write several cells. -/
def Termp.pushCells (p : Termp) (cells : CStr) : Termp := cells.foldl Termp.pushCell p

/-- The cells that precede a character in the given font. -/
def decoration (f : TermFont) (c : Char) : CStr :=
  (if f = .UNDER ∨ f = .BI then ['_', BS] else []) ++
    (if f = .BOLD ∨ f = .BI then [if c = ASCII_HYPH then '-' else c, BS] else [])

/-- The cells are in the buffer, beginning at the given index. -/
def Termp.Shows (p : Termp) (i : Nat) (cells : CStr) : Prop :=
  ∀ k, k < cells.length → p.tcol.buf (i + k) = charAt cells k

section

variable {p q : Termp} {cells cells' : CStr} {i : Nat} {c : Char}

theorem Termp.Shows.append (h : q.Shows i cells) (h' : q.Shows (i + cells.length) cells') :
    q.Shows i (cells ++ cells') := by
  intro k hk
  rw [List.length_append] at hk
  by_cases hlt : k < cells.length
  · rw [h k hlt, charAt, charAt, List.getD_append _ _ _ _ hlt]
  · obtain ⟨j, rfl⟩ := Nat.exists_eq_add_of_le (Nat.le_of_not_lt hlt)
    rw [← Nat.add_assoc, h' j (Nat.lt_of_add_lt_add_left hk), charAt_append]

theorem Termp.Shows.left (h : q.Shows i (cells ++ cells')) : q.Shows i cells := by
  intro k hk
  rw [h k (by rw [List.length_append]; exact Nat.lt_add_right _ hk), charAt, charAt,
    List.getD_append _ _ _ _ hk]

theorem Termp.Shows.single (h : q.tcol.buf i = c) : q.Shows i [c] := by
  intro k hk
  obtain rfl : k = 0 := Nat.lt_one_iff.mp hk
  exact h

/-- Writing cells changes nothing but the buffer and the write position. -/
theorem pushCells_eq (p : Termp) (cells : CStr) : p.pushCells cells =
    { p with col := p.col + cells.length,
             tcol := { p.tcol with buf := (p.pushCells cells).tcol.buf } } := by
  induction cells generalizing p with
  | nil => rfl
  | cons c cells ih =>
    have hcons : p.pushCells (c :: cells) = (p.pushCell c).pushCells cells := rfl
    rw [hcons, ih (p.pushCell c), List.length_cons, Nat.add_comm cells.length, ← Nat.add_assoc]
    rfl

@[simp] theorem pushCells_col (p : Termp) (cells : CStr) :
    (p.pushCells cells).col = p.col + cells.length := by rw [pushCells_eq]

@[simp] theorem pushCells_lastcol (p : Termp) (cells : CStr) :
    (p.pushCells cells).tcol.lastcol = p.tcol.lastcol := by rw [pushCells_eq]

@[simp] theorem pushCells_flags (p : Termp) (cells : CStr) :
    (p.pushCells cells).flags = p.flags := by rw [pushCells_eq]

@[simp] theorem pushCells_getwidth (p : Termp) (cells : CStr) :
    (p.pushCells cells).getwidth = p.getwidth := by rw [pushCells_eq]

/-- The other cells remain as they are. -/
theorem pushCells_frame {k : Nat} (h : k < p.col ∨ p.col + cells.length ≤ k) :
    (p.pushCells cells).tcol.buf k = p.tcol.buf k := by
  induction cells generalizing p with
  | nil => rfl
  | cons c cells ih =>
    have hcons : p.pushCells (c :: cells) = (p.pushCell c).pushCells cells := rfl
    have hcol : (p.pushCell c).col = p.col + 1 := rfl
    rw [List.length_cons] at h
    rw [hcons, ih (by rw [hcol]; omega)]
    exact Function.update_of_ne (by omega) ..

theorem pushCells_shows (p : Termp) (cells : CStr) : (p.pushCells cells).Shows p.col cells := by
  induction cells generalizing p with
  | nil => exact fun k hk => absurd hk (Nat.not_lt_zero k)
  | cons c cells ih =>
    have hcons : p.pushCells (c :: cells) = (p.pushCell c).pushCells cells := rfl
    have hfirst : (p.pushCells (c :: cells)).tcol.buf p.col = c := by
      rw [hcons, pushCells_frame (.inl (Nat.lt_succ_self p.col))]
      exact Function.update_self ..
    exact (Termp.Shows.single hfirst).append (ih (p.pushCell c))

theorem decorate_eq (p : Termp) (f : TermFont) (c : Char) :
    decorate p f c = p.pushCells (decoration f c) := by
  unfold decorate decoration
  cases f <;> rfl

end

/-! ## §2 Characters struck over each other -/

section

variable {c y : Char}

theorem isblank_eq_true : isblank c ↔ c = ' ' ∨ c = '\t' := by simp [isblank]

theorem isgraph_ne_blank (h : isgraph c) : ¬ isblank c := by
  intro hblank
  obtain rfl | rfl := isblank_eq_true.mp hblank
  · exact absurd h (by decide)
  · exact absurd h (by decide)

/-- The cells before a printable character show no text. -/
theorem decoration_struck (f : TermFont) (hy : isgraph y) : Typeset [] (decoration f y) := by
  have hgraph : isgraph (if y = ASCII_HYPH then '-' else y) := by
    split
    · decide
    · exact hy
  unfold decoration
  cases f with
  | NONE => exact .nil
  | BOLD => exact .struck hgraph .nil
  | UNDER => exact .struck (by decide) .nil
  | BI => exact .struck (by decide) (.struck hgraph .nil)

end

/-- Since the first state, cells were written that show no text. The last cell of the buffer may be
    the one at the write position. -/
structure Struck (p q : Termp) (pre : CStr) : Prop where
  struck : Typeset [] pre
  shows : q.Shows p.col pre
  col : q.col = p.col + pre.length
  lastcol_ge : p.tcol.lastcol ≤ q.tcol.lastcol
  lastcol_le : q.tcol.lastcol ≤ max p.tcol.lastcol (q.col + 1)
  frame : ∀ k, k < p.col ∨ (q.col ≤ k ∧ k < p.tcol.lastcol) → q.tcol.buf k = p.tcol.buf k
  getwidth : q.getwidth = p.getwidth
  nobuf : q.flags.nobuf = false
  backbefore : q.flags.backbefore = false
  backafter : q.flags.backafter = false

/-- Since the first state, cells were written in the last of which a character is visible. A blank
    is visible only behind all cells of the first state. -/
structure Overstruck (p q : Termp) (pre : CStr) (c : Char) : Prop where
  struck : Typeset [] pre
  visible : isgraph c ∨ isblank c ∧ p.tcol.lastcol ≤ p.col
  shows : q.Shows p.col (pre ++ [c])
  col : q.col = p.col + pre.length + 1
  lastcol : q.tcol.lastcol = max p.tcol.lastcol q.col
  frame : ∀ k, k < p.col ∨ (q.col ≤ k ∧ k < p.tcol.lastcol) → q.tcol.buf k = p.tcol.buf k
  getwidth : q.getwidth = p.getwidth
  nobuf : q.flags.nobuf = false
  backafter : q.flags.backafter = false

section

variable {p q q₁ : Termp} {pre : CStr} {c y : Char}

/-- `encode1()`, behind the effect of `TERMP_BACKBEFORE`. -/
theorem encode1_eq {s : Termp} {f : TermFont} (hnobuf : q.flags.nobuf = false)
    (hback : backBefore q = .ok q₁) (hf : (if y = ASCII_HYPH ∨ isgraph y then q.font else .NONE) = f)
    (hs : (q₁.pushCells (decoration f y)).storeCell y = s) (hafter : s.flags.backafter = false) :
    encode1 q y = .ok (Termp.raiseLastcol { s with col := s.col + 1 }) := by
  have hraise : (Termp.raiseLastcol { s with col := s.col + 1 }).flags.backafter = false := by
    rw [Termp.raiseLastcol]
    split <;> exact hafter
  unfold encode1
  rw [if_neg (by simp [hnobuf]), hback, Res.ok_bind, hf]
  dsimp only
  rw [decorate_eq, hs]
  exact congrArg Except.ok (if_neg (Bool.eq_false_iff.mp hraise))

theorem storeCell_graph (hy : isgraph y) : q.storeCell y = q.setCell y := by
  refine if_pos (.inr ⟨?_, ?_⟩)
  · rintro rfl
    exact absurd hy (by decide)
  · rintro rfl
    exact absurd hy (by decide)

@[simp] theorem raiseLastcol_col (p : Termp) : p.raiseLastcol.col = p.col := by
  unfold Termp.raiseLastcol
  split <;> rfl

@[simp] theorem raiseLastcol_buf (p : Termp) : p.raiseLastcol.tcol.buf = p.tcol.buf := by
  unfold Termp.raiseLastcol
  split <;> rfl

@[simp] theorem raiseLastcol_lastcol (p : Termp) :
    p.raiseLastcol.tcol.lastcol = max p.tcol.lastcol p.col := by
  unfold Termp.raiseLastcol
  split
  · next h => exact (Nat.max_eq_right h.le).symm
  · next h => exact (Nat.max_eq_left (Nat.le_of_not_lt h)).symm

@[simp] theorem raiseLastcol_getwidth (p : Termp) : p.raiseLastcol.getwidth = p.getwidth := by
  unfold Termp.raiseLastcol
  split <;> rfl

@[simp] theorem raiseLastcol_flags (p : Termp) : p.raiseLastcol.flags = p.flags := by
  unfold Termp.raiseLastcol
  split <;> rfl

/-- A character is stored, with cells before it. -/
theorem Struck.push (h : Struck p q₁ pre) {ds : CStr} (hds : Typeset [] ds)
    (hy : isgraph y ∨ isblank y ∧ p.tcol.lastcol ≤ p.col) :
    Overstruck p (q₁.pushCells (ds ++ [y])).raiseLastcol (pre ++ ds) y := by
  have hcol := h.col
  have hlen : (ds ++ [y]).length = ds.length + 1 := by simp
  refine ⟨?_, hy, ?_, ?_, ?_, ?_, ?_, ?_, ?_⟩
  · exact h.struck.append hds
  · rw [List.append_assoc]
    refine Termp.Shows.append (fun k hk => ?_) fun k hk => ?_
    · rw [raiseLastcol_buf, pushCells_frame (.inl (by rw [hcol]; exact Nat.add_lt_add_left hk _))]
      exact h.shows k hk
    · rw [raiseLastcol_buf, ← hcol]
      exact pushCells_shows q₁ _ k hk
  · rw [raiseLastcol_col, pushCells_col, hcol, hlen, List.length_append]
    omega
  · have hge := h.lastcol_ge
    have hle := h.lastcol_le
    rw [raiseLastcol_lastcol, raiseLastcol_col, pushCells_col, pushCells_lastcol, hlen]
    omega
  · intro k hk
    rw [raiseLastcol_col, pushCells_col] at hk
    rw [raiseLastcol_buf, pushCells_frame (by omega)]
    exact h.frame k (by omega)
  · rw [raiseLastcol_getwidth, pushCells_getwidth, h.getwidth]
  · rw [raiseLastcol_flags, pushCells_flags, h.nobuf]
  · rw [raiseLastcol_flags, pushCells_flags, h.backafter]

/-- A blank does not overwrite the blank that is already there. -/
theorem Struck.keep (h : Struck p q₁ pre) (hcell : q₁.tcol.buf q₁.col = c)
    (hc : isblank c ∧ p.tcol.lastcol ≤ p.col) :
    Overstruck p (Termp.raiseLastcol { q₁ with col := q₁.col + 1 }) pre c := by
  have hcol := h.col
  refine ⟨h.struck, .inr hc, ?_, ?_, ?_, ?_, ?_, ?_, ?_⟩
  · refine Termp.Shows.append (fun k hk => ?_) (.single ?_)
    · rw [raiseLastcol_buf]
      exact h.shows k hk
    · rw [raiseLastcol_buf, ← hcol]
      exact hcell
  · rw [raiseLastcol_col, ← hcol]
  · have hge := h.lastcol_ge
    have hle := h.lastcol_le
    rw [raiseLastcol_lastcol, raiseLastcol_col]
    dsimp only
    omega
  · intro k hk
    rw [raiseLastcol_col] at hk
    rw [raiseLastcol_buf]
    exact h.frame k (hk.imp_right fun hk => ⟨Nat.le_of_succ_le hk.1, hk.2⟩)
  · rw [raiseLastcol_getwidth, h.getwidth]
  · rw [raiseLastcol_flags, h.nobuf]
  · rw [raiseLastcol_flags, h.backafter]

/-- A printable character is printed. -/
theorem Struck.encode1_graph (h : Struck p q₁ pre) (hnobuf : q.flags.nobuf = false)
    (hback : backBefore q = .ok q₁) (hy : isgraph y) :
    ∃ q' pre', encode1 q y = .ok q' ∧ Overstruck p q' pre' y ∧ q'.flags.backbefore = false := by
  have hds := decoration_struck q.font hy
  have hstore : (q₁.pushCells (decoration q.font y)).storeCell y =
      (q₁.pushCells (decoration q.font y)).setCell y := storeCell_graph hy
  have hpush : Termp.raiseLastcol { (q₁.pushCells (decoration q.font y)).setCell y with
      col := ((q₁.pushCells (decoration q.font y)).setCell y).col + 1 } =
      (q₁.pushCells (decoration q.font y ++ [y])).raiseLastcol := by
    rw [Termp.pushCells, Termp.pushCells, List.foldl_append]
    rfl
  refine ⟨_, pre ++ decoration q.font y, encode1_eq hnobuf hback (if_pos (.inr hy)) hstore ?_, ?_, ?_⟩
  · exact (congrArg TermFlags.backafter (pushCells_flags ..)).trans h.backafter
  · rw [hpush]
    exact h.push hds (.inl hy)
  · rw [hpush, raiseLastcol_flags, pushCells_flags]
    exact h.backbefore

/-- A blank is printed behind all cells, or where a blank is. -/
theorem Struck.encode1_blank (h : Struck p q₁ pre) (hnobuf : q.flags.nobuf = false)
    (hback : backBefore q = .ok q₁) (hy : isblank y) (hend : p.tcol.lastcol ≤ p.col)
    (hcell : q₁.tcol.lastcol ≤ q₁.col ∨ isblank c ∧ q₁.tcol.buf q₁.col = c) :
    ∃ q' c', encode1 q y = .ok q' ∧ Overstruck p q' pre c' ∧ q'.flags.backbefore = false ∧
      (c' = y ∨ isblank c ∧ c' = c) := by
  have hfont : (if y = ASCII_HYPH ∨ isgraph y then q.font else TermFont.NONE) = .NONE := by
    refine if_neg ?_
    rintro (rfl | hgraph)
    · exact absurd hy (by decide)
    · exact isgraph_ne_blank hgraph hy
  by_cases hstore : q₁.tcol.lastcol ≤ q₁.col ∨ (y ≠ ' ' ∧ y ≠ ASCII_NBRSP)
  · have heq : (q₁.pushCells (decoration .NONE y)).storeCell y = q₁.setCell y := if_pos hstore
    refine ⟨_, y, encode1_eq hnobuf hback hfont heq h.backafter, ?_, ?_, .inl rfl⟩
    · have hpush := h.push .nil (.inr ⟨hy, hend⟩)
      rw [List.append_nil] at hpush
      exact hpush
    · rw [raiseLastcol_flags]
      exact h.backbefore
  · have heq : (q₁.pushCells (decoration .NONE y)).storeCell y = q₁ := if_neg hstore
    obtain ⟨hblank, hc⟩ := hcell.resolve_left fun hle => hstore (.inl hle)
    refine ⟨_, c, encode1_eq hnobuf hback hfont heq h.backafter, h.keep hc ⟨hblank, hend⟩, ?_,
      .inr ⟨hblank, rfl⟩⟩
    rw [raiseLastcol_flags]
    exact h.backbefore

/-- The cells before the next character, if the last one is to be struck over. -/
def covered (pre : CStr) (c : Char) : CStr := if isgraph c then pre ++ [c, BS] else pre

/-- `TERMP_BACKBEFORE` adds a backspace, or goes back to a trailing blank. -/
theorem Overstruck.backBefore (h : Overstruck p q pre c) (hpend : q.flags.backbefore = true) :
    ∃ q₁, Mandoc.backBefore q = .ok q₁ ∧ Struck p q₁ (covered pre c) ∧
      (p.tcol.lastcol ≤ p.col →
        q₁.tcol.lastcol ≤ q₁.col ∨ isblank c ∧ q₁.tcol.buf q₁.col = c) := by
  have hcol := h.col
  have hlastcol := h.lastcol
  have hlast : q.tcol.buf (q.col - 1) = c := by
    have hcell := h.shows pre.length (by simp)
    rw [hcol, Nat.add_sub_cancel, hcell]
    simpa using charAt_append pre [c] 0
  have hpre : q.Shows p.col pre := h.shows.left
  unfold Mandoc.backBefore covered
  rw [if_pos hpend, if_neg (by omega)]
  dsimp only
  rw [hlast]
  obtain hc | ⟨hc, hend⟩ := h.visible
  · -- A visible character is kept, and the backspace is written behind it.
    have hne : ¬ (c = ' ' ∨ c = '\t') := fun heq => isgraph_ne_blank hc (isblank_eq_true.mpr heq)
    rw [if_neg hne, if_pos hc]
    have hnext : (q.pushCell BS).col = q.col + 1 := rfl
    have hother : ∀ k, k ≠ q.col → (q.pushCell BS).tcol.buf k = q.tcol.buf k := fun k hk =>
      Function.update_of_ne hk ..
    refine ⟨_, rfl, ⟨h.struck.append (.struck hc .nil), ?_, ?_, ?_, ?_, ?_, h.getwidth, h.nobuf, rfl,
      h.backafter⟩, fun hend => .inl ?_⟩
    · have hshows : (q.pushCell BS).Shows p.col ((pre ++ [c]) ++ [BS]) := by
        refine Termp.Shows.append (fun k hk => ?_) (.single ?_)
        · rw [List.length_append, List.length_singleton] at hk
          rw [hother _ (by omega)]
          exact h.shows k (by simpa using hk)
        · have hindex : p.col + (pre ++ [c]).length = q.col := by
            rw [hcol, List.length_append, List.length_singleton, Nat.add_assoc]
          rw [hindex]
          exact Function.update_self ..
      rw [List.append_assoc] at hshows
      exact hshows
    · rw [List.length_append]
      exact hnext.trans (by rw [hcol]; rfl)
    · exact hlastcol ▸ Nat.le_max_left ..
    · change q.tcol.lastcol ≤ max p.tcol.lastcol (q.col + 1 + 1)
      omega
    · intro k hk
      have hk' : k < p.col ∨ (q.col + 1 ≤ k ∧ k < p.tcol.lastcol) := hk
      exact (hother k (by omega)).trans (h.frame k (by omega))
    · change q.tcol.lastcol ≤ q.col + 1
      omega
  · -- A blank is covered by what follows.
    rw [if_pos (isblank_eq_true.mp hc), if_neg fun hgraph => isgraph_ne_blank hgraph hc]
    refine ⟨_, rfl, ⟨h.struck, hpre, ?_, ?_, ?_, ?_, h.getwidth, h.nobuf, rfl, h.backafter⟩,
      fun _ => .inr ⟨?_, hlast⟩⟩
    · change q.col - 1 = p.col + pre.length
      omega
    · exact hlastcol ▸ Nat.le_max_left ..
    · change q.tcol.lastcol ≤ max p.tcol.lastcol (q.col - 1 + 1)
      omega
    · -- The cells of the first state all precede the write position.
      intro k hk
      have hk' : k < p.col ∨ (q.col - 1 ≤ k ∧ k < p.tcol.lastcol) := hk
      exact h.frame k (by omega)
    · exact hc

theorem Overstruck.setBackbefore (h : Overstruck p q pre c) (b : Bool) :
    Overstruck p (q.setBackbefore b) pre c :=
  ⟨h.struck, h.visible, h.shows, h.col, h.lastcol, h.frame, h.getwidth, h.nobuf, h.backafter⟩

end

/-! ## §3 One character after the other -/

/-- What is visible after a text was printed, every character struck over the one before. -/
structure Inked (text pre : CStr) (c : Char) : Prop where
  /-- A blank does not remain alone if there is another character. -/
  inked : (∃ x ∈ text, isgraph x) → pre ≠ [] ∨ isgraph c
  /-- Blanks without another character remain alone. -/
  blank : (∀ x ∈ text, x = ' ') → pre = [] ∧ c = ' '

section

variable {p q q₁ : Termp} {text pre : CStr} {c c' y : Char}

theorem Inked.graph (hy : isgraph y) (text pre : CStr) : Inked (text ++ [y]) pre y where
  inked _ := .inr hy
  blank h := by
    have hblank : y = ' ' := h y (List.mem_append_right _ (List.mem_singleton_self y))
    exact absurd (hblank ▸ hy) (by decide)

theorem Inked.add_blank (h : Inked text pre c) (hy : isblank y)
    (hc' : c' = y ∨ isblank c ∧ c' = c) : Inked (text ++ [y]) (covered pre c) c' where
  inked := by
    rintro ⟨x, hx, hgraph⟩
    have hx' : x ∈ text := by
      obtain hmem | hmem := List.mem_append.mp hx
      · exact hmem
      · rw [List.mem_singleton.mp hmem] at hgraph
        exact absurd hy (isgraph_ne_blank hgraph)
    unfold covered
    split
    · exact .inl (by simp)
    · next hc => exact .inl ((h.inked ⟨x, hx', hgraph⟩).resolve_right hc)
  blank hall := by
    obtain ⟨rfl, rfl⟩ := h.blank fun x hx => hall x (List.mem_append_left _ hx)
    refine ⟨rfl, ?_⟩
    obtain rfl | ⟨-, rfl⟩ := hc'
    · exact hall _ (List.mem_append_right _ (List.mem_singleton_self _))
    · rfl

/-- **The first character** is printed at the write position. -/
theorem Struck.first (h : Struck p p []) (hy : isgraph y ∨ isblank y ∧ p.tcol.lastcol ≤ p.col) :
    ∃ q' pre' c', encode1 p y = .ok q' ∧ Overstruck p q' pre' c' ∧ q'.flags.backbefore = false ∧
      Inked [y] pre' c' := by
  have hback : backBefore p = .ok p := if_neg (by simp [h.backbefore])
  obtain hy | ⟨hy, hend⟩ := hy
  · obtain ⟨q', pre', heq, hover, hflag⟩ := h.encode1_graph h.nobuf hback hy
    exact ⟨q', pre', y, heq, hover, hflag, .graph hy [] pre'⟩
  · obtain ⟨q', c', heq, hover, hflag, hc'⟩ := @Struck.encode1_blank p p p [] y y h h.nobuf hback hy hend (.inl hend)
    obtain rfl : c' = y := hc'.elim id And.right
    refine ⟨q', [], c', heq, hover, hflag, ⟨?_, ?_⟩⟩
    · rintro ⟨x, hx, hgraph⟩
      rw [List.mem_singleton.mp hx] at hgraph
      exact .inr hgraph
    · exact fun hall => ⟨rfl, hall c' (List.mem_singleton_self c')⟩

/-- **The next character** is struck over the one before. -/
theorem Overstruck.next (h : Overstruck p q pre c) (hinked : Inked text pre c)
    (hpend : q.flags.backbefore = true) (hy : isgraph y ∨ isblank y ∧ p.tcol.lastcol ≤ p.col) :
    ∃ q' pre' c', encode1 q y = .ok q' ∧ Overstruck p q' pre' c' ∧ q'.flags.backbefore = false ∧
      Inked (text ++ [y]) pre' c' := by
  obtain ⟨q₁, hback, hstruck, hcell⟩ := h.backBefore hpend
  obtain hy | ⟨hy, hend⟩ := hy
  · obtain ⟨q', pre', heq, hover, hflag⟩ := hstruck.encode1_graph h.nobuf hback hy
    exact ⟨q', pre', y, heq, hover, hflag, .graph hy text pre'⟩
  · obtain ⟨q', c', heq, hover, hflag, hc'⟩ := hstruck.encode1_blank h.nobuf hback hy hend (hcell hend)
    exact ⟨q', _, c', heq, hover, hflag, hinked.add_blank hy hc'⟩

end

/-! ## §4 The argument -/

/-- The characters printed for an argument: backslashes are skipped. -/
def printedText (arg : CStr) : CStr := arg.filter (· ≠ '\\')

/-- What holds at the beginning of an iteration, at which the text was printed: nothing was written,
    or the characters were struck over each other, and the next one is to be struck over, too. -/
def StrikeInvariant (w : CStr) (cp : Nat) (p : Termp) (text : CStr) (q : Termp) (seq : Nat) : Prop :=
  text = [] ∧ q = p ∨
    text ≠ [] ∧ ∃ pre c, Overstruck p q pre c ∧ Inked text pre c ∧
      (seq < cp → q.flags.backbefore = true) ∧
      (seq = cp → charAt w (cp - 1) ≠ '\\' → q.flags.backbefore = false)

section

variable {w text : CStr} {p q : Termp} {seq cp : Nat}

/-- A backslash that follows another byte is skipped alone. -/
theorem mandocEscape_backslash (hs : NUL ∉ w) {i : Nat} (hi : charAt w (i + 1) = '\\') :
    mandocEscape w i = .ok ⟨.UNDEF, i, i + 1, i + 1, i + 2, i + 2⟩ := by
  have hlt : i + 1 < w.length := lt_length_of_charAt_ne_nul (by rw [hi]; decide)
  have hname : nameIndex w i = i + 1 := by
    have hdrop : w.drop (i + 1) = '\\' :: w.drop (i + 2) := by
      rw [List.drop_eq_getElem_cons hlt, ← charAt_eq_getElem hlt, hi]
    rw [nameIndex, hdrop, strspn, List.takeWhile_cons_of_neg (by decide)]
    rfl
  have hundef : escName '\\' = .undefined := by decide
  unfold mandocEscape
  rw [roffEscapeNull_eq hs (charAt_ne_nul hs (Nat.lt_of_succ_lt hlt)), escapeAt, escapeStart, hname,
    rd_of_le hlt.le, Res.ok_bind, hi, hundef]
  rfl

theorem printedText_cons_of_ne {c : Char} (hc : c ≠ '\\') (arg : CStr) :
    printedText (c :: arg) = c :: printedText arg := List.filter_cons_of_pos (by simpa using hc)

theorem printedText_backslash (arg : CStr) : printedText ('\\' :: arg) = printedText arg :=
  List.filter_cons_of_neg (by simp)

/-- **One iteration** prints a character, or skips a backslash. -/
theorem overstrikeStep_spec (hs : NUL ∉ w) (hp : Struck p p []) (hpos : 0 < seq) (hlt : seq < cp)
    (hcp : cp ≤ w.length) (hI : StrikeInvariant w cp p text q seq)
    (hbyte : charAt w seq = '\\' ∨ isgraph (charAt w seq) ∨
      isblank (charAt w seq) ∧ p.tcol.lastcol ≤ p.col) :
    ∃ q', overstrikeStep w cp (q, seq) = .ok (.again (q', seq + 1)) ∧
      StrikeInvariant w cp p (text ++ printedText [charAt w seq]) q' (seq + 1) := by
  have hle : seq ≤ w.length := hlt.le.trans hcp
  unfold overstrikeStep
  dsimp only
  rw [if_neg (Nat.not_le.mpr hlt), rd_of_le hle, Res.ok_bind]
  by_cases hc : charAt w seq = '\\'
  · obtain ⟨i, rfl⟩ := Nat.exists_eq_succ_of_ne_zero (Nat.pos_iff_ne_zero.mp hpos)
    refine ⟨q, ?_, ?_⟩
    · rw [if_pos hc, Nat.succ_sub_one, mandocEscape_backslash hs hc]
      rfl
    · rw [hc, printedText_backslash, printedText, List.filter_nil, List.append_nil]
      obtain ⟨htext, rfl⟩ | ⟨htext, pre, c, hover, hinked, hpend, -⟩ := hI
      · exact .inl ⟨htext, rfl⟩
      · -- The flag remains set. If the argument ends here, then it ends in a backslash.
        refine .inr ⟨htext, pre, c, hover, hinked, fun _ => hpend hlt, fun heq hne => ?_⟩
        exact absurd (by rw [← heq]; exact hc) hne
  · have hprint : isgraph (charAt w seq) ∨ isblank (charAt w seq) ∧ p.tcol.lastcol ≤ p.col :=
      hbyte.resolve_left hc
    have hstep : ∃ q' pre' c', encode1 q (charAt w seq) = .ok q' ∧ Overstruck p q' pre' c' ∧
        q'.flags.backbefore = false ∧ Inked (text ++ [charAt w seq]) pre' c' := by
      obtain ⟨rfl, rfl⟩ | ⟨-, pre, c, hover, hinked, hpend, -⟩ := hI
      · exact hp.first hprint
      · exact hover.next hinked (hpend hlt) hprint
    obtain ⟨q', pre', c', heq, hover, hflag, hinked⟩ := hstep
    have hne : text ++ [charAt w seq] ≠ [] := by simp
    rw [if_neg hc, heq, Res.ok_bind, printedText_cons_of_ne hc, printedText, List.filter_nil]
    by_cases hend : cp ≤ seq + 1
    · refine ⟨q', if_pos hend, .inr ⟨hne, pre', c', hover, hinked, fun h => ?_, fun _ _ => hflag⟩⟩
      exact absurd h (Nat.not_lt.mpr hend)
    · refine ⟨q'.setBackbefore true, ?_, .inr ⟨hne, pre', c', hover.setBackbefore true, hinked,
        fun _ => rfl, fun h => absurd h.ge hend⟩⟩
      rw [if_neg hend, if_neg (by simp [hflag])]
      rfl

/-- **The whole argument.** -/
theorem overstrikeRun_spec (hs : NUL ∉ w) (hp : Struck p p []) (hpos : 0 < seq) (hle : seq ≤ cp)
    (hcp : cp ≤ w.length) (hI : StrikeInvariant w cp p text q seq)
    (hbytes : ∀ x ∈ slice w seq cp, x = '\\' ∨ isgraph x ∨ isblank x ∧ p.tcol.lastcol ≤ p.col)
    {n : Nat} (hn : cp < seq + n) :
    ∃ q', Loop.run (overstrikeStep w cp) .fuel n (q, seq) = .ok q' ∧
      StrikeInvariant w cp p (text ++ printedText (slice w seq cp)) q' cp := by
  -- By induction on the number of steps; each of them handles one byte.
  induction n generalizing q seq text with
  | zero => exact absurd hle (Nat.not_le.mpr hn)
  | succ n ih =>
    rw [Loop.run_succ]
    obtain hlt | rfl := Nat.lt_or_eq_of_le hle
    · have hslice : slice w seq cp = charAt w seq :: slice w (seq + 1) cp := by
        rw [slice_append w (Nat.le_succ seq) hlt, slice_succ (Nat.lt_of_lt_of_le hlt hcp)]
        rfl
      rw [hslice] at hbytes ⊢
      obtain ⟨q₁, hstep, hI₁⟩ :=
        overstrikeStep_spec hs hp hpos hlt hcp hI (hbytes _ (List.mem_cons_self ..))
      obtain ⟨q', hrun, hI'⟩ := ih (Nat.succ_pos seq) hlt hI₁
        (fun x hx => hbytes x (List.mem_cons_of_mem _ hx)) (by omega)
      refine ⟨q', ?_, ?_⟩
      · rw [hstep]
        exact hrun
      · rw [List.append_assoc] at hI'
        have hcons : printedText (charAt w seq :: slice w (seq + 1) cp) =
            printedText [charAt w seq] ++ printedText (slice w (seq + 1) cp) :=
          List.filter_append [charAt w seq] _
        rw [hcons]
        exact hI'
    · -- All bytes are handled.
      have hdone : overstrikeStep w seq (q, seq) = .ok (.done q) := if_pos (Nat.le_refl seq)
      refine ⟨q, ?_, ?_⟩
      · rw [hdone]
        rfl
      · rw [slice, Nat.sub_self, List.take_zero, printedText, List.filter_nil, List.append_nil]
        exact hI

end

/-! ## §5 Trimming -/

/-- The trimming does not find a blank at the end of the buffer. -/
def EndsInked (p : Termp) : Prop :=
  p.tcol.lastcol ≤ 2 ∨ ¬ isblank (p.tcol.buf (p.tcol.lastcol - 1))

section

variable {p q : Termp} {pre : CStr} {c x : Char}

/-- The cells before a visible character end in a character that is struck over. -/
theorem Typeset.last_struck (h : Typeset [] pre) (hne : pre ≠ []) :
    ∃ pre' x, pre = pre' ++ [x, BS] ∧ Typeset [] pre' ∧ isgraph x := by
  generalize htext : ([] : CStr) = text at h
  induction h with
  | nil => exact absurd rfl hne
  | char => cases htext
  | blank => cases htext
  | @struck x _ cells hx h ih =>
    subst htext
    by_cases hcells : cells = []
    · exact ⟨[], x, by rw [hcells]; rfl, .nil, hx⟩
    · obtain ⟨pre', y, rfl, hpre', hy⟩ := ih hcells rfl
      exact ⟨x :: BS :: pre', y, rfl, .struck hx hpre', hy⟩

theorem trimOverstrike_eq_self (hcol : q.col ≤ q.tcol.lastcol) (hend : EndsInked q) :
    trimOverstrike q = q := by
  have hkeep : ¬ (2 < q.tcol.lastcol ∧ (q.tcol.buf (q.tcol.lastcol - 1) = ' ' ∨
      q.tcol.buf (q.tcol.lastcol - 1) = '\t')) := by
    rintro ⟨hlt, hblank⟩
    obtain hle | hinked := hend
    · exact Nat.not_lt.mpr hle hlt
    · exact hinked (isblank_eq_true.mpr hblank)
  have hlast : (if 2 < q.tcol.lastcol ∧ (q.tcol.buf (q.tcol.lastcol - 1) = ' ' ∨
      q.tcol.buf (q.tcol.lastcol - 1) = '\t') then
      { q with tcol := { q.tcol with lastcol := q.tcol.lastcol - 2 } } else q) = q := if_neg hkeep
  unfold trimOverstrike
  dsimp only at hlast ⊢
  rw [hlast, if_neg (Nat.not_lt.mpr hcol)]

theorem Overstruck.last_cell (h : Overstruck p q pre c) : q.tcol.buf (q.col - 1) = c := by
  have hcell := h.shows pre.length (by simp)
  rw [h.col, Nat.add_sub_cancel, hcell]
  simpa using charAt_append pre [c] 0

theorem Overstruck.col_le (h : Overstruck p q pre c) : q.col ≤ q.tcol.lastcol := by
  rw [h.lastcol]
  exact Nat.le_max_right ..

/-- A blank that was struck over a character is removed, with the backspace. -/
theorem Overstruck.trim_blank (h : Overstruck p q (pre ++ [x, BS]) c) (hpre : Typeset [] pre)
    (hx : isgraph x) (hc : isblank c) (hend : p.col = p.tcol.lastcol) :
    ∃ q', trimOverstrike q = q' ∧ Overstruck p q' pre x ∧ q'.flags = q.flags := by
  have hcol := h.col
  rw [List.length_append] at hcol
  have hlen : [x, BS].length = 2 := rfl
  have hlastcol : q.tcol.lastcol = q.col := by
    rw [h.lastcol]
    omega
  -- The last cell holds the blank, so two cells are trimmed.
  have hblank : q.tcol.buf (q.tcol.lastcol - 1) = ' ' ∨ q.tcol.buf (q.tcol.lastcol - 1) = '\t' := by
    rw [hlastcol, h.last_cell]
    exact isblank_eq_true.mp hc
  refine ⟨{ q with tcol := { q.tcol with lastcol := q.tcol.lastcol - 2 },
                   col := q.tcol.lastcol - 2 }, ?_, ?_, rfl⟩
  · have htrim : (if 2 < q.tcol.lastcol ∧ (q.tcol.buf (q.tcol.lastcol - 1) = ' ' ∨
        q.tcol.buf (q.tcol.lastcol - 1) = '\t') then
        { q with tcol := { q.tcol with lastcol := q.tcol.lastcol - 2 } } else q) =
        { q with tcol := { q.tcol with lastcol := q.tcol.lastcol - 2 } } :=
      if_pos ⟨by omega, hblank⟩
    unfold trimOverstrike
    dsimp only at htrim ⊢
    rw [htrim]
    exact if_pos (by dsimp only; omega)
  · refine ⟨hpre, .inl hx, ?_, ?_, ?_, ?_, h.getwidth, h.nobuf, h.backafter⟩
    · -- What is left shows the text before the backspace.
      have hshows : q.Shows p.col ((pre ++ [x]) ++ [BS, c]) := by
        have hall := h.shows
        rw [List.append_assoc] at hall ⊢
        exact hall
      exact hshows.left
    · dsimp only
      omega
    · dsimp only
      omega
    · intro k hk
      dsimp only at hk
      exact h.frame k (by omega)

end

/-! ## §6 Isolation -/

/-- From the first state to the second one, text of the given width was added at the write position:
    the cells before it are as they were, and so are the cells behind the new write position. When
    the added cells are printed, the visual position moves by the width. No overstrike is pending. -/
structure Isolated (p p' : Termp) (width : Nat) : Prop where
  col_le : p.col ≤ p'.col
  frame : ∀ k, k < p.col ∨ (p'.col ≤ k ∧ k < p.tcol.lastcol) → p'.tcol.buf k = p.tcol.buf k
  lastcol : p'.tcol.lastcol = max p.tcol.lastcol p'.col
  vis : ∀ st : FieldState, st.p = p' →
    ∃ st', fieldCells st p.col (p'.col - p.col) = .ok st' ∧ st'.vis = st.vis + width
  backbefore : p'.flags.backbefore = false
  backafter : p'.flags.backafter = false

/-- The width of the widest character. -/
def widest (p : Termp) (text : CStr) : Nat := text.foldr (fun c n => max (p.getwidth c) n) 0

/-- The state at the beginning of an overstrike sequence: nothing is pending. -/
structure StrikeReady (p : Termp) : Prop where
  col_le : p.col ≤ p.tcol.lastcol
  nobuf : p.flags.nobuf = false
  backbefore : p.flags.backbefore = false
  backafter : p.flags.backafter = false
  getwidth : p.getwidth = asciiGetwidth

/-- The blank that is trimmed, if any, was printed for the argument, and behind a character. An
    argument that prints something does not end in a backslash. -/
inductive StrikeFits (p : Termp) (arg : CStr) : Prop where
  /-- Nothing is printed, and the buffer does not end in a blank. -/
  | empty : printedText arg = [] → EndsInked p → StrikeFits p arg
  /-- Behind all cells, a printable character is printed, and maybe blanks, too. -/
  | behind : p.col = p.tcol.lastcol → (∃ x ∈ printedText arg, isgraph x) →
      arg.getLast? ≠ some '\\' → StrikeFits p arg
  /-- Behind at most one cell, blanks are printed. -/
  | blanks : p.col = p.tcol.lastcol → p.tcol.lastcol < 2 → printedText arg ≠ [] →
      (∀ x ∈ printedText arg, x = ' ') → arg.getLast? ≠ some '\\' → StrikeFits p arg
  /-- Printable characters overwrite cells of a buffer that does not end in a blank. -/
  | overwrite : p.col < p.tcol.lastcol → EndsInked p → printedText arg ≠ [] →
      (∀ x ∈ printedText arg, isgraph x) → arg.getLast? ≠ some '\\' → StrikeFits p arg

section

variable {w : CStr} {p q : Termp} {text pre : CStr} {c : Char} {r : EscResult} {i : Nat}

theorem StrikeReady.struck (hp : StrikeReady p) : Struck p p [] :=
  ⟨.nil, fun k hk => absurd hk (Nat.not_lt_zero k), rfl, Nat.le_refl _, Nat.le_max_left ..,
    fun _ _ => rfl, rfl, hp.nobuf, hp.backbefore, hp.backafter⟩

theorem StrikeReady.isolated (hp : StrikeReady p) : Isolated p p 0 where
  col_le := Nat.le_refl _
  frame _ _ := rfl
  lastcol := (Nat.max_eq_left hp.col_le).symm
  vis st _ := ⟨st, by rw [Nat.sub_self]; rfl, (Int.add_zero _).symm⟩
  backbefore := hp.backbefore
  backafter := hp.backafter

/-- Characters struck over each other are as wide as the visible one. -/
theorem Overstruck.isolated (h : Overstruck p q pre c) (hwidth : p.getwidth = asciiGetwidth)
    (hc : isgraph c ∨ c = ' ') (hflag : q.flags.backbefore = false) : Isolated p q 24 where
  col_le := by
    rw [h.col, Nat.add_assoc]
    exact Nat.le_add_right ..
  frame := h.frame
  lastcol := h.lastcol
  vis st hst := by
    -- The last character stays visible, and it is as wide as one column.
    have htype : Typeset [c] (pre ++ [c]) := h.struck.append (.char .nil)
    have hne : c ≠ BS ∧ c ≠ '\n' ∧ c ≠ ASCII_TABREF ∧ c ≠ '\t' := by
      obtain hgraph | rfl := hc
      · refine ⟨?_, ?_, ?_, ?_⟩ <;> rintro rfl <;> exact absurd hgraph (by decide)
      · decide
    have hvis : visualWidth [c] = 24 := by
      obtain hgraph | rfl := hc
      · rw [visualWidth_cons, cellWidth_graph hgraph, visualWidth_nil, Int.add_zero]
      · decide
    have hs : wellStruck 0 [c] :=
      wellStruck_cons.mpr ⟨fun heq => absurd heq hne.1, hne.2.1, hne.2.2.1, rfl⟩
    have hlen : q.col - p.col = (pre ++ [c]).length := by
      rw [h.col, List.length_append, List.length_singleton, Nat.add_assoc, Nat.add_sub_cancel_left]
    subst hst
    -- What the field shows is the text with the overstruck characters.
    obtain ⟨st', hfield, hmoves⟩ := @fieldCells_moves st p.col 0 (pre ++ [c])
      (h.getwidth.trans hwidth) h.shows (htype.wellStruck hs) (fun heq => absurd heq (by decide))
      (fun hmem => absurd (List.mem_singleton.mp (htype.tab_mem hmem)).symm hne.2.2.2)
    refine ⟨st', by rw [hlen, hfield], ?_⟩
    rw [hmoves.vis, htype.visualWidth_eq, hvis]
    rfl
  backbefore := hflag
  backafter := h.backafter

/-- On the device `ascii`, all characters of the argument have the same width. -/
theorem widest_eq (hwidth : p.getwidth = asciiGetwidth) (hne : text ≠ [])
    (htext : ∀ x ∈ text, isgraph x ∨ isblank x) : widest p text = 24 := by
  have hchar : ∀ x, isgraph x ∨ isblank x → p.getwidth x = 24 := by
    rintro x (hgraph | hblank)
    · rw [hwidth, asciiGetwidth_graph hgraph]
    · rw [hwidth]
      obtain rfl | rfl := isblank_eq_true.mp hblank <;> rfl
  induction text with
  | nil => exact absurd rfl hne
  | cons x text ih =>
    have hcons : widest p (x :: text) = max (p.getwidth x) (widest p text) := rfl
    rw [hcons, hchar x (htext x (List.mem_cons_self ..))]
    by_cases hnil : text = []
    · rw [hnil]
      rfl
    · rw [ih hnil fun y hy => htext y (List.mem_cons_of_mem _ hy)]
      rfl

/-- The buffer ends in the visible character. -/
theorem Overstruck.endsInked (h : Overstruck p q pre c) (hc : isgraph c)
    (hend : p.tcol.lastcol ≤ q.col ∨ EndsInked p) : EndsInked q := by
  have hlastcol := h.lastcol
  by_cases hle : p.tcol.lastcol ≤ q.col
  · right
    rw [hlastcol, Nat.max_eq_right hle, h.last_cell]
    exact isgraph_ne_blank hc
  · have hlt : q.col < p.tcol.lastcol := Nat.lt_of_not_le hle
    rw [Nat.max_eq_left hlt.le] at hlastcol
    unfold EndsInked
    rw [hlastcol, h.frame _ (.inr ⟨Nat.le_sub_one_of_lt hlt, Nat.sub_one_lt_of_lt hlt⟩)]
    exact hend.resolve_left hle

/-- After the argument, the trimming leaves the characters that were printed. -/
theorem StrikeInvariant.isolated {cp : Nat} {arg : CStr} (hp : StrikeReady p)
    (hI : StrikeInvariant w cp p (printedText arg) q cp)
    (hbytes : ∀ x ∈ printedText arg, isgraph x ∨ isblank x)
    (hlast : arg.getLast? ≠ some '\\' → printedText arg ≠ [] → charAt w (cp - 1) ≠ '\\')
    (hfits : StrikeFits p arg) : Isolated p (trimOverstrike q) (widest p (printedText arg)) := by
  obtain ⟨htext, rfl⟩ | ⟨htext, pre, c, hover, hinked, -, hflag⟩ := hI
  · cases hfits with
    | empty _ hend =>
      rw [trimOverstrike_eq_self hp.col_le hend, htext]
      exact hp.isolated
    | behind _ hex =>
      obtain ⟨x, hx, -⟩ := hex
      rw [htext] at hx
      exact absurd hx List.not_mem_nil
    | blanks _ _ hne => exact absurd htext hne
    | overwrite _ _ hne => exact absurd htext hne
  · have hwidth : widest p (printedText arg) = 24 := widest_eq hp.getwidth htext hbytes
    have hkept : isgraph c ∨ c = ' ' → EndsInked q → q.flags.backbefore = false →
        Isolated p (trimOverstrike q) 24 := by
      intro hc hend hflag
      rw [trimOverstrike_eq_self hover.col_le hend]
      exact hover.isolated hp.getwidth hc hflag
    rw [hwidth]
    cases hfits with
    | empty hnil => exact absurd hnil htext
    | behind hend hex hbackslash =>
      have hclear := hflag rfl (hlast hbackslash htext)
      by_cases hc : isgraph c
      · refine hkept (.inl hc) (hover.endsInked hc (.inl ?_)) hclear
        rw [hover.col, ← hend, Nat.add_assoc]
        exact Nat.le_add_right ..
      · -- The blank is trimmed, and the character before it becomes the last one.
        have hblank : isblank c := (hover.visible.resolve_left hc).1
        have hne : pre ≠ [] := (hinked.inked hex).resolve_right hc
        obtain ⟨pre', x, rfl, hpre', hx⟩ := hover.struck.last_struck hne
        obtain ⟨q', htrim, hover', hflags⟩ := hover.trim_blank hpre' hx hblank hend
        rw [htrim]
        exact hover'.isolated hp.getwidth (.inl hx) (by rw [hflags]; exact hclear)
    | blanks hend hlt _ hall hbackslash =>
      obtain ⟨rfl, rfl⟩ := hinked.blank hall
      refine hkept (.inr rfl) (.inl ?_) (hflag rfl (hlast hbackslash htext))
      have hcol : q.col = p.col + 1 := hover.col
      rw [hover.lastcol]
      omega
    | overwrite hlt hend _ hall hbackslash =>
      have hc : isgraph c := hover.visible.resolve_right fun h => Nat.not_le.mpr hlt h.2
      exact hkept (.inl hc) (hover.endsInked hc (.inr hend)) (hflag rfl (hlast hbackslash htext))

/-- Which blanks may be printed. -/
theorem StrikeFits.bytes {arg : CStr} (h : StrikeFits p arg)
    (hbytes : ∀ x ∈ arg, isgraph x ∨ isblank x) :
    ∀ x ∈ arg, x = '\\' ∨ isgraph x ∨ isblank x ∧ p.tcol.lastcol ≤ p.col := by
  intro x hx
  by_cases hbackslash : x = '\\'
  · exact .inl hbackslash
  have hmem : x ∈ printedText arg := List.mem_filter.mpr ⟨hx, by simpa using hbackslash⟩
  right
  cases h with
  | empty hnil => exact absurd (hnil ▸ hmem) List.not_mem_nil
  | behind hend => exact (hbytes x hx).imp_right fun hblank => ⟨hblank, hend.ge⟩
  | blanks hend => exact (hbytes x hx).imp_right fun hblank => ⟨hblank, hend.ge⟩
  | overwrite _ _ _ hall => exact .inl (hall x hmem)

/-- **Isolation of overstrikes.** A sequence adds text of the width of its widest character at the
    write position, and leaves nothing pending, if the blank that is trimmed was printed for it. -/
theorem overstrike_isolated (hs : NUL ∉ w) (hesc : charAt w i = '\\')
    (hr : mandocEscape w i = .ok r) (hrval : r.rval = .OVERSTRIKE) (hp : StrikeReady p)
    (hbytes : ∀ x ∈ slice w r.rarg r.rendarg, isgraph x ∨ isblank x)
    (hfits : StrikeFits p (slice w r.rarg r.rendarg)) :
    ∃ p', wordEscape w p r = .ok p' ∧
      Isolated p p' (widest p (printedText (slice w r.rarg r.rendarg))) := by
  have hnul : charAt w i ≠ NUL := by
    rw [hesc]
    decide
  have hinside := (mandocEscape_argInside hs hnul).of_eq_ok hr
  have hpos : 0 < r.rarg := Nat.zero_lt_of_lt ((mandocEscape_lt_rarg hs hnul).of_eq_ok hr)
  have hcp : r.rendarg ≤ w.length := hinside.rendarg_le (by simp [hrval]) (by simp [hrval])
  have hword : wordEscape w p r = overstrikeEscape w p r := by
    unfold wordEscape
    rw [hrval]
  have hprinted : ∀ x ∈ printedText (slice w r.rarg r.rendarg), isgraph x ∨ isblank x := fun x hx =>
    hbytes x (List.mem_of_mem_filter hx)
  have hrun : ∃ q, Loop.run (overstrikeStep w r.rendarg) .fuel (r.rendarg - r.rarg + 1) (p, r.rarg) =
      .ok q ∧ StrikeInvariant w r.rendarg p (printedText (slice w r.rarg r.rendarg)) q r.rendarg := by
    obtain hlt | hle := Nat.lt_or_ge r.rendarg r.rarg
    · -- An argument cannot end before its beginning, but this does not matter here.
      have hdone : overstrikeStep w r.rendarg (p, r.rarg) = .ok (.done p) := if_pos hlt.le
      refine ⟨p, ?_, .inl ⟨?_, rfl⟩⟩
      · rw [Loop.run_succ, hdone]
        rfl
      · rw [slice, Nat.sub_eq_zero_of_le hlt.le]
        rfl
    · have hspec := @overstrikeRun_spec w [] p p r.rarg r.rendarg hs hp.struck hpos hle hcp
        (.inl ⟨rfl, rfl⟩) (hfits.bytes hbytes) (r.rendarg - r.rarg + 1) (by omega)
      rw [List.nil_append] at hspec
      exact hspec
  obtain ⟨q, hq, hI⟩ := hrun
  refine ⟨trimOverstrike q, ?_, hI.isolated hp hprinted ?_ hfits⟩
  · rw [hword, overstrikeEscape, hq]
    rfl
  · -- The last byte of the argument.
    intro hbackslash hne heq
    have hlt : r.rarg < r.rendarg := by
      refine Nat.lt_of_not_le fun hle => hne ?_
      rw [slice, Nat.sub_eq_zero_of_le hle]
      rfl
    have hsplit : slice w r.rarg r.rendarg = slice w r.rarg (r.rendarg - 1) ++ ['\\'] := by
      rw [slice_append w (Nat.le_sub_one_of_lt hlt) (Nat.sub_le _ 1), ← heq,
        ← slice_succ (by omega), Nat.sub_add_cancel (Nat.zero_lt_of_lt hlt)]
    rw [hsplit] at hbackslash
    exact hbackslash List.getLast?_concat

/-- The device `ascii` with a text in the buffer, and a write position. -/
def asciiText (text : CStr) (col : Nat) : Termp :=
  { asciiInit fun _ => none with
    tcol := { buf := charAt text, lastcol := text.length, col := 0, rmargin := 0, offset := 0,
              taboff := 0 }
    col := col }

/-- Behind a blank, a letter with a blank struck over it. -/
theorem overstrike_isolated_blank : ∃ p',
    wordEscape "\\o'a '".toList (asciiText "x ".toList 2) ⟨.OVERSTRIKE, 0, 1, 3, 5, 6⟩ = .ok p' ∧
      Isolated (asciiText "x ".toList 2) p' (widest (asciiText "x ".toList 2) (printedText "a ".toList)) := by
  have hready : StrikeReady (asciiText "x ".toList 2) := ⟨Nat.le_refl _, rfl, rfl, rfl, rfl⟩
  have hbytes : ∀ x ∈ ['a', ' '], isgraph x ∨ isblank x :=
    List.forall_mem_cons.mpr ⟨.inl (by decide), List.forall_mem_singleton.mpr (.inr (by decide))⟩
  have hfits : StrikeFits (asciiText "x ".toList 2) ['a', ' '] :=
    .behind rfl ⟨'a', by decide, by decide⟩ (by decide)
  exact @overstrike_isolated "\\o'a '".toList _ ⟨.OVERSTRIKE, 0, 1, 3, 5, 6⟩ 0 (by decide) rfl
    (by decide +kernel) rfl hready hbytes hfits

/-- **Overwriting.** A character printed before the end of the buffer replaces the one there. -/
theorem overstrike_isolated_false :
    mandocEscape "\\o'x'".toList 0 = .ok ⟨.OVERSTRIKE, 0, 1, 3, 4, 5⟩ ∧
      StrikeReady (asciiText "ab".toList 1) ∧
      ¬ ∃ p', wordEscape "\\o'x'".toList (asciiText "ab".toList 1) ⟨.OVERSTRIKE, 0, 1, 3, 4, 5⟩ = .ok p' ∧
        ∀ k, k < (asciiText "ab".toList 1).tcol.lastcol →
          p'.tcol.buf k = (asciiText "ab".toList 1).tcol.buf k := by
  refine ⟨by decide +kernel, ⟨by decide, rfl, rfl, rfl, rfl⟩, ?_⟩
  rintro ⟨p', heq, hall⟩
  have hcell : (wordEscape "\\o'x'".toList (asciiText "ab".toList 1) ⟨.OVERSTRIKE, 0, 1, 3, 4, 5⟩).map
      (fun p' => p'.tcol.buf 1) = .ok 'x' := by decide +kernel
  rw [heq] at hcell
  have hx : p'.tcol.buf 1 = 'x' := Except.ok.inj hcell
  exact absurd (hx.symm.trans (hall 1 (by decide))) (by decide)

end

end Mandoc
