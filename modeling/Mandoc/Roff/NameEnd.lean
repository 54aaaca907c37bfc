import Mandoc.Roff.Getname

/-!
# The byte behind an identifier

The requests `.ds`, `.nr`, `.rn`, `.als`, and `.rm` look at the byte behind an identifier, because
they must not be executed if an escape sequence has ended it.  If the identifier became shorter
while it was read, that byte is a blank, whatever has ended the identifier.  Besides, `.rn` and
`.als` do not look at the byte behind their second identifier.
-/

namespace Mandoc

/-! ## §1 What is expected -/

/-- The requests stop at the identifier at this place: `.ds`, `.nr`, `.rn`, and `.als` do nothing,
    and the loop of `.rm` ends behind it. -/
def StopsAt (buf : CStr) (pos : Nat) (name : CStr) : Prop :=
  ∀ (X : Type) (env : Env X) (a : Args X), a.buf.buf = buf → a.pos = pos →
    roffDs a = .ok (a.out ROFF_IGN a.r) ∧ roffNr env a = .ok (a.out ROFF_IGN a.r) ∧
    roffRn a = .ok (a.out ROFF_IGN a.r) ∧ roffAls a = .ok (a.out ROFF_IGN a.r) ∧
    ∀ (steps : Nat) (r : Roff X), rmLoop (steps + 1) r buf pos = .ok (roffSetstr r name none 0)

/-- The requests with two identifiers stop at the second one. -/
def StopsAtSecond (buf : CStr) (pos : Nat) : Prop :=
  ∀ (X : Type) (a : Args X), a.buf.buf = buf → a.pos = pos →
    roffRn a = .ok (a.out ROFF_IGN a.r) ∧ roffAls a = .ok (a.out ROFF_IGN a.r)

/-- The next word behind an identifier. -/
def nextText (rest : CStr) : CStr := rest.dropWhile (· = ' ')

/-- The state after reading an identifier tells what is needed. -/
structure Told (buf : CStr) (pos : Nat) (name tail rest : CStr) (st : GetName) : Prop where
  /-- The name is at its place. -/
  namesz : st.namesz = name.length
  name_eq : st.name pos = name
  /-- The parse point is behind the identifier, what has ended it, and blanks. -/
  cp_le : st.cp ≤ buf.length
  cp : buf.drop st.cp = nextText rest
  /-- The text before the identifier and the text at the parse point are as they were. -/
  before : st.buf.take pos = buf.take pos
  behind : st.buf.drop st.cp = buf.drop st.cp
  /-- The byte behind the name is the one that has ended the identifier. -/
  byte : charAt st.buf (pos + st.namesz) = charAt tail 0
  /-- A first identifier that is ended by an escape sequence. -/
  first : charAt tail 0 = '\\' → StopsAt buf pos name
  /-- A second identifier that is ended by an escape sequence. -/
  second : charAt tail 0 = ' ' → ∀ {name₂ tail₂ rest₂ : CStr} {reduced₂ : Bool},
    Identifier (nextText rest) name₂ reduced₂ tail₂ rest₂ → charAt tail₂ 0 = '\\' →
      StopsAtSecond buf pos

/-- There is an identifier, and `roff_getname()` tells what is needed. -/
def NameTold (buf : CStr) (pos : Nat) : Prop :=
  ∃ name reduced tail rest, Identifier (buf.drop pos) name reduced tail rest ∧
    ∃ st, roffGetname buf pos = .ok st ∧ Told buf pos name tail rest st

/-- A text that begins with an identifier that is not reduced or is ended by a blank, and where a
    second identifier behind a blank is empty if an escape sequence ends it. -/
def Tellable (text : CStr) : Prop :=
  ∃ name reduced tail rest, Identifier text name reduced tail rest ∧
    (reduced = true → charAt tail 0 = ' ') ∧
    (charAt tail 0 = ' ' → ∀ {name₂ tail₂ rest₂ : CStr} {reduced₂ : Bool},
      Identifier (nextText rest) name₂ reduced₂ tail₂ rest₂ → charAt tail₂ 0 = '\\' → name₂ = [])

/-! ## §2 The byte behind the name -/

/-- The byte behind the name is a blank if the name became shorter. -/
theorem charAt_compacted (pre name : CStr) (k : Nat) (tail : CStr) :
    charAt (compacted pre name k ++ tail) (pre.length + name.length) =
      if k = 0 then charAt tail 0 else ' ' := by
  have hfront : compacted pre name k ++ tail = (pre ++ name) ++ (List.replicate k ' ' ++ tail) := by
    simp [compacted]
  have h := charAt_append (pre ++ name) (List.replicate k ' ' ++ tail) 0
  rw [List.length_append, Nat.add_zero] at h
  rw [hfront, h]
  cases k with
  | zero => rfl
  | succ k => rfl

theorem slice_compacted (pre name : CStr) (k : Nat) (tail : CStr) :
    slice (compacted pre name k ++ tail) pre.length (pre.length + name.length) = name := by
  have hfront : compacted pre name k ++ tail = pre ++ (name ++ (List.replicate k ' ' ++ tail)) := by
    simp [compacted]
  rw [slice, hfront, List.drop_left, Nat.add_sub_cancel_left, List.take_left]

theorem take_compacted (pre name : CStr) (k : Nat) (tail : CStr) :
    (compacted pre name k ++ tail).take pre.length = pre := by
  have hfront : compacted pre name k ++ tail = pre ++ (name ++ (List.replicate k ' ' ++ tail)) := by
    simp [compacted]
  rw [hfront, List.take_left]

/-! ## §3 The requests -/

section

variable {buf : CStr} {pos : Nat} {st st₂ : GetName}

/-- If the byte behind the name is a backslash, the requests stop. -/
theorem stopsAt_of_byte (hpos : charAt buf pos ≠ NUL) (hget : roffGetname buf pos = .ok st)
    (hbyte : charAt st.buf (pos + st.namesz) = '\\') : StopsAt buf pos (st.name pos) := by
  have hends : endsName (charAt st.buf (pos + st.namesz)) = true := by
    rw [hbyte]
    decide
  intro X env a hbuf hapos
  subst hbuf hapos
  refine ⟨?_, ?_, ?_, ?_, ?_⟩
  · rw [roffDs, if_neg hpos, hget, Res.ok_bind]
    dsimp only
    rw [if_pos hbyte]
    rfl
  · rw [roffNr, if_neg hpos, hget, Res.ok_bind, if_pos hends]
    rfl
  · rw [roffRn, if_neg hpos, hget, Res.ok_bind, hends, Bool.true_or, if_pos rfl]
    rfl
  · rw [roffAls, if_neg hpos, hget, Res.ok_bind, hends, Bool.true_or, if_pos rfl]
    rfl
  · intro steps r
    rw [rmLoop, if_neg hpos, hget, Res.ok_bind]
    dsimp only
    rw [if_pos hends]
    rfl

/-- If the second name is empty, the requests with two identifiers stop. -/
theorem stopsAtSecond_of_empty (hpos : charAt buf pos ≠ NUL) (hget : roffGetname buf pos = .ok st)
    (hget₂ : roffGetname st.buf st.cp = .ok st₂) (hempty : st₂.namesz = 0) :
    StopsAtSecond buf pos := by
  intro X a hbuf hapos
  subst hbuf hapos
  constructor
  · rw [roffRn, if_neg hpos, hget, Res.ok_bind]
    split
    · rfl
    · rw [hget₂, Res.ok_bind, if_pos hempty]
      rfl
  · rw [roffAls, if_neg hpos, hget, Res.ok_bind]
    split
    · rfl
    · rw [hget₂, Res.ok_bind, if_pos hempty]
      rfl

/-- The line `.als` in a new parser. -/
def alsLine (buf : CStr) (pos : Nat) : Args Unit where
  r := roffAlloc ()
  tok := .ROFF_als
  buf := Buf.ofStr buf
  ln := 1
  ppos := 0
  pos := pos
  offs := 0

/-- If the second name is not empty, a new parser gets a definition. -/
theorem not_stopsAtSecond (hpos : charAt buf pos ≠ NUL) (hget : roffGetname buf pos = .ok st)
    (hblank : charAt st.buf (pos + st.namesz) = ' ') (hcp : charAt st.buf st.cp ≠ NUL)
    (hget₂ : roffGetname st.buf st.cp = .ok st₂) (hname : st₂.namesz ≠ 0) :
    ¬ StopsAtSecond buf pos := by
  intro hstops
  obtain ⟨-, hals⟩ := hstops Unit (alsLine buf pos) rfl rfl
  have hends : (endsName (charAt st.buf ((alsLine buf pos).pos + st.namesz)) ||
      decide (charAt st.buf st.cp = NUL)) = false := by
    rw [show (alsLine buf pos).pos = pos from rfl, hblank, decide_eq_false hcp]
    decide
  have hget' : roffGetname (alsLine buf pos).buf.buf (alsLine buf pos).pos = .ok st := hget
  have hpos' : ¬ charAt (alsLine buf pos).buf.buf (alsLine buf pos).pos = NUL := hpos
  rw [roffAls, if_neg hpos', hget', Res.ok_bind, hends, if_neg (by simp), hget₂, Res.ok_bind,
    if_neg hname] at hals
  have hr := congrArg (fun out : Out Unit => out.r.strtab.length) (Except.ok.inj hals)
  simp [Args.out, roffSetstr, roffSetstrn, roffAlloc, alsLine] at hr

end

/-! ## §4 Exactly these identifiers -/

/-- Reading on at the next word. -/
theorem roffGetname_next {st : GetName} (hs : NUL ∉ st.buf) (hcp : st.cp ≤ st.buf.length)
    {name tail rest : CStr} {reduced : Bool}
    (h : Identifier (st.buf.drop st.cp) name reduced tail rest) :
    ∃ st₂, roffGetname st.buf st.cp = .ok st₂ ∧ st₂.namesz = name.length := by
  have hlen : (st.buf.take st.cp).length = st.cp := List.length_take_of_le hcp
  have hpre : NUL ∉ st.buf.take st.cp := fun hmem => hs (List.mem_of_mem_take hmem)
  have hrest : NUL ∉ st.buf.drop st.cp := fun hmem => hs (List.mem_of_mem_drop hmem)
  obtain ⟨k, cp, -, heq, -⟩ := roffGetname_eq h hpre hrest
  rw [List.take_append_drop, hlen] at heq
  exact ⟨_, heq, rfl⟩

/-- What is known about the state behind an identifier. -/
structure Scanned (buf : CStr) (pos : Nat) (name : CStr) (reduced : Bool) (tail rest : CStr)
    (st : GetName) : Prop where
  get : roffGetname buf pos = .ok st
  nulFree : NUL ∉ st.buf
  namesz : st.namesz = name.length
  name_eq : st.name pos = name
  cp_le : st.cp ≤ buf.length
  cp_le' : st.cp ≤ st.buf.length
  drop : buf.drop st.cp = nextText rest
  drop' : st.buf.drop st.cp = nextText rest
  before : st.buf.take pos = buf.take pos
  byte : charAt st.buf (pos + st.namesz) = if reduced then ' ' else charAt tail 0

theorem exists_scanned {buf : CStr} {pos : Nat} (hs : NUL ∉ buf) (hpos : pos ≤ buf.length)
    {name tail rest : CStr} {reduced : Bool}
    (h : Identifier (buf.drop pos) name reduced tail rest) :
    ∃ st, Scanned buf pos name reduced tail rest st := by
  -- The text in front of the name contains no NUL, so the name is found as if it stood alone.
  have hlen : (buf.take pos).length = pos := List.length_take_of_le hpos
  have hpre : NUL ∉ buf.take pos := fun hmem => hs (List.mem_of_mem_take hmem)
  have htext : NUL ∉ buf.drop pos := fun hmem => hs (List.mem_of_mem_drop hmem)
  obtain ⟨used, hused, -, -⟩ := h.exists_append
  have htail : NUL ∉ tail := fun hmem => htext (hused ▸ List.mem_append_right used hmem)
  have hname := h.nul_notMem_name htext
  obtain ⟨k, cp, hk, heq, hsame, hcp, hdrop, hdrop'⟩ := roffGetname_eq h hpre htext
  rw [List.take_append_drop, hlen] at heq
  rw [List.take_append_drop] at hsame hcp hdrop
  refine ⟨_, heq, ?_, rfl, ?_, hcp, hsame ▸ hcp, hdrop, hdrop', ?_, ?_⟩
  · intro hmem
    rcases List.mem_append.mp hmem with hfront | htail'
    · exact nul_notMem_compacted hpre hname k hfront
    · exact htail htail'
  · have hslice := slice_compacted (buf.take pos) name k tail
    rw [hlen] at hslice
    exact hslice
  · have htake := take_compacted (buf.take pos) name k tail
    rw [hlen] at htake
    exact htake
  · have hbyte := charAt_compacted (buf.take pos) name k tail
    rw [hlen] at hbyte
    rw [hbyte]
    -- The byte behind the name is a blank if and only if a sequence was reduced.
    cases reduced with
    | true => rw [if_neg (Nat.ne_of_gt (hk.mp rfl)), if_pos rfl]
    | false =>
      have hzero : k = 0 := by
        by_contra hne
        exact absurd (hk.mpr (Nat.pos_of_ne_zero hne)) (by simp)
      rw [if_pos hzero, if_neg (by simp)]

/-- Behind an end with a visible byte, the line goes on. -/
theorem charAt_ne_nul_of_tail {buf : CStr} {pos : Nat} (hs : NUL ∉ buf)
    {name tail rest : CStr} {reduced : Bool}
    (h : Identifier (buf.drop pos) name reduced tail rest) (htail : charAt tail 0 ≠ NUL) :
    charAt buf pos ≠ NUL := by
  apply charAt_ne_nul hs
  by_contra hge
  exact h.text_ne_nil htail (List.drop_eq_nil_of_le (Nat.le_of_not_lt hge))

/-- What the requests rely on implies the condition. -/
theorem NameTold.tellable {buf : CStr} {pos : Nat} (hs : NUL ∉ buf) (hpos : pos ≤ buf.length)
    (h : NameTold buf pos) : Tellable (buf.drop pos) := by
  obtain ⟨name, reduced, tail, rest, hident, st, hget, told⟩ := h
  obtain ⟨st', scan⟩ := exists_scanned hs hpos hident
  obtain rfl : st = st' := Except.ok.inj (hget.symm.trans scan.get)
  refine ⟨name, reduced, tail, rest, hident, ?_, ?_⟩
  · intro hred
    have hbyte := told.byte.symm.trans scan.byte
    rwa [if_pos hred] at hbyte
  · intro hblank name₂ tail₂ rest₂ reduced₂ hident₂ hesc
    by_contra hne
    have hidentSt := hident₂
    rw [← scan.drop'] at hidentSt
    obtain ⟨st₂, hget₂, hsize₂⟩ := roffGetname_next scan.nulFree scan.cp_le' hidentSt
    have hnul : charAt tail 0 ≠ NUL := by
      rw [hblank]
      decide
    have hnul₂ : charAt tail₂ 0 ≠ NUL := by
      rw [hesc]
      decide
    have hsize : st₂.namesz ≠ 0 := by
      rw [hsize₂]
      exact fun hzero => hne (List.length_eq_zero_iff.mp hzero)
    exact not_stopsAtSecond (charAt_ne_nul_of_tail hs hident hnul) hget (told.byte.trans hblank)
      (charAt_ne_nul_of_tail scan.nulFree hidentSt hnul₂) hget₂ hsize
      (told.second hblank hident₂ hesc)

/-- The condition suffices. -/
theorem Tellable.nameTold {buf : CStr} {pos : Nat} (hs : NUL ∉ buf) (hpos : pos ≤ buf.length)
    (h : Tellable (buf.drop pos)) : NameTold buf pos := by
  obtain ⟨name, reduced, tail, rest, hident, hred, hsecond⟩ := h
  obtain ⟨st, scan⟩ := exists_scanned hs hpos hident
  have hbyte : charAt st.buf (pos + st.namesz) = charAt tail 0 := by
    rw [scan.byte]
    split
    · next htrue => exact (hred htrue).symm
    · rfl
  refine ⟨name, reduced, tail, rest, hident, st, scan.get, ?_⟩
  refine ⟨scan.namesz, scan.name_eq, scan.cp_le, scan.drop, scan.before,
    scan.drop'.trans scan.drop.symm, hbyte, ?_, ?_⟩
  · intro hesc
    have hnul : charAt tail 0 ≠ NUL := by
      rw [hesc]
      decide
    rw [← scan.name_eq]
    exact stopsAt_of_byte (charAt_ne_nul_of_tail hs hident hnul) scan.get (hbyte.trans hesc)
  · intro hblank name₂ tail₂ rest₂ reduced₂ hident₂ hesc
    have hempty := hsecond hblank hident₂ hesc
    rw [← scan.drop'] at hident₂
    obtain ⟨st₂, hget₂, hsize₂⟩ := roffGetname_next scan.nulFree scan.cp_le' hident₂
    have hnul : charAt tail 0 ≠ NUL := by
      rw [hblank]
      decide
    exact stopsAtSecond_of_empty (charAt_ne_nul_of_tail hs hident hnul) scan.get hget₂
      (hsize₂.trans (congrArg List.length hempty))

/-- `roff_getname()` tells how an identifier has ended, and the requests stop at escape sequences,
    if and only if the identifier is not reduced or is ended by a blank, and no escape sequence
    ends a second identifier. -/
theorem nameTold_iff {buf : CStr} {pos : Nat} (hs : NUL ∉ buf) (hpos : pos ≤ buf.length) :
    NameTold buf pos ↔ Tellable (buf.drop pos) :=
  ⟨fun h => h.tellable hs hpos, fun h => h.nameTold hs hpos⟩

/-- The identifier `a\b`, written with two backslashes, and a second identifier. -/
theorem nameTold_reduced : NameTold ['a', '\\', '\\', 'b', ' ', 'f', 'o', 'o'] 0 := by
  have hident : Identifier ['a', '\\', '\\', 'b', ' ', 'f', 'o', 'o'] ['a', '\\', 'b'] true
      [' ', 'f', 'o', 'o'] ['f', 'o', 'o'] := by
    have hb : Identifier ['b', ' ', 'f', 'o', 'o'] ['b'] false [' ', 'f', 'o', 'o']
        ['f', 'o', 'o'] := .plain (by decide) (by decide) (by decide) (.done (.blank _))
    exact .plain (by decide) (by decide) (by decide) (.reduce 0 (by decide) (by decide) hb)
  have hident₂ : Identifier ['f', 'o', 'o'] ['f', 'o', 'o'] false [] [] := by
    refine .plain (by decide) (by decide) (by decide) (.plain (by decide) (by decide) (by decide) ?_)
    exact .plain (by decide) (by decide) (by decide) (.done .nul)
  refine (nameTold_iff (by decide) (by decide)).mpr ⟨_, _, _, _, hident, fun _ => rfl, ?_⟩
  intro _ name₂ tail₂ rest₂ reduced₂ h hesc
  obtain ⟨-, -, rfl, -⟩ := hident₂.unique h (by decide)
  exact absurd hesc (by decide)

/-- The identifier `a\b` is ended by an em dash, but the byte behind it is a blank. -/
theorem not_nameTold_reduced :
    ¬ NameTold ['a', '\\', '\\', 'b', '\\', '(', 'e', 'm', ' ', 'f', 'o', 'o'] 0 := by
  intro h
  have hend : Ending ['\\', '(', 'e', 'm', ' ', 'f', 'o', 'o'] [' ', 'f', 'o', 'o'] :=
    .escape (e := ⟨.SPECIAL, 0, 1, 2, 4, 4⟩) (by decide) (by decide +kernel) (by decide) (by decide)
  have hident : Identifier ['a', '\\', '\\', 'b', '\\', '(', 'e', 'm', ' ', 'f', 'o', 'o']
      ['a', '\\', 'b'] true ['\\', '(', 'e', 'm', ' ', 'f', 'o', 'o'] [' ', 'f', 'o', 'o'] := by
    have hb : Identifier ['b', '\\', '(', 'e', 'm', ' ', 'f', 'o', 'o'] ['b'] false
        ['\\', '(', 'e', 'm', ' ', 'f', 'o', 'o'] [' ', 'f', 'o', 'o'] :=
      .plain (by decide) (by decide) (by decide) (.done hend)
    exact .plain (by decide) (by decide) (by decide) (.reduce 0 (by decide) (by decide) hb)
  obtain ⟨name, reduced, tail, rest, h, hred, -⟩ := h.tellable (by decide) (by decide)
  obtain ⟨-, rfl, rfl, -⟩ := hident.unique h (by decide)
  exact absurd (hred rfl) (by decide)

end Mandoc
