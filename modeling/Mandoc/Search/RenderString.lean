import Mandoc.Lib.SizedBuffer
import Mandoc.Term.Glyphs
import Mandoc.Roff.EscapeArgs
import Mandoc.Roff.EscapeSafety

/-!
# Rendering strings for the database

`utf8()` and `render_string()` of `mandocdb.c`.  A string that contains escape sequences or special
bytes is copied, and the copy contains the characters that the sequences stand for.  The size of
the copy is estimated by the length of the string and corrected for each character.

- `renderString_result` says that the function returns unless `mandoc_escape()` fails, that it does
  not write outside of the copy, and when there is no copy.
- `Rendered.onlyFromEscapes` says which escape sequences leave bytes that have to be replaced.
-/

namespace Mandoc

/-! ## §1 The program -/

/-- `utf8()`: the bytes of a code point, none if it is not a Unicode scalar value. -/
def utf8 (cp : Nat) : CStr :=
  if cp ≤ 0x7f then [Char.ofNat cp]
  else if cp ≤ 0x7ff then
    [Char.ofNat ((cp >>> 6 &&& 31) ||| 192), Char.ofNat ((cp &&& 63) ||| 128)]
  -- Reject UTF-16 surrogates.
  else if 0xd800 ≤ cp ∧ cp ≤ 0xdfff then []
  else if cp ≤ 0xffff then
    [Char.ofNat ((cp >>> 12 &&& 15) ||| 224), Char.ofNat ((cp >>> 6 &&& 63) ||| 128),
      Char.ofNat ((cp &&& 63) ||| 128)]
  else if cp ≤ 0x10ffff then
    [Char.ofNat ((cp >>> 18 &&& 7) ||| 240), Char.ofNat ((cp >>> 12 &&& 63) ||| 128),
      Char.ofNat ((cp >>> 6 &&& 63) ||| 128), Char.ofNat ((cp &&& 63) ||| 128)]
  else []

/-- `res`: the bytes that have to be replaced. -/
def resBytes : CStr := ['\\', '\t', ASCII_NBRSP, ASCII_HYPH, ASCII_BREAK]

/-- The code point of an escape sequence, `-1` if it is not a character. -/
def escapeCp (s : CStr) (e : EscResult) : Res Int :=
  match e.rval with
  | .UNICODE => do mcharsNum2uc (← readArg s (e.rarg + 1) e.rendarg)
  | .NUMBERED => do return mcharsNum2char (← readArg s e.rarg e.rendarg)
  | .SPECIAL => do return mcharsSpec2cp (← readArg s e.rarg e.rendarg)
  | _ => return -1

/-- The rendering of a code point as either UTF-8 or ASCII, nothing if it is ignored. -/
def renderCp (writeUtf8 : Bool) (unicode : Int) : Option CStr :=
  if unicode ≤ 0 then none
  else if writeUtf8 then
    if utf8 unicode.toNat = [] then none else some (utf8 unicode.toNat)
  else
    let addcp := mcharsUc2str unicode.toNat
    some (if charAt addcp 0 = ASCII_NBRSP then [' '] else addcp)

/-- Why `render_string()` does not return. -/
inductive RenderFault where
  /-- A byte was written behind the end of the allocated memory. -/
  | overflow
  /-- A fault of another kind. -/
  | other (fault : Fault)
deriving DecidableEq, Repr

/-- The result of a function that may write too much. -/
abbrev RenderRes := Except RenderFault

/-- The result of a write. -/
def intoDst {β : Type} : Option β → RenderRes β
  | none => .error .overflow
  | some b => .ok b

/-- The result of a function that does not write. -/
def called {β : Type} : Res β → RenderRes β
  | .error fault => .error (.other fault)
  | .ok b => .ok b

@[simp] theorem RenderRes.ok_bind {α β : Type} (a : α) (f : α → RenderRes β) :
    ((Except.ok a : RenderRes α) >>= f) = f a := rfl

/-- The local variables `dst` and `ssz`; `dsz` is the number of bytes written. -/
structure RenderState where
  dst : Option (SizedBuffer Char)
  ssz : Nat

/-- Make sure that there is a destination buffer. -/
def makeDst (s : CStr) (scp : Nat) (st : RenderState) : RenderRes (SizedBuffer Char) :=
  match st.dst with
  | some dst => .ok dst
  | none => intoDst ((SizedBuffer.alloc (st.ssz + 1)).puts (s.take scp))

/-- The main loop of `render_string()`, with a bound on the number of iterations. -/
def renderLoop (writeUtf8 : Bool) (s : CStr) : Nat → Nat → RenderState → RenderRes RenderState
  | 0, _, _ => .error (.other .fuel)
  | n + 1, scp, st =>
    if s.length ≤ scp then
      .ok st
    -- Note that strchr(3) finds the terminating NUL, too.
    else if charAt s scp ∉ resBytes ∧ charAt s scp ≠ NUL then
      -- Leave normal characters unchanged.
      match st.dst with
      | none => renderLoop writeUtf8 s n (scp + 1) st
      | some dst => do
        let dst ← intoDst (dst.put (charAt s scp))
        renderLoop writeUtf8 s n (scp + 1) { st with dst := some dst }
    else do
      let dst ← makeDst s scp st
      if charAt s scp = '\t' ∨ charAt s scp = ASCII_NBRSP then
        let dst ← intoDst (dst.put ' ')
        renderLoop writeUtf8 s n (scp + 1) { st with dst := some dst }
      else if charAt s scp = ASCII_HYPH then
        let dst ← intoDst (dst.put '-')
        renderLoop writeUtf8 s n (scp + 1) { st with dst := some dst }
      else if charAt s scp = ASCII_BREAK then
        renderLoop writeUtf8 s n (scp + 1) { st with dst := some dst }
      else if charAt s scp ≠ '\\' then
        .error (.other .abort)
      else
        -- Found an escape sequence: ignore everything except characters.
        let e ← called (mandocEscape s scp)
        let unicode ← called (escapeCp s e)
        match renderCp writeUtf8 unicode with
        | none => renderLoop writeUtf8 s n e.rend { st with dst := some dst }
        | some addcp =>
          -- Copy the rendered glyph into the stream.
          let ssz := st.ssz + addcp.length
          let dst ← intoDst ((dst.realloc (ssz + 1)).puts addcp)
          renderLoop writeUtf8 s n e.rend ⟨some dst, ssz⟩

/-- Trim trailing white space: the loop that decreases `*psz`. -/
def trimBlanks (public_ : CStr) : Nat → Nat
  | 0 => 0
  | psz + 1 => if charAt public_ psz = ' ' then trimBlanks public_ psz else psz + 1

/-- What `render_string()` leaves behind: the copy, or `NULL` if it has returned 0, and `*psz`. -/
structure RenderOut where
  dst : Option (SizedBuffer Char)
  psz : Nat

/-- `render_string()`, for a string and its length. -/
def renderString (writeUtf8 : Bool) (s : CStr) : RenderRes RenderOut := do
  let st ← renderLoop writeUtf8 s (s.length + 1) 0 ⟨none, s.length⟩
  match st.dst with
  | none => return ⟨none, trimBlanks s s.length⟩
  | some dst =>
    let psz := trimBlanks dst.written dst.written.length
    let dst ← intoDst ((dst.cut psz).put NUL)
    return ⟨some dst, psz⟩

/-- The string that `*public` points to, up to `*psz`. -/
def RenderOut.text (out : RenderOut) (s : CStr) : CStr :=
  match out.dst with
  | none => s.take out.psz
  | some dst => dst.written.take out.psz

/-! ## §2 The source and its rendering -/

/-- The parts of a string: bytes, and escape sequences with the code points they stand for. -/
inductive Item where
  | byte (c : Char)
  | escape (unicode : Int)
deriving DecidableEq, Repr

/-- The parts of a string from an index on, with a bound on their number. -/
def itemsFrom (s : CStr) : Nat → Nat → Res (List Item)
  | 0, _ => .error .fuel
  | n + 1, i =>
    if s.length ≤ i then .ok []
    else if charAt s i ≠ '\\' then do
      let items ← itemsFrom s n (i + 1)
      return .byte (charAt s i) :: items
    else do
      let e ← mandocEscape s i
      let unicode ← escapeCp s e
      let items ← itemsFrom s n e.rend
      return .escape unicode :: items

/-- The parts of a string. -/
def sourceItems (s : CStr) : Res (List Item) := itemsFrom s (s.length + 1) 0

/-- What a part of the string becomes. -/
def Item.render (writeUtf8 : Bool) : Item → CStr
  | .byte c =>
    if c = '\t' ∨ c = ASCII_NBRSP then [' ']
    else if c = ASCII_HYPH then ['-']
    else if c = ASCII_BREAK then []
    else [c]
  | .escape unicode => (renderCp writeUtf8 unicode).getD []

/-- What several parts of the string become. -/
def renderItems (writeUtf8 : Bool) (items : List Item) : CStr :=
  items.flatMap (Item.render writeUtf8)

/-! ## §3 The copy -/

/-- What is known in front of an index, where `out` has been rendered: there is a copy as soon as
    there was something to replace, and then there is room for the rest of the string. -/
def RenderState.Holds (s : CStr) (i : Nat) (out : CStr) (st : RenderState) : Prop :=
  match st.dst with
  | none => st.ssz = s.length ∧ out = s.take i ∧ ∀ c ∈ s.take i, c ∉ resBytes
  | some dst => dst.written = out ∧ dst.size = st.ssz + 1 ∧
      out.length + (s.length - i) ≤ st.ssz ∧ ∃ c ∈ s, c ∈ resBytes

section

variable (writeUtf8 : Bool) {s : CStr} {i ssz : Nat} {out : CStr} {st : RenderState}
  {dst : SizedBuffer Char}

theorem RenderState.holds_start (s : CStr) :
    RenderState.Holds s 0 [] ⟨none, s.length⟩ :=
  ⟨rfl, rfl, by simp⟩

/-- The copy has room for another byte of the string. -/
theorem holds_put (c : Char) (h : RenderState.Holds s i out ⟨some dst, ssz⟩) (hi : i < s.length) :
    ∃ dst', intoDst (dst.put c) = .ok dst' ∧
      RenderState.Holds s (i + 1) (out ++ [c]) ⟨some dst', ssz⟩ := by
  obtain ⟨hwritten, hsize, hroom, hspecial⟩ := h
  dsimp only at hsize hroom
  obtain ⟨dst', hput, hsize', hwritten'⟩ := SizedBuffer.exists_put (b := dst) (a := c) (by
    rw [hwritten, hsize]
    omega)
  refine ⟨dst', congrArg intoDst hput, by rw [hwritten', hwritten], hsize'.trans hsize, ?_,
    hspecial⟩
  rw [List.length_append, List.length_singleton]
  dsimp only
  omega

theorem holds_drop (h : RenderState.Holds s i out ⟨some dst, ssz⟩) {j : Nat} (hj : i ≤ j) :
    RenderState.Holds s j out ⟨some dst, ssz⟩ := by
  obtain ⟨hwritten, hsize, hroom, hspecial⟩ := h
  refine ⟨hwritten, hsize, ?_, hspecial⟩
  dsimp only at hroom ⊢
  omega

/-- The copy is made longer for a rendering. -/
theorem holds_puts (add : CStr) (h : RenderState.Holds s i out ⟨some dst, ssz⟩) {j : Nat}
    (hj : i ≤ j) :
    ∃ dst', intoDst ((dst.realloc (ssz + add.length + 1)).puts add) = .ok dst' ∧
      RenderState.Holds s j (out ++ add) ⟨some dst', ssz + add.length⟩ := by
  obtain ⟨hwritten, hsize, hroom, hspecial⟩ := h
  dsimp only at hsize hroom
  have hkept : (dst.realloc (ssz + add.length + 1)).written = out := by
    rw [SizedBuffer.realloc_written (by rw [hsize]; omega), hwritten]
  obtain ⟨dst', hputs, hsize', hwritten'⟩ :=
    @SizedBuffer.exists_puts _ (dst.realloc (ssz + add.length + 1)) add (by
      rw [hkept, SizedBuffer.realloc_size]
      omega)
  refine ⟨dst', congrArg intoDst hputs, by rw [hwritten', hkept], hsize', ?_, hspecial⟩
  rw [List.length_append]
  dsimp only
  omega

/-- Something has to be replaced: now there is a copy of what has been passed. -/
theorem holds_makeDst (h : st.Holds s i out) (hi : i < s.length) (hc : charAt s i ∈ resBytes) :
    ∃ dst, makeDst s i st = .ok dst ∧ RenderState.Holds s i out ⟨some dst, st.ssz⟩ := by
  obtain ⟨dst, ssz⟩ := st
  cases dst with
  | some dst => exact ⟨dst, rfl, h⟩
  | none =>
    obtain ⟨hssz, hout, -⟩ := h
    dsimp only at hssz
    have hlen : (s.take i).length = i := List.length_take_of_le hi.le
    obtain ⟨dst, hputs, hsize, hwritten⟩ :=
      @SizedBuffer.exists_puts _ (SizedBuffer.alloc (ssz + 1)) (s.take i) (by
        rw [SizedBuffer.alloc_written, SizedBuffer.alloc_size, List.length_nil, hlen]
        omega)
    refine ⟨dst, congrArg intoDst hputs, ?_, hsize, ?_, charAt s i, ?_, hc⟩
    · rw [hwritten, SizedBuffer.alloc_written, List.nil_append, hout]
    · rw [hout, hlen]
      dsimp only
      omega
    · rw [charAt_eq_getElem hi]
      exact List.getElem_mem hi

theorem take_succ_charAt (hi : i < s.length) : s.take (i + 1) = s.take i ++ [charAt s i] := by
  rw [List.take_succ_eq_append_getElem hi, charAt_eq_getElem hi]

/-! ## §4 The main loop -/

/-- A byte that is not the beginning of an escape sequence. -/
theorem renderLoop_byte (hs : NUL ∉ s) (h : st.Holds s i out) (hi : i < s.length)
    (hesc : charAt s i ≠ '\\') (n : Nat) :
    ∃ st', renderLoop writeUtf8 s (n + 1) i st = renderLoop writeUtf8 s n (i + 1) st' ∧
      st'.Holds s (i + 1) (out ++ (Item.byte (charAt s i)).render writeUtf8) := by
  have hnul : charAt s i ≠ NUL := charAt_ne_nul hs hi
  have hlt : ¬ s.length ≤ i := Nat.not_le_of_lt hi
  by_cases hres : charAt s i ∈ resBytes
  · -- A special byte: one of the branches of the switch.
    obtain ⟨dst, hdst, hcopy⟩ := holds_makeDst h hi hres
    have hcond : ¬ (charAt s i ∉ resBytes ∧ charAt s i ≠ NUL) := fun hc => hc.1 hres
    rw [renderLoop, if_neg hlt, if_neg hcond, hdst, RenderRes.ok_bind]
    rw [Item.render]
    by_cases hblank : charAt s i = '\t' ∨ charAt s i = ASCII_NBRSP
    · obtain ⟨dst', hput, hholds⟩ := holds_put ' ' hcopy hi
      exact ⟨_, by rw [if_pos hblank, hput, RenderRes.ok_bind], by rw [if_pos hblank]; exact hholds⟩
    by_cases hhyph : charAt s i = ASCII_HYPH
    · obtain ⟨dst', hput, hholds⟩ := holds_put '-' hcopy hi
      exact ⟨_, by rw [if_neg hblank, if_pos hhyph, hput, RenderRes.ok_bind],
        by rw [if_neg hblank, if_pos hhyph]; exact hholds⟩
    have hbreak : charAt s i = ASCII_BREAK := by
      simp only [resBytes, List.mem_cons, List.not_mem_nil, or_false] at hres
      obtain h | h | h | h | h := hres
      · exact absurd h hesc
      · exact absurd (.inl h) hblank
      · exact absurd (.inr h) hblank
      · exact absurd h hhyph
      · exact h
    refine ⟨_, by rw [if_neg hblank, if_neg hhyph, if_pos hbreak], ?_⟩
    rw [if_neg hblank, if_neg hhyph, if_pos hbreak, List.append_nil]
    exact holds_drop hcopy (Nat.le_succ i)
  · -- An ordinary byte: it is copied if there is a copy.
    have hrender : (Item.byte (charAt s i)).render writeUtf8 = [charAt s i] := by
      simp only [resBytes, List.mem_cons, List.not_mem_nil, or_false, not_or] at hres
      obtain ⟨-, htab, hnbrsp, hhyph, hbreak⟩ := hres
      rw [Item.render, if_neg (not_or.mpr ⟨htab, hnbrsp⟩), if_neg hhyph, if_neg hbreak]
    rw [renderLoop, if_neg hlt, if_pos ⟨hres, hnul⟩, hrender]
    obtain ⟨dst, ssz⟩ := st
    cases dst with
    | none =>
      obtain ⟨hssz, rfl, hplain⟩ := h
      refine ⟨_, rfl, hssz, (take_succ_charAt hi).symm, ?_⟩
      rw [take_succ_charAt hi]
      intro c hc
      rcases List.mem_append.mp hc with hc | hc
      · exact hplain c hc
      · rw [List.mem_singleton.mp hc]
        exact hres
    | some dst =>
      obtain ⟨dst', hput, hholds⟩ := holds_put (charAt s i) h hi
      exact ⟨_, by dsimp only; rw [hput, RenderRes.ok_bind], hholds⟩

/-- The part of the loop that is common to all escape sequences. -/
theorem renderLoop_escape_eq (h : st.Holds s i out) (hi : i < s.length)
    (hesc : charAt s i = '\\') (n : Nat) :
    ∃ dst, RenderState.Holds s i out ⟨some dst, st.ssz⟩ ∧
      renderLoop writeUtf8 s (n + 1) i st = (do
        let e ← called (mandocEscape s i)
        let unicode ← called (escapeCp s e)
        match renderCp writeUtf8 unicode with
        | none => renderLoop writeUtf8 s n e.rend ⟨some dst, st.ssz⟩
        | some addcp =>
          let dst ← intoDst ((dst.realloc (st.ssz + addcp.length + 1)).puts addcp)
          renderLoop writeUtf8 s n e.rend ⟨some dst, st.ssz + addcp.length⟩) := by
  have hres : charAt s i ∈ resBytes := by
    rw [hesc]
    decide
  have hcond : ¬ (charAt s i ∉ resBytes ∧ charAt s i ≠ NUL) := fun hc => hc.1 hres
  obtain ⟨dst, hdst, hcopy⟩ := holds_makeDst h hi hres
  refine ⟨dst, hcopy, ?_⟩
  rw [renderLoop, if_neg (Nat.not_le_of_lt hi), if_neg hcond, hdst, RenderRes.ok_bind, hesc,
    if_neg (by decide), if_neg (by decide), if_neg (by decide), if_neg (by simp)]

/-- An escape sequence that is read. -/
theorem renderLoop_escape (hs : NUL ∉ s) (h : st.Holds s i out) (hi : i < s.length)
    (hesc : charAt s i = '\\') {e : EscResult} (he : mandocEscape s i = .ok e) {unicode : Int}
    (hcp : escapeCp s e = .ok unicode) (n : Nat) :
    ∃ st', renderLoop writeUtf8 s (n + 1) i st = renderLoop writeUtf8 s n e.rend st' ∧
      st'.Holds s e.rend (out ++ (Item.escape unicode).render writeUtf8) := by
  obtain ⟨dst, hcopy, hloop⟩ := renderLoop_escape_eq writeUtf8 h hi hesc n
  have hbound := ((mandocEscape_bounded hs (charAt_ne_nul hs hi)).of_eq_ok he).2
  have hle : i ≤ e.rend := (hbound.resc_ge.trans hbound.resc_lt.le)
  rw [hloop, he, called, RenderRes.ok_bind, hcp, called, RenderRes.ok_bind, Item.render]
  cases renderCp writeUtf8 unicode with
  | none =>
    rw [Option.getD_none, List.append_nil]
    exact ⟨_, rfl, holds_drop hcopy hle⟩
  | some addcp =>
    obtain ⟨dst', hputs, hholds⟩ := holds_puts addcp hcopy hle
    exact ⟨_, by dsimp only; rw [hputs, RenderRes.ok_bind], hholds⟩

/-- A run of the loop follows the parts of the string: it fails where they cannot be found, and
    otherwise it has rendered them at the end. -/
def Follows (s out : CStr) (items : Res (List Item)) (run : RenderRes RenderState) : Prop :=
  match items with
  | .error err => run = .error (.other err)
  | .ok items => ∃ st j, run = .ok st ∧ s.length ≤ j ∧
      st.Holds s j (out ++ renderItems writeUtf8 items)

/-- One more part in front of the others. -/
theorem Follows.cons {item : Item} {items : Res (List Item)} {run : RenderRes RenderState}
    (h : Follows writeUtf8 s (out ++ item.render writeUtf8) items run) :
    Follows writeUtf8 s out (do
      let items ← items
      return item :: items) run := by
  cases items with
  | error err => exact h
  | ok items =>
    obtain ⟨st, j, hrun, hj, hholds⟩ := h
    refine ⟨st, j, hrun, hj, ?_⟩
    rw [renderItems, List.flatMap_cons, ← List.append_assoc]
    exact hholds

/-- The character of an escape sequence can be looked up. -/
theorem exists_escapeCp (hs : NUL ∉ s) (hi : i < s.length) {e : EscResult}
    (he : mandocEscape s i = .ok e) : ∃ unicode, escapeCp s e = .ok unicode := by
  have harg := (mandocEscape_argInside hs (charAt_ne_nul hs hi)).of_eq_ok he
  have hexpand := ((mandocEscape_bounded hs (charAt_ne_nul hs hi)).of_eq_ok he).1
  unfold escapeCp
  have hread : e.rval ≠ .ERROR → e.rendarg ≤ s.length := fun h => harg.rendarg_le h hexpand
  split
  · next hval =>
    obtain ⟨digits, hname⟩ := harg.unicode hval
    rw [readArg, if_pos (hread (by rw [hval]; decide)), Res.ok_bind, slice_tail, hname.name_eq]
    exact ⟨_, hname.num2uc⟩
  · next hval =>
    rw [readArg, if_pos (hread (by rw [hval]; decide))]
    exact ⟨_, rfl⟩
  · next hval =>
    rw [readArg, if_pos (hread (by rw [hval]; decide))]
    exact ⟨_, rfl⟩
  · exact ⟨_, rfl⟩

/-- The loop renders the parts of the string, and fails where they cannot be found.  By induction
    on the number of iterations. -/
theorem renderLoop_run (hs : NUL ∉ s) (n : Nat) (h : st.Holds s i out) :
    Follows writeUtf8 s out (itemsFrom s n i) (renderLoop writeUtf8 s n i st) := by
  induction n generalizing i out st with
  | zero => exact rfl
  | succ n ih =>
    by_cases hi : s.length ≤ i
    · rw [itemsFrom, if_pos hi, renderLoop, if_pos hi]
      refine ⟨st, i, rfl, hi, ?_⟩
      rw [renderItems, List.flatMap_nil, List.append_nil]
      exact h
    have hlt := Nat.lt_of_not_le hi
    by_cases hesc : charAt s i = '\\'
    · rw [itemsFrom, if_neg hi, if_neg (not_not.mpr hesc)]
      cases he : mandocEscape s i with
      | error err =>
        obtain ⟨dst, -, hloop⟩ := renderLoop_escape_eq writeUtf8 h hlt hesc n
        rw [hloop, he]
        exact rfl
      | ok e =>
        obtain ⟨unicode, hcp⟩ := exists_escapeCp hs hlt he
        obtain ⟨st', hstep, hholds⟩ := renderLoop_escape writeUtf8 hs h hlt hesc he hcp n
        rw [hstep, Res.ok_bind, hcp, Res.ok_bind]
        exact (ih hholds).cons
    · obtain ⟨st', hstep, hholds⟩ := renderLoop_byte writeUtf8 hs h hlt hesc n
      rw [itemsFrom, if_neg hi, if_pos hesc, hstep]
      exact (ih hholds).cons

/-- All the parts have been found, or there is an escape sequence that cannot be read. -/
def FoundOrFailed (s : CStr) (items : Res (List Item)) : Prop :=
  (∃ l, items = .ok l) ∨ ∃ j err, j < s.length ∧ charAt s j = '\\' ∧
    mandocEscape s j = .error err ∧ items = .error err

/-- One more part in front of the others. -/
theorem FoundOrFailed.cons {item : Item} {items : Res (List Item)} (h : FoundOrFailed s items) :
    FoundOrFailed s (do
      let items ← items
      return item :: items) := by
  rcases h with ⟨l, rfl⟩ | ⟨j, err, hj, hesc, herr, rfl⟩
  · exact .inl ⟨_, rfl⟩
  · exact .inr ⟨j, err, hj, hesc, herr, rfl⟩

/-- Every iteration gets further in the string, so only an escape sequence can prevent that all
    the parts are found. -/
theorem itemsFrom_foundOrFailed (hs : NUL ∉ s) (n : Nat) (hpos : 0 < n) (hn : s.length < i + n) :
    FoundOrFailed s (itemsFrom s n i) := by
  induction n generalizing i with
  | zero => exact absurd hpos (Nat.lt_irrefl 0)
  | succ n ih =>
    by_cases hi : s.length ≤ i
    · exact .inl ⟨[], by rw [itemsFrom, if_pos hi]⟩
    have hlt := Nat.lt_of_not_le hi
    -- The bound is never reached, because the index increases.
    have hrest : ∀ {j}, i < j → 0 < n ∧ s.length < j + n := fun hj => by omega
    by_cases hesc : charAt s i = '\\'
    · rw [itemsFrom, if_neg hi, if_neg (not_not.mpr hesc)]
      cases he : mandocEscape s i with
      | error err => exact .inr ⟨i, err, hlt, hesc, he, rfl⟩
      | ok e =>
        obtain ⟨unicode, hcp⟩ := exists_escapeCp hs hlt he
        have hbound := ((mandocEscape_bounded hs (charAt_ne_nul hs hlt)).of_eq_ok he).2
        obtain ⟨hpos, hn⟩ := hrest (Nat.lt_of_le_of_lt hbound.resc_ge hbound.resc_lt)
        rw [Res.ok_bind, hcp, Res.ok_bind]
        exact (ih hpos hn).cons
    · obtain ⟨hpos, hn⟩ := hrest (Nat.lt_succ_self i)
      rw [itemsFrom, if_neg hi, if_pos hesc]
      exact (ih hpos hn).cons

/-! ## §5 The end of the copy -/

/-- The loop that trims white space does not go beyond the beginning. -/
theorem trimBlanks_le (t : CStr) (n : Nat) : trimBlanks t n ≤ n := by
  induction n with
  | zero => exact Nat.le_refl 0
  | succ n ih =>
    rw [trimBlanks]
    split
    · exact ih.trans (Nat.le_succ n)
    · exact Nat.le_refl _

/-- The loop that trims white space removes the blanks at the end. -/
theorem take_trimBlanks (t : CStr) {n : Nat} (hn : n ≤ t.length) :
    t.take (trimBlanks t n) = (t.take n).rdropWhile (· = ' ') := by
  induction n with
  | zero => rfl
  | succ n ih =>
    rw [trimBlanks, take_succ_charAt hn, List.rdropWhile_concat]
    by_cases hblank : charAt t n = ' '
    · rw [if_pos hblank, if_pos (decide_eq_true hblank)]
      exact ih (Nat.le_of_succ_le hn)
    · rw [if_neg hblank, if_neg (by simpa using hblank)]
      exact take_succ_charAt hn

/-- The result of the function if the parts of the string are known: when there is no copy, how
    the copy ends, and the text. -/
structure Rendered (writeUtf8 : Bool) (s : CStr) (items : List Item) (out : RenderOut) : Prop where
  none_iff : out.dst = none ↔ ∀ c ∈ s, c ∉ resBytes
  dst_eq : ∀ dst ∈ out.dst, dst.written = out.text s ++ [NUL]
  text_eq : out.text s = (renderItems writeUtf8 items).rdropWhile (· = ' ')

/-- The function behind the loop. -/
theorem renderString_ok (hs : NUL ∉ s) {items : List Item} (hitems : sourceItems s = .ok items) :
    ∃ out, renderString writeUtf8 s = .ok out ∧ Rendered writeUtf8 s items out := by
  have hrun := renderLoop_run writeUtf8 hs (s.length + 1) (RenderState.holds_start s)
  rw [sourceItems] at hitems
  rw [hitems] at hrun
  obtain ⟨⟨dst, ssz⟩, j, hloop, hj, hholds⟩ := hrun
  rw [List.nil_append] at hholds
  rw [renderString, hloop, RenderRes.ok_bind]
  cases dst with
  | none =>
    -- Nothing had to be rendered.
    obtain ⟨-, hout, hplain⟩ := hholds
    rw [List.take_of_length_le hj] at hout hplain
    refine ⟨_, rfl, ⟨fun _ => hplain, fun _ => rfl⟩, fun _ h => (by cases h), ?_⟩
    rw [hout]
    dsimp only [RenderOut.text]
    rw [take_trimBlanks s (Nat.le_refl _), List.take_length]
  | some dst =>
    -- The rendered text is cut off behind its last character that is not a blank, and terminated.
    obtain ⟨hwritten, hsize, hroom, c, hc, hres⟩ := hholds
    dsimp only at hsize hroom
    set psz := trimBlanks dst.written dst.written.length with hpsz
    have hle : psz ≤ dst.written.length := trimBlanks_le _ _
    have hkept : (dst.cut psz).written.length = psz := List.length_take_of_le hle
    obtain ⟨dst', hput, -, hwritten'⟩ := @SizedBuffer.exists_put _ (dst.cut psz) NUL (by
      rw [hkept, SizedBuffer.cut_size, hsize]
      rw [hwritten] at hle
      omega)
    have htext : RenderOut.text ⟨some dst', psz⟩ s = dst.written.take psz := by
      dsimp only [RenderOut.text]
      rw [hwritten', List.take_left' hkept, SizedBuffer.cut_written]
    refine ⟨⟨some dst', psz⟩, by dsimp only; rw [← hpsz, hput]; rfl, ?_, ?_, ?_⟩
    · exact ⟨fun h => (by cases h), fun h => absurd hres (h c hc)⟩
    · intro b hb
      cases hb
      rw [htext, hwritten', SizedBuffer.cut_written]
    · rw [htext, take_trimBlanks _ (Nat.le_refl _), List.take_length, hwritten]

end

/-! ## §6 Bytes that have to be replaced -/

/-- A byte beyond the ASCII range is none of them. -/
theorem high_notMem_resBytes {n : Nat} (hlow : 128 ≤ n) (hhigh : n < 256) :
    Char.ofNat n ∉ resBytes := by
  have hascii : (resBytes.all fun c => c.toNat < 128) = true := by decide +kernel
  intro hc
  have hlt := of_decide_eq_true (List.all_eq_true.mp hascii _ hc)
  rw [Char.toNat_ofNat, if_pos (.inl (hhigh.trans (by norm_num)))] at hlt
  exact absurd hlt (Nat.not_lt_of_le hlow)

theorem or_notMem_resBytes {n k m : Nat} (hn : n ≤ 63) (hk : 128 ≤ k) (hk' : k < 256) :
    Char.ofNat ((m &&& n) ||| k) ∉ resBytes := by
  refine high_notMem_resBytes (hk.trans Nat.right_le_or) (Nat.or_lt_two_pow (n := 8) ?_ hk')
  exact Nat.lt_of_le_of_lt (Nat.and_le_right.trans hn) (by decide)

/-- In a UTF-8 sequence, a byte that has to be replaced is the code point itself. -/
theorem utf8_special {cp : Nat} {c : Char} (hc : c ∈ utf8 cp) (hres : c ∈ resBytes) :
    cp = c.toNat := by
  unfold utf8 at hc
  split at hc
  · next hle =>
    rw [List.mem_singleton.mp hc, Char.toNat_ofNat,
      if_pos (.inl (Nat.lt_of_le_of_lt hle (by norm_num)))]
  -- The bytes of a longer sequence have their highest bit set.
  · exfalso
    split at hc
    · rcases List.mem_pair.mp hc with rfl | rfl <;>
        exact or_notMem_resBytes (by decide) (by decide) (by decide) hres
    split at hc
    · cases hc
    split at hc
    · simp only [List.mem_cons, List.not_mem_nil, or_false] at hc
      rcases hc with rfl | rfl | rfl <;>
        exact or_notMem_resBytes (by decide) (by decide) (by decide) hres
    split at hc
    · simp only [List.mem_cons, List.not_mem_nil, or_false] at hc
      rcases hc with rfl | rfl | rfl | rfl <;>
        exact or_notMem_resBytes (by decide) (by decide) (by decide) hres
    · cases hc

/-- The code points whose ASCII replacement contains a backslash: the character itself, the check
    mark, and two parts of large parentheses. -/
def drawnWithBackslash : List Nat := [0x5c, 0x2713, 0x239d, 0x239e]

/-- The code points whose ASCII replacement consists of several words. -/
def spelledInWords : List Nat :=
  [0x2203, 0x2200, 0x220b, 0x221d, 0x2208, 0x2209, 0x2282, 0x2284, 0x2283, 0x2285, 0x2286, 0x2287]

/-- An escape sequence for this code point may leave the byte behind: in UTF-8, if it is the code
    point, in ASCII, if the replacement is drawn with a backslash, or if the byte is the blank
    between its words. -/
def MayLeave : Bool → Int → Char → Prop
  | true, unicode, c => unicode = c.toNat
  | false, unicode, c => c = '\\' ∧ unicode.toNat ∈ drawnWithBackslash ∨
      c = ASCII_NBRSP ∧ unicode.toNat ∈ spelledInWords

theorem lines_special : ∀ ln ∈ lines, ln.unicode ≠ 0 →
    ((if charAt ln.ascii.toList 0 = ASCII_NBRSP then [' '] else ln.ascii.toList).all fun c =>
      c ∈ resBytes → c = '\\' ∧ ln.unicode ∈ drawnWithBackslash ∨
        c = ASCII_NBRSP ∧ ln.unicode ∈ spelledInWords) = true := by
  decide +kernel

/-- What an escape sequence leaves behind. -/
theorem renderCp_special {writeUtf8 : Bool} {unicode : Int} {c : Char}
    (hc : c ∈ (Item.escape unicode).render writeUtf8) (hres : c ∈ resBytes) :
    MayLeave writeUtf8 unicode c := by
  rw [Item.render, renderCp] at hc
  split at hc
  · cases hc
  next hpos =>
  have hcast : (unicode.toNat : Int) = unicode := Int.toNat_of_nonneg (Int.lt_of_not_ge hpos).le
  cases writeUtf8 with
  -- In UTF-8, these bytes occur only as the encoding of themselves.
  | true =>
    rw [if_pos rfl] at hc
    split at hc
    · cases hc
    · exact hcast.symm.trans (congrArg Nat.cast (utf8_special hc hres))
  | false =>
    rw [if_neg (by decide), Option.getD_some] at hc
    unfold mcharsUc2str at hc
    -- In ASCII, the text is in the table, or it is the replacement for unknown characters.
    split at hc
    · next ln hfind =>
      have hmem := List.mem_of_find?_eq_some hfind
      have heq : ln.unicode = unicode.toNat := by simpa using List.find?_some hfind
      have hne : ln.unicode ≠ 0 := by
        rw [heq]
        exact fun h => hpos (Int.toNat_eq_zero.mp h)
      have hspecial := List.all_eq_true.mp (lines_special ln hmem hne) c hc
      rw [heq] at hspecial
      exact of_decide_eq_true hspecial hres
    · have hunknown : ("<?>".toList.all fun c => c ∉ resBytes) = true := by decide +kernel
      rw [if_neg (by decide)] at hc
      exact absurd hres (of_decide_eq_true (List.all_eq_true.mp hunknown c hc))

/-- What a byte leaves behind. -/
theorem renderByte_plain {writeUtf8 : Bool} {c d : Char} (hc : c ≠ '\\')
    (hd : d ∈ (Item.byte c).render writeUtf8) : d ∉ resBytes := by
  rw [Item.render] at hd
  split at hd
  · rw [List.mem_singleton.mp hd]
    decide
  next hblank =>
  split at hd
  · rw [List.mem_singleton.mp hd]
    decide
  next hhyph =>
  split at hd
  · cases hd
  next hbreak =>
  rw [List.mem_singleton.mp hd]
  simp only [resBytes, List.mem_cons, List.not_mem_nil, or_false, not_or]
  exact ⟨hc, fun h => hblank (.inl h), fun h => hblank (.inr h), hhyph, hbreak⟩

/-- The bytes among the parts of a string do not begin an escape sequence. -/
theorem itemsFrom_byte {s : CStr} {n i : Nat} {items : List Item}
    (h : itemsFrom s n i = .ok items) {c : Char} (hc : Item.byte c ∈ items) : c ≠ '\\' := by
  induction n generalizing i items with
  | zero => cases h
  | succ n ih =>
    rw [itemsFrom] at h
    split at h
    · cases h
      cases hc
    split at h
    · next hesc =>
      obtain ⟨rest, hrest, heq⟩ := Res.bind_eq_ok.mp h
      cases heq
      rcases List.mem_cons.mp hc with heq | hc
      · cases heq
        exact hesc
      · exact ih hrest hc
    · obtain ⟨e, -, h⟩ := Res.bind_eq_ok.mp h
      obtain ⟨unicode, -, h⟩ := Res.bind_eq_ok.mp h
      obtain ⟨rest, hrest, heq⟩ := Res.bind_eq_ok.mp h
      cases heq
      rcases List.mem_cons.mp hc with heq | hc
      · cases heq
      · exact ih hrest hc

/-- The bytes of a text that would have to be replaced come from escape sequences. -/
def OnlyFromEscapes (writeUtf8 : Bool) (items : List Item) (text : CStr) : Prop :=
  ∀ c ∈ text, c ∈ resBytes → ∃ unicode, Item.escape unicode ∈ items ∧ MayLeave writeUtf8 unicode c

/-- The result contains no other bytes that have to be replaced. -/
theorem Rendered.onlyFromEscapes {writeUtf8 : Bool} {s : CStr} {items : List Item}
    {out : RenderOut} (h : Rendered writeUtf8 s items out) (hitems : sourceItems s = .ok items) :
    OnlyFromEscapes writeUtf8 items (out.text s) := by
  intro c hc hres
  rw [h.text_eq] at hc
  obtain ⟨item, hitem, hc⟩ := List.mem_flatMap.mp ((List.rdropWhile_prefix _ _).mem hc)
  cases item with
  | byte d => exact absurd hres (renderByte_plain (itemsFrom_byte hitems hitem) hc)
  | escape unicode => exact ⟨unicode, hitem, renderCp_special hc hres⟩

/-! ## §7 Every string -/

/-- An escape sequence cannot be parsed if it needs expansion, or if the string ends in a lone
    delimiter. -/
theorem mandocEscape_error {s : CStr} (hs : NUL ∉ s) {i : Nat} (hesc : charAt s i = '\\')
    {err : Fault} (h : mandocEscape s i = .error err) :
    err = .abort ∨ EndsInLoneDelim s '\\' := by
  refine or_iff_not_imp_right.mpr fun hend => ?_
  rw [← loneDelim_iff_endsInLoneDelim s (by decide)] at hend
  have hsafe := safeAt_of_not_loneDelim hs (by decide)
    (fun j hj hlone => hend ⟨j, hj, hlone⟩) hesc
  obtain ⟨r, hr, -, -⟩ := hsafe.2
  rw [mandocEscape, hr, Res.ok_bind] at h
  split at h
  · cases h
    rfl
  · cases h

/-- A run that stops at an escape sequence: the sequence needs expansion, which is an assertion in
    `mandoc_escape()`, or the string ends in a lone delimiter. -/
def FailsAtEscape (s : CStr) (run : RenderRes RenderOut) : Prop :=
  ∃ i err, i < s.length ∧ charAt s i = '\\' ∧ mandocEscape s i = .error err ∧
    run = .error (.other err) ∧ (err = .abort ∨ EndsInLoneDelim s '\\')

/-- **Rendering.** The function does not write outside of the memory it has allocated, and returns
    unless an escape sequence cannot be parsed.  There is a copy if and only if the string contains
    one of the bytes that have to be replaced, and the copy ends in a NUL.  Such a byte is only left
    in the result by an escape sequence: in UTF-8, it is the character, and in ASCII, the character
    is drawn with a backslash, or the byte is the blank between the words of a replacement. -/
theorem renderString_result (writeUtf8 : Bool) {s : CStr} (hs : NUL ∉ s) :
    (∃ items out, sourceItems s = .ok items ∧ renderString writeUtf8 s = .ok out ∧
      Rendered writeUtf8 s items out ∧ OnlyFromEscapes writeUtf8 items (out.text s)) ∨
      FailsAtEscape s (renderString writeUtf8 s) := by
  have hparts : FoundOrFailed s (sourceItems s) :=
    itemsFrom_foundOrFailed hs (s.length + 1) (Nat.succ_pos _) (by omega)
  rcases hparts with ⟨items, hitems⟩ | ⟨i, err, hi, hesc, herr, hitems⟩
  · obtain ⟨out, hout, hrendered⟩ := renderString_ok writeUtf8 hs hitems
    exact .inl ⟨items, out, hitems, hout, hrendered, hrendered.onlyFromEscapes hitems⟩
  · have hrun := renderLoop_run writeUtf8 hs (s.length + 1) (RenderState.holds_start s)
    rw [sourceItems] at hitems
    rw [hitems] at hrun
    have hloop : renderLoop writeUtf8 s (s.length + 1) 0 ⟨none, s.length⟩ = .error (.other err) :=
      hrun
    refine .inr ⟨i, err, hi, hesc, herr, ?_, mandocEscape_error hs hesc herr⟩
    rw [renderString, hloop]
    rfl

/-- A name with a hyphen, a backslash, and a non-breaking blank. -/
theorem renderString_result_name : ∃ items out,
    renderString true "a\x1c\\e\x1fb".toList = .ok out ∧
      out.text "a\x1c\\e\x1fb".toList = "a-\\ b".toList ∧
      Rendered true "a\x1c\\e\x1fb".toList items out ∧
      OnlyFromEscapes true items (out.text "a\x1c\\e\x1fb".toList) := by
  have htext : ((renderString true "a\x1c\\e\x1fb".toList).map fun out =>
      out.text "a\x1c\\e\x1fb".toList) = .ok "a-\\ b".toList := by
    decide +kernel
  rcases renderString_result true (show NUL ∉ "a\x1c\\e\x1fb".toList by decide) with
    ⟨items, out, -, hout, hrendered, honly⟩ | ⟨_, _, -, -, -, hrun, -⟩
  · rw [hout] at htext
    exact ⟨items, out, hout, Except.ok.inj htext, hrendered, honly⟩
  · rw [hrun] at htext
    cases htext

/-- The result is free from the bytes that have to be replaced, up to backslashes, which need an
    escape sequence for a backslash. -/
def RenderedClean (writeUtf8 : Bool) (s : CStr) : Prop :=
  ∃ items out, sourceItems s = .ok items ∧ renderString writeUtf8 s = .ok out ∧
    ∀ c ∈ out.text s, c ∈ resBytes → c = '\\' ∧ Item.escape 0x5c ∈ items

/-- A check mark is drawn with a backslash. -/
theorem not_renderedClean_check : ¬ RenderedClean false "\\(OK".toList := by
  have hparts : sourceItems "\\(OK".toList = .ok [.escape 0x2713] := by decide +kernel
  have htext : ((renderString false "\\(OK".toList).map fun out => out.text "\\(OK".toList) =
      .ok ['\\', '/'] := by decide +kernel
  rintro ⟨items, out, hitems, hout, hclean⟩
  rw [hparts] at hitems
  cases hitems
  rw [hout] at htext
  have hshown : out.text "\\(OK".toList = ['\\', '/'] := Except.ok.inj htext
  rw [hshown] at hclean
  obtain ⟨-, hmem⟩ := hclean '\\' (List.mem_cons_self ..) (by decide)
  exact absurd hmem (by decide)

end Mandoc
