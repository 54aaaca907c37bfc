import Mandoc.Roff.EscapeArgs
import Mandoc.Roff.Prefix
import Mandoc.Roff.Requests

/-!
# Identifiers in requests

`roff_getname()` copies an identifier to the front of itself while it removes the backslashes of
undefined escape sequences, and overwrites with blanks the bytes that are left over.

- `Identifier` says what the identifier at the beginning of a text is, without reference to the
  buffer.
- `roffGetname_eq` gives the resulting buffer.
- `Identifier.unique` says that a text begins with at most one identifier.
-/

namespace Mandoc

/-! ## §1 Undefined escape sequences -/

section

variable {buf : CStr} {aesc : Nat}

/-- An undefined name makes the escape sequence undefined. -/
theorem roffEscapeNull_of_undefined (hs : NUL ∉ buf) (hesc : charAt buf aesc ≠ NUL)
    (hname : escName (charAt buf (nameIndex buf aesc)) = .undefined) :
    roffEscapeNull buf aesc = .ok ⟨.UNDEF, aesc, nameIndex buf aesc, nameIndex buf aesc,
      nameIndex buf aesc + 1, nameIndex buf aesc + 1⟩ := by
  have hle := nameIndex_le (lt_length_of_charAt_ne_nul hesc)
  rw [roffEscapeNull_eq hs hesc, escapeAt, escapeStart]
  rw [rd_of_le hle, Res.ok_bind, hname]
  rfl

end

/-! ## §2 Identifiers -/

/-- What ends an identifier, and the text behind it. -/
inductive Ending : CStr → CStr → Prop where
  | nul : Ending [] []
  | blank (s : CStr) : Ending (' ' :: s) s
  | tab (s : CStr) : Ending ('\t' :: s) s
  /-- The braces of conditional requests are the next word. -/
  | brace {s : CStr} (hbrace : charAt s 0 = '\x7b' ∨ charAt s 0 = '\x7d') :
      Ending ('\\' :: s) ('\\' :: s)
  /-- Any other escape sequence that is defined, unless it ends outside the string. -/
  | escape {s : CStr} {e : EscResult}
      (hbrace : ¬ (charAt s 0 = '\x7b' ∨ charAt s 0 = '\x7d'))
      (he : roffEscapeNull ('\\' :: s) 0 = .ok e) (hdefined : e.rval ≠ .UNDEF)
      (hle : e.rend ≤ s.length + 1) : Ending ('\\' :: s) (('\\' :: s).drop e.rend)

/-- The identifier at the beginning of a text: its name, whether it contains escape sequences that
    are reduced, the text from its end on, and the text behind what has ended it. -/
inductive Identifier : CStr → CStr → Bool → CStr → CStr → Prop where
  | done {tail rest : CStr} (h : Ending tail rest) : Identifier tail [] false tail rest
  | plain {c : Char} {s name tail rest : CStr} {reduced : Bool} (hblank : c ≠ ' ') (htab : c ≠ '\t')
      (hesc : c ≠ '\\') (h : Identifier s name reduced tail rest) :
      Identifier (c :: s) (c :: name) reduced tail rest
  /-- `\x` and `\Ex` are reduced to `x`. -/
  | reduce (j : Nat) {x : Char} {s name tail rest : CStr} {reduced : Bool}
      (hname : escName x = .undefined) (hx : x ≠ 'E')
      (h : Identifier s name reduced tail rest) :
      Identifier ('\\' :: (List.replicate j 'E' ++ x :: s)) (x :: name) true tail rest

/-- What is behind the identifier is a part of the text. -/
theorem Ending.exists_drop {tail rest : CStr} (h : Ending tail rest) :
    ∃ n ≤ tail.length, rest = tail.drop n := by
  cases h with
  | nul => exact ⟨0, Nat.le_refl _, rfl⟩
  | blank s => exact ⟨1, Nat.le_add_left 1 _, rfl⟩
  | tab s => exact ⟨1, Nat.le_add_left 1 _, rfl⟩
  | brace _ => exact ⟨0, Nat.zero_le _, rfl⟩
  | @escape s e _ _ _ hle => exact ⟨e.rend, hle, rfl⟩

theorem Identifier.ending {text name tail rest : CStr} {reduced : Bool}
    (h : Identifier text name reduced tail rest) : Ending tail rest := by
  induction h with
  | done h => exact h
  | plain _ _ _ _ ih => exact ih
  | reduce _ _ _ _ ih => exact ih

/-- Reducing makes an identifier shorter. -/
theorem Identifier.exists_append {text name tail rest : CStr} {reduced : Bool}
    (h : Identifier text name reduced tail rest) :
    ∃ used, text = used ++ tail ∧ name.length ≤ used.length ∧
      (reduced = true ↔ name.length < used.length) := by
  induction h with
  | done _ => exact ⟨[], rfl, Nat.le_refl _, by simp⟩
  | @plain c s name tail rest reduced _ _ _ _ ih =>
    obtain ⟨used, rfl, hle, hlt⟩ := ih
    exact ⟨c :: used, rfl, Nat.succ_le_succ hle, hlt.trans Nat.succ_lt_succ_iff.symm⟩
  | @reduce j x s name tail rest reduced _ _ _ ih =>
    obtain ⟨used, rfl, hle, -⟩ := ih
    refine ⟨'\\' :: (List.replicate j 'E' ++ x :: used), by simp, ?_, ?_⟩
    · simp only [List.length_cons, List.length_append]
      omega
    · simp only [List.length_cons, List.length_append, true_iff]
      omega

theorem Identifier.text_ne_nil {text name tail rest : CStr} {reduced : Bool}
    (h : Identifier text name reduced tail rest) (htail : charAt tail 0 ≠ NUL) : text ≠ [] := by
  obtain ⟨used, rfl, -⟩ := h.exists_append
  intro hnil
  rw [(List.append_eq_nil_iff.mp hnil).2] at htail
  exact htail rfl

theorem Identifier.nul_notMem_name {text name tail rest : CStr} {reduced : Bool}
    (h : Identifier text name reduced tail rest) (hs : NUL ∉ text) : NUL ∉ name := by
  induction h with
  | done _ => exact List.not_mem_nil
  | plain _ _ _ _ ih =>
    rw [List.mem_cons, not_or] at hs ⊢
    exact ⟨hs.1, ih hs.2⟩
  | reduce j _ _ _ ih =>
    simp only [List.mem_cons, List.mem_append, not_or] at hs ⊢
    exact ⟨hs.2.2.1, ih hs.2.2.2⟩

/-! ## §3 The buffer -/

/-- The front of the buffer while an identifier is read: the text before it, the name so far, and
    blanks where the name has become shorter. -/
def compacted (pre name : CStr) (k : Nat) : CStr := pre ++ name ++ List.replicate k ' '

@[simp] theorem length_compacted (pre name : CStr) (k : Nat) :
    (compacted pre name k).length = pre.length + name.length + k := by
  simp [compacted, Nat.add_assoc]

theorem nul_notMem_compacted {pre name : CStr} (hpre : NUL ∉ pre) (hname : NUL ∉ name) (k : Nat) :
    NUL ∉ compacted pre name k := by
  have hblank : NUL ≠ ' ' := by decide
  simp [compacted, hpre, hname, hblank]

/-- The state of the loop. -/
def nameState (pre name : CStr) (k : Nat) (text : CStr) : GetName :=
  ⟨compacted pre name k ++ text, name.length, (compacted pre name k).length⟩

theorem mapIdx_eq_self {l : CStr} {p : Nat → Prop} [DecidablePred p]
    (h : ∀ i < l.length, ¬ p i) : l.mapIdx (fun i d => if p i then ' ' else d) = l := by
  apply List.ext_getElem
  · simp
  · intro i hi hi'
    rw [List.getElem_mapIdx, if_neg (h i hi')]

/-- Blanking out everything. -/
theorem mapIdx_eq_replicate {l : CStr} {p : Nat → Prop} [DecidablePred p]
    (h : ∀ i < l.length, p i) :
    l.mapIdx (fun i d => if p i then ' ' else d) = List.replicate l.length ' ' := by
  apply List.ext_getElem
  · simp
  · intro i hi hi'
    rw [List.length_replicate] at hi'
    rw [List.getElem_mapIdx, if_pos (h i hi'), List.getElem_replicate]

/-- Blanking out some bytes in the middle. -/
theorem mapIdx_blank {A B C : CStr} {p : Nat → Prop} [DecidablePred p]
    (hA : ∀ i < A.length, ¬ p i) (hB : ∀ i < B.length, p (i + A.length))
    (hC : ∀ i, ¬ p (i + (A.length + B.length))) :
    (A ++ B ++ C).mapIdx (fun i d => if p i then ' ' else d) =
      A ++ List.replicate B.length ' ' ++ C := by
  rw [List.mapIdx_append, List.mapIdx_append, mapIdx_eq_self hA, mapIdx_eq_replicate hB]
  congr 1
  exact mapIdx_eq_self fun i _ => by
    rw [List.length_append]
    exact hC i

/-- A byte of the name is stored in front of the bytes that are left over. -/
theorem nameState_plain (pre name : CStr) (k : Nat) (c : Char) (s : CStr) :
    (⟨if pre.length + (nameState pre name k (c :: s)).namesz < (nameState pre name k (c :: s)).cp
        then ((nameState pre name k (c :: s)).buf.set
          (pre.length + (nameState pre name k (c :: s)).namesz) c).set
          (nameState pre name k (c :: s)).cp ' '
        else (nameState pre name k (c :: s)).buf,
      (nameState pre name k (c :: s)).namesz + 1,
      (nameState pre name k (c :: s)).cp + 1⟩ : GetName) = nameState pre (name ++ [c]) k s := by
  simp only [nameState, length_compacted]
  cases k with
  | zero =>
    -- The byte stays where it is.
    rw [if_neg (by omega)]
    simp [compacted]
    omega
  | succ k =>
    rw [if_pos (by omega)]
    congr 1
    · have hfront : compacted pre name (k + 1) ++ c :: s =
          pre ++ name ++ ' ' :: (List.replicate k ' ' ++ c :: s) := by
        simp [compacted, List.replicate_succ]
      have hlast : (pre ++ name).length + (k + 1) =
          (pre ++ name ++ c :: List.replicate k ' ').length := by
        simp
        omega
      have hmoved : pre ++ name ++ c :: (List.replicate k ' ' ++ c :: s) =
          (pre ++ name ++ c :: List.replicate k ' ') ++ c :: s := by simp
      rw [hfront, ← List.length_append, List.set_append_right _ _ (Nat.le_refl _), Nat.sub_self,
        List.set_cons_zero, hmoved, hlast, List.set_append_right _ _ (Nat.le_refl _), Nat.sub_self,
        List.set_cons_zero]
      simp [compacted, List.replicate_succ']
    · simp
    · simp
      omega

/-- The name of an undefined escape sequence is stored, and all other bytes of the sequence are
    left over. -/
theorem nameState_reduce (pre name : CStr) (k j : Nat) (x : Char) (s : CStr) :
    reduceInName pre.length
        (nameState pre name k ('\\' :: (List.replicate j 'E' ++ x :: s))) x
        ((compacted pre name k).length + (j + 2)) =
      nameState pre (name ++ [x]) (k + (j + 1)) s := by
  unfold reduceInName nameState
  dsimp only
  rw [length_compacted, length_compacted]
  congr 1
  · -- The buffer: only if an escape sequence came before, blanks stand behind the name.
    cases k with
    | zero =>
      have hset : (compacted pre name 0 ++ '\\' :: (List.replicate j 'E' ++ x :: s)).set
          (pre.length + name.length) x =
            (pre ++ name ++ [x]) ++ (List.replicate j 'E' ++ [x]) ++ s := by
        have hfront : compacted pre name 0 = pre ++ name := by simp [compacted]
        rw [hfront, ← List.length_append, List.set_append_right _ _ (Nat.le_refl _), Nat.sub_self,
          List.set_cons_zero]
        simp
      rw [hset, mapIdx_blank]
      · simp [compacted]
      · simp
        omega
      · simp
        omega
      · simp
        omega
    | succ k =>
      have hset : (compacted pre name (k + 1) ++ '\\' :: (List.replicate j 'E' ++ x :: s)).set
          (pre.length + name.length) x =
            (pre ++ name ++ x :: List.replicate k ' ') ++
              ('\\' :: (List.replicate j 'E' ++ [x])) ++ s := by
        have hfront : compacted pre name (k + 1) ++ '\\' :: (List.replicate j 'E' ++ x :: s) =
            pre ++ name ++
              ' ' :: (List.replicate k ' ' ++ '\\' :: (List.replicate j 'E' ++ x :: s)) := by
          simp [compacted, List.replicate_succ]
        rw [hfront, ← List.length_append, List.set_append_right _ _ (Nat.le_refl _), Nat.sub_self,
          List.set_cons_zero]
        simp
      rw [hset, mapIdx_blank]
      · -- The blanks are those from before and those over the backslash and what follows it.
        have hcount : k + 1 + (j + 1) = k + ('\\' :: (List.replicate j 'E' ++ [x])).length := by
          simp
          omega
        rw [compacted, hcount, ← List.replicate_append_replicate]
        simp
      · simp
        omega
      · simp
        omega
      · simp
        omega
  · simp
  · simp
    omega

/-! ## §4 The loop -/

theorem roffEscapeNull_behind {l s : CStr} (hs : NUL ∉ s) (hl : NUL ∉ l) :
    roffEscapeNull (l ++ s) l.length =
      (roffEscapeNull s 0).map (EscResult.shift l.length) :=
  escapeRec_append hs hl (s.length - 0 + 1) true (Nat.lt_succ_self _)

/-- The name of a sequence is the first byte that is not an `E`. -/
theorem nameIndex_replicate (j : Nat) {x : Char} (hx : x ≠ 'E') (s : CStr) :
    nameIndex ('\\' :: (List.replicate j 'E' ++ x :: s)) 0 = j + 1 := by
  have hE : "E".toList.contains 'E' = true := by decide
  have hstop : "E".toList.contains x = false := by simp [hx]
  rw [nameIndex, List.drop_succ_cons, List.drop_zero, strspn, List.takeWhile_append_of_pos,
    List.takeWhile_cons, hstop]
  · simp
    omega
  · intro c hc
    rw [(List.mem_replicate.mp hc).2]
    exact hE

theorem charAt_replicate (j : Nat) (x : Char) (s : CStr) :
    charAt ('\\' :: (List.replicate j 'E' ++ x :: s)) (j + 1) = x := by
  have h := charAt_append (List.replicate j 'E') (x :: s) 0
  rw [List.length_replicate] at h
  exact h

theorem ne_nul_of_undefined {x : Char} (h : escName x = .undefined) : x ≠ NUL := by
  rintro rfl
  rw [escName_nul] at h
  cases h

/-- A sequence with an undefined name. -/
theorem roffEscapeNull_replicate (j : Nat) {x : Char} (hname : escName x = .undefined)
    (hx : x ≠ 'E') {s : CStr} (hs : NUL ∉ '\\' :: (List.replicate j 'E' ++ x :: s)) :
    roffEscapeNull ('\\' :: (List.replicate j 'E' ++ x :: s)) 0 =
      .ok ⟨.UNDEF, 0, j + 1, j + 1, j + 2, j + 2⟩ := by
  have hindex := nameIndex_replicate j hx s
  have hesc : charAt ('\\' :: (List.replicate j 'E' ++ x :: s)) 0 ≠ NUL := by
    rw [charAt_cons_zero]
    decide
  have hundef := roffEscapeNull_of_undefined hs hesc (by rw [hindex, charAt_replicate, hname])
  rw [hundef, hindex]

section

variable {pre name : CStr} {k : Nat} (hpre : NUL ∉ pre) (hname : NUL ∉ name)

theorem nameState_rd (text : CStr) (i : Nat) :
    rd (nameState pre name k text).buf ((nameState pre name k text).cp + i) = rd text i :=
  rd_append ..

/-- One byte of the identifier. -/
theorem getnameLoop_plainByte {c : Char} {s : CStr} (hblank : c ≠ ' ') (htab : c ≠ '\t')
    (hesc : c ≠ '\\') (hnul : c ≠ NUL) (steps : Nat) :
    getnameLoop pre.length (steps + 1) (nameState pre name k (c :: s)) =
      getnameLoop pre.length steps (nameState pre (name ++ [c]) k s) := by
  have hrd : rd (nameState pre name k (c :: s)).buf (nameState pre name k (c :: s)).cp = .ok c :=
    nameState_rd (c :: s) 0
  rw [getnameLoop, hrd, Res.ok_bind, if_neg hnul, if_neg (by simp [hblank, htab]), if_pos hesc,
    ← nameState_plain]

include hpre hname

/-- One escape sequence that is reduced. -/
theorem getnameLoop_reduce (j : Nat) {x : Char} {s : CStr} (hundef : escName x = .undefined)
    (hx : x ≠ 'E') (hs : NUL ∉ '\\' :: (List.replicate j 'E' ++ x :: s)) (steps : Nat) :
    getnameLoop pre.length (steps + 1)
        (nameState pre name k ('\\' :: (List.replicate j 'E' ++ x :: s))) =
      getnameLoop pre.length steps (nameState pre (name ++ [x]) (k + (j + 1)) s) := by
  set text := '\\' :: (List.replicate j 'E' ++ x :: s) with htext
  have hrd : rd (nameState pre name k text).buf (nameState pre name k text).cp = .ok '\\' :=
    nameState_rd text 0
  have hlen : j + 1 ≤ text.length := by
    simp [htext]
  -- The byte behind the backslash is `E` or the name.
  have hnext : ∃ d, rd (nameState pre name k text).buf ((nameState pre name k text).cp + 1) = .ok d ∧
      d ≠ '\x7b' ∧ d ≠ '\x7d' := by
    rw [nameState_rd, htext]
    cases j with
    | zero =>
      refine ⟨x, rfl, ?_, ?_⟩
      · rintro rfl
        exact absurd hundef (by decide)
      · rintro rfl
        exact absurd hundef (by decide)
    | succ j => exact ⟨'E', rfl, by decide, by decide⟩
  obtain ⟨d, hd, hopen, hclose⟩ := hnext
  have hescape : roffEscapeNull (nameState pre name k text).buf (nameState pre name k text).cp =
      .ok (EscResult.shift (compacted pre name k).length
        ⟨.UNDEF, 0, j + 1, j + 1, j + 2, j + 2⟩) := by
    have h := roffEscapeNull_behind hs (nul_notMem_compacted hpre hname k)
    rw [roffEscapeNull_replicate j hundef hx hs] at h
    exact h
  have hx' : rd (nameState pre name k text).buf ((compacted pre name k).length + (j + 1)) =
      .ok x := by
    rw [show (compacted pre name k).length = (nameState pre name k text).cp from rfl,
      nameState_rd, rd_of_le hlen, htext, charAt_replicate]
  have hundef' : ¬ (EscResult.shift (compacted pre name k).length
      ⟨.UNDEF, 0, j + 1, j + 1, j + 2, j + 2⟩).rval ≠ .UNDEF := by simp
  have hbrace : ¬ ((decide (d = '\x7b') || decide (d = '\x7d')) = true) := by simp [hopen, hclose]
  rw [getnameLoop, hrd, Res.ok_bind, if_neg (by decide), if_neg (by decide), if_neg (by simp), hd,
    Res.ok_bind, if_neg hbrace, hescape, Res.ok_bind, if_neg hundef', EscResult.shift_rnam, hx',
    Res.ok_bind, EscResult.shift_rend, htext, nameState_reduce]

/-- The end of the identifier. -/
theorem getnameLoop_ending {tail rest : CStr} (h : Ending tail rest) (hs : NUL ∉ tail)
    (steps : Nat) :
    getnameLoop pre.length (steps + 1) (nameState pre name k tail) =
      .ok { nameState pre name k tail with
        cp := (compacted pre name k).length + (tail.length - rest.length) } := by
  have hrd : ∀ {c}, rd tail 0 = .ok c →
      rd (nameState pre name k tail).buf (nameState pre name k tail).cp = .ok c :=
    fun hc => (nameState_rd tail 0).trans hc
  -- By the way in which the name ends.
  cases h with
  | nul =>
    rw [getnameLoop, hrd rfl]
    rfl
  | blank s =>
    rw [getnameLoop, hrd (c := ' ') rfl, Res.ok_bind, if_neg (by decide), if_pos (by decide)]
    simp [nameState]
  | tab s =>
    rw [getnameLoop, hrd (c := '\t') rfl, Res.ok_bind, if_neg (by decide), if_pos (by decide)]
    simp [nameState]
  | @brace s hbrace =>
    have hnext : rd (nameState pre name k ('\\' :: s)).buf
        ((nameState pre name k ('\\' :: s)).cp + 1) = .ok (charAt s 0) := by
      rw [nameState_rd, rd_of_le (by simp), charAt_cons_succ]
    rw [getnameLoop, hrd (c := '\\') rfl, Res.ok_bind, if_neg (by decide), if_neg (by decide),
      if_neg (by simp), hnext, Res.ok_bind, if_pos (by simpa using hbrace), Nat.sub_self]
    rfl
  | @escape s e hbrace he hdefined hle =>
    have hnext : rd (nameState pre name k ('\\' :: s)).buf
        ((nameState pre name k ('\\' :: s)).cp + 1) = .ok (charAt s 0) := by
      rw [nameState_rd, rd_of_le (by simp), charAt_cons_succ]
    -- The escape sequence is seen as if it stood at the start of the buffer.
    have hescape : roffEscapeNull (nameState pre name k ('\\' :: s)).buf
        (nameState pre name k ('\\' :: s)).cp =
          .ok (e.shift (compacted pre name k).length) := by
      have h := roffEscapeNull_behind hs (nul_notMem_compacted hpre hname k)
      rw [he] at h
      exact h
    have hend : ('\\' :: s).length - (('\\' :: s).drop e.rend).length = e.rend := by
      rw [List.length_drop, List.length_cons]
      omega
    rw [getnameLoop, hrd (c := '\\') rfl, Res.ok_bind, if_neg (by decide), if_neg (by decide),
      if_neg (by simp), hnext, Res.ok_bind, if_neg (by simpa using hbrace), hescape, Res.ok_bind,
      EscResult.shift_rval, if_pos hdefined, hend]
    rfl

end

/-- The whole identifier: it is moved behind the part of the name that was already there, and no
    byte of the buffer is lost. -/
theorem getnameLoop_identifier {text name tail rest : CStr} {reduced : Bool}
    (h : Identifier text name reduced tail rest) {pre : CStr} (hpre : NUL ∉ pre)
    (hs : NUL ∉ text) {before : CStr} (hbefore : NUL ∉ before) (k : Nat) {steps : Nat}
    (hsteps : text.length < steps) :
    ∃ k', name.length + k' + tail.length = k + text.length ∧
      getnameLoop pre.length steps (nameState pre before k text) =
        .ok { nameState pre (before ++ name) k' tail with
          cp := (compacted pre (before ++ name) k').length + (tail.length - rest.length) } := by
  -- By induction on the way the name is read, one byte or one reduced sequence at a time.
  induction h generalizing before k steps with
  | @done tail rest h =>
    obtain ⟨steps, rfl⟩ := Nat.exists_eq_add_one.mpr (Nat.zero_lt_of_lt hsteps)
    rw [List.append_nil]
    exact ⟨k, by simp, getnameLoop_ending hpre hbefore h hs steps⟩
  | @plain c s name tail rest reduced hblank htab hesc h ih =>
    obtain ⟨steps, rfl⟩ := Nat.exists_eq_add_one.mpr (Nat.zero_lt_of_lt hsteps)
    have hc : c ≠ NUL := fun heq => hs (heq ▸ List.mem_cons_self ..)
    have hbefore' : NUL ∉ before ++ [c] := by simp [hbefore, hc.symm]
    obtain ⟨k', hlen, hloop⟩ := ih (fun hmem => hs (List.mem_cons_of_mem c hmem)) hbefore' k
      (Nat.lt_of_succ_lt_succ hsteps)
    refine ⟨k', by rw [List.length_cons, List.length_cons]; omega, ?_⟩
    rw [getnameLoop_plainByte hblank htab hesc hc, hloop, List.append_assoc,
      List.singleton_append]
  -- The backslash and the letters behind it become blanks, and one character is left.
  | @reduce j x s name tail rest reduced hundef hx h ih =>
    obtain ⟨steps, rfl⟩ := Nat.exists_eq_add_one.mpr (Nat.zero_lt_of_lt hsteps)
    have hx' := ne_nul_of_undefined hundef
    have hbefore' : NUL ∉ before ++ [x] := by simp [hbefore, hx'.symm]
    have hs' : NUL ∉ s := by
      intro hmem
      apply hs
      simp [hmem]
    have hlt : s.length < steps := by
      simp only [List.length_cons, List.length_append] at hsteps
      omega
    obtain ⟨k', hlen, hloop⟩ := ih hs' hbefore' (k + (j + 1)) hlt
    refine ⟨k', ?_, ?_⟩
    · simp only [List.length_cons, List.length_append, List.length_replicate]
      omega
    · rw [getnameLoop_reduce hpre hbefore j hundef hx hs, hloop, List.append_assoc,
        List.singleton_append]

/-! ## §5 The function -/

/-- The identifier, blanks if it has become shorter, and what was behind it; the parse point is at
    the next word. -/
theorem roffGetname_eq {text name tail rest : CStr} {reduced : Bool}
    (h : Identifier text name reduced tail rest) {pre : CStr} (hpre : NUL ∉ pre)
    (hs : NUL ∉ text) :
    ∃ k cp, (reduced = true ↔ 0 < k) ∧
      roffGetname (pre ++ text) pre.length =
        .ok ⟨compacted pre name k ++ tail, name.length, cp⟩ ∧
      (compacted pre name k ++ tail).length = (pre ++ text).length ∧
      cp ≤ (pre ++ text).length ∧
      (pre ++ text).drop cp = rest.dropWhile (· = ' ') ∧
      (compacted pre name k ++ tail).drop cp = rest.dropWhile (· = ' ') := by
  -- The loop reads the identifier and leaves blanks behind it where it has become shorter.
  have hsteps : text.length < (pre ++ text).length + 1 := by simp
  obtain ⟨k, hlen, hloop⟩ := getnameLoop_identifier h hpre hs List.not_mem_nil 0 hsteps
  obtain ⟨used, rfl, hle, hred⟩ := h.exists_append
  obtain ⟨n, hn, rfl⟩ := h.ending.exists_drop
  rw [List.length_append] at hlen
  have hcount : used.length = name.length + k := by omega
  have hfront : (compacted pre name k).length = (pre ++ used).length := by
    rw [length_compacted, List.length_append]
    omega
  have hn' : tail.length - (tail.drop n).length = n := by
    rw [List.length_drop]
    omega
  -- The blanks behind the identifier are skipped.
  have hcp : skipBlanks (compacted pre name k ++ tail) ((compacted pre name k).length + n) =
      (pre ++ used).length + skipBlanks tail n := by
    rw [skipBlanks, skipWhile_append, hfront]
    rfl
  have hbound : skipBlanks tail n ≤ tail.length := skipWhile_le _ hn
  have hdrop : tail.drop (skipBlanks tail n) = (tail.drop n).dropWhile (· = ' ') :=
    drop_skipWhile ..
  refine ⟨k, (pre ++ used).length + skipBlanks tail n, ?_, ?_, ?_, ?_, ?_, ?_⟩
  · rw [hred, hcount]
    omega
  · have hrd : rd (pre ++ (used ++ tail)) pre.length = rd (used ++ tail) 0 := rd_append pre _ 0
    rw [roffGetname, hrd, rd_of_le (Nat.zero_le _), Res.ok_bind]
    by_cases hnul : charAt (used ++ tail) 0 = NUL
    · -- Nothing is read at the end of the string.
      have hnil : used ++ tail = [] := by
        by_contra hne
        exact charAt_ne_nul hs (List.length_pos_iff.mpr hne) hnul
      obtain ⟨rfl, rfl⟩ := List.append_eq_nil_iff.mp hnil
      have hname : name = [] := List.length_eq_zero_iff.mp (Nat.le_zero.mp hle)
      obtain rfl : k = 0 := by
        rw [hname] at hcount
        exact (Nat.zero_add k).symm.trans hcount.symm
      obtain rfl : n = 0 := Nat.le_zero.mp hn
      rw [if_pos hnul, hname]
      simp [compacted, skipBlanks, skipWhile]
    · have hstart : (⟨pre ++ (used ++ tail), 0, pre.length⟩ : GetName) =
          nameState pre [] 0 (used ++ tail) := by simp [nameState, compacted]
      rw [hn', List.nil_append] at hloop
      rw [if_neg hnul, hstart, hloop, Res.ok_bind]
      dsimp only [nameState]
      rw [rd_append, rd_of_le hn, Res.ok_bind, hcp]
      rfl
  · rw [List.length_append, hfront, ← List.length_append, List.append_assoc]
  · have htotal : (pre ++ (used ++ tail)).length = (pre ++ used).length + tail.length := by
      rw [← List.append_assoc, List.length_append]
    rw [htotal]
    exact Nat.add_le_add_left hbound _
  · rw [← List.append_assoc, drop_append_length, hdrop]
  · rw [← hfront, drop_append_length, hdrop]

/-! ## §6 One identifier for each text -/

/-- A text that begins with an end of an identifier. -/
theorem Ending.inv {text rest : CStr} (h : Ending text rest) :
    (text = [] ∧ rest = []) ∨ text = ' ' :: rest ∨ text = '\t' :: rest ∨
      ∃ s, text = '\\' :: s ∧
        (((charAt s 0 = '\x7b' ∨ charAt s 0 = '\x7d') ∧ rest = text) ∨
          (¬ (charAt s 0 = '\x7b' ∨ charAt s 0 = '\x7d') ∧ ∃ e, roffEscapeNull text 0 = .ok e ∧
            e.rval ≠ .UNDEF ∧ rest = text.drop e.rend)) := by
  cases h with
  | nul => exact .inl ⟨rfl, rfl⟩
  | blank s => exact .inr (.inl rfl)
  | tab s => exact .inr (.inr (.inl rfl))
  | brace hbrace => exact .inr (.inr (.inr ⟨_, rfl, .inl ⟨hbrace, rfl⟩⟩))
  | escape hbrace he hdefined _ =>
    exact .inr (.inr (.inr ⟨_, rfl, .inr ⟨hbrace, _, he, hdefined, rfl⟩⟩))

/-- A text that begins with an identifier. -/
theorem Identifier.inv {text name tail rest : CStr} {reduced : Bool}
    (h : Identifier text name reduced tail rest) :
    (Ending text rest ∧ name = [] ∧ reduced = false ∧ tail = text) ∨
      (∃ c s name', text = c :: s ∧ c ≠ ' ' ∧ c ≠ '\t' ∧ c ≠ '\\' ∧ name = c :: name' ∧
        Identifier s name' reduced tail rest) ∨
      ∃ j x s name' reduced', text = '\\' :: (List.replicate j 'E' ++ x :: s) ∧
        escName x = .undefined ∧ x ≠ 'E' ∧ name = x :: name' ∧ reduced = true ∧
        Identifier s name' reduced' tail rest := by
  cases h with
  | done h => exact .inl ⟨h, rfl, rfl, rfl⟩
  | plain hblank htab hesc h =>
    exact .inr (.inl ⟨_, _, _, rfl, hblank, htab, hesc, rfl, h⟩)
  | reduce j hname hx h => exact .inr (.inr ⟨j, _, _, _, _, rfl, hname, hx, rfl, rfl, h⟩)

theorem Ending.unique {text rest rest' : CStr} (h : Ending text rest) (h' : Ending text rest') :
    rest = rest' := by
  -- Compare the forms of both endings; they differ in the first byte of the text.
  obtain ⟨rfl, rfl⟩ | rfl | rfl | ⟨s, rfl, hs⟩ := h.inv
  · obtain ⟨-, rfl⟩ | h | h | ⟨_, h, -⟩ := h'.inv
    · rfl
    · cases h
    · cases h
    · cases h
  · obtain ⟨h, -⟩ | h | h | ⟨_, h, -⟩ := h'.inv
    · cases h
    · exact (List.cons.inj h).2
    · exact absurd (List.cons.inj h).1 (by decide)
    · exact absurd (List.cons.inj h).1 (by decide)
  · obtain ⟨h, -⟩ | h | h | ⟨_, h, -⟩ := h'.inv
    · cases h
    · exact absurd (List.cons.inj h).1 (by decide)
    · exact (List.cons.inj h).2
    · exact absurd (List.cons.inj h).1 (by decide)
  · obtain ⟨h, -⟩ | h | h | ⟨s', h, hs'⟩ := h'.inv
    · cases h
    · exact absurd (List.cons.inj h).1 (by decide)
    · exact absurd (List.cons.inj h).1 (by decide)
    · -- Both are escape sequences, so they end at the same place.
      obtain rfl := (List.cons.inj h).2
      obtain ⟨hbrace, rfl⟩ | ⟨hbrace, e, he, -, rfl⟩ := hs
      · obtain ⟨-, rfl⟩ | ⟨hbrace', -⟩ := hs'
        · rfl
        · exact absurd hbrace hbrace'
      · obtain ⟨hbrace', -⟩ | ⟨-, e', he', -, rfl⟩ := hs'
        · exact absurd hbrace' hbrace
        · rw [he] at he'
          rw [Except.ok.inj he']

/-- A byte of an identifier does not end it. -/
theorem Ending.not_plain {c : Char} {s rest : CStr} (hblank : c ≠ ' ') (htab : c ≠ '\t')
    (hesc : c ≠ '\\') : ¬ Ending (c :: s) rest := by
  intro h
  obtain ⟨h, -⟩ | h | h | ⟨_, h, -⟩ := h.inv
  · cases h
  · exact hblank (List.cons.inj h).1
  · exact htab (List.cons.inj h).1
  · exact hesc (List.cons.inj h).1

/-- An undefined escape sequence does not end an identifier. -/
theorem Ending.not_reduce {j : Nat} {x : Char} {s rest : CStr} (hname : escName x = .undefined)
    (hx : x ≠ 'E') (hs : NUL ∉ '\\' :: (List.replicate j 'E' ++ x :: s)) :
    ¬ Ending ('\\' :: (List.replicate j 'E' ++ x :: s)) rest := by
  intro h
  obtain ⟨h, -⟩ | h | h | ⟨s', h, hs'⟩ := h.inv
  · cases h
  · exact absurd (List.cons.inj h).1 (by decide)
  · exact absurd (List.cons.inj h).1 (by decide)
  · obtain rfl := (List.cons.inj h).2
    obtain ⟨hbrace, -⟩ | ⟨-, e, he, hdefined, -⟩ := hs'
    · cases j with
      | zero =>
        obtain rfl | rfl : x = '\x7b' ∨ x = '\x7d' := hbrace
        · exact absurd hname (by decide)
        · exact absurd hname (by decide)
      | succ j =>
        obtain h | h : 'E' = '\x7b' ∨ 'E' = '\x7d' := hbrace
        · exact absurd h (by decide)
        · exact absurd h (by decide)
    · rw [roffEscapeNull_replicate j hname hx hs] at he
      cases he
      exact hdefined rfl

/-- A text begins with at most one identifier. -/
theorem Identifier.unique {text name tail rest name' tail' rest' : CStr} {reduced reduced' : Bool}
    (h : Identifier text name reduced tail rest) (h' : Identifier text name' reduced' tail' rest')
    (hs : NUL ∉ text) : name = name' ∧ reduced = reduced' ∧ tail = tail' ∧ rest = rest' := by
  induction h generalizing name' reduced' tail' rest' with
  | done hend =>
    obtain ⟨hend', rfl, rfl, rfl⟩ | ⟨c, s, _, rfl, hblank, htab, hesc, -⟩ |
      ⟨j, x, s, _, _, rfl, hname, hx, -⟩ := h'.inv
    · exact ⟨rfl, rfl, rfl, hend.unique hend'⟩
    · exact absurd hend (Ending.not_plain hblank htab hesc)
    · exact absurd hend (Ending.not_reduce hname hx hs)
  | @plain c s name tail rest reduced hblank htab hesc h ih =>
    obtain ⟨hend', -⟩ | ⟨c', s', name', heq, -, -, -, rfl, h⟩ | ⟨_, _, _, _, _, heq, -⟩ := h'.inv
    · exact absurd hend' (Ending.not_plain hblank htab hesc)
    · obtain ⟨rfl, rfl⟩ := List.cons.inj heq
      obtain ⟨rfl, hrest⟩ := ih h fun hmem => hs (List.mem_cons_of_mem c hmem)
      exact ⟨rfl, hrest⟩
    · exact absurd (List.cons.inj heq).1 hesc
  | @reduce j x s name tail rest reduced hname hx h ih =>
    obtain ⟨hend', -⟩ | ⟨_, _, _, heq, -, -, hesc, -⟩ |
      ⟨j', x', s', name', reduced', heq, -, hx', rfl, rfl, h⟩ := h'.inv
    · exact absurd hend' (Ending.not_reduce hname hx hs)
    · exact absurd (List.cons.inj heq).1.symm hesc
    · -- The name of the sequence is found at the same index.
      have hindex := congrArg (nameIndex · 0) heq
      rw [nameIndex_replicate j hx, nameIndex_replicate j' hx'] at hindex
      obtain rfl := Nat.succ.inj hindex
      obtain ⟨rfl, rfl⟩ := List.cons.inj (List.append_cancel_left (List.cons.inj heq).2)
      obtain ⟨rfl, -, hrest⟩ := ih h fun hmem => hs (by simp [hmem])
      exact ⟨rfl, rfl, hrest⟩

end Mandoc
