import Mandoc.Roff.CharNames

/-!
# Input Encoding

The roff parser handles ASCII only. The function `preconv_encode()` of `preconv.c` replaces a
character of the input file that is encoded in UTF-8 or in ISO-Latin-1 by the escape sequence for
its code point.

- `utf8Sequence` recognizes a multi-byte sequence and computes the code point.
- `preconvEncode` writes the escape sequence to the output buffer.

The input file is not terminated by a NUL. Reading at or beyond its size is reported as the fault
`Fault.overrun`.
-/

namespace Mandoc

/-! ## §1 The encoder -/

/-- `ib->buf[i]` -/
def rdByte (ib : List UInt8) (i : Nat) : Res UInt8 :=
  match ib[i]? with
  | some c => .ok c
  | none => .error .overrun

/-- `MPARSE_UTF8` and `MPARSE_LATIN1` -/
structure Filenc where
  utf8 : Bool
  latin1 : Bool
deriving DecidableEq, Repr

/-- `while (nby < 5 && *cu & (1 << (7 - nby))) nby++`. The first argument counts down to the limit. -/
def countBits (cu : UInt8) : Nat → Nat → Nat
  | 0, nby => nby
  | n + 1, nby => if cu &&& (1 <<< UInt8.ofNat (7 - nby)) ≠ 0 then countBits cu n (nby + 1) else nby

/-- The number of bytes and the first bits of the code point, unless the sequence header is bad. -/
def utf8Header (cu : UInt8) : Option (Nat × Nat) :=
  match countBits cu 4 1 with
  | 2 =>
    let accum := (cu &&& 0x1f).toNat
    -- Obfuscated ASCII.
    if accum < 0x02 then none else some (2, accum)
  | 3 => some (3, (cu &&& 0x0f).toNat)
  | 4 =>
    let accum := (cu &&& 0x07).toNat
    -- Beyond Unicode.
    if 0x04 < accum then none else some (4, accum)
  | _ => none

/-- The test on the second byte, which is only read if the first byte calls for it. -/
def badSecond (ib : List UInt8) (nby accum cu : Nat) : Res Bool :=
  match nby, accum with
  -- Use 2-byte.
  | 3, 0x00 => do return (← rdByte ib cu) &&& 0x20 = 0
  -- Surrogates.
  | 3, 0x0d => do return (← rdByte ib cu) &&& 0x20 ≠ 0
  -- Use 3-byte.
  | 4, 0x00 => do return (← rdByte ib cu) &&& 0x30 = 0
  -- Beyond Unicode.
  | 4, 0x04 => do return (← rdByte ib cu) &&& 0x30 ≠ 0
  | _, _ => .ok false

/-- `while (--nby)`: the code point, and the index behind the sequence. -/
def continuation (ib : List UInt8) : Nat → Nat → Nat → Res (Option (Nat × Nat))
  | 0, cu, accum => .ok (some (accum, cu))
  | n + 1, cu, accum => do
    let c ← rdByte ib cu
    if c &&& 0xc0 ≠ 0x80 then return none
    else continuation ib n (cu + 1) ((accum <<< 6) + (c &&& 0x3f).toNat)

/-- The multi-byte sequence at an index: its code point, and the index behind it. The result is
    `none` if the code goes to the label `latin`. -/
def utf8Sequence (ib : List UInt8) (ii : Nat) : Res (Option (Nat × Nat)) := do
  match utf8Header (← rdByte ib ii) with
  | none => return none
  | some (nby, accum) =>
    if ← badSecond ib nby accum (ii + 1) then return none
    else continuation ib (nby - 1) (ii + 1) accum

/-- The conversion `\[u%.4X]`. -/
def unicodeEscape (cp : Nat) : CStr := '\\' :: '[' :: ('u' :: formatHex4 cp ++ [']'])

/-- The variables that the function changes: the index of the next byte to be read, the bytes of
    the output buffer before the next one to be written, and the encodings that are enabled. -/
structure Preconv where
  ii : Nat
  ob : CStr
  filenc : Filenc
deriving DecidableEq, Repr

/-- The label `latin`. -/
def preconvLatin1 (ib : List UInt8) (st : Preconv) : Res (Bool × Preconv) := do
  if st.filenc.latin1 then
    let c ← rdByte ib st.ii
    return (true, ⟨st.ii + 1, st.ob ++ unicodeEscape c.toNat, { st.filenc with utf8 := false }⟩)
  else return (false, st)

/-- `preconv_encode()` -/
def preconvEncode (ib : List UInt8) (st : Preconv) : Res (Bool × Preconv) := do
  let c ← rdByte ib st.ii
  if c &&& 0x80 = 0 then .error .abort
  else if st.filenc.utf8 then
    match ← utf8Sequence ib st.ii with
    | none => preconvLatin1 ib st
    | some (accum, cu) =>
      if accum ≤ 0x7f ∨ 0x110000 ≤ accum ∨ (0xd800 ≤ accum ∧ accum ≤ 0xdfff) then .error .abort
      else return (true, ⟨cu, st.ob ++ unicodeEscape accum, { st.filenc with latin1 := false }⟩)
  else preconvLatin1 ib st

/-! ## §2 Sequences of Bytes -/

theorem forall_uint8 {P : UInt8 → Prop} (h : ∀ n < 256, P (UInt8.ofNat n)) (c : UInt8) : P c := by
  have := h c.toNat c.toNat_lt
  rwa [UInt8.ofNat_toNat] at this

/-- The first byte of a sequence of `n` bytes with the bits `x`. -/
def headerByte (n x : Nat) : UInt8 :=
  match n with
  | 2 => UInt8.ofNat (0xc0 + x)
  | 3 => UInt8.ofNat (0xe0 + x)
  | _ => UInt8.ofNat (0xf0 + x)

/-- The continuation byte with the bits `y`. -/
def contByte (y : Nat) : UInt8 := UInt8.ofNat (0x80 + y)

/-- The number that consists of the bits of the first byte and those of the continuation bytes. -/
def codePoint (x : Nat) (ys : List Nat) : Nat := ys.foldl (fun v y => 64 * v + y) x

/-- The bits of the bytes of a sequence in the shortest form that denotes neither a surrogate nor
    a number beyond Unicode. -/
inductive MultiByte : Nat → Nat → List Nat → Prop
  | two {x y : Nat} (hx : x < 32) (hy : y < 64) (hmin : 0x80 ≤ 64 * x + y) : MultiByte 2 x [y]
  | three {x y z : Nat} (hx : x < 16) (hy : y < 64) (hz : z < 64)
      (hmin : 0x800 ≤ 64 * (64 * x + y) + z)
      (hsur : ¬ (0xd800 ≤ 64 * (64 * x + y) + z ∧ 64 * (64 * x + y) + z ≤ 0xdfff)) :
      MultiByte 3 x [y, z]
  | four {x y z w : Nat} (hx : x < 8) (hy : y < 64) (hz : z < 64) (hw : w < 64)
      (hmin : 0x10000 ≤ 64 * (64 * (64 * x + y) + z) + w)
      (hmax : 64 * (64 * (64 * x + y) + z) + w < 0x110000) : MultiByte 4 x [y, z, w]

/-- The bytes of a sequence. -/
def sequenceBytes (n x : Nat) (ys : List Nat) : List UInt8 := headerByte n x :: ys.map contByte

/-- The bytes are the encoding of a character outside ASCII. -/
def WellFormed (bs : List UInt8) (cp : Nat) : Prop :=
  ∃ c : Char, 0x7f < c.toNat ∧ cp = c.toNat ∧ bs = String.utf8EncodeChar c

theorem exists_char {n : Nat} (h : n.isValidChar) : ∃ c : Char, c.toNat = n :=
  ⟨Char.ofNatAux n h, by simp [Char.toNat, Char.ofNatAux]⟩

/-- The encoding of a character with the number of a sequence is that sequence. -/
theorem MultiByte.encodeChar {n x : Nat} {ys : List Nat} {c : Char} (h : MultiByte n x ys)
    (hc : c.toNat = codePoint x ys) : String.utf8EncodeChar c = sequenceBytes n x ys := by
  have hval : c.val.toNat = c.toNat := rfl
  unfold String.utf8EncodeChar
  simp only [hval]
  cases h with
  | @two x y hx hy hmin =>
    replace hc : c.toNat = 64 * x + y := hc
    rw [if_neg (by omega), if_pos (by omega)]
    have h0 : c.toNat / 64 % 32 = x := by omega
    have h1 : c.toNat % 64 = y := by omega
    simp only [h0, h1, sequenceBytes, headerByte, contByte, List.map, Nat.add_comm]
  | @three x y z hx hy hz hmin hsur =>
    replace hc : c.toNat = 64 * (64 * x + y) + z := hc
    rw [if_neg (by omega), if_neg (by omega), if_pos (by omega)]
    have h0 : c.toNat / 4096 % 16 = x := by omega
    have h1 : c.toNat / 64 % 64 = y := by omega
    have h2 : c.toNat % 64 = z := by omega
    simp only [h0, h1, h2, sequenceBytes, headerByte, contByte, List.map, Nat.add_comm]
  | @four x y z w hx hy hz hw hmin hmax =>
    replace hc : c.toNat = 64 * (64 * (64 * x + y) + z) + w := hc
    rw [if_neg (by omega), if_neg (by omega), if_neg (by omega)]
    have h0 : c.toNat / 262144 % 8 = x := by omega
    have h1 : c.toNat / 4096 % 64 = y := by omega
    have h2 : c.toNat / 64 % 64 = z := by omega
    have h3 : c.toNat % 64 = w := by omega
    simp only [h0, h1, h2, h3, sequenceBytes, headerByte, contByte, List.map, Nat.add_comm]

theorem MultiByte.scalar {n x : Nat} {ys : List Nat} (h : MultiByte n x ys) :
    0x7f < codePoint x ys ∧ codePoint x ys < 0x110000 ∧
      ¬ (0xd800 ≤ codePoint x ys ∧ codePoint x ys ≤ 0xdfff) := by
  cases h <;> simp only [codePoint, List.foldl] <;> omega

/-- There is a sequence for the number of every character outside ASCII. -/
theorem exists_multiByte {v : Nat} (hlow : 0x7f < v) (h : v.isValidChar) :
    ∃ n x ys, MultiByte n x ys ∧ codePoint x ys = v := by
  replace h : v < 0xd800 ∨ 0xdfff < v ∧ v < 0x110000 := h
  rcases Nat.lt_or_ge v 0x800 with h2 | h2
  · have hv : 64 * (v / 64) + v % 64 = v := by omega
    exact ⟨2, _, _, .two (by omega) (by omega) (by omega), hv⟩
  rcases Nat.lt_or_ge v 0x10000 with h3 | h3
  · have hv : 64 * (64 * (v / 4096) + v / 64 % 64) + v % 64 = v := by omega
    exact ⟨3, _, _, .three (by omega) (by omega) (by omega) (by omega) (by omega), hv⟩
  · have hv : 64 * (64 * (64 * (v / 262144) + v / 4096 % 64) + v / 64 % 64) + v % 64 = v := by
      omega
    exact ⟨4, _, _, .four (by omega) (by omega) (by omega) (by omega) (by omega) (by omega), hv⟩

/-- **The grammar of UTF-8**: the sequences are the encodings of the characters. -/
theorem wellFormed_iff {bs : List UInt8} {cp : Nat} : WellFormed bs cp ↔
    ∃ n x ys, MultiByte n x ys ∧ bs = sequenceBytes n x ys ∧ cp = codePoint x ys := by
  constructor
  · rintro ⟨c, hc, rfl, rfl⟩
    obtain ⟨n, x, ys, hm, hv⟩ := exists_multiByte hc c.valid
    exact ⟨n, x, ys, hm, hm.encodeChar hv.symm, hv.symm⟩
  · rintro ⟨n, x, ys, hm, rfl, rfl⟩
    obtain ⟨hlow, hmax, hsur⟩ := hm.scalar
    have hvalid : (codePoint x ys).isValidChar := by
      show _ < 0xd800 ∨ 0xdfff < _ ∧ _ < 0x110000
      omega
    obtain ⟨c, hc⟩ := exists_char hvalid
    exact ⟨c, hc ▸ hlow, hc.symm, (hm.encodeChar hc).symm⟩

/-! ## §3 Recognizing a Sequence -/

theorem contByte_payload : ∀ y < 64, contByte y &&& 0xc0 = 0x80 ∧
    (contByte y &&& 0x3f).toNat = y := by
  decide

theorem exists_contByte (c : UInt8) : c &&& 0xc0 = 0x80 → ∃ y < 64, c = contByte y := by
  revert c
  apply forall_uint8
  decide +kernel

theorem contByte_bits : ∀ y < 64, (contByte y &&& 0x20 = 0 ↔ y < 0x20) ∧
    (contByte y &&& 0x30 = 0 ↔ y < 0x10) := by
  decide

/-- The headers that the code accepts. -/
def HeaderBits (n x : Nat) : Prop := n = 2 ∧ 2 ≤ x ∧ x < 32 ∨ n = 3 ∧ x < 16 ∨ n = 4 ∧ x < 5

instance (n x : Nat) : Decidable (HeaderBits n x) :=
  inferInstanceAs (Decidable (_ ∨ _))

/-- The code recovers the bits of a header. -/
theorem utf8Header_headerByte {n x : Nat} (h : HeaderBits n x) :
    utf8Header (headerByte n x) = some (n, x) := by
  have h2 : ∀ x < 32, 2 ≤ x → utf8Header (headerByte 2 x) = some (2, x) := by decide +kernel
  have h3 : ∀ x < 16, utf8Header (headerByte 3 x) = some (3, x) := by decide +kernel
  have h4 : ∀ x < 5, utf8Header (headerByte 4 x) = some (4, x) := by decide +kernel
  rcases h with ⟨rfl, hlo, hhi⟩ | ⟨rfl, hhi⟩ | ⟨rfl, hhi⟩
  · exact h2 x hhi hlo
  · exact h3 x hhi
  · exact h4 x hhi

/-- A header has the high bit set. -/
theorem headerByte_high {n x : Nat} (h : HeaderBits n x) : 0x80 ≤ (headerByte n x).toNat := by
  have h2 : ∀ x < 32, 0x80 ≤ (headerByte 2 x).toNat := by decide
  have h3 : ∀ x < 16, 0x80 ≤ (headerByte 3 x).toNat := by decide
  have h4 : ∀ x < 5, 0x80 ≤ (headerByte 4 x).toNat := by decide
  rcases h with ⟨rfl, -, hx⟩ | ⟨rfl, hx⟩ | ⟨rfl, hx⟩
  · exact h2 x hx
  · exact h3 x hx
  · exact h4 x hx

/-- The code accepts no other header. -/
theorem utf8Header_some (c : UInt8) : 0x80 ≤ c.toNat → ∀ v, utf8Header c = some v →
    HeaderBits v.1 v.2 ∧ c = headerByte v.1 v.2 := by
  have h : ∀ n < 256, 0x80 ≤ (UInt8.ofNat n).toNat → ∀ v ∈ utf8Header (UInt8.ofNat n),
      HeaderBits v.1 v.2 ∧ UInt8.ofNat n = headerByte v.1 v.2 := by
    decide +kernel
  exact @forall_uint8 (fun c => 0x80 ≤ c.toNat → ∀ v, utf8Header c = some v →
    HeaderBits v.1 v.2 ∧ c = headerByte v.1 v.2) h c

theorem high_bit_iff (c : UInt8) : c &&& 0x80 = 0 ↔ ¬ 0x80 ≤ c.toNat := by
  revert c
  apply forall_uint8
  decide +kernel

/-- The bits of the second byte that go with those of the first one. -/
def SecondBits (n x y : Nat) : Prop :=
  ¬ (n = 3 ∧ x = 0 ∧ y < 0x20) ∧ ¬ (n = 3 ∧ x = 0xd ∧ 0x20 ≤ y) ∧
    ¬ (n = 4 ∧ x = 0 ∧ y < 0x10) ∧ ¬ (n = 4 ∧ x = 4 ∧ 0x10 ≤ y)

/-- The bits of a sequence satisfy what the code tests. -/
theorem MultiByte.bits {n x : Nat} {ys : List Nat} (h : MultiByte n x ys) :
    HeaderBits n x ∧ ys.length + 1 = n ∧ (∀ y ∈ ys, y < 64) ∧
      ∃ y ys', ys = y :: ys' ∧ SecondBits n x y := by
  cases h with
  | two hx hy hmin =>
    refine ⟨.inl ⟨rfl, by omega, hx⟩, rfl, by simpa using hy, _, _, rfl, ?_⟩
    simp [SecondBits]
  | three hx hy hz hmin hsur =>
    refine ⟨.inr (.inl ⟨rfl, hx⟩), rfl, by simpa using ⟨hy, hz⟩, _, _, rfl, ?_⟩
    unfold SecondBits
    omega
  | four hx hy hz hw hmin hmax =>
    refine ⟨.inr (.inr ⟨rfl, by omega⟩), rfl, by simpa using ⟨hy, hz, hw⟩, _, _, rfl, ?_⟩
    unfold SecondBits
    omega

/-- What the code tests makes a sequence. -/
theorem multiByte_of_bits {n x y : Nat} {ys : List Nat} (hh : HeaderBits n x)
    (hs : SecondBits n x y) (hys : ∀ z ∈ y :: ys, z < 64) (hlen : ys.length + 2 = n) :
    MultiByte n x (y :: ys) := by
  unfold SecondBits at hs
  rcases hh with ⟨rfl, hlo, hhi⟩ | ⟨rfl, hhi⟩ | ⟨rfl, hhi⟩
  · match ys, hlen with
    | [], _ =>
      have hy : y < 64 := hys y (.head _)
      exact .two hhi hy (by omega)
  · match ys, hlen with
    | [z], _ =>
      have hy : y < 64 := hys y (.head _)
      have hz : z < 64 := hys z (.tail _ (.head _))
      exact .three hhi hy hz (by omega) (by omega)
  · match ys, hlen with
    | [z, w], _ =>
      have hy : y < 64 := hys y (.head _)
      have hz : z < 64 := hys z (.tail _ (.head _))
      have hw : w < 64 := hys w (.tail _ (.tail _ (.head _)))
      exact .four (by omega) hy hz hw (by omega) (by omega)

/-- Some second byte goes with every header. -/
theorem exists_secondBits {n x : Nat} (hh : HeaderBits n x) : ∃ y < 64, SecondBits n x y := by
  unfold SecondBits
  rcases hh with ⟨rfl, -, -⟩ | ⟨rfl, -⟩ | ⟨rfl, -⟩
  · exact ⟨0, by decide, by simp⟩
  · rcases Nat.eq_zero_or_pos x with rfl | hx
    · exact ⟨0x20, by decide, by simp⟩
    · exact ⟨0, by decide, by omega⟩
  · rcases Nat.eq_zero_or_pos x with rfl | hx
    · exact ⟨0x10, by decide, by simp⟩
    · exact ⟨0, by decide, by omega⟩

theorem rdByte_of_drop {ib : List UInt8} {i : Nat} {c : UInt8} {t : List UInt8}
    (h : ib.drop i = c :: t) : rdByte ib i = .ok c := by
  have hget : ib[i]? = some c := by
    rw [← List.head?_drop, h]
    rfl
  simp only [rdByte, hget]

theorem rdByte_of_drop_nil {ib : List UInt8} {i : Nat} (h : ib.drop i = []) :
    rdByte ib i = .error .overrun := by
  have hget : ib[i]? = none := by
    rw [← List.head?_drop, h]
    rfl
  simp only [rdByte, hget]

theorem drop_succ_of_drop {ib : List UInt8} {i : Nat} {c : UInt8} {t : List UInt8}
    (h : ib.drop i = c :: t) : ib.drop (i + 1) = t := by
  rw [← List.drop_drop, h]
  rfl

/-- The loop accepts a continuation byte. -/
theorem continuation_contByte {ib t : List UInt8} {n cu x y : Nat} (hy : y < 64)
    (h : ib.drop cu = contByte y :: t) :
    continuation ib (n + 1) cu x = continuation ib n (cu + 1) (64 * x + y) := by
  obtain ⟨hc, hp⟩ := contByte_payload y hy
  have hx : x <<< 6 + y = 64 * x + y := by
    rw [Nat.shiftLeft_eq]
    omega
  rw [continuation, rdByte_of_drop h]
  simp only [Res.ok_bind, hc, hp, hx, ne_eq, not_true_eq_false, if_false]

/-- The loop accepts any number of continuation bytes. -/
theorem continuation_append {ib t : List UInt8} {n : Nat} {ys : List Nat} :
    ∀ {cu x : Nat}, (∀ y ∈ ys, y < 64) → ib.drop cu = ys.map contByte ++ t →
      continuation ib (ys.length + n) cu x =
        continuation ib n (cu + ys.length) (codePoint x ys) := by
  induction ys with
  | nil =>
    intro cu x _ _
    rw [List.length_nil, Nat.zero_add, Nat.add_zero]
    rfl
  | cons y ys ih =>
    intro cu x hys h
    have hlen : (y :: ys).length + n = ys.length + n + 1 := by
      rw [List.length_cons]
      omega
    rw [hlen, continuation_contByte (hys y (.head _)) h,
      ih (fun z hz => hys z (.tail _ hz)) (drop_succ_of_drop h)]
    rw [List.length_cons, Nat.add_assoc cu, Nat.add_comm 1]
    rfl

/-- **The loop**: it reads the continuation bytes that are there. -/
theorem continuation_cases {ib : List UInt8} : ∀ {n cu x : Nat}, continuation ib n cu x = .ok none ∨
    ∃ ys : List Nat, (∀ y ∈ ys, y < 64) ∧ ((ys.length = n ∧ ∃ t, ib.drop cu = ys.map contByte ++ t) ∨
      (ys.length < n ∧ ib.drop cu = ys.map contByte)) := by
  intro n
  induction n with
  -- There are enough bytes.
  | zero =>
    intro cu x
    exact .inr ⟨[], by simp, .inl ⟨rfl, _, rfl⟩⟩
  | succ n ih =>
    intro cu x
    match h : ib.drop cu with
    | [] => exact .inr ⟨[], by simp, .inr ⟨Nat.succ_pos n, rfl⟩⟩
    | c :: t =>
      -- Either the next byte continues the sequence, or this is no sequence.
      by_cases hc : c &&& 0xc0 = 0x80
      · obtain ⟨y, hy, rfl⟩ := exists_contByte c hc
        rw [continuation_contByte hy h]
        have ht := drop_succ_of_drop h
        rcases @ih (cu + 1) (64 * x + y) with hnone | ⟨ys, hys, hend⟩
        · exact .inl hnone
        · have hall : ∀ z ∈ y :: ys, z < 64 := by
            rintro z (_ | ⟨_, hz⟩)
            · exact hy
            · exact hys z hz
          rw [ht] at hend
          refine .inr ⟨y :: ys, hall, ?_⟩
          rcases hend with ⟨hlen, u, rfl⟩ | ⟨hlen, rfl⟩
          · exact .inl ⟨congrArg (· + 1) hlen, u, rfl⟩
          · exact .inr ⟨Nat.succ_lt_succ hlen, rfl⟩
      · refine .inl ?_
        rw [continuation, rdByte_of_drop h]
        simp only [Res.ok_bind, ne_eq, hc, not_false_eq_true, if_true]
        rfl

/-- The test on the second byte of a sequence. -/
theorem badSecond_contByte {ib t : List UInt8} {n x y cu : Nat} (hy : y < 64)
    (h : ib.drop cu = contByte y :: t) :
    ∃ b, badSecond ib n x cu = .ok b ∧ (b = true ↔ ¬ SecondBits n x y) := by
  obtain ⟨h20, h30⟩ := contByte_bits y hy
  have hread := rdByte_of_drop h
  unfold SecondBits badSecond
  split
  · refine ⟨_, by rw [hread, Res.ok_bind]; rfl, ?_⟩
    simp [h20]
  · refine ⟨_, by rw [hread, Res.ok_bind]; rfl, ?_⟩
    simp [h20]
  · refine ⟨_, by rw [hread, Res.ok_bind]; rfl, ?_⟩
    simp [h30]
  · refine ⟨_, by rw [hread, Res.ok_bind]; rfl, ?_⟩
    simp [h30]
  · rename_i h1 h2 h3 h4
    refine ⟨_, rfl, ?_⟩
    simp only [Bool.false_eq_true, false_iff, not_not]
    exact ⟨fun h => h1 h.1 h.2.1, fun h => h2 h.1 h.2.1, fun h => h3 h.1 h.2.1,
      fun h => h4 h.1 h.2.1⟩

/-- Behind the buffer, the test on the second byte reads nothing or fails. -/
theorem badSecond_nil {ib : List UInt8} {n x cu : Nat} (h : ib.drop cu = []) :
    badSecond ib n x cu = .ok false ∨ badSecond ib n x cu = .error .overrun := by
  have hread := rdByte_of_drop_nil h
  unfold badSecond
  split
  · exact .inr (by rw [hread]; rfl)
  · exact .inr (by rw [hread]; rfl)
  · exact .inr (by rw [hread]; rfl)
  · exact .inr (by rw [hread]; rfl)
  · exact .inl rfl

/-- Inside the buffer, the test on the second byte has a result. -/
theorem badSecond_cons {ib t : List UInt8} {n x cu : Nat} {c : UInt8} (h : ib.drop cu = c :: t) :
    ∃ b, badSecond ib n x cu = .ok b := by
  have hread := rdByte_of_drop h
  unfold badSecond
  split
  · exact ⟨_, by rw [hread, Res.ok_bind]; rfl⟩
  · exact ⟨_, by rw [hread, Res.ok_bind]; rfl⟩
  · exact ⟨_, by rw [hread, Res.ok_bind]; rfl⟩
  · exact ⟨_, by rw [hread, Res.ok_bind]; rfl⟩
  · exact ⟨_, rfl⟩

theorem utf8Sequence_header {ib t : List UInt8} {n x ii : Nat} (hh : HeaderBits n x)
    (h : ib.drop ii = headerByte n x :: t) : utf8Sequence ib ii = (do
      if ← badSecond ib n x (ii + 1) then return none
      else continuation ib (n - 1) (ii + 1) x) := by
  rw [utf8Sequence, rdByte_of_drop h, Res.ok_bind, utf8Header_headerByte hh]

/-- The code recognizes every sequence. -/
theorem utf8Sequence_of_multiByte {ib t : List UInt8} {n x ii : Nat} {ys : List Nat}
    (hm : MultiByte n x ys) (h : ib.drop ii = sequenceBytes n x ys ++ t) :
    utf8Sequence ib ii = .ok (some (codePoint x ys, ii + n)) := by
  obtain ⟨hh, hlen, hys, y, ys', rfl, hs⟩ := hm.bits
  have htail := drop_succ_of_drop h
  obtain ⟨b, hb, hbs⟩ := badSecond_contByte (n := n) (x := x) (hys y (.head _)) htail
  have hbf : b = false := by
    rw [← Bool.not_eq_true, hbs]
    exact not_not.mpr hs
  have hloop := @continuation_append ib t 0 _ (ii + 1) x hys htail
  rw [Nat.add_zero] at hloop
  rw [utf8Sequence_header hh h, hb, hbf, Res.ok_bind, if_neg Bool.false_ne_true]
  have hn : n - 1 = (y :: ys').length := by omega
  rw [hn, hloop, continuation]
  congr 3
  omega

/-- The buffer ends inside a sequence. -/
def Truncated (l : List UInt8) : Prop :=
  l ≠ [] ∧ ∃ bs cp, WellFormed bs cp ∧ l <+: bs ∧ l.length < bs.length

/-- The bits of the beginning of a sequence, and those that are missing. -/
theorem truncated_iff {l : List UInt8} : Truncated l ↔ ∃ n x ys zs, MultiByte n x (ys ++ zs) ∧
    zs ≠ [] ∧ l = headerByte n x :: ys.map contByte := by
  constructor
  · rintro ⟨hne, bs, cp, hwf, ⟨r, hr⟩, hlen⟩
    obtain ⟨n, x, ws, hm, rfl, rfl⟩ := wellFormed_iff.mp hwf
    match l, hne with
    | c :: l, _ =>
      obtain ⟨rfl, ht⟩ := List.cons.inj hr
      obtain ⟨ys, zs, rfl, rfl, rfl⟩ := List.append_eq_map_iff.mp ht
      refine ⟨n, x, ys, zs, hm, ?_, rfl⟩
      rintro rfl
      simp [sequenceBytes] at hlen
  · rintro ⟨n, x, ys, zs, hm, hzs, rfl⟩
    refine ⟨List.cons_ne_nil _ _, _, _, wellFormed_iff.mpr ⟨n, x, _, hm, rfl, rfl⟩, ?_, ?_⟩
    · rw [sequenceBytes, List.map_append, ← List.cons_append]
      exact List.prefix_append _ _
    · have := List.length_pos_iff.mpr hzs
      simp only [sequenceBytes, List.length_cons, List.length_map, List.length_append]
      omega

/-- The code reads beyond a buffer that ends inside a sequence. -/
theorem utf8Sequence_of_truncated {ib : List UInt8} {ii : Nat} (h : Truncated (ib.drop ii)) :
    utf8Sequence ib ii = .error .overrun := by
  obtain ⟨n, x, ys, zs, hm, hzs, hl⟩ := truncated_iff.mp h
  obtain ⟨hh, hlen, hall, y, ys', hy, hs⟩ := hm.bits
  have hpos := List.length_pos_iff.mpr hzs
  rw [List.length_append] at hlen
  have htail := drop_succ_of_drop hl
  rw [utf8Sequence_header hh hl]
  -- The loop runs out of bytes behind those that are there.
  have hloop : continuation ib (n - 1) (ii + 1) x = .error .overrun := by
    have hn : n - 1 = ys.length + (zs.length - 1 + 1) := by omega
    have hys : ∀ y ∈ ys, y < 64 := fun y hy => hall y (List.mem_append_left _ hy)
    have hend : ib.drop (ii + 1 + ys.length) = [] := by
      rw [← List.drop_drop, htail]
      simp
    rw [hn, continuation_append hys (htail.trans (List.append_nil _).symm), continuation,
      rdByte_of_drop_nil hend, Res.error_bind]
  match ys with
  | [] =>
    rcases badSecond_nil (n := n) (x := x) htail with hb | hb
    · rw [hb, Res.ok_bind, if_neg Bool.false_ne_true, hloop]
    · rw [hb, Res.error_bind]
  | y' :: ys =>
    obtain ⟨rfl, -⟩ := List.cons.inj hy
    obtain ⟨b, hb, hbs⟩ := badSecond_contByte (n := n) (x := x) (hall y' (.head _)) htail
    have hbf : b = false := by
      rw [← Bool.not_eq_true, hbs]
      exact not_not.mpr hs
    rw [hb, hbf, Res.ok_bind, if_neg Bool.false_ne_true, hloop]

/-- Any bytes behind a header that satisfy the tests are the beginning of a sequence. -/
theorem exists_multiByte_append {n x : Nat} {ys : List Nat} (hh : HeaderBits n x)
    (hall : ∀ y ∈ ys, y < 64) (hlen : ys.length < n) (hs : ∀ y ∈ ys.head?, SecondBits n x y) :
    ∃ zs, MultiByte n x (ys ++ zs) ∧ (ys ++ zs).length + 1 = n := by
  have hn : 2 ≤ n := by
    rcases hh with ⟨rfl, -⟩ | ⟨rfl, -⟩ | ⟨rfl, -⟩ <;> decide
  match ys with
  -- Without a second byte, choose one that is permitted there.
  | [] =>
    obtain ⟨y, hy, hs⟩ := exists_secondBits hh
    refine ⟨y :: List.replicate (n - 2) 0, multiByte_of_bits hh hs ?_ ?_, ?_⟩
    · rintro z (_ | ⟨_, hz⟩)
      · exact hy
      · rw [List.eq_of_mem_replicate hz]
        decide
    · rw [List.length_replicate]
      omega
    · simp only [List.nil_append, List.length_cons, List.length_replicate]
      omega
  -- Otherwise, the missing bytes are all minimal.
  | y :: ys =>
    rw [List.length_cons] at hlen
    refine ⟨List.replicate (n - 2 - ys.length) 0, multiByte_of_bits hh (hs y rfl) ?_ ?_, ?_⟩
    · intro z hz
      rcases List.mem_append.mp (List.cons_append ▸ hz : z ∈ (y :: ys) ++ _) with hz | hz
      · exact hall z hz
      · rw [List.eq_of_mem_replicate hz]
        decide
    · show (ys ++ List.replicate (n - 2 - ys.length) 0).length + 2 = n
      rw [List.length_append, List.length_replicate]
      omega
    · simp only [List.cons_append, List.length_cons, List.length_append, List.length_replicate]
      omega

/-- **Recognition**: the code goes to the label `latin` unless the buffer goes on with a sequence
    or ends inside one. -/
theorem utf8Sequence_cases {ib t : List UInt8} {ii : Nat} {c : UInt8} (hc : 0x80 ≤ c.toNat)
    (h : ib.drop ii = c :: t) : utf8Sequence ib ii = .ok none ∨ Truncated (ib.drop ii) ∨
      ∃ n x ys t, MultiByte n x ys ∧ ib.drop ii = sequenceBytes n x ys ++ t := by
  match hhead : utf8Header c with
  | none =>
    refine .inl ?_
    rw [utf8Sequence, rdByte_of_drop h, Res.ok_bind, hhead]
    rfl
  | some (n, x) =>
    obtain ⟨hh, rfl⟩ := utf8Header_some c hc _ hhead
    have hn : 2 ≤ n := by
      rcases hh with ⟨hn, -⟩ | ⟨hn, -⟩ | ⟨hn, -⟩ <;> simp only at hn <;> omega
    have htail := drop_succ_of_drop h
    match t with
    | [] =>
      obtain ⟨zs, hm, hlen⟩ := @exists_multiByte_append n x [] hh (by simp)
        (Nat.lt_of_lt_of_le Nat.two_pos hn) (by simp)
      refine .inr (.inl (truncated_iff.mpr ⟨n, x, [], zs, hm, ?_, h⟩))
      rintro rfl
      simp at hlen
      omega
    | c' :: t =>
      obtain ⟨b, hb⟩ := badSecond_cons (n := n) (x := x) htail
      rw [utf8Sequence_header hh h, hb, Res.ok_bind]
      match b with
      | true => exact .inl (if_pos rfl)
      | false =>
        rw [if_neg Bool.false_ne_true]
        rcases @continuation_cases ib (n - 1) (ii + 1) x with hnone | ⟨ys, hall, hend⟩
        · exact .inl hnone
        · refine .inr ?_
          -- The second byte has passed its test.
          have hs : ∀ y ∈ ys.head?, SecondBits n x y := by
            intro y hy
            obtain ⟨ys', rfl⟩ := List.head?_eq_some_iff.mp hy
            have hd : ∃ u, ib.drop (ii + 1) = contByte y :: u := by
              rcases hend with ⟨-, u, hu⟩ | ⟨-, hu⟩
              · exact ⟨_, hu⟩
              · exact ⟨_, hu⟩
            obtain ⟨u, hu⟩ := hd
            obtain ⟨b, hb', hbs⟩ := badSecond_contByte (n := n) (x := x) (hall y (.head _)) hu
            rw [hb] at hb'
            cases hb'
            simpa using hbs
          have hlt : ys.length < n := by omega
          obtain ⟨zs, hm, hlen⟩ := exists_multiByte_append hh hall hlt hs
          rw [List.length_append] at hlen
          rcases hend with ⟨hlen', u, hu⟩ | ⟨hlen', hu⟩
          · obtain rfl : zs = [] := List.length_eq_zero_iff.mp (by omega)
            rw [List.append_nil] at hm
            refine .inr ⟨n, x, ys, u, hm, ?_⟩
            rw [h, ← htail, hu]
            rfl
          · refine .inl (truncated_iff.mpr ⟨n, x, ys, zs, hm, ?_, ?_⟩)
            · rintro rfl
              simp at hlen
              omega
            · rw [h, ← htail, hu]

/-! ## §4 The Escape Sequence -/

/-- The hexadecimal digits of a number. -/
def hexDigits (n : Nat) : CStr := (Nat.toDigits 16 n).map toupper

/-- The digits of a number end in its last digit. -/
theorem hexDigits_eq (n : Nat) : hexDigits n =
    if n < 16 then [toupper (Nat.digitChar n)]
    else hexDigits (n / 16) ++ [toupper (Nat.digitChar (n % 16))] := by
  unfold hexDigits
  rw [Nat.toDigits_eq_if (by decide)]
  split
  · rfl
  · rw [List.map_append]
    rfl

theorem hexDigit_digitChar : ∀ d < 16, isxdigit (toupper (Nat.digitChar d)) ∧
    digitVal (toupper (Nat.digitChar d)) = d := by
  decide +kernel

/-- What the digits of a number are. By induction on the number of digits. -/
theorem hexDigits_spec (n : Nat) : (hexDigits n).all isxdigit ∧ digitsVal 16 (hexDigits n) = n ∧
    (0 < n → charAt (hexDigits n) 0 ≠ '0') := by
  induction n using Nat.strongRecOn with
  | ind n ih =>
    rw [hexDigits_eq]
    split
    · next hn =>
      obtain ⟨hx, hv⟩ := hexDigit_digitChar n hn
      refine ⟨by simpa using hx, by simpa [digitsVal] using hv, fun hpos heq => ?_⟩
      rw [charAt_cons_zero] at heq
      rw [heq] at hv
      rw [← hv] at hpos
      exact absurd hpos (by decide)
    · next hn =>
      obtain ⟨hall, hval, hfirst⟩ := ih (n / 16) (by omega)
      obtain ⟨hx, hv⟩ := hexDigit_digitChar (n % 16) (by omega)
      refine ⟨by simp [hall, hx], ?_, fun _ => ?_⟩
      · unfold digitsVal at hval ⊢
        rw [List.foldl_append, hval, List.foldl_cons, hv, List.foldl_nil]
        omega
      · have hne : hexDigits (n / 16) ≠ [] := by
          rw [hexDigits, Ne, List.map_eq_nil_iff]
          exact Nat.toDigits_ne_nil
        obtain ⟨c, cs, hc⟩ := List.exists_cons_of_ne_nil hne
        have := hfirst (by omega)
        rw [hc] at this ⊢
        exact this

/-- The digits of the conversion `%.4X`. -/
theorem formatHex4_unicodeName {n : Nat} (h : n < 0x110000) (hsur : ¬ (0xd800 ≤ n ∧ n ≤ 0xdfff)) :
    UnicodeName ('u' :: formatHex4 n) (formatHex4 n) ∧ digitsVal 16 (formatHex4 n) = n := by
  have hformat : formatHex4 n = List.replicate (4 - (hexDigits n).length) '0' ++ hexDigits n := rfl
  obtain ⟨hall, hval, hfirst⟩ := hexDigits_spec n
  have hlen : ∀ k, 0 < k → ((hexDigits n).length ≤ k ↔ n < 16 ^ k) := by
    intro k hk
    rw [hexDigits, List.length_map]
    exact Nat.length_toDigits_le_iff (by decide) hk
  have h6 : (hexDigits n).length ≤ 6 := (hlen 6 (by decide)).mpr (by omega)
  have h4 := hlen 4 (by decide)
  have hval' : digitsVal 16 (formatHex4 n) = n := by
    have hzero : ∀ k, (List.replicate k '0').foldl (fun v d => v * 16 + digitVal d) 0 = 0 := by
      intro k
      induction k with
      | zero => rfl
      | succ k ih =>
        rw [List.replicate_succ, List.foldl_cons]
        exact ih
    rw [hformat, digitsVal, List.foldl_append, hzero]
    exact hval
  have hlength : (formatHex4 n).length = 4 - (hexDigits n).length + (hexDigits n).length := by
    rw [hformat, List.length_append, List.length_replicate]
  refine ⟨⟨rfl, by omega, ?_, ?_, by rw [hval']; omega, by rwa [hval']⟩, hval'⟩
  · rw [hformat, List.all_append, hall, Bool.and_true, List.all_eq_true]
    intro c hc
    rw [List.eq_of_mem_replicate hc]
    decide
  · -- More than four digits are not filled up with zeros.
    by_cases hfour : (hexDigits n).length ≤ 4
    · exact .inl (by omega)
    · refine .inr ?_
      have hnone : 4 - (hexDigits n).length = 0 := by omega
      rw [hformat, hnone]
      exact hfirst (by omega)

/-- The text is read back as the code point, whatever stands around it. -/
def DenotesCodePoint (esc : CStr) (cp : Nat) : Prop :=
  ∀ (buf t : CStr) (pos : Nat) (nullResc : Bool), buf.drop pos = esc ++ t →
    ∃ r, escapeRec buf (buf.length + 1) pos nullResc = .ok r ∧ r.rval = .UNICODE ∧
      r.rend = pos + esc.length ∧
      mcharsNum2uc ((slice buf r.rarg r.rendarg).drop 1) = .ok (cp : Int)

/-- A hexadecimal digit does not end the name. -/
theorem bracketName_of_unicodeName {name hs : CStr} (h : UnicodeName name hs) :
    BracketName name := by
  have hmem : ∀ c ∈ name, c ≠ ']' ∧ c ≠ ' ' ∧ c ≠ '\\' ∧ c ≠ NUL := by
    intro c hc
    rw [h.name_eq] at hc
    have hset : ("u0123456789ABCDEFabcdef".toList.all fun c =>
        decide (c ≠ ']' ∧ c ≠ ' ' ∧ c ≠ '\\' ∧ c ≠ NUL)) = true := by
      decide +kernel
    have hc' : c ∈ "u0123456789ABCDEFabcdef".toList := by
      rcases List.mem_cons.mp hc with rfl | hc
      · decide
      · exact .tail _ (List.contains_iff_mem.mp (List.all_eq_true.mp h.digits c hc))
    exact of_decide_eq_true (List.all_eq_true.mp hset c hc')
  exact ⟨fun hc => (hmem _ hc).1 rfl, fun hc => (hmem _ hc).2.1 rfl,
    fun hc => (hmem _ hc).2.2.1 rfl, fun hc => (hmem _ hc).2.2.2 rfl⟩

/-- **The escape sequence** that the encoder writes denotes the code point. -/
theorem unicodeEscape_denotes {cp : Nat} (h : cp < 0x110000)
    (hsur : ¬ (0xd800 ≤ cp ∧ cp ≤ 0xdfff)) : DenotesCodePoint (unicodeEscape cp) cp := by
  intro buf t pos nullResc hdrop
  obtain ⟨hname, hval⟩ := formatHex4_unicodeName h hsur
  have hdrop' : buf.drop pos = '\\' :: '[' :: (('u' :: formatHex4 cp) ++ ']' :: t) := by
    rw [hdrop, unicodeEscape]
    simp
  obtain ⟨hshift, -, huni⟩ := specialArg_eq ('u' :: formatHex4 cp) t
  refine ⟨_, escapeRec_bracket _ nullResc hdrop' (bracketName_of_unicodeName hname),
    huni.mpr ⟨_, hname⟩, ?_, ?_⟩
  · simp only [unicodeEscape, List.length_cons, List.length_append, List.length_nil]
    omega
  · have hrest : buf.drop (pos + 2) = ('u' :: formatHex4 cp) ++ ']' :: t := by
      rw [← List.drop_drop, hdrop']
      rfl
    rw [hshift, Nat.add_zero, slice, hrest, Nat.add_sub_cancel_left, List.take_left]
    have hnum := hname.num2uc
    rw [hval] at hnum
    exact hnum

/-! ## §5 Recognition of UTF-8 -/

/-- The code does not go to the label `latin`. -/
def TakesMultiByteBranch (ib : List UInt8) (st : Preconv) : Prop :=
  ∃ v, utf8Sequence ib st.ii = .ok (some v)

/-- What the encoder does with UTF-8 enabled. -/
structure RecognizesUtf8 (ib : List UInt8) (st : Preconv) : Prop where
  /-- The function returns. -/
  returns : ∃ b st', preconvEncode ib st = .ok (b, st')
  /-- The multi-byte branch handles the well-formed sequences and nothing else. -/
  branch_iff : TakesMultiByteBranch ib st ↔ ∃ bs cp, WellFormed bs cp ∧ bs <+: ib.drop st.ii
  /-- It consumes the sequence and writes an escape sequence for its code point. -/
  wellFormed : ∀ bs cp, WellFormed bs cp → bs <+: ib.drop st.ii →
    ∃ st' esc, preconvEncode ib st = .ok (true, st') ∧ st'.ii = st.ii + bs.length ∧
      st'.ob = st.ob ++ esc ∧ DenotesCodePoint esc cp
  /-- A call that fails leaves the positions alone. -/
  unchanged : ∀ st', preconvEncode ib st = .ok (false, st') → st'.ii = st.ii ∧ st'.ob = st.ob

theorem drop_of_getElem? {ib : List UInt8} {i : Nat} {c : UInt8} (h : ib[i]? = some c) :
    ∃ t, ib.drop i = c :: t := by
  rw [← List.head?_drop] at h
  exact List.head?_eq_some_iff.mp h

/-- The label `latin` handles one byte or none. -/
theorem preconvLatin1_ok {ib t : List UInt8} {st : Preconv} {c : UInt8}
    (h : ib.drop st.ii = c :: t) : ∃ b st', preconvLatin1 ib st = .ok (b, st') ∧
      st'.ii ≤ st.ii + 1 ∧ (b = false → st' = st) := by
  unfold preconvLatin1
  split
  · rw [rdByte_of_drop h]
    exact ⟨true, _, rfl, Nat.le_refl _, fun h => absurd h (by decide)⟩
  · exact ⟨false, st, rfl, Nat.le_succ _, fun _ => rfl⟩

/-- The encoder, at a byte with the high bit set. -/
theorem preconvEncode_eq {ib t : List UInt8} {st : Preconv} {c : UInt8} (hc : 0x80 ≤ c.toNat)
    (h : ib.drop st.ii = c :: t) : preconvEncode ib st =
      if st.filenc.utf8 then utf8Sequence ib st.ii >>= fun v =>
        match v with
        | none => preconvLatin1 ib st
        | some (accum, cu) =>
          if accum ≤ 0x7f ∨ 0x110000 ≤ accum ∨ (0xd800 ≤ accum ∧ accum ≤ 0xdfff) then
            .error .abort
          else .ok (true, ⟨cu, st.ob ++ unicodeEscape accum, { st.filenc with latin1 := false }⟩)
      else preconvLatin1 ib st := by
  have hbit : ¬ c &&& 0x80 = 0 := fun hz => (high_bit_iff c).mp hz hc
  rw [preconvEncode, rdByte_of_drop h, Res.ok_bind, if_neg hbit]
  rfl

/-- The encoder, at the beginning of a sequence. -/
theorem preconvEncode_wellFormed {ib bs : List UInt8} {st : Preconv} {cp : Nat}
    (hutf8 : st.filenc.utf8 = true) (hwf : WellFormed bs cp) (hp : bs <+: ib.drop st.ii) :
    utf8Sequence ib st.ii = .ok (some (cp, st.ii + bs.length)) ∧ preconvEncode ib st =
      .ok (true, ⟨st.ii + bs.length, st.ob ++ unicodeEscape cp,
        { st.filenc with latin1 := false }⟩) := by
  obtain ⟨n, x, ys, hm, rfl, rfl⟩ := wellFormed_iff.mp hwf
  obtain ⟨t, ht⟩ := hp
  obtain ⟨hh, hlen, -⟩ := hm.bits
  obtain ⟨hlow, hmax, hsur⟩ := hm.scalar
  have hn : (sequenceBytes n x ys).length = n := by
    rw [sequenceBytes, List.length_cons, List.length_map, hlen]
  have hseq := utf8Sequence_of_multiByte hm ht.symm
  refine ⟨by rw [hseq, hn], ?_⟩
  rw [preconvEncode_eq (headerByte_high hh) ht.symm, if_pos hutf8, hseq, Res.ok_bind]
  dsimp only
  rw [if_neg (by omega), hn]

/-- **Recognition of UTF-8.** At any index of any buffer, the encoder does what it has to do if
    and only if the buffer does not end inside a sequence that begins there. -/
theorem preconvEncode_recognizes_iff {ib : List UInt8} {st : Preconv} {c : UInt8}
    (hbyte : ib[st.ii]? = some c) (hc : 0x80 ≤ c.toNat) (hutf8 : st.filenc.utf8 = true) :
    RecognizesUtf8 ib st ↔ ¬ Truncated (ib.drop st.ii) := by
  obtain ⟨t, ht⟩ := drop_of_getElem? hbyte
  have heq := preconvEncode_eq hc ht
  rw [if_pos hutf8] at heq
  constructor
  · intro h htrunc
    obtain ⟨b, st', hret⟩ := h.returns
    rw [heq, utf8Sequence_of_truncated htrunc] at hret
    exact absurd hret (by simp)
  · intro htrunc
    rcases utf8Sequence_cases hc ht with hnone | htr | ⟨n, x, ys, u, hm, hu⟩
    · -- The code goes to the label `latin`.
      rw [hnone, Res.ok_bind] at heq
      obtain ⟨b, st', hres, -, hsame⟩ := preconvLatin1_ok ht
      have hno : ∀ bs cp, WellFormed bs cp → ¬ bs <+: ib.drop st.ii := by
        intro bs cp hwf hp
        have := (preconvEncode_wellFormed hutf8 hwf hp).1
        rw [hnone] at this
        exact absurd this (by simp)
      refine ⟨⟨b, st', heq.trans hres⟩, ?_, ?_, ?_⟩
      · refine iff_of_false ?_ ?_
        · rintro ⟨v, hv⟩
          rw [hnone] at hv
          exact absurd hv (by simp)
        · rintro ⟨bs, cp, hwf, hp⟩
          exact hno bs cp hwf hp
      · exact fun bs cp hwf hp => absurd hp (hno bs cp hwf)
      · intro st'' h
        have h' := heq.symm.trans h
        rw [hres] at h'
        cases h'
        rw [hsame rfl]
        exact ⟨rfl, rfl⟩
    · exact absurd htr htrunc
    · -- The code writes an escape sequence.
      have hwf : WellFormed (sequenceBytes n x ys) (codePoint x ys) :=
        wellFormed_iff.mpr ⟨n, x, ys, hm, rfl, rfl⟩
      have hp : sequenceBytes n x ys <+: ib.drop st.ii := ⟨u, hu.symm⟩
      obtain ⟨hseq, hres⟩ := preconvEncode_wellFormed hutf8 hwf hp
      refine ⟨⟨_, _, hres⟩, iff_of_true ⟨_, hseq⟩ ⟨_, _, hwf, hp⟩, ?_, ?_⟩
      · intro bs cp hwf' hp'
        obtain ⟨-, hres'⟩ := preconvEncode_wellFormed hutf8 hwf' hp'
        obtain ⟨n', x', ys', hm', -, rfl⟩ := wellFormed_iff.mp hwf'
        obtain ⟨-, hmax, hsur⟩ := hm'.scalar
        exact ⟨_, _, hres', rfl, rfl, unicodeEscape_denotes hmax hsur⟩
      · intro st' h
        rw [hres] at h
        exact absurd h (by simp)

/-- The letter e with an acute accent. -/
theorem preconvEncode_recognizes_eacute :
    RecognizesUtf8 [0xc3, 0xa9] ⟨0, [], ⟨true, true⟩⟩ := by
  refine (@preconvEncode_recognizes_iff [0xc3, 0xa9] ⟨0, [], ⟨true, true⟩⟩ 0xc3 rfl (by decide)
    rfl).mpr fun htrunc => ?_
  -- The first byte says that there are two.
  obtain ⟨n, x, ys, zs, hm, hne, heq⟩ := truncated_iff.mp htrunc
  obtain ⟨hheader, htail⟩ := List.cons.inj heq
  have hbits := utf8Header_headerByte hm.bits.1
  rw [← hheader] at hbits
  obtain ⟨rfl, rfl⟩ : n = 2 ∧ x = 3 := by
    have heq : some (2, 3) = some (n, x) := hbits
    cases heq
    exact ⟨rfl, rfl⟩
  have hlen : (ys ++ zs).length = 1 := by
    generalize ys ++ zs = ws at hm
    cases hm
    rfl
  have hys : ys.length = 1 := by
    rw [← List.length_map, ← htail]
    rfl
  rw [List.length_append, hys] at hlen
  exact hne (List.length_eq_zero_iff.mp (Nat.succ.inj ((Nat.add_comm ..).trans hlen)))

/-- A file that ends with the first byte of a sequence. -/
theorem preconvEncode_recognizes_short : ¬ ∀ (ib : List UInt8) (st : Preconv) (c : UInt8),
    ib[st.ii]? = some c → 0x80 ≤ c.toNat → st.filenc.utf8 = true → RecognizesUtf8 ib st := by
  intro h
  have hrec := h [0xc3] ⟨0, [], ⟨true, true⟩⟩ 0xc3 rfl (by decide) rfl
  obtain ⟨b, st', hret⟩ := hrec.returns
  have hrun : preconvEncode [0xc3] ⟨0, [], ⟨true, true⟩⟩ = .error .overrun := rfl
  rw [hrun] at hret
  exact absurd hret (by simp)

/-! ## §6 Bounds -/

/-- The encoder reads nothing behind the buffer and stays inside it. -/
def StaysInBuffer (ib : List UInt8) (st : Preconv) : Prop :=
  preconvEncode ib st ≠ .error .overrun ∧
    ∀ b st', preconvEncode ib st = .ok (b, st') → st'.ii ≤ ib.length

theorem Truncated.high {l : List UInt8} (h : Truncated l) : ∃ c t, l = c :: t ∧ 0x80 ≤ c.toNat := by
  obtain ⟨n, x, ys, zs, hm, -, rfl⟩ := truncated_iff.mp h
  exact ⟨_, _, rfl, headerByte_high hm.bits.1⟩

/-- **Bounds.** At any index of any buffer, the encoder stays inside the buffer if and only if it
    does not look for a sequence of UTF-8 of which the buffer holds the beginning only. -/
theorem preconvEncode_bounds_iff {ib : List UInt8} {st : Preconv} (hii : st.ii < ib.length) :
    StaysInBuffer ib st ↔ ¬ (st.filenc.utf8 = true ∧ Truncated (ib.drop st.ii)) := by
  obtain ⟨t, ht⟩ := drop_of_getElem? (List.getElem?_eq_getElem hii)
  constructor
  · rintro ⟨hread, -⟩ ⟨hutf8, htrunc⟩
    obtain ⟨c, u, hu, hc⟩ := htrunc.high
    apply hread
    rw [preconvEncode_eq hc hu, if_pos hutf8, utf8Sequence_of_truncated htrunc, Res.error_bind]
  · intro h
    by_cases hc : 0x80 ≤ ib[st.ii].toNat
    · have heq := preconvEncode_eq hc ht
      obtain ⟨b, st', hres, hle, -⟩ := preconvLatin1_ok ht
      -- The label `latin` handles at most one byte.
      have hlatin : preconvEncode ib st = preconvLatin1 ib st → StaysInBuffer ib st := by
        intro hl
        unfold StaysInBuffer
        rw [hl, hres]
        refine ⟨by simp, fun b' st'' h' => ?_⟩
        cases h'
        omega
      by_cases hutf8 : st.filenc.utf8 = true
      · rw [if_pos hutf8] at heq
        rcases utf8Sequence_cases hc ht with hnone | htr | ⟨n, x, ys, u, hm, hu⟩
        · rw [hnone, Res.ok_bind] at heq
          exact hlatin heq
        · exact absurd ⟨hutf8, htr⟩ h
        · have hp : sequenceBytes n x ys <+: ib.drop st.ii := ⟨u, hu.symm⟩
          have hwf := wellFormed_iff.mpr ⟨n, x, ys, hm, rfl, rfl⟩
          obtain ⟨-, hrun⟩ := preconvEncode_wellFormed hutf8 hwf hp
          have hlen := hp.length_le
          rw [List.length_drop] at hlen
          unfold StaysInBuffer
          rw [hrun]
          refine ⟨by simp, fun b' st'' h' => ?_⟩
          cases h'
          show st.ii + (sequenceBytes n x ys).length ≤ ib.length
          omega
      · rw [if_neg hutf8] at heq
        exact hlatin heq
    · -- The assertion at the beginning of the function fails.
      have habort : preconvEncode ib st = .error .abort := by
        rw [preconvEncode, rdByte_of_drop ht, Res.ok_bind, if_pos ((high_bit_iff _).mpr hc)]
      unfold StaysInBuffer
      rw [habort]
      exact ⟨by simp, fun b st' h' => absurd h' (by simp)⟩

/-- The last byte of a file. -/
theorem preconvEncode_bounds_latin1 : StaysInBuffer [0x41, 0xe9] ⟨1, ['A'], ⟨false, true⟩⟩ :=
  (@preconvEncode_bounds_iff [0x41, 0xe9] ⟨1, ['A'], ⟨false, true⟩⟩ (by decide)).mpr
    fun h => absurd h.1 (by decide)

/-- A file that ends with two of the three bytes of a sequence. -/
theorem preconvEncode_bounds_short : ¬ ∀ (ib : List UInt8) (st : Preconv), st.ii < ib.length →
    StaysInBuffer ib st := by
  intro h
  exact (h [0x41, 0xe2, 0x80] ⟨1, ['A'], ⟨true, true⟩⟩ (by decide)).1 rfl

end Mandoc
