import Mandoc.Html.MakeId
import Mandoc.Roff.CharNames

/-!
# Percent-Encoding

The program `man.cgi` decodes the keys and values of the query string with `http_decode()`, and
it encodes the name and the section in a redirection with `http_encode()`.

The two bytes behind a percent sign are converted by `sscanf()` with the format `%x`, which also
skips white space, accepts a sign, and is satisfied with one digit. The main result,
`urlCoding_iff`, says that the functions behave as they should for all strings except those in
which some percent sign is followed by such a loose number, and no percent sign is followed by
two bytes that are refused.
-/

namespace Mandoc

/-! ## §1 The functions -/

/-- Conversion of an `int` to a byte. -/
def byteOfInt (c : Int) : Char := Char.ofNat (c % 256).toNat

/-- `sscanf(s, "%x", &c)`: the number, which has the same syntax as for `strtoul()`. The string
    `0x` without a digit, for which the function may also fail, is a zero here. -/
def sscanfHex (s : CStr) : Option Int := if (strtol s 16).2 = 0 then none else some (strtol s 16).1

/-- The byte for the two bytes behind a percent sign. -/
def httpDecodeHex (hex0 hex1 : Char) : Option Char := do
  let c ← sscanfHex [hex0, hex1]
  if c = 0 then none else some (byteOfInt c)

/-- `http_decode()`: the contents of the buffer, if the function succeeds. -/
def httpDecode : CStr → Option CStr
  | [] => some []
  | c :: p =>
    if c = '%' then
      match p with
      | hex0 :: hex1 :: p => (httpDecodeHex hex0 hex1).bind fun c => (httpDecode p).map (c :: ·)
      -- The terminating NUL takes the place of a digit.
      | _ => none
    else (httpDecode p).map ((if c = '+' then ' ' else c) :: ·)

/-- The conversion `%2.2X` for a byte. -/
def formatHex2 (n : Nat) : CStr := [toupper (Nat.digitChar (n / 16)), toupper (Nat.digitChar (n % 16))]

/-- What `http_encode()` prints for a byte. -/
def httpEncodeByte (c : Char) : CStr :=
  if isalnum c = false ∧ "-._~".toList.contains c = false then '%' :: formatHex2 c.toNat else [c]

/-- `http_encode()`: the output. -/
def httpEncode (p : CStr) : CStr := p.flatMap httpEncodeByte

/-! ## §2 What they are for -/

/-- Two hexadecimal digits that do not denote a NUL byte. -/
def HexByte (a b : Char) : Prop := isxdigit a ∧ isxdigit b ∧ ¬ (a = '0' ∧ b = '0')

/-- The byte that two hexadecimal digits denote. -/
def hexByte (a b : Char) : Char := Char.ofNat (digitVal a * 16 + digitVal b)

/-- Every percent sign is followed by two hexadecimal digits that do not denote a NUL byte. -/
def WellEncoded (s : CStr) : Prop :=
  ∀ i, s[i]? = some '%' → ∃ a b, s[i + 1]? = some a ∧ s[i + 2]? = some b ∧ HexByte a b

/-- The second string results from the first one by replacing each percent sign and the digits
    after it by the byte they denote, and each plus sign by a blank. -/
inductive Decodes : CStr → CStr → Prop where
  | nil : Decodes [] []
  | escape {a b : Char} {s t : CStr} (hab : HexByte a b) (hst : Decodes s t) :
      Decodes ('%' :: a :: b :: s) (hexByte a b :: t)
  | plus {s t : CStr} (hst : Decodes s t) : Decodes ('+' :: s) (' ' :: t)
  | plain {c : Char} {s t : CStr} (hpercent : c ≠ '%') (hplus : c ≠ '+') (hst : Decodes s t) :
      Decodes (c :: s) (c :: t)

/-- Decoding succeeds for the strings that are well encoded, it yields what the string denotes,
    and it takes back the encoding. -/
structure UrlCoding (s : CStr) : Prop where
  succeeds_iff : (httpDecode s).isSome ↔ WellEncoded s
  decodes : ∀ t, httpDecode s = some t → Decodes s t
  roundTrip : httpDecode (httpEncode s) = some s

/-! ## §3 Pairs of bytes -/

/-- Two bytes that are no hexadecimal number with two digits, but are read as one that is not
    zero: a digit behind white space or a sign, or a digit in front of something else. -/
def LooseNumber (a b : Char) : Prop :=
  (isspace a ∨ a = '+' ∨ a = '-') ∧ isxdigit b ∧ b ≠ '0' ∨ isxdigit a ∧ a ≠ '0' ∧ ¬ isxdigit b

/-- The bytes that are hexadecimal digits. -/
theorem isxdigit_of_range {c : Char} (h : 48 ≤ c.toNat ∧ c.toNat < 58 ∨ 65 ≤ c.toNat ∧ c.toNat < 71 ∨
    97 ≤ c.toNat ∧ c.toNat < 103) : isxdigit c := by
  have hall : ∀ n < 103, 48 ≤ n ∧ n < 58 ∨ 65 ≤ n ∧ n < 71 ∨ 97 ≤ n → isxdigit (Char.ofNat n) := by
    decide +kernel
  rw [← Char.ofNat_toNat c]
  apply hall
  · omega
  · omega

/-- The hexadecimal digits are the bytes whose value is small enough. -/
theorem digitVal_lt_iff {c : Char} : digitVal c < 16 ↔ isxdigit c := by
  refine ⟨fun h => ?_, fun h => (hexDigit_of_isxdigit h).lt⟩
  apply isxdigit_of_range
  unfold digitVal at h
  simp only [isdigit, Bool.and_eq_true, decide_eq_true_eq, Char.le_def, UInt32.le_iff_toNat_le] at h
  simp only [Char.toNat] at h ⊢
  have h0 : ('0'.val.toNat) = 48 := rfl
  have h9 : ('9'.val.toNat) = 57 := rfl
  have ha : ('a'.val.toNat) = 97 := rfl
  have hz : ('z'.val.toNat) = 122 := rfl
  have hA : ('A'.val.toNat) = 65 := rfl
  have hZ : ('Z'.val.toNat) = 90 := rfl
  split at h
  · omega
  · split at h
    · omega
    · split at h <;> omega
theorem clampInt_digits {v : Nat} (hv : v < 256) (neg : Bool) :
    clampInt 63 (if neg then -(v : Int) else v) = if neg then -(v : Int) else v := by
  rw [clampInt]
  cases neg
  · simp only [Bool.false_eq_true, if_false]; omega
  · simp only [if_true]; omega

/-- Two digits are read as a number. -/
theorem sscanfHex_digits {a b : Char} (ha : isxdigit a) (hb : isxdigit b) :
    sscanfHex [a, b] = some ((digitVal a * 16 + digitVal b : Nat) : Int) := by
  have hda := hexDigit_of_isxdigit ha
  have hdb := hexDigit_of_isxdigit hb
  have hla := hda.lt
  have hlb := hdb.lt
  have hs : strtol [a, b] 16 = (clampInt 63 (digitVal a * 16 + digitVal b : Nat), 2) := by
    simp [strtol, skipWhile, hda.noSpace, hda.noSign, hdb.noPrefix, digitsVal, hla, hlb]
  rw [sscanfHex, hs, if_neg (Nat.succ_ne_zero _)]
  exact congrArg some (clampInt_digits (by omega) false)

/-- A digit in front of another byte is read as a number. -/
theorem sscanfHex_digit {a b : Char} (ha : isxdigit a) (hb : ¬ isxdigit b) :
    sscanfHex [a, b] = some (digitVal a : Int) := by
  have hda := hexDigit_of_isxdigit ha
  have hla := hda.lt
  have hlb : ¬ digitVal b < 16 := fun h => hb (digitVal_lt_iff.mp h)
  have hend : digitVal NUL = 36 := by decide
  have hs : strtol [a, b] 16 = (clampInt 63 (digitVal a : Nat), 1) := by
    simp [strtol, skipWhile, hda.noSpace, hda.noSign, digitsVal, hla, hlb, charAt, hend]
  rw [sscanfHex, hs, if_neg (Nat.succ_ne_zero _)]
  exact congrArg some (clampInt_digits (by omega) false)

/-- A digit behind white space or a sign is read as a number. -/
theorem sscanfHex_signed {a b : Char} (ha : isspace a ∨ a = '+' ∨ a = '-') (hb : isxdigit b) :
    sscanfHex [a, b] = some (if a = '-' then -(digitVal b : Int) else digitVal b) := by
  have hdb := hexDigit_of_isxdigit hb
  have hlb := hdb.lt
  have hend : digitVal NUL = 36 := by decide
  have hs : strtol [a, b] 16 =
      (clampInt 63 (if (decide (a = '-')) then -(digitVal b : Int) else digitVal b), 2) := by
    rcases ha with hspace | rfl | rfl
    · have hminus : a ≠ '-' := by rintro rfl; simp [isspace] at hspace
      have hplus : a ≠ '+' := by rintro rfl; simp [isspace] at hspace
      simp [strtol, skipWhile, hspace, hdb.noSpace, hdb.noSign, digitsVal, hlb, charAt, hend, hminus]
    · simp [strtol, skipWhile, isspace, digitsVal, hlb, charAt, hend]
    · simp [strtol, skipWhile, isspace, digitsVal, hlb, charAt, hend]
  rw [sscanfHex, hs, if_neg (Nat.succ_ne_zero _), clampInt_digits (by omega)]
  simp only [decide_eq_true_eq]

/-- Everything else fails. -/
theorem sscanfHex_other {a b : Char} (ha : ¬ isxdigit a)
    (h : ¬ ((isspace a ∨ a = '+' ∨ a = '-') ∧ isxdigit b)) : sscanfHex [a, b] = none := by
  have hla : ¬ digitVal a < 16 := fun h => ha (digitVal_lt_iff.mp h)
  have h0 : a ≠ '0' := by rintro rfl; exact ha (by decide)
  have hend : digitVal NUL = 36 := by decide
  have hnul : ¬ (NUL = '-' ∨ NUL = '+') := by decide
  have hnul0 : NUL ≠ '0' := by decide
  have h2 : charAt [a, b] 2 = NUL := rfl
  have hs : strtol [a, b] 16 = (0, 0) := by
    by_cases hblank : isspace a ∨ a = '+' ∨ a = '-'
    · have hb : ¬ isxdigit b := fun hb => h ⟨hblank, hb⟩
      have hlb : ¬ digitVal b < 16 := fun hlt => hb (digitVal_lt_iff.mp hlt)
      have hb0 : b ≠ '0' := by rintro rfl; exact hb (by decide)
      rcases hblank with hspace | rfl | rfl
      · cases hbs : isspace b with
        | true => simp [strtol, skipWhile, hspace, hbs, h2, hnul, hnul0]
        | false =>
          by_cases hsign : b = '-' ∨ b = '+'
          · simp [strtol, skipWhile, hspace, hbs, hsign, h2, hnul0]
          · simp [strtol, skipWhile, hspace, hbs, hsign, hb0, hlb]
      · simp [strtol, skipWhile, isspace, hlb, hb0]
      · simp [strtol, skipWhile, isspace, hlb, hb0]
    · simp only [not_or] at hblank
      simp [strtol, skipWhile, hblank, hla, h0]
  rw [sscanfHex, hs, if_pos rfl]
/-! ## §4 Decoding -/

/-- What is behind the percent signs: two bytes, or less at the end of the string. -/
def escapes : CStr → List CStr
  | [] => []
  | c :: p =>
    if c = '%' then
      match p with
      | a :: b :: p => [a, b] :: escapes p
      | p => [p]
    else escapes p

/-- Two hexadecimal digits that do not denote a NUL byte. -/
def IsHexByte (e : CStr) : Prop := ∃ a b, e = [a, b] ∧ HexByte a b

/-- Two bytes that only a lenient reader takes for a number. -/
def IsLooseNumber (e : CStr) : Prop := ∃ a b, e = [a, b] ∧ LooseNumber a b

@[simp] theorem isHexByte_pair {a b : Char} : IsHexByte [a, b] ↔ HexByte a b := by
  simp [IsHexByte]

@[simp] theorem isLooseNumber_pair {a b : Char} : IsLooseNumber [a, b] ↔ LooseNumber a b := by
  simp [IsLooseNumber]

/-- A loose number is no number with two digits. -/
theorem LooseNumber.not_hexByte {a b : Char} (h : LooseNumber a b) : ¬ HexByte a b := by
  rintro ⟨ha, hb, -⟩
  rcases h with ⟨hblank, -, -⟩ | ⟨-, -, hnot⟩
  · have hdigit := hexDigit_of_isxdigit ha
    rcases hblank with hspace | hplus | hminus
    · exact Bool.false_ne_true (hdigit.noSpace.symm.trans hspace)
    · exact hdigit.noSign.2 hplus
    · exact hdigit.noSign.1 hminus
  · exact hnot hb

theorem httpDecode_escape (a b : Char) (p : CStr) :
    httpDecode ('%' :: a :: b :: p) =
      (httpDecodeHex a b).bind fun c => (httpDecode p).map (c :: ·) := by
  rw [httpDecode, if_pos rfl]

/-- Two hexadecimal digits are replaced by the byte they denote. -/
theorem httpDecodeHex_hexByte {a b : Char} (h : HexByte a b) :
    httpDecodeHex a b = some (hexByte a b) := by
  obtain ⟨ha, hb, hzero⟩ := h
  have hda := hexDigit_of_isxdigit ha
  have hdb := hexDigit_of_isxdigit hb
  have hla := hda.lt
  have hlb := hdb.lt
  have hne : ((digitVal a * 16 + digitVal b : Nat) : Int) ≠ 0 := by
    intro heq
    apply hzero
    exact ⟨hda.zero_iff.mpr (by omega), hdb.zero_iff.mpr (by omega)⟩
  have hbyte : byteOfInt (digitVal a * 16 + digitVal b : Nat) = hexByte a b := by
    rw [byteOfInt, hexByte]
    congr 1
    omega
  rw [httpDecodeHex, sscanfHex_digits ha hb, Option.bind_eq_bind, Option.bind_some, if_neg hne, hbyte]

/-- A loose number is accepted, too. -/
theorem httpDecodeHex_looseNumber {a b : Char} (h : LooseNumber a b) :
    ∃ c, httpDecodeHex a b = some c := by
  have hread : ∃ v : Int, v ≠ 0 ∧ sscanfHex [a, b] = some v := by
    rcases h with ⟨hblank, hb, hb0⟩ | ⟨ha, ha0, hb⟩
    · have hne : digitVal b ≠ 0 := fun heq => hb0 ((hexDigit_of_isxdigit hb).zero_iff.mpr heq)
      refine ⟨_, ?_, sscanfHex_signed hblank hb⟩
      split <;> omega
    · have hne : digitVal a ≠ 0 := fun heq => ha0 ((hexDigit_of_isxdigit ha).zero_iff.mpr heq)
      exact ⟨_, Int.natCast_ne_zero.mpr hne, sscanfHex_digit ha hb⟩
  obtain ⟨v, hv, hscan⟩ := hread
  refine ⟨byteOfInt v, ?_⟩
  rw [httpDecodeHex, hscan, Option.bind_eq_bind, Option.bind_some, if_neg hv]

/-- All other pairs of bytes are refused: they are no number at all, or the number zero. -/
theorem httpDecodeHex_refused {a b : Char} (hhex : ¬ HexByte a b) (hloose : ¬ LooseNumber a b) :
    httpDecodeHex a b = none := by
  have hread : sscanfHex [a, b] = none ∨ sscanfHex [a, b] = some 0 := by
    by_cases ha : isxdigit a
    · have ha0 : a = '0' := by
        by_contra hne
        by_cases hb : isxdigit b
        · exact hhex ⟨ha, hb, fun heq => hne heq.1⟩
        · exact hloose (.inr ⟨ha, hne, hb⟩)
      right
      by_cases hb : isxdigit b
      · have hb0 : b = '0' := by
          by_contra hne
          exact hhex ⟨ha, hb, fun heq => hne heq.2⟩
        rw [sscanfHex_digits ha hb, ha0, hb0]
        rfl
      · rw [sscanfHex_digit ha hb, ha0]
        rfl
    · by_cases hsigned : (isspace a ∨ a = '+' ∨ a = '-') ∧ isxdigit b
      · have hb0 : b = '0' := by
          by_contra hne
          exact hloose (.inl ⟨hsigned.1, hsigned.2, hne⟩)
        right
        rw [sscanfHex_signed hsigned.1 hsigned.2, hb0]
        split <;> rfl
      · exact .inl (sscanfHex_other ha hsigned)
  rcases hread with hnone | hzero
  · rw [httpDecodeHex, hnone, Option.bind_eq_bind, Option.bind_none]
  · rw [httpDecodeHex, hzero, Option.bind_eq_bind, Option.bind_some, if_pos rfl]

/-- A byte of a string. -/
def IsStringByte (c : Char) : Prop := c ≠ NUL ∧ c.toNat < 256

/-- A small number other than zero becomes a byte of a string. -/
theorem isStringByte_byteOfInt {v : Int} (hne : v ≠ 0) (hlow : -256 < v) (hhigh : v < 256) :
    IsStringByte (byteOfInt v) := by
  have hlt : (v % 256).toNat < 256 := by omega
  have hval : (byteOfInt v).toNat = (v % 256).toNat := by
    rw [byteOfInt, Char.toNat_ofNat, if_pos (.inl (by omega))]
  refine ⟨fun heq => ?_, hval ▸ hlt⟩
  have hzero : (v % 256).toNat = 0 := by rw [← hval, heq]; rfl
  omega

/-- What two bytes are read as. -/
theorem sscanfHex_bounds {a b : Char} {v : Int} (h : sscanfHex [a, b] = some v) :
    -256 < v ∧ v < 256 := by
  by_cases ha : isxdigit a
  · have hla := (hexDigit_of_isxdigit ha).lt
    by_cases hb : isxdigit b
    · have hlb := (hexDigit_of_isxdigit hb).lt
      obtain rfl := Option.some.inj ((sscanfHex_digits ha hb).symm.trans h)
      omega
    · obtain rfl := Option.some.inj ((sscanfHex_digit ha hb).symm.trans h)
      omega
  · by_cases hsigned : (isspace a ∨ a = '+' ∨ a = '-') ∧ isxdigit b
    · have hlb := (hexDigit_of_isxdigit hsigned.2).lt
      obtain rfl := Option.some.inj ((sscanfHex_signed hsigned.1 hsigned.2).symm.trans h)
      split <;> omega
    · cases (sscanfHex_other ha hsigned).symm.trans h

/-- A percent sign never stands for the end of the string. -/
theorem isStringByte_decodeHex {a b c : Char} (h : httpDecodeHex a b = some c) : IsStringByte c := by
  rw [httpDecodeHex] at h
  obtain ⟨v, hv, hc⟩ := Option.bind_eq_some_iff.mp h
  by_cases hzero : v = 0
  · rw [if_pos hzero] at hc
    cases hc
  · rw [if_neg hzero] at hc
    obtain rfl := Option.some.inj hc
    obtain ⟨hlow, hhigh⟩ := sscanfHex_bounds hv
    exact isStringByte_byteOfInt hzero hlow hhigh

theorem httpDecode_cons {c : Char} (hc : c ≠ '%') (p : CStr) :
    httpDecode (c :: p) = (httpDecode p).map ((if c = '+' then ' ' else c) :: ·) := by
  rw [httpDecode.eq_def]
  exact if_neg hc

/-- Decoding succeeds if what is behind each percent sign is accepted. -/
theorem httpDecode_isSome_iff (s : CStr) :
    (httpDecode s).isSome ↔ ∀ e ∈ escapes s, IsHexByte e ∨ IsLooseNumber e := by
  fun_induction escapes s with
  | case1 => simp [httpDecode]
  | case2 a b p ih =>
    simp only [httpDecode_escape, List.forall_mem_cons, isHexByte_pair, isLooseNumber_pair, ← ih]
    by_cases hhex : HexByte a b
    · simp [httpDecodeHex_hexByte hhex, hhex]
    · by_cases hloose : LooseNumber a b
      · obtain ⟨c, hdecode⟩ := httpDecodeHex_looseNumber hloose
        simp [hdecode, hloose]
      · simp [httpDecodeHex_refused hhex hloose, hhex, hloose]
  | case3 p hshort =>
    have hnone : httpDecode ('%' :: p) = none := by
      match p, hshort with
      | [], _ => rfl
      | [_], _ => rfl
      | a :: b :: p, hshort => exact absurd rfl (hshort a b p)
    simp only [hnone, List.mem_singleton, forall_eq, Option.isSome_none, Bool.false_eq_true, false_iff]
    rintro (⟨a, b, heq, -⟩ | ⟨a, b, heq, -⟩)
    · exact hshort a b [] heq
    · exact hshort a b [] heq
  | case4 c p hc ih =>
    rw [httpDecode_cons hc, ← ih, Option.isSome_map]

/-- What is decoded is a string again. -/
theorem isStringByte_httpDecode {s t : CStr} (hs : ∀ c ∈ s, IsStringByte c)
    (h : httpDecode s = some t) : ∀ c ∈ t, IsStringByte c := by
  fun_induction escapes s generalizing t with
  | case1 =>
    rw [httpDecode] at h
    obtain rfl := Option.some.inj h
    exact fun c hc => absurd hc List.not_mem_nil
  | case2 a b p ih =>
    rw [httpDecode_escape] at h
    obtain ⟨c, hc, hmap⟩ := Option.bind_eq_some_iff.mp h
    obtain ⟨t, ht, rfl⟩ := Option.map_eq_some_iff.mp hmap
    simp only [List.forall_mem_cons] at hs ⊢
    exact ⟨isStringByte_decodeHex hc, ih hs.2.2.2 ht⟩
  | case3 p hshort =>
    have hsome := (httpDecode_isSome_iff _).mp (Option.isSome_of_eq_some h) p (by
      rw [escapes, if_pos rfl]
      · exact List.mem_singleton_self p
      · exact hshort)
    rcases hsome with ⟨a, b, heq, -⟩ | ⟨a, b, heq, -⟩
    · exact absurd heq (hshort a b [])
    · exact absurd heq (hshort a b [])
  | case4 c p hc ih =>
    rw [httpDecode_cons hc] at h
    obtain ⟨t, ht, rfl⟩ := Option.map_eq_some_iff.mp h
    simp only [List.forall_mem_cons] at hs ⊢
    refine ⟨?_, ih hs.2 ht⟩
    split
    · exact ⟨by decide, by decide⟩
    · exact hs.1

/-! ## §5 Well encoded strings -/

/-- Behind other bytes, the percent signs are those of the rest. -/
theorem wellEncoded_cons {c : Char} (hc : c ≠ '%') (p : CStr) :
    WellEncoded (c :: p) ↔ WellEncoded p := by
  constructor
  · intro h i hi
    exact h (i + 1) hi
  · intro h i hi
    cases i with
    | zero => exact absurd (Option.some.inj hi) hc
    | succ i => exact h i hi

theorem isxdigit_percent {c : Char} (h : isxdigit c) : c ≠ '%' := by
  rintro rfl
  exact absurd h (by decide)

/-- A percent sign with two bytes behind it. -/
theorem wellEncoded_escape (a b : Char) (p : CStr) :
    WellEncoded ('%' :: a :: b :: p) ↔ HexByte a b ∧ WellEncoded p := by
  constructor
  · intro h
    obtain ⟨a', b', ha, hb, hhex⟩ := h 0 rfl
    obtain rfl := Option.some.inj ha
    obtain rfl := Option.some.inj hb
    refine ⟨hhex, ?_⟩
    intro i hi
    exact h (i + 3) hi
  · rintro ⟨hhex, hp⟩
    have hpair : WellEncoded (a :: b :: p) :=
      (wellEncoded_cons (isxdigit_percent hhex.1) _).mpr
        ((wellEncoded_cons (isxdigit_percent hhex.2.1) _).mpr hp)
    intro i hi
    cases i with
    | zero => exact ⟨a, b, rfl, rfl, hhex⟩
    | succ i => exact hpair i hi

/-- A percent sign with less than two bytes behind it. -/
theorem not_wellEncoded_short {p : CStr} (hshort : ∀ a b q, p = a :: b :: q → False) :
    ¬ WellEncoded ('%' :: p) := by
  intro h
  obtain ⟨a, b, ha, hb, -⟩ := h 0 rfl
  match p, hshort with
  | [], _ => cases ha
  | [_], _ => cases hb
  | a :: b :: p, hshort => exact hshort a b p rfl

/-- A string is well encoded if there are two digits behind each percent sign. -/
theorem wellEncoded_iff (s : CStr) : WellEncoded s ↔ ∀ e ∈ escapes s, IsHexByte e := by
  fun_induction escapes s with
  | case1 => simp [WellEncoded]
  | case2 a b p ih =>
    rw [wellEncoded_escape, ih, List.forall_mem_cons, isHexByte_pair]
  | case3 p hshort =>
    simp only [List.mem_singleton, forall_eq]
    refine iff_of_false (not_wellEncoded_short hshort) ?_
    rintro ⟨a, b, heq, -⟩
    exact hshort a b [] heq
  | case4 c p hc ih => rw [wellEncoded_cons hc, ih]

/-- Decoding a well encoded string. -/
theorem decodes_of_wellEncoded {s t : CStr} (hs : WellEncoded s) (h : httpDecode s = some t) :
    Decodes s t := by
  fun_induction escapes s generalizing t with
  | case1 =>
    rw [httpDecode] at h
    obtain rfl := Option.some.inj h
    exact .nil
  | case2 a b p ih =>
    obtain ⟨hhex, hp⟩ := (wellEncoded_escape a b p).mp hs
    rw [httpDecode_escape, httpDecodeHex_hexByte hhex, Option.bind_some] at h
    obtain ⟨t, ht, rfl⟩ := Option.map_eq_some_iff.mp h
    exact .escape hhex (ih hp ht)
  | case3 p hshort => exact absurd hs (not_wellEncoded_short hshort)
  | case4 c p hc ih =>
    rw [httpDecode_cons hc] at h
    obtain ⟨t, ht, rfl⟩ := Option.map_eq_some_iff.mp h
    have hrest := ih ((wellEncoded_cons hc p).mp hs) ht
    by_cases hplus : c = '+'
    · subst hplus
      exact .plus hrest
    · rw [if_neg hplus]
      exact .plain hc hplus hrest

/-! ## §6 Encoding -/

/-- The two digits of a byte. -/
theorem formatHex2_spec {n : Nat} (hn : n < 256) (hne : n ≠ 0) : ∃ a b, formatHex2 n = [a, b] ∧
    HexByte a b ∧ digitVal a * 16 + digitVal b = n := by
  have hall : ∀ d < 16, isxdigit (toupper (Nat.digitChar d)) ∧
      digitVal (toupper (Nat.digitChar d)) = d := by decide +kernel
  obtain ⟨ha, hda⟩ := hall (n / 16) (by omega)
  obtain ⟨hb, hdb⟩ := hall (n % 16) (by omega)
  refine ⟨_, _, rfl, ⟨ha, hb, ?_⟩, ?_⟩
  · rintro ⟨ha0, hb0⟩
    have hza := (hexDigit_of_isxdigit ha).zero_iff.mp ha0
    have hzb := (hexDigit_of_isxdigit hb).zero_iff.mp hb0
    omega
  · omega

/-- Decoding takes back the encoding of a byte. -/
theorem httpDecode_encodeByte {c : Char} (hc : c ≠ NUL) (hbyte : c.toNat < 256) (p : CStr) :
    httpDecode (httpEncodeByte c ++ p) = (httpDecode p).map (c :: ·) := by
  unfold httpEncodeByte
  split
  · have hne : c.toNat ≠ 0 := fun heq => hc (Char.toNat_inj.mp heq)
    obtain ⟨a, b, hformat, hhex, hval⟩ := formatHex2_spec hbyte hne
    have hbyte : hexByte a b = c := by rw [hexByte, hval, Char.ofNat_toNat]
    rw [hformat, List.cons_append, List.cons_append, List.cons_append, List.nil_append,
      httpDecode_escape, httpDecodeHex_hexByte hhex, hbyte, Option.bind_some]
  · rename_i hplain
    have hpercent : c ≠ '%' := by
      rintro rfl
      exact hplain (by decide)
    have hplus : c ≠ '+' := by
      rintro rfl
      exact hplain (by decide)
    rw [List.singleton_append, httpDecode_cons hpercent, if_neg hplus]

/-- Decoding takes back the encoding of a string. -/
theorem httpDecode_httpEncode {s : CStr} (hs : NUL ∉ s) (hbytes : ∀ c ∈ s, c.toNat < 256) :
    httpDecode (httpEncode s) = some s := by
  induction s with
  | nil => rfl
  | cons c s ih =>
    have hc : c ≠ NUL := fun heq => hs (heq ▸ List.mem_cons_self ..)
    have hrest := ih (fun hmem => hs (List.mem_cons_of_mem _ hmem))
      (fun d hd => hbytes d (List.mem_cons_of_mem _ hd))
    rw [httpEncode, List.flatMap_cons,
      httpDecode_encodeByte hc (hbytes c (List.mem_cons_self ..)) (s.flatMap httpEncodeByte)]
    rw [httpEncode] at hrest
    rw [hrest]
    rfl

/-! ## §7 Which strings are decoded as they should be -/

/-- The functions behave as they should exactly for the strings in which no percent sign is
    followed by a loose number, or in which some other percent sign is followed by something that
    is refused anyway. -/
theorem urlCoding_iff {s : CStr} (hs : NUL ∉ s) (hbytes : ∀ c ∈ s, c.toNat < 256) :
    UrlCoding s ↔ ((∃ e ∈ escapes s, IsLooseNumber e) →
      ∃ e ∈ escapes s, ¬ IsHexByte e ∧ ¬ IsLooseNumber e) := by
  constructor
  · rintro ⟨hsucceeds, -, -⟩ ⟨e, he, hloose⟩
    -- If nothing is refused, decoding succeeds, and then all digits must be hexadecimal.
    by_contra hrefused
    simp only [not_exists, not_and, not_not] at hrefused
    have hsome : (httpDecode s).isSome := by
      rw [httpDecode_isSome_iff]
      intro d hd
      exact or_iff_not_imp_left.mpr (hrefused d hd)
    have hhex := (wellEncoded_iff s).mp (hsucceeds.mp hsome) e he
    obtain ⟨a, b, rfl, hab⟩ := hloose
    exact hab.not_hexByte (isHexByte_pair.mp hhex)
  · intro h
    -- If decoding succeeds, no number is loose: together with one, another sequence is refused.
    have hwell : (httpDecode s).isSome → WellEncoded s := by
      intro hsome
      rw [httpDecode_isSome_iff] at hsome
      rw [wellEncoded_iff]
      intro e he
      by_contra hhex
      obtain ⟨d, hd, hdhex, hdloose⟩ := h ⟨e, he, (hsome e he).resolve_left hhex⟩
      exact (hsome d hd).elim hdhex hdloose
    refine ⟨⟨hwell, ?_⟩, ?_, httpDecode_httpEncode hs hbytes⟩
    · intro hs
      rw [httpDecode_isSome_iff]
      intro e he
      exact .inl ((wellEncoded_iff s).mp hs e he)
    · intro t ht
      exact decodes_of_wellEncoded (hwell (Option.isSome_of_eq_some ht)) ht

/-- A string in which everything is as it should be. -/
theorem urlCoding_sample : UrlCoding "%4e+foo".toList := by
  refine (urlCoding_iff (by decide) (by simp)).mpr ?_
  -- The only sequence is a number with two digits.
  rintro ⟨e, he, hloose⟩
  have hescapes : escapes "%4e+foo".toList = [['4', 'e']] := by decide +kernel
  rw [hescapes, List.mem_singleton] at he
  subst he
  have hhex : HexByte '4' 'e' := ⟨by decide, by decide, by decide⟩
  exact absurd hhex (isLooseNumber_pair.mp hloose).not_hexByte

/-- A percent sign with one digit and another byte behind it is accepted, and both are swallowed. -/
theorem httpDecode_lenient : httpDecode "%1g".toList = some ['\x01'] ∧ ¬ UrlCoding "%1g".toList := by
  have hdecode : httpDecode "%1g".toList = some ['\x01'] := by decide
  refine ⟨hdecode, fun h => ?_⟩
  have hwell := h.succeeds_iff.mp (by rw [hdecode]; rfl)
  obtain ⟨a, b, -, hb, -, hdigit, -⟩ := hwell 0 rfl
  obtain rfl := Option.some.inj hb
  exact absurd hdigit (by decide)

end Mandoc
