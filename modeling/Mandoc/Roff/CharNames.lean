import Mandoc.Roff.EscapeBounds
import Mandoc.Roff.Number

/-!
# Numbered and Unicode Character Names

The name in `\[X]` may denote a byte, as in `\[char65]`, or a Unicode code point, as in
`\[u2014]`. The parser `roff_escape()` tells these names apart from the names in the list of
special characters, and the formatters convert them with `mchars_num2char()` and
`mchars_num2uc()`.

The main result, `roffEscape_names_iff`, says that the parser and the converters agree on all
names, except that no name with `char` is ever recognized: the loop that computes the number
starts at the beginning of the argument rather than at its digits, so the letters contribute
to the number, too.
-/

namespace Mandoc

/-! ## §1 Conversion of numbers -/

/-- The value of a digit; at least 36 for a byte that is not a digit in any base. -/
def digitVal (c : Char) : Nat :=
  if isdigit c then c.toNat - '0'.toNat
  else if 'a' ≤ c && c ≤ 'z' then c.toNat - 'a'.toNat + 10
  else if 'A' ≤ c && c ≤ 'Z' then c.toNat - 'A'.toNat + 10
  else 36

/-- The value of a sequence of digits. -/
def digitsVal (base : Nat) (ds : CStr) : Nat := ds.foldl (fun v d => v * base + digitVal d) 0

/-- Replace a number that is too large or too small for a signed type with `w + 1` bits. -/
def clampInt (w : Nat) (v : Int) : Int := max (-2 ^ w) (min v (2 ^ w - 1))

/-- `strtol()`: the value, and the index after the number. White space and a sign are skipped,
    and in base 16 also the prefix `0x`. Without any digits, the index is 0. -/
def strtol (s : CStr) (base : Nat) : Int × Nat :=
  let i := skipWhile isspace s 0
  let neg := charAt s i = '-'
  let i := if neg ∨ charAt s i = '+' then i + 1 else i
  let i :=
    if base = 16 ∧ charAt s i = '0' ∧ toupper (charAt s (i + 1)) = 'X' ∧
        digitVal (charAt s (i + 2)) < base then i + 2 else i
  let ds := (s.drop i).takeWhile fun c => digitVal c < base
  if ds = [] then (0, 0)
  else
    let v : Int := digitsVal base ds
    (clampInt 63 (if neg then -v else v), i + ds.length)

/-- `mandoc_strntoi()`, in any base. -/
def mandocStrntoiBase (p : CStr) (base : Nat) : Int :=
  if 31 < p.length then -1
  else if p = [] ∨ (strtol p base).2 ≠ p.length then -1
  else clampInt 31 (strtol p base).1

/-- `mchars_num2char()` -/
def mcharsNum2char (p : CStr) : Int :=
  let i := mandocStrntoiBase p 10
  if 0 ≤ i ∧ i < 256 then i else -1

/-- `mchars_num2uc()`, with its assertion. -/
def mcharsNum2uc (p : CStr) : Res Int :=
  let i := mandocStrntoiBase p 16
  if 0 ≤ i ∧ i ≤ 0x10FFFF then .ok i else .error .abort

/-! ## §2 Digits -/

/-- A hexadecimal digit. -/
def isxdigit (c : Char) : Bool := "0123456789ABCDEFabcdef".toList.contains c

/-- What the tests of the parser say about the value of a hexadecimal digit. -/
structure HexDigit (c : Char) : Prop where
  lt : digitVal c < 16
  zero_iff : c = '0' ↔ digitVal c = 0
  one_iff : c = '1' ↔ digitVal c = 1
  d_iff : toupper c = 'D' ↔ digitVal c = 13
  upper_iff : strchr "89ABCDEFabcdef" c ↔ 8 ≤ digitVal c
  noSpace : isspace c = false
  noSign : c ≠ '-' ∧ c ≠ '+'
  noPrefix : toupper c ≠ 'X'

theorem hexDigit_of_isxdigit {c : Char} (h : isxdigit c) : HexDigit c := by
  have hall : ("0123456789ABCDEFabcdef".toList.all fun d => decide (digitVal d < 16) &&
      decide (d = '0' ↔ digitVal d = 0) && decide (d = '1' ↔ digitVal d = 1) &&
      decide (toupper d = 'D' ↔ digitVal d = 13) &&
      decide (strchr "89ABCDEFabcdef" d ↔ 8 ≤ digitVal d) &&
      decide (isspace d = false) && decide (d ≠ '-' ∧ d ≠ '+') &&
      decide (toupper d ≠ 'X')) = true := by decide +kernel
  have hc := List.all_eq_true.mp hall c (List.contains_iff_mem.mp h)
  simp only [Bool.and_eq_true, decide_eq_true_eq] at hc
  obtain ⟨⟨⟨⟨⟨⟨⟨h1, h2⟩, h3⟩, h4⟩, h5⟩, h6⟩, h7⟩, h8⟩ := hc
  exact ⟨h1, h2, h3, h4, h5, h6, h7, h8⟩

theorem strspn_eq_length_iff (s : CStr) (set : String) :
    strspn s set = s.length ↔ s.all set.toList.contains := by
  rw [strspn, List.all_eq_true, ← List.takeWhile_eq_self_iff]
  constructor
  · exact fun h => (List.takeWhile_prefix _).eq_of_length h
  · exact fun h => congrArg List.length h

/-! ## §3 The names -/

/-- The name is `char` with two or three decimal digits for the number of a printable byte. -/
structure NumberedName (name ds : CStr) : Prop where
  name_eq : name = "char".toList ++ ds
  length : ds.length = 2 ∨ ds.length = 3
  digits : ds.all isdigit
  printable : 0x21 ≤ digitsVal 10 ds ∧ digitsVal 10 ds ≤ 0x7e ∨
    0xa0 ≤ digitsVal 10 ds ∧ digitsVal 10 ds ≤ 0xff

/-- The name is `u` with four to six hexadecimal digits, without superfluous leading zeros, for
    a code point in the Unicode range that is not a surrogate. -/
structure UnicodeName (name hs : CStr) : Prop where
  name_eq : name = 'u' :: hs
  length : 4 ≤ hs.length ∧ hs.length ≤ 6
  digits : hs.all isxdigit
  leading : hs.length = 4 ∨ charAt hs 0 ≠ '0'
  range : digitsVal 16 hs ≤ 0x10FFFF
  noSurrogate : ¬ (0xD800 ≤ digitsVal 16 hs ∧ digitsVal 16 hs ≤ 0xDFFF)

theorem toNat_of_isdigit {c : Char} (h : isdigit c) : '0'.toNat ≤ c.toNat := by
  simp only [isdigit, Bool.and_eq_true, decide_eq_true_eq] at h
  exact h.1

/-- More digits do not make a number smaller. -/
theorem le_decimal {ds : CStr} (h : ds.all isdigit) {c : Int} (hc : 0 ≤ c) :
    c ≤ ds.foldl (fun c d => 10 * c + ((d.toNat : Int) - '0'.toNat)) c := by
  induction ds generalizing c with
  | nil => exact le_refl c
  | cons d ds ih =>
    rw [List.all_cons, Bool.and_eq_true] at h
    have hd := toNat_of_isdigit h.1
    rw [List.foldl_cons]
    have hle : c ≤ 10 * c + ((d.toNat : Int) - '0'.toNat) := by omega
    exact hle.trans (ih h.2 (by omega))

/-- The letters in front of the digits make the number too large: no name is an alias for a
    numbered character. -/
theorem isCharAlias_eq_false (arg : CStr) : isCharAlias arg = false := by
  rw [Bool.eq_false_iff]
  intro h
  simp only [isCharAlias, Bool.and_eq_true, decide_eq_true_eq, Bool.not_eq_true',
    Bool.or_eq_false_iff, decide_eq_false_iff_not] at h
  obtain ⟨⟨⟨⟨hmin, hmax⟩, htake⟩, hspan⟩, hrange⟩ := h
  have harg : arg = "char".toList ++ arg.drop 4 := by rw [← htake, List.take_append_drop]
  have hdigits : (arg.drop 4).all isdigit := by
    have hset : ∀ c, "0123456789".toList.contains c → isdigit c := by
      intro c hc
      have hall : ("0123456789".toList.all isdigit) = true := by decide +kernel
      exact List.all_eq_true.mp hall c (List.contains_iff_mem.mp hc)
    have hle : strspn (arg.drop 4) "0123456789" ≤ (arg.drop 4).length :=
      (List.takeWhile_prefix _).length_le
    have hlen : strspn (arg.drop 4) "0123456789" = (arg.drop 4).length := by
      rw [List.length_drop] at hle ⊢
      omega
    exact List.all_eq_true.mpr fun c hc =>
      hset c (List.all_eq_true.mp ((strspn_eq_length_iff _ _).mp hlen) c hc)
  have hval : 57156 ≤ decimal arg := by
    rw [harg, decimal, List.foldl_append]
    have hchar : "char".toList.foldl (fun c d => 10 * c + ((d.toNat : Int) - '0'.toNat)) 0 = 57156 := by
      decide +kernel
    rw [hchar]
    exact le_decimal hdigits (by decide)
  omega

/-- The tests of the parser on the digits of a Unicode escape. -/
def UnicodeDigits (hs : CStr) : Prop :=
  ¬ (hs.length = 6 ∧ (charAt hs 0 ≠ '1' ∨ charAt hs 1 ≠ '0')) ∧
  ¬ (hs.length = 5 ∧ charAt hs 0 = '0') ∧
  ¬ (hs.length = 4 ∧ toupper (charAt hs 0) = 'D' ∧ strchr "89ABCDEFabcdef" (charAt hs 1))

/-- These tests check the leading zeros, the range, and the surrogates. -/
theorem unicodeDigits_iff {hs : CStr} (hlen : 4 ≤ hs.length ∧ hs.length ≤ 6)
    (hdigits : hs.all isxdigit) :
    UnicodeDigits hs ↔ (hs.length = 4 ∨ charAt hs 0 ≠ '0') ∧ digitsVal 16 hs ≤ 0x10FFFF ∧
      ¬ (0xD800 ≤ digitsVal 16 hs ∧ digitsVal 16 hs ≤ 0xDFFF) := by
  have hex : ∀ {c}, c ∈ hs → HexDigit c := fun hc =>
    hexDigit_of_isxdigit (List.all_eq_true.mp hdigits _ hc)
  obtain ⟨hmin, hmax⟩ := hlen
  -- The number of digits decides which of the tests applies.
  match hs, hmin, hmax with
  | [a, b, c, d], _, _ =>
    obtain ⟨ha, hb, hc, hd⟩ : HexDigit a ∧ HexDigit b ∧ HexDigit c ∧ HexDigit d :=
      ⟨hex (by simp), hex (by simp), hex (by simp), hex (by simp)⟩
    have hval : digitsVal 16 [a, b, c, d] =
        ((digitVal a * 16 + digitVal b) * 16 + digitVal c) * 16 + digitVal d := by simp [digitsVal]
    have h1 := ha.lt
    have h2 := hb.lt
    have h3 := hc.lt
    have h4 := hd.lt
    simp only [UnicodeDigits, hval, List.length_cons, List.length_nil, charAt_cons_zero,
      charAt_cons_succ, ha.d_iff, hb.upper_iff, Nat.reduceAdd, Nat.reduceEqDiff, false_and,
      not_false_eq_true, true_and, true_or]
    omega
  | [a, b, c, d, e], _, _ =>
    obtain ⟨ha, hb, hc, hd, he⟩ :
        HexDigit a ∧ HexDigit b ∧ HexDigit c ∧ HexDigit d ∧ HexDigit e :=
      ⟨hex (by simp), hex (by simp), hex (by simp), hex (by simp), hex (by simp)⟩
    have hval : digitsVal 16 [a, b, c, d, e] =
        (((digitVal a * 16 + digitVal b) * 16 + digitVal c) * 16 + digitVal d) * 16 +
          digitVal e := by simp [digitsVal]
    have h1 := ha.lt
    have h2 := hb.lt
    have h3 := hc.lt
    have h4 := hd.lt
    have h5 := he.lt
    simp only [UnicodeDigits, hval, List.length_cons, List.length_nil, charAt_cons_zero,
      charAt_cons_succ, ne_eq, ha.zero_iff, Nat.reduceAdd, Nat.reduceEqDiff, false_and, false_or,
      not_false_eq_true, true_and, and_true]
    omega
  | [a, b, c, d, e, f], _, _ =>
    obtain ⟨ha, hb, hc, hd, he, hf⟩ :
        HexDigit a ∧ HexDigit b ∧ HexDigit c ∧ HexDigit d ∧ HexDigit e ∧ HexDigit f :=
      ⟨hex (by simp), hex (by simp), hex (by simp), hex (by simp), hex (by simp), hex (by simp)⟩
    have hval : digitsVal 16 [a, b, c, d, e, f] =
        ((((digitVal a * 16 + digitVal b) * 16 + digitVal c) * 16 + digitVal d) * 16 +
          digitVal e) * 16 + digitVal f := by simp [digitsVal]
    have h1 := ha.lt
    have h2 := hb.lt
    have h3 := hc.lt
    have h4 := hd.lt
    have h5 := he.lt
    have h6 := hf.lt
    simp only [UnicodeDigits, hval, List.length_cons, List.length_nil, charAt_cons_zero,
      charAt_cons_succ, ne_eq, ha.zero_iff, ha.one_iff, hb.zero_iff, Nat.reduceAdd,
      Nat.reduceEqDiff, false_and, false_or, not_false_eq_true, true_and, and_true]
    omega

/-- The digits of an argument end with it: the argument consists of digits, and there is no other
    digit behind it. -/
theorem strspn_xdigit_iff (hs t : CStr) : strspn (hs ++ t) "0123456789ABCDEFabcdef" = hs.length ↔
    hs.all isxdigit ∧ isxdigit (charAt t 0) = false := by
  have hspan := strspn_eq_length_iff hs "0123456789ABCDEFabcdef"
  have hxdigit : hs.all isxdigit = hs.all "0123456789ABCDEFabcdef".toList.contains := rfl
  rw [hxdigit, ← hspan]
  unfold strspn
  rw [List.takeWhile_append]
  split
  · rename_i hall
    have hend : t.takeWhile "0123456789ABCDEFabcdef".toList.contains = [] ↔
        isxdigit (charAt t 0) = false := by
      cases t with
      | nil => exact iff_of_true rfl (by decide)
      | cons c t =>
        have hc : "0123456789ABCDEFabcdef".toList.contains c = isxdigit c := rfl
        rw [charAt_cons_zero, List.takeWhile_cons, hc]
        cases isxdigit c <;> simp
    rw [List.length_append, Nat.add_eq_left, List.length_eq_zero_iff, hend, and_iff_right hall]
  · rename_i hshort
    exact iff_of_false hshort fun h => hshort h.1

/-- The tests on the argument of a Unicode escape accept exactly the code points in front of
    something that is not a digit. -/
theorem isUnicode_iff (arg t : CStr) : isUnicode (arg ++ t) arg.length = true ↔
    (∃ hs, UnicodeName arg hs) ∧ isxdigit (charAt t 0) = false := by
  cases arg with
  | nil =>
    refine iff_of_false (by simp [isUnicode]) ?_
    rintro ⟨⟨hs, h⟩, -⟩
    exact absurd h.name_eq (by simp)
  | cons u hs =>
    have htests : isUnicode (u :: hs ++ t) (u :: hs).length = true ↔
        u = 'u' ∧ (4 ≤ hs.length ∧ hs.length ≤ 6) ∧ UnicodeDigits hs ∧
          strspn (hs ++ t) "0123456789ABCDEFabcdef" = hs.length := by
      have hchars : 4 ≤ hs.length →
          charAt (hs ++ t) 0 = charAt hs 0 ∧ charAt (hs ++ t) 1 = charAt hs 1 := fun hlen =>
        ⟨charAt_append_left (by omega) t, charAt_append_left (by omega) t⟩
      simp only [isUnicode, UnicodeDigits, List.length_cons, List.cons_append, charAt_cons_zero,
        charAt_cons_succ, List.drop_succ_cons, List.drop_zero]
      grind
    rw [htests, strspn_xdigit_iff]
    constructor
    · rintro ⟨rfl, hlen, htest, hdigits, hend⟩
      obtain ⟨hleading, hrange, hsurrogate⟩ := (unicodeDigits_iff hlen hdigits).mp htest
      exact ⟨⟨hs, rfl, hlen, hdigits, hleading, hrange, hsurrogate⟩, hend⟩
    · rintro ⟨⟨hs', h⟩, hend⟩
      obtain ⟨rfl, rfl⟩ := List.cons.inj h.name_eq
      exact ⟨rfl, h.length, (unicodeDigits_iff h.length h.digits).mpr
        ⟨h.leading, h.range, h.noSurrogate⟩, h.digits, hend⟩

/-- The converter returns the code point. -/
theorem UnicodeName.num2uc {name hs : CStr} (h : UnicodeName name hs) :
    mcharsNum2uc hs = .ok (digitsVal 16 hs : Int) := by
  have hex : ∀ {c}, c ∈ hs → HexDigit c := fun hc =>
    hexDigit_of_isxdigit (List.all_eq_true.mp h.digits _ hc)
  obtain ⟨hmin, hmax⟩ := h.length
  have hne : hs ≠ [] := List.ne_nil_of_length_pos (by omega)
  have hmem : ∀ i, i < hs.length → charAt hs i ∈ hs := fun i hi => by
    rw [charAt_eq_getElem hi]
    exact List.getElem_mem hi
  have hfirst := hex (hmem 0 (by omega))
  have hsecond := hex (hmem 1 (by omega))
  have hspace : skipWhile isspace hs 0 = 0 := by
    obtain ⟨c, cs, rfl⟩ := List.exists_cons_of_ne_nil hne
    rw [skipWhile, List.drop_zero, List.takeWhile_cons_of_neg (by simpa using hfirst.noSpace)]
    rfl
  have hall : hs.takeWhile (fun c => digitVal c < 16) = hs :=
    List.takeWhile_eq_self_iff.mpr fun c hc => by simpa using (hex hc).lt
  have hrange := h.range
  have hclamp : ∀ w, 31 ≤ w → clampInt w (digitsVal 16 hs) = digitsVal 16 hs := by
    intro w hw
    have hpow : (2 : Int) ^ 31 ≤ 2 ^ w := pow_le_pow_right₀ (by decide) hw
    unfold clampInt
    omega
  have hstrtol : strtol hs 16 = ((digitsVal 16 hs : Int), hs.length) := by
    unfold strtol
    simp only [hspace, hfirst.noSign.1, hfirst.noSign.2, or_self, if_false, Nat.zero_add,
      hsecond.noPrefix, false_and, and_false, List.drop_zero, hall, hne, hclamp 63 (by decide)]
  have hstrntoi : mandocStrntoiBase hs 16 = digitsVal 16 hs := by
    unfold mandocStrntoiBase
    rw [if_neg (by omega), hstrtol, if_neg (by simp [hne]), hclamp 31 (le_refl _)]
  unfold mcharsNum2uc
  rw [hstrntoi]
  exact if_pos (by omega)

/-! ## §4 The parser -/

/-- A name that ends at the closing bracket. -/
structure BracketName (name : CStr) : Prop where
  noBracket : ']' ∉ name
  noBlank : ' ' ∉ name
  noBackslash : '\\' ∉ name
  noNul : NUL ∉ name

/-- The scan of a name in brackets. By induction on the part of the name that is left. -/
theorem argLoop_bracket {sub : Nat → Res EscResult} {buf name t : CStr} {iesc i steps : Nat}
    {a : ArgStart} (j : Nat) (valid : Bool) (hec : rd buf iesc = .ok '\\')
    (hname : BracketName name) (hdrop : buf.drop i = name ++ ']' :: t) (hterm : a.term = ']')
    (hescterm : a.escterm = false) (hsteps : name.length < steps) :
    ∃ valid', argLoop sub buf iesc '[' a steps none i j valid =
      .ok (.done a.rval (i + name.length) (i + name.length + 1) valid') := by
  induction name generalizing i j steps valid with
  -- At the end of the name is the terminator.
  | nil =>
    obtain ⟨steps, rfl⟩ := Nat.exists_eq_succ_of_ne_zero (Nat.ne_of_gt hsteps)
    have hc : rd buf i = .ok ']' := rd_of_drop hdrop 0 (by simp)
    refine ⟨valid, ?_⟩
    rw [argLoop, if_neg (by simp), hec, Res.ok_bind, hc, Res.ok_bind, if_neg (by decide),
      if_pos (by simp [hescterm, hterm])]
    rfl
  -- Each byte of the name is skipped; only blanks change whether it is valid.
  | cons c name ih =>
    obtain ⟨steps, rfl⟩ := Nat.exists_eq_succ_of_ne_zero (Nat.ne_of_gt (Nat.zero_lt_of_lt hsteps))
    have hc : rd buf i = .ok c := rd_of_drop hdrop 0 (by simp)
    have hrest : buf.drop (i + 1) = name ++ ']' :: t := by
      rw [← List.drop_drop, hdrop]
      rfl
    have hne : ∀ {d}, d ∉ c :: name → c ≠ d ∧ d ∉ name := fun h => by
      rw [List.mem_cons, not_or] at h
      exact ⟨Ne.symm h.1, h.2⟩
    obtain ⟨valid', hloop⟩ := ih (i + 1) (valid && !(c = ' ' || c = '\t'))
      ⟨(hne hname.noBracket).2, (hne hname.noBlank).2, (hne hname.noBackslash).2,
        (hne hname.noNul).2⟩ hrest (Nat.lt_of_succ_lt_succ hsteps)
    refine ⟨valid', ?_⟩
    rw [argLoop, if_neg (by simp), hec, Res.ok_bind, hc, Res.ok_bind, if_neg (hne hname.noNul).1,
      if_neg (by simp [hterm, (hne hname.noBracket).1]), if_neg (hne hname.noBackslash).1,
      if_neg (by simp)]
    rw [List.length_cons, ← Nat.add_assoc, Nat.add_right_comm]
    exact hloop

/-- The parser does not recognize numbered characters, and it recognizes all code points. -/
theorem specialArg_eq (name t : CStr) :
    let arg := specialArg (name ++ ']' :: t) name.length ']'
    arg.2 = 0 ∧ arg.1 ≠ .NUMBERED ∧ (arg.1 = .UNICODE ↔ ∃ hs, UnicodeName name hs) := by
  have hbracket : isxdigit (charAt (']' :: t) 0) = false := by
    rw [charAt_cons_zero]
    decide
  have huni' : isUnicode (name ++ ']' :: t) name.length = true ↔ ∃ hs, UnicodeName name hs :=
    (isUnicode_iff name (']' :: t)).trans (and_iff_left hbracket)
  dsimp only
  unfold specialArg
  rw [isCharAlias_eq_false]
  -- By the tests in their order; a Unicode name passes all but the last one.
  by_cases hnil : name.length = 0
  · rw [if_pos hnil]
    refine ⟨rfl, by decide, iff_of_false (by decide) ?_⟩
    rintro ⟨hs, h⟩
    rw [h.name_eq] at hnil
    exact absurd hnil (by simp)
  rw [if_neg hnil]
  split
  · next hone =>
    refine ⟨rfl, by decide, iff_of_false (by decide) ?_⟩
    rintro ⟨hs, h⟩
    have hlen := h.length
    simp only [h.name_eq, List.length_cons, Bool.and_eq_true, decide_eq_true_eq] at hone
    omega
  split
  · next hfirst =>
    refine ⟨rfl, by decide, iff_of_false (by decide) ?_⟩
    rintro ⟨hs, h⟩
    rw [h.name_eq] at hfirst
    exact absurd hfirst (by simp)
  split
  · next huni => exact ⟨rfl, by decide, iff_of_true rfl (huni'.mp huni)⟩
  · next huni =>
    exact ⟨rfl, by decide, iff_of_false (by decide) fun h => huni (huni'.mpr h)⟩

/-- What the parser returns for a name in brackets. -/
theorem escapeRec_bracket {buf name t : CStr} {pos : Nat} (depth : Nat) (nullResc : Bool)
    (hdrop : buf.drop pos = '\\' :: '[' :: (name ++ ']' :: t)) (hname : BracketName name) :
    escapeRec buf (depth + 1) pos nullResc =
      .ok ⟨(specialArg (name ++ ']' :: t) name.length ']').1, pos, pos + 1,
        pos + 2 + (specialArg (name ++ ']' :: t) name.length ']').2,
        pos + 2 + name.length, pos + 2 + name.length + 1⟩ := by
  have hlen := length_of_drop hdrop (by simp)
  -- The sequence starts with a backslash and a bracket.
  simp only [List.length_cons, List.length_append] at hlen
  have h0 : rd buf pos = .ok '\\' := rd_of_drop hdrop 0 (by simp)
  have h1 : rd buf (pos + 1) = .ok '[' := rd_of_drop hdrop 1 (by simp)
  have hrest : buf.drop (pos + 2) = name ++ ']' :: t := by
    rw [← List.drop_drop, hdrop]
    rfl
  -- The name does not start with a blank.
  have h2 : ∃ c, rd buf (pos + 2) = .ok c ∧ c ≠ ' ' := by
    cases name with
    | nil => exact ⟨']', rd_of_drop hrest 0 (by simp), by decide⟩
    | cons c name =>
      refine ⟨c, rd_of_drop hrest 0 (by simp), fun heq => hname.noBlank ?_⟩
      rw [heq]
      exact List.mem_cons_self ..
  obtain ⟨c, hc, hblank⟩ := h2
  have hinam : nameIndex buf pos = pos + 1 := nameIndex_of_drop hdrop (by decide)
  have hkind : escName '[' = .bracket := by decide
  have harg : ∀ sub, standardArg sub buf pos (pos + 1) (pos + 1) .SPECIAL =
      .ok (.scan ⟨.SPECIAL, pos + 2, pos + 1, ']', false, none⟩) := by
    intro sub
    rw [standardArg, h1, Res.ok_bind, h0, Res.ok_bind, if_neg (by decide), standardForm, h1,
      Res.ok_bind]
    simp [regSign, h1, hc, hblank]
  -- The argument ends at the closing bracket.
  have hscan : ∃ valid, argLoop (fun i => escapeRec buf depth i false) buf pos '['
      ⟨.SPECIAL, pos + 2, pos + 1, ']', false, none⟩ (buf.length + 1) none (pos + 2) (pos + 1) true =
      .ok (.done .SPECIAL (pos + 2 + name.length) (pos + 2 + name.length + 1) valid) :=
    argLoop_bracket (pos + 1) true h0 hname hrest rfl rfl (by omega)
  obtain ⟨valid, hloop⟩ := hscan
  rw [escapeRec, escapeAt, escapeStart, hinam, h1, Res.ok_bind, hkind]
  dsimp only
  rw [harg, Res.ok_bind]
  dsimp only
  rw [Res.ok_bind, hloop, Res.ok_bind]
  simp [postProcess, hrest]

/-- The glyph that an escape sequence denotes: its type and its argument. -/
def glyph (buf : CStr) (r : EscResult) : Esc × CStr := (r.rval, slice buf r.rarg r.rendarg)

/-- What the type and the argument of the sequence with a name in brackets have to be. -/
structure ClassifiesName (name : CStr) (rval : Esc) (arg : CStr) : Prop where
  /-- The numbered characters are recognized. -/
  numbered : rval = .NUMBERED ↔ ∃ ds, NumberedName name ds
  /-- Their argument consists of the digits. -/
  numbered_arg : ∀ ds, NumberedName name ds → arg = ds
  /-- They denote the same glyph as the sequence with the digits in quotes. -/
  numbered_glyph : ∀ ds, NumberedName name ds → ∀ buf pos t nullResc r,
    buf.drop pos = '\\' :: 'N' :: '\'' :: (ds ++ '\'' :: t) →
      escapeRec buf (buf.length + 1) pos nullResc = .ok r → glyph buf r = (rval, arg)
  /-- The converter accepts them. -/
  num2char : rval = .NUMBERED → mcharsNum2char arg ≠ -1
  /-- The code points are recognized. -/
  unicode : rval = .UNICODE ↔ ∃ hs, UnicodeName name hs
  /-- The converter returns the code point. -/
  num2uc : ∀ hs, UnicodeName name hs → mcharsNum2uc (arg.drop 1) = .ok (digitsVal 16 hs : Int)

/-- **Character names.** In any text and for any caller, the type and the argument of a name in
    brackets are what they have to be if and only if it is not the name of a numbered
    character. -/
theorem roffEscape_names_iff {buf name t : CStr} {pos : Nat} (nullResc : Bool)
    (hdrop : buf.drop pos = '\\' :: '[' :: (name ++ ']' :: t)) (hname : BracketName name) :
    (∃ r, escapeRec buf (buf.length + 1) pos nullResc = .ok r ∧
        ClassifiesName name (glyph buf r).1 (glyph buf r).2) ↔
      ¬ ∃ ds, NumberedName name ds := by
  obtain ⟨hshift, hnumbered, hunicode⟩ := specialArg_eq name t
  have hres := escapeRec_bracket buf.length nullResc hdrop hname
  have harg : slice buf (pos + 2 + (specialArg (name ++ ']' :: t) name.length ']').2)
      (pos + 2 + name.length) = name := by
    -- No byte in front of the argument is skipped, so it is the whole name.
    have hrest : buf.drop (pos + 2) = name ++ ']' :: t := by
      rw [← List.drop_drop, hdrop]
      rfl
    rw [hshift, Nat.add_zero, slice, hrest, Nat.add_sub_cancel_left, List.take_left]
  constructor
  · rintro ⟨r, hr, hclass⟩ hname'
    cases hres.symm.trans hr
    exact hnumbered (hclass.numbered.mpr hname')
  · intro hno
    refine ⟨_, hres, ?_⟩
    simp only [glyph, harg]
    exact
      { numbered := iff_of_false hnumbered hno
        numbered_arg := fun ds h => absurd ⟨ds, h⟩ hno
        numbered_glyph := fun ds h => absurd ⟨ds, h⟩ hno
        num2char := fun h => absurd h hnumbered
        unicode := hunicode
        num2uc := fun hs h => by
          have htail : name.drop 1 = hs := by rw [h.name_eq]; rfl
          rw [htail]
          exact h.num2uc }

/-- The name of the dash in Unicode. -/
theorem roffEscape_names_dash : ∃ r,
    escapeRec "\\[u2014]".toList ("\\[u2014]".toList.length + 1) 0 true = .ok r ∧
      ClassifiesName "u2014".toList (glyph "\\[u2014]".toList r).1
        (glyph "\\[u2014]".toList r).2 := by
  refine (roffEscape_names_iff (t := []) true (by decide)
    ⟨by decide, by decide, by decide, by decide⟩).mpr ?_
  rintro ⟨ds, h⟩
  have hhead : some 'u' = some 'c' := congrArg List.head? h.name_eq
  exact absurd hhead (by decide)

/-- The name of a letter by its number is not recognized. -/
theorem roffEscape_names_char65 : ¬ ∀ (buf name t : CStr) (pos : Nat) (nullResc : Bool),
    buf.drop pos = '\\' :: '[' :: (name ++ ']' :: t) → BracketName name →
      ∃ r, escapeRec buf (buf.length + 1) pos nullResc = .ok r ∧
        ClassifiesName name (glyph buf r).1 (glyph buf r).2 := by
  intro h
  obtain ⟨r, hr, hclass⟩ := h "\\[char65]".toList "char65".toList [] 0 true (by decide)
    ⟨by decide, by decide, by decide, by decide⟩
  have heval : escapeRec "\\[char65]".toList ("\\[char65]".toList.length + 1) 0 true =
      .ok ⟨.SPECIAL, 0, 1, 2, 8, 9⟩ := by decide +kernel
  cases heval.symm.trans hr
  have hname : NumberedName "char65".toList "65".toList :=
    ⟨by decide, Or.inl (by decide), by decide +kernel, Or.inl ⟨by decide +kernel, by decide +kernel⟩⟩
  exact absurd (hclass.numbered.mpr ⟨_, hname⟩) (by decide)

end Mandoc
