import Mathlib

/-!
# C Strings with Checked Reads

The parsers of mandoc work on NUL-terminated byte strings addressed by integer
indices. A string is modelled by the list of the bytes before its terminating NUL.
Reading at the length of the list yields the NUL; reading any further is outside
the string and is reported as the fault `Fault.overrun`.

Functions that may run into undefined behaviour, into `abort()`, or into an endless
loop return their result in the monad `Res`. The last fault, `Fault.fuel`, says that
the step budget given to a model of a loop did not suffice.
-/

namespace Mandoc

/-! ## §1 Results -/

/-- The ways in which a modelled function can fail to return. -/
inductive Fault where
  /-- A byte beyond the terminating NUL was read. -/
  | overrun
  /-- `abort()` was called or an assertion failed. -/
  | abort
  /-- A null pointer was dereferenced. -/
  | null
  /-- A division had a result that is not an `int`. -/
  | trap
  /-- The step budget of the model ran out. -/
  | fuel
deriving DecidableEq, Repr

/-- Result of a function that may fault. -/
abbrev Res := Except Fault

theorem Res.bind_eq_ok {α β : Type} {x : Res α} {f : α → Res β} {b : β} :
    (x >>= f) = .ok b ↔ ∃ a, x = .ok a ∧ f a = .ok b := by
  cases x with
  | error e => simp [bind, Except.bind]
  | ok a => simp [bind, Except.bind]

theorem Res.map_eq_ok {α β : Type} {x : Res α} {f : α → β} {b : β} :
    x.map f = .ok b ↔ ∃ a, x = .ok a ∧ f a = b := by
  cases x with
  | error e => simp [Except.map]
  | ok a => simp [Except.map]

@[simp] theorem Res.ok_bind {α β : Type} (a : α) (f : α → Res β) :
    ((Except.ok a : Res α) >>= f) = f a := rfl

@[simp] theorem Res.error_bind {α β : Type} (e : Fault) (f : α → Res β) :
    ((Except.error e : Res α) >>= f) = .error e := rfl

@[simp] theorem Res.pure_eq_ok {α : Type} (a : α) : (pure a : Res α) = .ok a := rfl

/-! ## §2 Strings and reads -/

/-- The bytes of a C string before its terminating NUL. -/
abbrev CStr := List Char

/-- The terminating byte. -/
abbrev NUL : Char := '\x00'

/-- The byte at an index, where every index from the length on yields the NUL.
    Used where the index is known to lie inside the string. -/
def charAt (s : CStr) (i : Nat) : Char := s.getD i NUL

/-- `s[i]`, checked: reading beyond the terminating NUL is a fault. -/
def rd (s : CStr) (i : Nat) : Res Char :=
  if i ≤ s.length then .ok (charAt s i) else .error .overrun

theorem rd_of_le {s : CStr} {i : Nat} (h : i ≤ s.length) : rd s i = .ok (charAt s i) := by
  simp [rd, h]

theorem rd_of_gt {s : CStr} {i : Nat} (h : s.length < i) : rd s i = .error .overrun := by
  simp [rd, Nat.not_le.mpr h]

theorem rd_eq_ok {s : CStr} {i : Nat} {c : Char} :
    rd s i = .ok c ↔ i ≤ s.length ∧ charAt s i = c := by
  by_cases h : i ≤ s.length <;> simp [rd, h]

theorem charAt_of_ge {s : CStr} {i : Nat} (h : s.length ≤ i) : charAt s i = NUL := by
  simp [charAt, h]

theorem charAt_eq_getElem {s : CStr} {i : Nat} (h : i < s.length) : charAt s i = s[i] := by
  simp [charAt, h]

theorem charAt_append (l s : CStr) (i : Nat) : charAt (l ++ s) (l.length + i) = charAt s i := by
  simp only [charAt, List.getD_eq_getElem?_getD]
  rw [List.getElem?_append_right (by omega)]
  simp

theorem charAt_append_left {l : CStr} {i : Nat} (hi : i < l.length) (s : CStr) :
    charAt (l ++ s) i = charAt l i := by
  simp only [charAt, List.getD_eq_getElem?_getD]
  rw [List.getElem?_append_left hi]

theorem charAt_drop (s : CStr) (k i : Nat) : charAt (s.drop k) i = charAt s (k + i) := by
  simp [charAt, List.getD_eq_getElem?_getD]

@[simp] theorem charAt_cons_zero (c : Char) (s : CStr) : charAt (c :: s) 0 = c := rfl

@[simp] theorem charAt_cons_succ (c : Char) (s : CStr) (i : Nat) :
    charAt (c :: s) (i + 1) = charAt s i := rfl

theorem charAt_ne_nul {s : CStr} (hs : NUL ∉ s) {i : Nat} (h : i < s.length) :
    charAt s i ≠ NUL := by
  rw [charAt_eq_getElem h]
  exact fun hc => hs (hc ▸ List.getElem_mem h)

theorem lt_length_of_charAt_ne_nul {s : CStr} {i : Nat} (h : charAt s i ≠ NUL) :
    i < s.length := by
  by_contra hge
  exact h (charAt_of_ge (Nat.le_of_not_lt hge))

theorem eq_length_of_charAt_nul {s : CStr} (hs : NUL ∉ s) {i : Nat} (hi : i ≤ s.length)
    (h : charAt s i = NUL) : i = s.length := by
  by_contra hne
  exact charAt_ne_nul hs (by omega) h

/-! ## §3 Functions of the C library -/

/-- `strchr(set, c) != NULL`. The terminating NUL belongs to the searched string,
    so the test succeeds for `c == '\0'`. -/
def strchr (set : String) (c : Char) : Bool := c = NUL || set.toList.contains c

/-- `isdigit()` in the C locale. -/
def isdigit (c : Char) : Bool := '0' ≤ c && c ≤ '9'

/-- `isspace()` in the C locale. -/
def isspace (c : Char) : Bool := c = ' ' || ('\x09' ≤ c && c ≤ '\x0d')

/-- `isalpha()` in the C locale. -/
def isalpha (c : Char) : Bool := ('a' ≤ c && c ≤ 'z') || ('A' ≤ c && c ≤ 'Z')

/-- `toupper()` in the C locale. -/
def toupper (c : Char) : Char :=
  if 'a' ≤ c && c ≤ 'z' then Char.ofNat (c.toNat - 32) else c

/-- `tolower()` in the C locale. -/
def tolower (c : Char) : Char :=
  if 'A' ≤ c && c ≤ 'Z' then Char.ofNat (c.toNat + 32) else c

/-- `strspn(s, accept)`: length of the initial segment made of bytes of `accept`. -/
def strspn (s : CStr) (accept : String) : Nat :=
  (s.takeWhile accept.toList.contains).length

/-- `strcspn(s, reject)`: length of the initial segment made of bytes that are not in `reject`. -/
def strcspn (s : CStr) (reject : List Char) : Nat := (s.takeWhile fun c => !reject.contains c).length

/-- The value of a byte, where `char` is signed. -/
def signedByte (c : Char) : Int := if c.toNat < 128 then c.toNat else (c.toNat : Int) - 256

/-- The conversion `%.4X`. -/
def formatHex4 (n : Nat) : CStr :=
  let ds := (Nat.toDigits 16 n).map toupper
  List.replicate (4 - ds.length) '0' ++ ds

/-- The breakable hyphen. -/
abbrev ASCII_HYPH : Char := '\x1c'

/-- The breakable zero-width space. -/
abbrev ASCII_BREAK : Char := '\x1d'

/-- The non-breaking zero-width space. -/
abbrev ASCII_NBRZW : Char := '\x1e'

/-- The non-breaking space. -/
abbrev ASCII_NBRSP : Char := '\x1f'

/-- Reset the tab reference position. -/
abbrev ASCII_TABREF : Char := '\x1a'

theorem charAt_of_lt_takeWhile {q : Char → Bool} {s : CStr} {k : Nat}
    (h : k < (s.takeWhile q).length) : q (charAt s k) = true := by
  have hlt : k < s.length := Nat.lt_of_lt_of_le h (List.takeWhile_prefix q).length_le
  rw [charAt_eq_getElem hlt, ← (List.takeWhile_prefix q).getElem h]
  exact List.mem_takeWhile_imp (List.getElem_mem h)

/-- The byte after the initial segment does not pass it. -/
theorem charAt_length_takeWhile (q : Char → Bool) {s : CStr} (h : (s.takeWhile q).length < s.length) :
    q (charAt s (s.takeWhile q).length) = false := by
  induction s with
  | nil => exact absurd h (Nat.lt_irrefl _)
  | cons c s ih =>
    cases hc : q c with
    | true =>
      rw [List.takeWhile_cons_of_pos hc] at h ⊢
      exact ih (Nat.lt_of_succ_lt_succ h)
    | false =>
      rw [List.takeWhile_cons_of_neg (by simp [hc])]
      exact hc

theorem strcspn_drop_le {s : CStr} {i : Nat} (hi : i ≤ s.length) (reject : List Char) :
    i + strcspn (s.drop i) reject ≤ s.length := by
  have hle : strcspn (s.drop i) reject ≤ s.length - i := by
    rw [← List.length_drop]
    exact (List.takeWhile_prefix _).length_le
  omega

/-- The bytes of the run, and the byte that ends it. -/
theorem strcspn_drop_spec (s : CStr) (i : Nat) (reject : List Char) :
    (∀ k, k < strcspn (s.drop i) reject → charAt s (i + k) ∉ reject) ∧
      (i + strcspn (s.drop i) reject < s.length →
        charAt s (i + strcspn (s.drop i) reject) ∈ reject) := by
  refine ⟨fun k hk => ?_, fun hlt => ?_⟩
  · have htest := charAt_of_lt_takeWhile hk
    rw [charAt_drop] at htest
    simpa using htest
  · have hshort : ((s.drop i).takeWhile fun c => !reject.contains c).length < (s.drop i).length := by
      rw [List.length_drop]
      exact Nat.lt_sub_of_add_lt (Nat.add_comm _ _ ▸ hlt)
    have htest := charAt_length_takeWhile _ hshort
    rw [charAt_drop] at htest
    simpa [strcspn] using htest

end Mandoc
