import Mandoc.CString
import Mathlib.Data.List.Sort

/-!
# Strings and integers of the database

The manual page databases consist of strings, lists of strings, and big-endian integers.  In
memory a string is the list of its bytes, without the NUL at its end.  In a mapped file a string
is a pointer, that is a place in the bytes of the file, and reading outside the file is a fault.
-/

namespace Mandoc

/-! ## §1 Strings in memory -/

/-- The bytes of a string, without the NUL at its end. -/
abbrev Str := List UInt8

/-- No NUL byte in the string. -/
def NulFree (s : Str) : Prop := 0 ∉ s

instance (s : Str) : Decidable (NulFree s) := inferInstanceAs (Decidable (0 ∉ s))

/-- The string in a buffer: it ends in front of the first NUL. -/
def cstr (s : Str) : Str := s.takeWhile (· ≠ 0)

/-- The string in front of a NUL byte. -/
theorem cstr_append {s : Str} (h : NulFree s) (r : List UInt8) : cstr (s ++ 0 :: r) = s := by
  induction s with
  | nil => simp [cstr]
  | cons c s ih =>
    have hc : c ≠ 0 := fun heq => h (heq ▸ List.mem_cons_self ..)
    have hs : NulFree s := fun hmem => h (List.mem_cons_of_mem c hmem)
    rw [cstr, List.cons_append, List.takeWhile_cons_of_pos (by simpa using hc)]
    exact congrArg (c :: ·) (ih hs)

theorem cstr_eq {s : Str} (h : NulFree s) : cstr s = s := by
  apply List.takeWhile_eq_self_iff.mpr
  intro c hc
  simp only [decide_eq_true_eq]
  rintro rfl
  exact h hc

theorem nulFree_cons {c : UInt8} {s : Str} (hc : c ≠ 0) (h : NulFree s) : NulFree (c :: s) := by
  intro hmem
  rcases List.mem_cons.mp hmem with heq | htail
  · exact hc heq.symm
  · exact h htail

/-- The value of a byte that is read as a (signed) `char`. -/
def charValue (c : UInt8) : Int := c.toInt8.toInt

/-- `tolower()` in the C locale. -/
def toLowerByte (c : UInt8) : UInt8 := if 0x41 ≤ c ∧ c ≤ 0x5a then c + 0x20 else c

/-- `strcmp`: bytewise lexicographic comparison. -/
def strcmp (s t : Str) : Ordering := List.compareLex compare s t

/-- `strcasecmp`: the same for the lower case versions. -/
def strcasecmp (s t : Str) : Ordering :=
  List.compareLex compare (s.map toLowerByte) (t.map toLowerByte)

/-- `strcasestr(s, t) != NULL`. -/
def strcasestr (s t : Str) : Bool :=
  (s.map toLowerByte).tails.any (t.map toLowerByte).isPrefixOf

instance : Std.TransCmp strcmp :=
  inferInstanceAs (Std.TransCmp (List.compareLex (compare (α := UInt8))))

instance : Std.LawfulEqCmp strcmp :=
  inferInstanceAs (Std.LawfulEqCmp (List.compareLex (compare (α := UInt8))))

theorem transCmp_comap {α β : Type} (cmp : β → β → Ordering) [Std.TransCmp cmp] (f : α → β) :
    Std.TransCmp fun a b => cmp (f a) (f b) where
  eq_swap := Std.OrientedCmp.eq_swap
  isLE_trans := Std.TransCmp.isLE_trans

instance : Std.TransCmp strcasecmp :=
  transCmp_comap (List.compareLex (compare (α := UInt8))) (List.map toLowerByte)

theorem strcmp_eq_iff {s t : Str} : strcmp s t = .eq ↔ s = t :=
  Std.LawfulEqCmp.compare_eq_iff_eq

/-! ## §2 Sorting -/

/-- `qsort` with a comparison function under which only equal elements compare as equal. -/
def sortBy {α : Type} (cmp : α → α → Ordering) (l : List α) : List α :=
  l.insertionSort fun a b => (cmp a b).isLE

theorem sortBy_perm {α : Type} (cmp : α → α → Ordering) (l : List α) :
    (sortBy cmp l).Perm l :=
  List.perm_insertionSort _ l

@[simp] theorem mem_sortBy {α : Type} {cmp : α → α → Ordering} {l : List α} {a : α} :
    a ∈ sortBy cmp l ↔ a ∈ l :=
  (sortBy_perm cmp l).mem_iff

/-- Sorting sorts. -/
theorem sortBy_pairwise {α : Type} (cmp : α → α → Ordering) [Std.TransCmp cmp] (l : List α) :
    (sortBy cmp l).Pairwise fun a b => (cmp a b).isLE := by
  have : Std.Total fun a b => (cmp a b).isLE = true := ⟨fun a b => by
    cases h : cmp a b with
    | lt => exact .inl rfl
    | eq => exact .inl rfl
    | gt =>
      have hswap : cmp b a = (cmp a b).swap := Std.OrientedCmp.eq_swap
      right
      rw [hswap, h]
      rfl⟩
  have : IsTrans α fun a b => (cmp a b).isLE = true :=
    ⟨fun _ _ _ => Std.TransCmp.isLE_trans⟩
  exact List.pairwise_insertionSort _ l

theorem sortBy_of_pairwise {α : Type} {cmp : α → α → Ordering} {l : List α}
    (h : l.Pairwise fun a b => (cmp a b).isLE) : sortBy cmp l = l :=
  List.Pairwise.insertionSort_eq h

@[simp] theorem sortBy_sortBy {α : Type} (cmp : α → α → Ordering) [Std.TransCmp cmp]
    (l : List α) : sortBy cmp (sortBy cmp l) = sortBy cmp l :=
  sortBy_of_pairwise (sortBy_pairwise cmp l)

/-- Selecting and sorting can be interchanged if no two elements compare as equal. -/
theorem filter_sortBy {α : Type} (cmp : α → α → Ordering) [Std.TransCmp cmp] {l : List α}
    (hne : ∀ a ∈ l, ∀ b ∈ l, cmp a b = .eq → a = b) (p : α → Bool) :
    (sortBy cmp l).filter p = sortBy cmp (l.filter p) := by
  have hsorted := (sortBy_pairwise cmp l).sublist (List.filter_sublist (p := p))
  refine List.Perm.eq_of_pairwise ?_ hsorted (sortBy_pairwise cmp _)
    (((sortBy_perm cmp l).filter p).trans (sortBy_perm cmp _).symm)
  intro a b ha hb hab hba
  apply hne a (mem_sortBy.mp (List.mem_filter.mp ha).1) b
    (List.mem_filter.mp (mem_sortBy.mp hb)).1
  have hswap : cmp b a = (cmp a b).swap := Std.OrientedCmp.eq_swap
  rw [hswap] at hba
  cases h : cmp a b with
  | lt =>
    rw [h] at hba
    cases hba
  | eq => rfl
  | gt =>
    rw [h] at hab
    cases hab

/-! ## §3 Integers -/

/-- `INT32_MAX`. -/
def INT32_MAX : Nat := 2147483647

/-- `htobe32`: the four bytes of an integer, the highest one first. -/
def be32 (n : Nat) : List UInt8 :=
  [.ofNat (n / 16777216), .ofNat (n / 65536), .ofNat (n / 256), .ofNat n]

/-- `be32toh`: the unsigned integer stored in four bytes. -/
def ofBe32 (a b c d : UInt8) : Nat :=
  a.toNat * 16777216 + b.toNat * 65536 + c.toNat * 256 + d.toNat

theorem length_be32 (n : Nat) : (be32 n).length = 4 := rfl

theorem ofBe32_be32 {n : Nat} (h : n < 4294967296) :
    ofBe32 (.ofNat (n / 16777216)) (.ofNat (n / 65536)) (.ofNat (n / 256)) (.ofNat n) = n := by
  simp only [ofBe32, UInt8.toNat_ofNat']
  omega

/-- An unsigned integer converted to `int32_t`. -/
def toInt32 (n : Nat) : Int :=
  if n % 4294967296 < 2147483648 then ((n % 4294967296 : Nat) : Int)
  else ((n % 4294967296 : Nat) : Int) - 4294967296

theorem toInt32_eq {n : Nat} (h : n < 2147483648) : toInt32 n = n := by
  rw [toInt32, Nat.mod_eq_of_lt (by omega), if_pos h]

/-! ## §4 Pointers -/

/-- A pointer into some memory. -/
structure Ptr where
  /-- The bytes of the memory. -/
  mem : List UInt8
  /-- The byte pointed to. -/
  off : Nat

namespace Ptr

/-- The bytes from the pointer on. -/
def rest (p : Ptr) : List UInt8 := p.mem.drop p.off

/-- `p + n`. -/
def add (p : Ptr) (n : Nat) : Ptr := { p with off := p.off + n }

/-- `*p`. -/
def get (p : Ptr) : Res UInt8 :=
  match p.mem[p.off]? with
  | some c => .ok c
  | none => .error .overrun

/-- `p[-n]`. -/
def before (p : Ptr) (n : Nat) : Res UInt8 :=
  if n ≤ p.off then get { p with off := p.off - n } else .error .overrun

/-- The string at the pointer, which ends in front of the next NUL. -/
def str (p : Ptr) : Res Str :=
  if 0 ∈ p.rest then .ok (cstr p.rest) else .error .overrun

/-- `strchr(p, '\0') + 1`: the place behind the string at the pointer. -/
def skipStr (p : Ptr) : Res Ptr := do
  let s ← p.str
  return p.add (s.length + 1)

/-- The loop `for (cp = p; *cp != '\0'; cp = strchr(cp, '\0') + 1)`: the strings up to the
    first empty one.  The first argument bounds the number of iterations. -/
def strings : Nat → Ptr → Res (List Str)
  | 0, _ => .error .fuel
  | n + 1, p => do
    let c ← p.get
    if c = 0 then return []
    let s ← p.str
    let p ← p.skipStr
    let ss ← strings n p
    return s :: ss

/-- The unsigned big-endian integer at the pointer, in the byte order of the host. -/
def uint32 (p : Ptr) : Res Nat := do
  let a ← p.get
  let b ← (p.add 1).get
  let c ← (p.add 2).get
  let d ← (p.add 3).get
  return ofBe32 a b c d

/-! ### What is read, by the bytes at the pointer -/

@[simp] theorem rest_add (p : Ptr) (n : Nat) : (p.add n).rest = p.rest.drop n := by
  simp [rest, add]

@[simp] theorem add_zero (p : Ptr) : p.add 0 = p := rfl

theorem get_of_rest {p : Ptr} {c : UInt8} {r : List UInt8} (h : p.rest = c :: r) :
    p.get = .ok c := by
  have hget : p.mem[p.off]? = some c := by
    rw [rest] at h
    rw [← List.head?_drop, h, List.head?_cons]
  rw [get, hget]

theorem str_of_rest {p : Ptr} {s : Str} {r : List UInt8} (hs : NulFree s)
    (h : p.rest = s ++ 0 :: r) : p.str = .ok s := by
  rw [str, h, cstr_append hs, if_pos (by simp)]

theorem skipStr_of_rest {p : Ptr} {s : Str} {r : List UInt8} (hs : NulFree s)
    (h : p.rest = s ++ 0 :: r) : p.skipStr = .ok (p.add (s.length + 1)) := by
  rw [skipStr, str_of_rest hs h]
  rfl

theorem rest_skipStr {p : Ptr} {s : Str} {r : List UInt8} (h : p.rest = s ++ 0 :: r) :
    (p.add (s.length + 1)).rest = r := by
  rw [rest_add, h, ← List.drop_drop, List.drop_left]
  rfl

theorem uint32_of_rest {p : Ptr} {n : Nat} {r : List UInt8} (hn : n < 4294967296)
    (h : p.rest = be32 n ++ r) : p.uint32 = .ok n := by
  have h0 : p.rest = .ofNat (n / 16777216) :: (.ofNat (n / 65536) :: .ofNat (n / 256) ::
      .ofNat n :: r) := h
  have h1 : (p.add 1).rest = .ofNat (n / 65536) :: (.ofNat (n / 256) :: .ofNat n :: r) := by
    rw [rest_add, h0, List.drop_succ_cons, List.drop_zero]
  have h2 : (p.add 2).rest = .ofNat (n / 256) :: (.ofNat n :: r) := by
    rw [rest_add, h0, List.drop_succ_cons, List.drop_succ_cons, List.drop_zero]
  have h3 : (p.add 3).rest = .ofNat n :: r := by
    rw [rest_add, h0, List.drop_succ_cons, List.drop_succ_cons, List.drop_succ_cons,
      List.drop_zero]
  rw [uint32, get_of_rest h0, get_of_rest h1, get_of_rest h2, get_of_rest h3]
  exact congrArg Except.ok (ofBe32_be32 hn)

/-- An integer that lies inside the memory can be read. -/
theorem uint32_isOk {p : Ptr} (h : p.off + 4 ≤ p.mem.length) : ∃ n, p.uint32 = .ok n := by
  have hget : ∀ i < 4, ∃ c, (p.add i).get = .ok c := by
    intro i hi
    have hlt : p.off + i < p.mem.length := by omega
    exact ⟨p.mem[p.off + i], by simp [get, add, hlt]⟩
  obtain ⟨a, ha⟩ := hget 0 (by decide)
  obtain ⟨b, hb⟩ := hget 1 (by decide)
  obtain ⟨c, hc⟩ := hget 2 (by decide)
  obtain ⟨d, hd⟩ := hget 3 (by decide)
  rw [add_zero] at ha
  exact ⟨ofBe32 a b c d, by rw [uint32, ha, hb, hc, hd]; rfl⟩

end Ptr

/-! ## §5 Strings and lists of strings in a file -/

/-- A string in a file ends with a NUL. -/
def strBytes (s : Str) : List UInt8 := s ++ [0]

/-- A list of strings in a file ends with another NUL. -/
def lstBytes (ss : List Str) : List UInt8 := ss.flatMap strBytes ++ [0]

theorem lstBytes_cons (s : Str) (ss : List Str) :
    lstBytes (s :: ss) = strBytes s ++ lstBytes ss := by
  simp [lstBytes]

/-- Every string of a list takes some space. -/
theorem length_le_length_lstBytes (ss : List Str) : ss.length ≤ (lstBytes ss).length := by
  induction ss with
  | nil => exact Nat.zero_le _
  | cons s ss ih =>
    rw [lstBytes_cons, List.length_append, strBytes, List.length_append, List.length_cons,
      List.length_singleton]
    omega

/-- Reading a list of strings: they must not be empty, because an empty string ends the list. -/
theorem Ptr.strings_of_rest {ss : List Str} (hne : ∀ s ∈ ss, s ≠ [])
    (hs : ∀ s ∈ ss, NulFree s) {p : Ptr} {r : List UInt8} (h : p.rest = lstBytes ss ++ r) {n : Nat}
    (hn : ss.length < n) : p.strings n = .ok ss := by
  induction ss generalizing p n with
  | nil =>
    cases n with
    | zero => exact absurd hn (Nat.not_lt_zero _)
    | succ n =>
      have hget : p.get = .ok 0 := Ptr.get_of_rest h
      rw [Ptr.strings, hget]
      rfl
  | cons s ss ih =>
    cases n with
    | zero => exact absurd hn (Nat.not_lt_zero _)
    | succ n =>
      have hrest : p.rest = s ++ 0 :: (lstBytes ss ++ r) := by
        rw [h]
        simp [lstBytes, strBytes]
      have hnul : NulFree s := hs s (List.mem_cons_self ..)
      obtain ⟨c, s', rfl⟩ := List.exists_cons_of_ne_nil (hne s (List.mem_cons_self ..))
      have hc : c ≠ 0 := fun heq => hnul (heq ▸ List.mem_cons_self ..)
      have hnext := ih (fun t ht => hne t (List.mem_cons_of_mem _ ht))
        (fun t ht => hs t (List.mem_cons_of_mem _ ht)) (Ptr.rest_skipStr hrest)
        (Nat.lt_of_succ_lt_succ hn)
      rw [Ptr.strings, Ptr.get_of_rest hrest, Ptr.str_of_rest hnul hrest,
        Ptr.skipStr_of_rest hnul hrest]
      simp only [Res.ok_bind, if_neg hc, hnext]
      rfl

end Mandoc
