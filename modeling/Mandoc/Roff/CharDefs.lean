import Mandoc.Roff.EscapeArgs
import Mandoc.Roff.Requests
import Mandoc.Roff.TableSpecs

/-!
# Character Definitions

The request `.char` defines a replacement for a character or for a special character. The
definitions are kept in the tables of `.tr`: those for single bytes in an array, to which
`roff_char()` prints them, and all others in a list, to which `roff_setstrn()` adds them.

`replaceLoop` is the processing of a text as it ought to be after the request, for both kinds of
keys. `roffChar_replaces_iff` says when `roff_strdup()` does that. In the array, the font is
restored by a form feed and a letter instead of an escape sequence; in the list, each pair of
backslashes is reduced to one.
-/

namespace Mandoc

variable {X : Type}

/-! ## §1 The list of translations -/

section

variable {tab : List Kv} {key t : CStr}

/-- No other key of the table begins like the given one, or is its beginning. -/
def NoClash (tab : List Kv) (key : CStr) : Prop :=
  ∀ kv ∈ tab, kv.key <+: key ∨ key <+: kv.key → kv.key = key

/-- The first entry that matches the text. -/
def findKey (tab : List Kv) (t : CStr) : Option Kv := tab.find? fun cp => cp.key.isPrefixOf t

theorem NoClash.eq_of_prefix (h : NoClash tab key) (hkey : key <+: t) {kv : Kv} (hkv : kv ∈ tab)
    (hkv_le : kv.key <+: t) : kv.key = key :=
  h kv hkv (List.prefix_or_prefix_of_prefix hkv_le hkey)

theorem NoClash.tail {kv : Kv} (h : NoClash (kv :: tab) key) : NoClash tab key :=
  fun kv' hkv' => h kv' (List.mem_cons_of_mem kv hkv')

theorem findKey_cons_of_prefixed {kv : Kv} (h : kv.key <+: t) : findKey (kv :: tab) t = some kv :=
  List.find?_cons_of_pos (List.isPrefixOf_iff_prefix.mpr h)

theorem findKey_cons_of_not_prefixed {kv : Kv} (h : ¬ kv.key <+: t) :
    findKey (kv :: tab) t = findKey tab t :=
  List.find?_cons_of_neg fun hp => h (List.isPrefixOf_iff_prefix.mp hp)

/-- Changing the entry of a key that does not match has no effect. -/
theorem findKey_change_of_not_prefixed (hkey : ¬ key <+: t) (val : Option CStr) (append : Nat) :
    findKey (roffSetstrn.change tab key val append) t = findKey tab t := by
  induction tab with
  | nil => rfl
  | cons n tab ih =>
    rw [roffSetstrn.change]
    split
    case isTrue heq =>
      rw [findKey_cons_of_not_prefixed (heq ▸ hkey), findKey_cons_of_not_prefixed (heq ▸ hkey)]
    case isFalse =>
      by_cases hn : n.key <+: t
      · rw [findKey_cons_of_prefixed hn, findKey_cons_of_prefixed hn]
      · rw [findKey_cons_of_not_prefixed hn, findKey_cons_of_not_prefixed hn, ih]

theorem findKey_roffSetstrn_of_not_prefixed (hkey : ¬ key <+: t) (val : Option CStr)
    (append : Nat) : findKey (roffSetstrn tab key val append) t = findKey tab t := by
  unfold roffSetstrn
  split
  · exact findKey_change_of_not_prefixed hkey val append
  · exact findKey_cons_of_not_prefixed hkey

/-- An entry that exists is changed, and found whatever is in front of it. -/
theorem findKey_change_of_prefixed (hclash : NoClash tab key) (hkey : key <+: t)
    (hmem : tab.any (·.key = key) = true) (val : Option CStr) (append : Nat) :
    findKey (roffSetstrn.change tab key val append) t =
      some ⟨key, setVal val append ((findKey tab t).bind (·.val))⟩ := by
  induction tab with
  | nil => simp at hmem
  | cons n tab ih =>
    rw [roffSetstrn.change]
    split
    case isTrue heq =>
      rw [findKey_cons_of_prefixed (heq ▸ hkey), findKey_cons_of_prefixed (heq ▸ hkey), ← heq]
      rfl
    case isFalse hne =>
      have hnot : ¬ n.key <+: t := fun hn =>
        hne (hclash.eq_of_prefix hkey List.mem_cons_self hn)
      rw [findKey_cons_of_not_prefixed hnot, findKey_cons_of_not_prefixed hnot]
      exact ih hclash.tail (by simpa [hne] using hmem)

/-- What is found where a key occurs, after its entry has been set. -/
theorem findKey_roffSetstrn_of_prefixed (hclash : NoClash tab key) (hkey : key <+: t)
    (val : Option CStr) (append : Nat) :
    findKey (roffSetstrn tab key val append) t =
      some ⟨key, setVal val append ((findKey tab t).bind (·.val))⟩ := by
  unfold roffSetstrn
  split
  case isTrue hmem => exact findKey_change_of_prefixed hclash hkey hmem val append
  case isFalse hmem =>
    have hnone : findKey tab t = none := by
      apply List.find?_eq_none.mpr
      intro kv hkv hp
      have heq := hclash.eq_of_prefix hkey hkv (List.isPrefixOf_iff_prefix.mp hp)
      exact hmem (List.any_eq_true.mpr ⟨kv, hkv, decide_eq_true heq⟩)
    rw [findKey_cons_of_prefixed hkey, hnone]
    rfl

/-- The keys of the table are those from before, and the one whose entry has been set. -/
theorem mem_roffSetstrn {kv : Kv} {val : Option CStr} {append : Nat}
    (h : kv ∈ roffSetstrn tab key val append) : kv.key = key ∨ ∃ kv' ∈ tab, kv'.key = kv.key := by
  have hchange : ∀ tab : List Kv, kv ∈ roffSetstrn.change tab key val append →
      kv.key = key ∨ ∃ kv' ∈ tab, kv'.key = kv.key := by
    intro tab
    induction tab with
    | nil => exact fun h => absurd h List.not_mem_nil
    | cons n tab ih =>
      rw [roffSetstrn.change]
      split
      case isTrue heq =>
        intro h
        obtain rfl | h := List.mem_cons.mp h
        · exact .inl heq
        · exact .inr ⟨kv, List.mem_cons_of_mem _ h, rfl⟩
      case isFalse =>
        intro h
        obtain rfl | h := List.mem_cons.mp h
        · exact .inr ⟨kv, List.mem_cons_self, rfl⟩
        · obtain hkey | ⟨kv', hkv', heq⟩ := ih h
          · exact .inl hkey
          · exact .inr ⟨kv', List.mem_cons_of_mem _ hkv', heq⟩
  unfold roffSetstrn at h
  split at h
  · exact hchange tab h
  · obtain rfl | h := List.mem_cons.mp h
    · exact .inl rfl
    · exact .inr ⟨kv, h, rfl⟩

theorem NoClash.roffSetstrn (h : NoClash tab key) (val : Option CStr) (append : Nat) :
    NoClash (roffSetstrn tab key val append) key := by
  intro kv hkv hkv_le
  obtain heq | ⟨kv', hkv', heq⟩ := mem_roffSetstrn hkv
  · exact heq
  · rw [← heq] at hkv_le ⊢
    exact h kv' hkv' hkv_le

end

/-! ## §2 The replacement -/

/-- The processing of a text after the definition of a character: wherever the key occurs, the
    replacement is put in its place, and everything else is handled as before. -/
def replaceLoop (r : Roff X) (key repl : CStr) : Nat → CStr → Res CStr
  | 0, _ => .error .fuel
  | _ + 1, [] => .ok []
  | steps + 1, c :: p =>
    if 128 ≤ c.toNat then .error .abort
    else if key <+: c :: p then do
      return repl ++ (← replaceLoop r key repl steps ((c :: p).drop key.length))
    else if c ≠ '\\' then do
      return (r.xtab.bind (· c)).getD [c] ++ (← replaceLoop r key repl steps p)
    else
      match findKey r.xmbtab (c :: p) with
      | some cp => do
        return cp.val.getD [] ++ (← replaceLoop r key repl steps ((c :: p).drop cp.key.length))
      | none => do
        let s ← mandocEscape (c :: p) 0
        if s.rval = .ERROR then return []
        else do
          let _ ← rd (c :: p) s.rend
          return (c :: p).take s.rend ++ (← replaceLoop r key repl steps ((c :: p).drop s.rend))

/-- The text with the replacements made. -/
def replaced (r : Roff X) (key repl p : CStr) : Res CStr :=
  replaceLoop r key repl (p.length + 1) p

section

variable {r : Roff X} {key repl stored : CStr}

/-- With a single byte in the array, texts are processed with what is stored there. -/
theorem strdupLoop_setXtab {c : Char} (hc : c ≠ '\\') (steps : Nat) (p : CStr) :
    strdupLoop { r with xtab := setXtab r.xtab c stored } steps p =
      replaceLoop r [c] stored steps p := by
  induction steps generalizing p with
  | zero => cases p <;> rfl
  | succ steps ih =>
    cases p with
    | nil => rfl
    | cons d p =>
      rw [strdupLoop, replaceLoop]
      split
      case isTrue => rfl
      case isFalse =>
      -- The character that is replaced has the new entry; the others keep theirs.
      by_cases hd : c = d
      · subst hd
        rw [if_pos hc, if_pos (by simp)]
        have hself : (setXtab r.xtab c stored).bind (· c) = some stored := by
          rw [setXtab, Option.bind_some, Function.update_self]
        rw [hself, ih]
        rfl
      · rw [if_neg (c := [c] <+: d :: p) (by simpa using hd)]
        by_cases hbs : d = '\\'
        · rw [if_neg (not_not.mpr hbs), if_neg (not_not.mpr hbs)]
          simp only [ih]
          rfl
        · rw [if_pos hbs, if_pos hbs, ih]
          have hother : (setXtab r.xtab c stored).bind (· d) = r.xtab.bind (· d) := by
            unfold setXtab
            rw [Option.bind_some, Function.update_of_ne (Ne.symm hd)]
            cases r.xtab <;> rfl
          rw [hother]

/-- With another key in the list, texts are processed with what is found there. -/
theorem strdupLoop_xmbtab {tab : List Kv} (hkey : key.head? = some '\\')
    (hpos : ∀ t, key <+: t → findKey tab t = some ⟨key, some stored⟩)
    (hneg : ∀ t, ¬ key <+: t → findKey tab t = findKey r.xmbtab t) (steps : Nat) (p : CStr) :
    strdupLoop { r with xmbtab := tab } steps p = replaceLoop r key stored steps p := by
  induction steps generalizing p with
  | zero => cases p <;> rfl
  | succ steps ih =>
    cases p with
    | nil => rfl
    | cons d p =>
      rw [strdupLoop, replaceLoop]
      split
      case isTrue => rfl
      case isFalse =>
      -- Only behind a backslash, the list is searched.
      by_cases hbs : d = '\\'
      · rw [if_neg (c := d ≠ '\\') (not_not.mpr hbs), if_neg (c := d ≠ '\\') (not_not.mpr hbs)]
        change (match findKey tab (d :: p) with | some cp => _ | none => _) = _
        by_cases hp : key <+: d :: p
        · rw [if_pos hp, hpos _ hp]
          simp only [ih]
          rfl
        · rw [if_neg hp, hneg _ hp]
          simp only [ih]
      · -- All keys in the list begin with a backslash.
        have hp : ¬ key <+: d :: p := by
          rintro ⟨t, ht⟩
          cases key with
          | nil => simp at hkey
          | cons k key =>
            rw [List.head?_cons, Option.some.injEq] at hkey
            exact hbs ((List.head_eq_of_cons_eq ht).symm.trans hkey)
        rw [if_pos hbs, if_neg hp, if_pos hbs, ih]

/-- The first occurrence of the key in the key itself. -/
theorem replaced_key (hkey : key.head?.any (·.toNat < 128) = true) :
    replaced r key repl key = .ok repl := by
  cases key with
  | nil => simp at hkey
  | cons c key =>
    have hascii : ¬ 128 ≤ c.toNat := by simpa using hkey
    rw [replaced, List.length_cons, replaceLoop, if_neg hascii, if_pos (List.prefix_refl _),
      List.drop_length, replaceLoop]
    simp

/-- Texts are processed in the same way only if the replacements are the same. -/
theorem replaced_eq_iff {repl' : CStr} (hkey : key.head?.any (·.toNat < 128) = true) :
    (∀ p, replaced r key repl p = replaced r key repl' p) ↔ repl = repl' := by
  constructor
  · intro h
    have hp := h key
    rw [replaced_key hkey, replaced_key hkey] at hp
    exact Except.ok.inj hp
  · rintro rfl p
    rfl

end

/-! ## §3 The request -/

section

variable {sub : Nat → Res EscResult} {buf : CStr} {aesc inam start iarg : Nat} {name : Char}
  {rval : Esc}

/-- What the first part of the function says about a special character. -/
def Stage.Named (aesc : Nat) : Stage → Prop
  | .out r => r.rval = .SPECIAL → aesc + 1 < r.rend
  | .scan _ => True

theorem sizeArg_named (aesc inam : Nat) : Ensures (sizeArg buf aesc inam) (Stage.Named aesc) := by
  unfold sizeArg
  refine Ensures.call fun _ => Ensures.call fun f => Ensures.call fun _ =>
    Ensures.ite (fun _ => Ensures.pure_iff.mpr ?_) fun _ => Ensures.pure_iff.mpr trivial
  exact fun h => absurd h (by simp)

theorem standardForm_named : Ensures (standardForm buf aesc inam start rval)
    (Stage.Named aesc) := by
  unfold standardForm
  refine Ensures.call fun _ => Ensures.call fun _ => Ensures.call fun _ =>
    Ensures.ite (fun _ => Ensures.pure_iff.mpr trivial) fun _ =>
      Ensures.ite (fun _ => Ensures.call fun _ => Ensures.ite (fun _ => Ensures.pure_iff.mpr ?_)
        fun _ => Ensures.pure_iff.mpr trivial) fun _ => Ensures.pure_iff.mpr trivial
  exact fun h => absurd h (by simp)

theorem standardArg_named : Ensures (standardArg sub buf aesc inam start rval)
    (Stage.Named aesc) := by
  unfold standardArg
  refine Ensures.call fun _ => Ensures.call fun _ => Ensures.ite (fun _ => Ensures.call fun s =>
    Ensures.ite (fun _ => Ensures.pure_iff.mpr ?_) fun _ => standardForm_named)
      fun _ => standardForm_named
  exact fun h => absurd h (by simp [outSub])

theorem plainDelim_named (haesc : aesc < iarg) : Ensures (plainDelim buf aesc inam iarg name rval)
    (Stage.Named aesc) := by
  unfold plainDelim
  refine Ensures.call fun _ => Ensures.ite (fun _ => Ensures.ite (fun _ => Ensures.pure_iff.mpr
    trivial) fun _ => Ensures.pure_iff.mpr ?_) fun _ => Ensures.pure_iff.mpr trivial
  exact fun _ => Nat.succ_lt_succ haesc

theorem quotedArg_named (hsub : SubBounded sub buf aesc) (haesc : aesc < inam) :
    Ensures (quotedArg sub buf aesc inam rval) (Stage.Named aesc) := by
  unfold quotedArg
  refine Ensures.call fun _ => Ensures.call fun _ => Ensures.call_eq fun c hc =>
    Ensures.ite (fun _ => Ensures.pure_iff.mpr fun _ => Nat.succ_lt_succ haesc) fun hnul =>
      Ensures.ite (fun _ => Ensures.call_eq fun s hs => ?_) fun _ =>
        plainDelim_named (Nat.lt_succ_of_lt haesc)
  obtain ⟨-, rfl⟩ := rd_eq_ok.mp hc
  have hb := hsub (inam + 1) s (Nat.lt_succ_of_lt haesc) (lt_length_of_charAt_ne_nul hnul) hs
  refine Ensures.ite (fun _ => Ensures.pure_iff.mpr ?_) fun _ =>
    Ensures.ite (fun _ => plainDelim_named (Nat.lt_succ_of_lt (Nat.lt_succ_of_lt haesc))) fun _ =>
      Ensures.call fun _ => Ensures.ite (fun _ => Ensures.pure_iff.mpr ?_) fun _ =>
        Ensures.pure_iff.mpr trivial
  · exact fun h => absurd h (by simp [outSub])
  · exact fun _ => lt_of_lt_of_le (Nat.succ_lt_succ haesc) (hb.resc_ge.trans hb.resc_lt.le)

theorem escapeStart_named (hsub : SubBounded sub buf aesc) :
    Ensures (escapeStart sub buf aesc) (Stage.Named aesc) := by
  have hgt := nameIndex_gt buf aesc
  have hend : aesc + 1 < nameIndex buf aesc + 1 := Nat.succ_lt_succ hgt
  unfold escapeStart
  refine Ensures.call fun c => ?_
  split
  · exact Ensures.pure_iff.mpr fun _ => hend
  · exact Ensures.pure_iff.mpr fun h => absurd h (by simp)
  · exact Ensures.pure_iff.mpr fun _ => hend
  · exact Ensures.pure_iff.mpr fun _ => hend
  · exact standardArg_named
  · exact standardArg_named
  · exact quotedArg_named hsub hgt
  · exact sizeArg_named aesc _

/-- The scan of the argument of a special character finds something. -/
theorem argLoop_named {a : ArgStart} (hsub : SubBounded sub buf aesc) {steps : Nat}
    {maxl : Option Nat} {i iend : Nat} {validA : Bool} {e : ArgEnd} (hgt : aesc < i)
    (hge : a.iarg ≤ i) (hend : a.iarg < iend ∨ maxl ≠ some 0)
    (h : argLoop sub buf aesc name a steps maxl i iend validA = .ok e) :
    ∀ i' iend' validA', e = .done .SPECIAL i' iend' validA' → a.iarg < iend' := by
  induction steps generalizing maxl i iend validA with
  | zero => simp [argLoop] at h
  | succ steps ih =>
    simp only [argLoop] at h
    split at h
    · next hzero =>
      cases h
      intro _ _ _ heq
      rw [← (ArgEnd.done.inj heq).2.2.1]
      exact hend.resolve_right (not_not.mpr hzero)
    simp only [Res.bind_eq_ok, rd_eq_ok, Res.pure_eq_ok] at h
    obtain ⟨ec, ⟨-, rfl⟩, c, ⟨-, rfl⟩, h⟩ := h
    split at h
    · cases h
      -- An argument that is missing is in error.
      intro _ _ _ heq
      rw [ArgEnd.done.injEq] at heq
      obtain ⟨hval, -⟩ := heq
      split at hval
      · exact absurd hval (by simp)
      · next hne =>
        rw [hval] at hne
        exact absurd hne (by simp)
    rename_i hnul
    split at h
    · cases h
      intro _ _ _ heq
      rw [← (ArgEnd.done.inj heq).2.2.1]
      exact Nat.lt_succ_of_le hge
    split at h
    · obtain ⟨s, hs, h⟩ := Res.bind_eq_ok.mp h
      obtain ⟨sname, -, h⟩ := Res.bind_eq_ok.mp h
      have hbound := hsub i s hgt (lt_length_of_charAt_ne_nul hnul) hs
      have hrend : i < s.rend := lt_of_le_of_lt hbound.resc_ge hbound.resc_lt
      split at h
      · cases h
        rintro _ _ _ ⟨⟩
      split at h
      · cases h
        intro _ _ _ heq
        rw [← (ArgEnd.done.inj heq).2.2.1]
        exact lt_of_le_of_lt hge hrend
      · exact ih (hgt.trans hrend) (hge.trans hrend.le) (.inl (lt_of_le_of_lt hge hrend)) h
    split at h
    · cases h
      intro _ _ _ heq
      rw [← (ArgEnd.done.inj heq).2.2.1]
      exact Nat.lt_succ_of_le hge
    · exact ih (Nat.lt_succ_of_lt hgt) (Nat.le_succ_of_le hge) (.inl (Nat.lt_succ_of_le hge)) h

theorem mandocFont_ne_special (arg : CStr) : mandocFont arg ≠ .SPECIAL := by
  unfold mandocFont
  split <;> decide

/-- Only special characters become special characters. -/
theorem postProcess_special {nullResc : Bool} {a : ArgStart} {iendarg iend : Nat} {validA : Bool}
    (h : (postProcess buf nullResc aesc inam name a rval iendarg iend validA).rval = .SPECIAL) :
    rval = .SPECIAL := by
  have houtput := (@outputArg_ordinary buf a.iarg (iendarg - a.iarg)).2.2
  unfold postProcess at h
  dsimp only at h
  split at h
  · exact absurd h (mandocFont_ne_special _)
  · next heq =>
    split at heq
    · exact absurd heq (by simp)
    split at heq
    · exact absurd heq houtput
    · exact heq
  · next hne => exact absurd h hne

end

/-- A special character consists of at least two bytes. -/
theorem mandocEscape_special {buf : CStr} {i : Nat} {s : EscResult} (hs : NUL ∉ buf)
    (hesc : charAt buf i ≠ NUL) (h : mandocEscape buf i = .ok s) (hval : s.rval = .SPECIAL) :
    i + 1 < s.rend := by
  have hsub := roffEscape_subBounded hs i
  obtain ⟨res, hres, h⟩ := Res.bind_eq_ok.mp h
  split at h
  · cases h
  cases h
  rw [roffEscapeNull_eq hs hesc] at hres
  obtain ⟨st, hst, hres⟩ := Res.bind_eq_ok.mp hres
  have hnamed := (escapeStart_named hsub).of_eq_ok hst
  cases st with
  | out r =>
    cases hres
    exact hnamed hval
  | scan a =>
    obtain ⟨c, -, hres⟩ := Res.bind_eq_ok.mp hres
    obtain ⟨e, he, hres⟩ := Res.bind_eq_ok.mp hres
    have hgt := (escapeStart_bounded hsub hesc hst).iarg_gt
    have hmaxl := ((escapeStart_argInside hsub).of_eq_ok hst).maxl
    cases e with
    | sub s' => cases hres; exact absurd hval (by simp [outSub])
    | done rval iendarg iend validA =>
      cases hres
      cases postProcess_special hval
      rw [(postProcess_indices ..).2.2]
      exact lt_of_le_of_lt hgt (argLoop_named hsub hgt le_rfl (.inr hmaxl) he _ _ _ rfl)

/-- The sequence that restores the font. -/
def fontReset (font : Bool) : CStr := if font then "\\fP".toList else []

/-- The key is a byte other than the escape character, or a special character, and it is not
    empty in either case. -/
theorem charEnd_key {buf : CStr} {pos e : Nat} (hs : NUL ∉ buf)
    (h : charEnd buf pos = .ok (some e)) :
    ∃ c key, slice buf pos e = c :: key ∧ (key = [] ↔ c ≠ '\\') := by
  obtain ⟨c, hc, h⟩ := Res.bind_eq_ok.mp h
  obtain ⟨hle, rfl⟩ := rd_eq_ok.mp hc
  split at h
  · cases h
  next hnul =>
  have hlt := lt_length_of_charAt_ne_nul hnul
  obtain ⟨p, hp, h⟩ := Res.bind_eq_ok.mp h
  cases p with
  | none => cases h
  | some p =>
    obtain ⟨d, hd, h⟩ := Res.bind_eq_ok.mp h
    obtain ⟨hple, -⟩ := rd_eq_ok.mp hd
    have hpe : p = e := by
      split at h
      · exact Option.some.inj (Except.ok.inj h)
      · cases h
    subst hpe
    have hslice : ∀ q, pos < q → slice buf pos q = charAt buf pos :: slice buf (pos + 1) q := by
      intro q hq
      rw [slice_append buf (Nat.le_succ pos) hq, slice_succ hlt]
      rfl
    unfold charItem at hp
    split at hp
    case isTrue hbs =>
      -- A special character has got a name.
      obtain ⟨s, hesc, hp⟩ := Res.bind_eq_ok.mp hp
      split at hp
      case isTrue hval =>
        cases hp
        have hrend := mandocEscape_special hs hnul hesc hval
        refine ⟨_, _, hslice _ (Nat.lt_of_succ_lt hrend), iff_of_false (fun hnil => ?_) ?_⟩
        · have hlen := congrArg List.length hnil
          rw [slice, List.length_take, List.length_drop, List.length_nil] at hlen
          omega
        · exact not_not.mpr hbs
      case isFalse => cases hp
    case isFalse hbs =>
      cases hp
      refine ⟨_, _, hslice _ (Nat.lt_succ_self _), iff_of_true ?_ hbs⟩
      simp [slice]

/-- The value in the list after the two calls of `roff_setstrn()`. -/
theorem findKey_define {tab : List Kv} {key : CStr} (hclash : NoClash tab key) (val : CStr)
    (font : Bool) (t : CStr) :
    let tab' := roffSetstrn tab key (some val) 0
    let tab' := if font then roffSetstrn tab' key (some "\\fP".toList) 1 else tab'
    (key <+: t → findKey tab' t = some ⟨key, some (copyMode val ++ fontReset font)⟩) ∧
      (¬ key <+: t → findKey tab' t = findKey tab t) := by
  have hcopy : copyMode "\\fP".toList = "\\fP".toList := by decide
  dsimp only
  constructor
  · intro hkey
    have hfirst := findKey_roffSetstrn_of_prefixed hclash hkey (some val) 0
    cases font with
    | false => simpa [setVal, fontReset] using hfirst
    | true =>
      rw [if_pos rfl, findKey_roffSetstrn_of_prefixed (hclash.roffSetstrn _ _) hkey, hfirst]
      simpa [setVal, fontReset] using hcopy
  · intro hkey
    have hfirst := (findKey_roffSetstrn_of_not_prefixed hkey (some val) 0 :
      findKey (roffSetstrn tab _ (some val) 0) _ = _)
    cases font with
    | false => exact hfirst
    | true =>
      rw [if_pos rfl, findKey_roffSetstrn_of_not_prefixed hkey]
      exact hfirst

/-- After `.char`, every occurrence of the key is replaced by the replacement string, followed by
    the escape sequence that restores the font if that string selects one, if and only if the
    replacement string of a single byte does not select a font, or that of a special character
    does not contain a pair of backslashes. -/
theorem roffChar_replaces_iff (a : Args X) {e : Nat} {font : Bool} {out : Out X}
    (hs : NUL ∉ a.buf.buf) (hend : charEnd a.buf.buf a.pos = .ok (some e))
    (hfont : hasFont a.buf.buf (a.buf.buf.length + 2) (skipBlanks a.buf.buf e) = .ok font)
    (hclash : NoClash a.r.xmbtab (slice a.buf.buf a.pos e)) (hout : roffChar a = .ok out) :
    (∀ p, roffStrdup out.r p = replaced a.r (slice a.buf.buf a.pos e)
      (a.buf.buf.drop (skipBlanks a.buf.buf e) ++ fontReset font) p) ↔
      if (slice a.buf.buf a.pos e).length = 1 then font = false
      else ¬ ['\\', '\\'] <:+: a.buf.buf.drop (skipBlanks a.buf.buf e) := by
  obtain ⟨c, key, hkey, hnil⟩ := charEnd_key hs hend
  -- A single character is defined in the table, another one in the list.
  simp only [roffChar, hend, Res.ok_bind, hfont, hkey] at hout
  rw [hkey] at hclash ⊢
  generalize a.buf.buf.drop (skipBlanks a.buf.buf e) = val at hout ⊢
  cases key with
  | nil =>
    have hc := hnil.mp rfl
    dsimp only at hout
    split at hout
    · cases hout
    next hascii =>
    cases hout
    -- The bytes of the table are not scanned for escape sequences, so a font reset is one byte.
    have hrun : ∀ p, roffStrdup { a.r with
        xtab := setXtab a.r.xtab c (val ++ if font then "\x0cP".toList else []) } p =
        replaced a.r [c] (val ++ if font then "\x0cP".toList else []) p := by
      intro p
      rw [roffStrdup, if_neg (by simp [setXtab])]
      exact strdupLoop_setXtab hc _ p
    simp only [Args.out, hrun]
    rw [replaced_eq_iff (by simpa using hascii), List.append_cancel_left_eq,
      if_pos (show [c].length = 1 from rfl)]
    cases font <;> decide
  | cons d key =>
    have hc : c = '\\' := not_not.mp fun hc => absurd (hnil.mpr hc) (by simp)
    cases hout
    -- The definition goes through copy mode, and the font reset is appended.
    have hdefine := findKey_define hclash val font
    have hrun : ∀ p, roffStrdup { a.r with
        xmbtab := if font then
          roffSetstrn (roffSetstrn a.r.xmbtab (c :: d :: key) (some val) 0) (c :: d :: key)
            (some "\\fP".toList) 1
          else roffSetstrn a.r.xmbtab (c :: d :: key) (some val) 0 } p =
        replaced a.r (c :: d :: key) (copyMode val ++ fontReset font) p := by
      intro p
      rw [roffStrdup, if_neg]
      · exact strdupLoop_xmbtab (by rw [hc]; rfl) (fun t => (hdefine t).1)
          (fun t => (hdefine t).2) _ p
      · rintro ⟨hempty, -⟩
        have hfound := (hdefine (c :: d :: key)).1 (List.prefix_refl _)
        simp only at hempty hfound
        rw [hempty] at hfound
        cases hfound
    simp only [Args.out, hrun]
    -- So the text is replaced as is unless copy mode reduces a pair of backslashes.
    rw [replaced_eq_iff (by rw [hc]; simp), List.append_cancel_right_eq, if_neg (by simp)]
    exact copyMode_eq_self_iff

/-- The request `.char` on its own, with the given arguments. -/
def charLine (args : CStr) : Args Unit where
  r := roffAlloc ()
  tok := .ROFF_char
  buf := Buf.ofStr args
  ln := 1
  ppos := 0
  pos := 0
  offs := 0

/-- A replacement without fonts. -/
theorem roffChar_replaces_plain : ∃ out, roffChar (charLine ['x', ' ', 'y']) = .ok out ∧
    ((∀ p, roffStrdup out.r p = replaced (roffAlloc ()) ['x'] (['y'] ++ fontReset false) p) ↔
      if ['x'].length = 1 then false = false else ¬ ['\\', '\\'] <:+: ['y']) :=
  ⟨_, rfl, roffChar_replaces_iff (e := 1) (charLine ['x', ' ', 'y']) (by decide) (by decide +kernel)
    (by decide +kernel) (fun kv hkv => absurd hkv List.not_mem_nil) rfl⟩

/-- After `.char x \fBy`, the replacement of the letter ends in a form feed and the letter `P`. -/
theorem roffChar_not_replaces : ¬ ∀ (a : Args Unit) (e : Nat) (font : Bool) (out : Out Unit),
    NUL ∉ a.buf.buf → charEnd a.buf.buf a.pos = .ok (some e) →
    hasFont a.buf.buf (a.buf.buf.length + 2) (skipBlanks a.buf.buf e) = .ok font →
    NoClash a.r.xmbtab (slice a.buf.buf a.pos e) → roffChar a = .ok out →
    ∀ p, roffStrdup out.r p = replaced a.r (slice a.buf.buf a.pos e)
      (a.buf.buf.drop (skipBlanks a.buf.buf e) ++ fontReset font) p := by
  intro h
  have hrun : ((roffChar (charLine ['x', ' ', '\\', 'f', 'B', 'y'])).bind fun out =>
      roffStrdup out.r ['x']) = .ok ['\\', 'f', 'B', 'y', '\x0c', 'P'] := by decide +kernel
  cases hout : roffChar (charLine ['x', ' ', '\\', 'f', 'B', 'y']) with
  | error f =>
    rw [hout] at hrun
    cases hrun
  | ok out =>
    rw [hout] at hrun
    have hreplaced := h _ 1 true out (by decide) (by decide +kernel) (by decide +kernel)
      (fun kv hkv => absurd hkv List.not_mem_nil) hout ['x']
    have hexpected : replaced (roffAlloc ()) ['x'] ['\\', 'f', 'B', 'y', '\\', 'f', 'P'] ['x'] =
        .ok ['\\', 'f', 'B', 'y', '\\', 'f', 'P'] := by decide +kernel
    exact absurd (hrun.symm.trans (hreplaced.trans hexpected)) (by decide)

end Mandoc
