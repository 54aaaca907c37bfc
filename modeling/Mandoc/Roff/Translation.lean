import Mandoc.Roff.EscapeBounds
import Mandoc.Roff.Words

/-!
# Text without Translations

When no key of the tables set up by `.tr` and `.char` occurs in a text, the text ought to
pass through `roff_strdup()` unchanged. The main result, `roffStrdup_eq_self_iff`, says when
that is the case: the function leaves its loop at the first escape sequence that
`mandoc_escape()` rejects, and drops that sequence and all text following it.
-/

namespace Mandoc

variable {X : Type}

/-! ## §1 Texts -/

/-- No translation key matches a byte outside of the escape sequences of the text, or one of
    these sequences. What follows a sequence that is not accepted does not matter. -/
inductive Untranslated (r : Roff X) : CStr → Prop where
  | nil : Untranslated r []
  | byte {c : Char} {p : CStr} (hc : c ≠ '\\') (hkey : r.xtab.bind (· c) = none)
      (hp : Untranslated r p) : Untranslated r (c :: p)
  | escape {p : CStr} {s : EscResult} (hkey : ∀ kv ∈ r.xmbtab, ¬ kv.key <+: '\\' :: p)
      (hesc : mandocEscape ('\\' :: p) 0 = .ok s) (hok : s.rval ≠ .ERROR)
      (hp : Untranslated r (('\\' :: p).drop s.rend)) : Untranslated r ('\\' :: p)
  | bad {p : CStr} (hkey : ∀ kv ∈ r.xmbtab, ¬ kv.key <+: '\\' :: p)
      (hbad : ∀ s, mandocEscape ('\\' :: p) 0 = .ok s → s.rval = .ERROR) :
      Untranslated r ('\\' :: p)

/-- The text consists of ASCII characters and of escape sequences that `mandoc_escape()`
    accepts. -/
inductive GoodText : CStr → Prop where
  | nil : GoodText []
  | byte {c : Char} {p : CStr} (hc : c ≠ '\\') (hascii : c.toNat < 128) (hp : GoodText p) :
      GoodText (c :: p)
  | escape {p : CStr} {s : EscResult} (hesc : mandocEscape ('\\' :: p) 0 = .ok s)
      (hok : s.rval ≠ .ERROR) (hend : s.rend ≤ ('\\' :: p).length)
      (hp : GoodText (('\\' :: p).drop s.rend)) : GoodText ('\\' :: p)

theorem goodText_byte_iff {c : Char} {p : CStr} (hc : c ≠ '\\') :
    GoodText (c :: p) ↔ c.toNat < 128 ∧ GoodText p := by
  constructor
  · intro h
    cases h with
    | byte _ hascii hp => exact ⟨hascii, hp⟩
    | escape => exact absurd rfl hc
  · exact fun h => .byte hc h.1 h.2

theorem goodText_escape_iff {p : CStr} {s : EscResult}
    (hesc : mandocEscape ('\\' :: p) 0 = .ok s) (hok : s.rval ≠ .ERROR) :
    GoodText ('\\' :: p) ↔
      s.rend ≤ ('\\' :: p).length ∧ GoodText (('\\' :: p).drop s.rend) := by
  constructor
  · intro h
    cases h with
    | byte hc => exact absurd rfl hc
    | escape hesc' _ hend hp =>
      cases hesc.symm.trans hesc'
      exact ⟨hend, hp⟩
  · exact fun h => .escape hesc hok h.1 h.2

theorem not_goodText_bad {p : CStr}
    (hbad : ∀ s, mandocEscape ('\\' :: p) 0 = .ok s → s.rval = .ERROR) :
    ¬ GoodText ('\\' :: p) := by
  intro h
  cases h with
  | byte hc => exact absurd rfl hc
  | escape hesc hok => exact hok (hbad _ hesc)

/-! ## §2 The loop -/

/-- An escape sequence is not empty. -/
theorem mandocEscape_rend_pos {p : CStr} {s : EscResult} (hs : NUL ∉ '\\' :: p)
    (hesc : mandocEscape ('\\' :: p) 0 = .ok s) : 0 < s.rend := by
  obtain ⟨res, hres, hret⟩ := Res.bind_eq_ok.mp hesc
  have hbounded : Bounded ('\\' :: p) 0 res :=
    escapeRec_bounded hs (charAt_ne_nul hs (by simp)) hres
  have hlt := hbounded.resc_lt
  split at hret
  · exact absurd hret (by simp)
  · cases hret
    exact Nat.zero_lt_of_lt hlt

section

variable {r : Roff X}

/-- A byte that is not translated is copied if it is an ASCII character. -/
theorem strdupLoop_byte {steps : Nat} {c : Char} {p : CStr} (hc : c ≠ '\\')
    (hkey : r.xtab.bind (· c) = none) :
    strdupLoop r (steps + 1) (c :: p) = .ok (c :: p) ↔
      c.toNat < 128 ∧ strdupLoop r steps p = .ok p := by
  rw [strdupLoop]
  by_cases hascii : 128 ≤ c.toNat
  · simp [hascii]
  · rw [if_neg hascii, if_pos hc, hkey]
    cases h : strdupLoop r steps p with
    | error e => simp
    | ok res =>
      simp only [Option.getD_none, List.singleton_append, Res.ok_bind, Res.pure_eq_ok,
        Except.ok.injEq, List.cons.injEq, true_and]
      exact (and_iff_right (Nat.lt_of_not_le hascii)).symm

theorem find_xmbtab {p : CStr} (hkey : ∀ kv ∈ r.xmbtab, ¬ kv.key <+: p) :
    r.xmbtab.find? (fun cp => cp.key.isPrefixOf p) = none := by
  rw [List.find?_eq_none]
  intro kv hkv
  simpa using hkey kv hkv

/-- An escape sequence that is not translated is copied as a whole. -/
theorem strdupLoop_escape {steps : Nat} {p : CStr} {s : EscResult}
    (hkey : ∀ kv ∈ r.xmbtab, ¬ kv.key <+: '\\' :: p)
    (hesc : mandocEscape ('\\' :: p) 0 = .ok s) (hok : s.rval ≠ .ERROR) :
    strdupLoop r (steps + 1) ('\\' :: p) = .ok ('\\' :: p) ↔
      s.rend ≤ ('\\' :: p).length ∧
        strdupLoop r steps (('\\' :: p).drop s.rend) = .ok (('\\' :: p).drop s.rend) := by
  rw [strdupLoop, if_neg (by decide), if_neg (by simp), find_xmbtab hkey]
  dsimp only
  rw [hesc, Res.ok_bind, if_neg hok]
  by_cases hend : s.rend ≤ ('\\' :: p).length
  · rw [rd_of_le hend, Res.ok_bind]
    cases h : strdupLoop r steps (('\\' :: p).drop s.rend) with
    | error e => simp
    | ok res =>
      have hcancel : ('\\' :: p).take s.rend ++ res = '\\' :: p ↔
          res = ('\\' :: p).drop s.rend := by
        constructor
        · intro h
          exact List.append_cancel_left (h.trans (List.take_append_drop s.rend _).symm)
        · intro h
          rw [h, List.take_append_drop]
      rw [and_iff_right hend]
      simpa using hcancel
  · rw [rd_of_gt (Nat.lt_of_not_le hend)]
    exact iff_of_false (by simp) fun h => hend h.1

/-- At an escape sequence that is not accepted, the rest of the text is lost. -/
theorem strdupLoop_bad {steps : Nat} {p : CStr}
    (hkey : ∀ kv ∈ r.xmbtab, ¬ kv.key <+: '\\' :: p)
    (hbad : ∀ s, mandocEscape ('\\' :: p) 0 = .ok s → s.rval = .ERROR) :
    strdupLoop r (steps + 1) ('\\' :: p) ≠ .ok ('\\' :: p) := by
  rw [strdupLoop, if_neg (by decide), if_neg (by simp), find_xmbtab hkey]
  dsimp only
  cases hesc : mandocEscape ('\\' :: p) 0 with
  | error e => simp
  | ok s => simp [hbad s hesc]

/-- By induction along the text: each iteration copies a byte or an escape sequence. -/
theorem strdupLoop_eq_self_iff {p : CStr} (h : Untranslated r p) (hs : NUL ∉ p) {steps : Nat}
    (hsteps : p.length < steps) : strdupLoop r steps p = .ok p ↔ GoodText p := by
  induction h generalizing steps with
  | nil =>
    cases steps with
    | zero => exact absurd hsteps (by simp)
    | succ steps => exact iff_of_true rfl .nil
  | @byte c p hc hkey hp ih =>
    cases steps with
    | zero => exact absurd hsteps (by simp)
    | succ steps =>
      have hs' : NUL ∉ p := fun hm => hs (List.mem_cons_of_mem _ hm)
      rw [strdupLoop_byte hc hkey, goodText_byte_iff hc, ih hs' (Nat.lt_of_succ_lt_succ hsteps)]
  | @escape p s hkey hesc hok hp ih =>
    cases steps with
    | zero => exact absurd hsteps (by simp)
    | succ steps =>
      have hs' : NUL ∉ ('\\' :: p).drop s.rend := fun hm => hs (List.mem_of_mem_drop hm)
      have hpos := mandocEscape_rend_pos hs hesc
      rw [strdupLoop_escape hkey hesc hok, goodText_escape_iff hesc hok, ih hs']
      rw [List.length_drop]
      rw [List.length_cons] at hsteps ⊢
      omega
  | @bad p hkey hbad =>
    cases steps with
    | zero => exact absurd hsteps (by simp)
    | succ steps => exact iff_of_false (strdupLoop_bad hkey hbad) (not_goodText_bad hbad)

/-- **Text without translations.** `roff_strdup()` returns a text to which no translation
    applies unchanged if and only if there are no translations at all, or the text consists
    of ASCII characters and of escape sequences that `mandoc_escape()` accepts. -/
theorem roffStrdup_eq_self_iff {p : CStr} (h : Untranslated r p) (hs : NUL ∉ p) :
    roffStrdup r p = .ok p ↔ r.xmbtab = [] ∧ r.xtab.isNone ∨ GoodText p := by
  unfold roffStrdup
  by_cases hempty : r.xmbtab = [] ∧ r.xtab.isNone
  · rw [if_pos hempty]
    exact iff_of_true rfl (.inl hempty)
  · rw [if_neg hempty, strdupLoop_eq_self_iff h hs (Nat.lt_succ_self _), or_iff_right hempty]

end

/-- The state after `.tr ab`. -/
def trAB : Roff Unit :=
  { roffAlloc () with xtab := some fun c => if c = 'a' then some ['b'] else none }

/-- A special character and a letter that is not translated. -/
theorem roffStrdup_special : roffStrdup trAB "\\(emx".toList = .ok "\\(emx".toList :=
  (roffStrdup_eq_self_iff
    (.escape (s := ⟨.SPECIAL, 0, 1, 2, 4, 4⟩) (by simp [trAB, roffAlloc]) (by decide +kernel)
      (by decide) (.byte (by decide) rfl .nil)) (by decide)).mpr
    (.inr (.escape (s := ⟨.SPECIAL, 0, 1, 2, 4, 4⟩) (by decide +kernel) (by decide) (by decide)
      (.byte (by decide) (by decide) .nil)))

/-- From a special character without its closing bracket on, all text is lost. -/
theorem roffStrdup_loses_text : ¬ ∀ (r : Roff Unit) (p : CStr), Untranslated r p → NUL ∉ p →
    roffStrdup r p = .ok p := by
  intro h
  have hbad : roffStrdup trAB "x\\[y".toList = .ok "x".toList := by decide +kernel
  have hbogus : ∀ s, mandocEscape "\\[y".toList 0 = .ok s → s.rval = .ERROR := by
    have hesc : (mandocEscape "\\[y".toList 0).map (·.rval) = .ok .ERROR := by decide +kernel
    intro s hs
    rw [hs] at hesc
    exact Except.ok.inj hesc
  have hself := h trAB "x\\[y".toList
    (.byte (by decide) rfl (.bad (by simp [trAB, roffAlloc]) hbogus)) (by decide)
  exact absurd (hself.symm.trans hbad) (by decide)

end Mandoc
