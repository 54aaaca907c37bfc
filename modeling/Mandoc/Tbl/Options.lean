import Mandoc.Roff.PlainLines
import Mandoc.Tbl.Data

/-!
# The End of the Options Section

The options of a table end with a semicolon. Two functions look for it: `tbl_read()` in order to
decide whether there is an options section at all, and `tbl_option()` while it parses the options.
The former ignores semicolons in parentheses, and the latter those in the arguments of options.

- `semicolonIndex` is the place that `tbl_read()` finds.
- `OptionInv` is the invariant of the loop in `tbl_option()`.
- `optionLoop_spec`: the loop ends without reading beyond the line, at the first semicolon that is
  not in an argument.
- `tblOption_ends_iff` says when that is the semicolon found by `tbl_read()`.
-/

namespace Mandoc

/-! ## §1 The semicolon found by `tbl_read()` -/

/-- Where the loop in `tbl_read()` finds the semicolon. -/
def semicolonIndex : Bool → CStr → Option Nat
  | _, [] => none
  | active, c :: rest =>
    if c = '(' then (semicolonIndex false rest).map (· + 1)
    else if c = ')' then (semicolonIndex true rest).map (· + 1)
    else if c = ';' ∧ active then some 0
    else (semicolonIndex active rest).map (· + 1)

/-- The decision of `tbl_read()`. -/
theorem activeSemicolon_eq (active : Bool) (s : CStr) :
    activeSemicolon active s = (semicolonIndex active s).isSome := by
  induction s generalizing active with
  | nil => rfl
  | cons c rest ih =>
    unfold activeSemicolon semicolonIndex
    split
    · rw [ih, Option.isSome_map]
    split
    · rw [ih, Option.isSome_map]
    split
    · rfl
    · rw [ih, Option.isSome_map]

/-- A semicolon before which all parentheses are closed. -/
structure EndsOptions (p : CStr) (pos s : Nat) : Prop where
  le : pos ≤ s
  semicolon : charAt p s = ';'
  closed : ∀ l, pos ≤ l → l < s → charAt p l = '(' → ∃ c, l < c ∧ c < s ∧ charAt p c = ')'

/-- What `tbl_read()` knows about the semicolon. An opening parenthesis makes the search inactive
    until the next closing one. -/
theorem semicolonIndex_spec {active : Bool} {s : CStr} {k : Nat}
    (h : semicolonIndex active s = some k) :
    charAt s k = ';' ∧
      (active = false → ∃ c, c < k ∧ charAt s c = ')') ∧
      ∀ l, l < k → charAt s l = '(' → ∃ c, l < c ∧ c < k ∧ charAt s c = ')' := by
  -- By induction on the string; an opening parenthesis hides semicolons until the closing one.
  induction s generalizing active k with
  | nil => cases h
  | cons c rest ih =>
    -- What was found in the rest also holds with one more byte in front.
    have hlater : ∀ {active' : Bool}, (semicolonIndex active' rest).map (· + 1) = some k →
        (c = '(' → active' = false) → (active = false → c = ')' ∨ active' = false) →
        charAt (c :: rest) k = ';' ∧
          (active = false → ∃ c', c' < k ∧ charAt (c :: rest) c' = ')') ∧
          ∀ l, l < k → charAt (c :: rest) l = '(' →
            ∃ c', l < c' ∧ c' < k ∧ charAt (c :: rest) c' = ')' := by
      intro active' h hopen hinactive
      obtain ⟨k, hk, rfl⟩ := Option.map_eq_some_iff.mp h
      obtain ⟨hsemi, hclose, hall⟩ := ih hk
      refine ⟨hsemi, fun hact => ?_, fun l hl hpar => ?_⟩
      · obtain rfl | hact' := hinactive hact
        · exact ⟨0, Nat.succ_pos k, rfl⟩
        · obtain ⟨c', hlt, hc'⟩ := hclose hact'
          exact ⟨c' + 1, Nat.succ_lt_succ hlt, hc'⟩
      · cases l with
        | zero =>
          obtain ⟨c', hlt, hc'⟩ := hclose (hopen hpar)
          exact ⟨c' + 1, Nat.succ_pos c', Nat.succ_lt_succ hlt, hc'⟩
        | succ l =>
          obtain ⟨c', hgt, hlt, hc'⟩ := hall l (Nat.lt_of_succ_lt_succ hl) hpar
          exact ⟨c' + 1, Nat.succ_lt_succ hgt, Nat.succ_lt_succ hlt, hc'⟩
    unfold semicolonIndex at h
    split at h
    · next hpar => exact hlater h (fun _ => rfl) fun _ => .inr rfl
    split at h
    · next hne hclose => exact hlater h (fun hpar => absurd hpar hne) fun _ => .inl hclose
    split at h
    · next hsemi =>
      cases h
      exact ⟨hsemi.1, fun hact => absurd (hact ▸ hsemi.2) (by decide),
        fun l hl => absurd hl (Nat.not_lt_zero l)⟩
    · next hne _ _ => exact hlater h (fun hpar => absurd hpar hne) fun hact => .inr hact

/-- The semicolon that `tbl_read()` finds behind a position. -/
theorem endsOptions_of_semicolonIndex {p : CStr} {pos k : Nat}
    (h : semicolonIndex true (p.drop pos) = some k) : EndsOptions p pos (pos + k) := by
  obtain ⟨hsemi, -, hall⟩ := semicolonIndex_spec h
  rw [charAt_drop] at hsemi
  refine ⟨Nat.le_add_right pos k, hsemi, fun l hle hlt hpar => ?_⟩
  obtain ⟨j, rfl⟩ := Nat.exists_eq_add_of_le hle
  rw [← charAt_drop] at hpar
  obtain ⟨c, hgt, hck, hc⟩ := hall j (Nat.lt_of_add_lt_add_left hlt) hpar
  rw [charAt_drop] at hc
  exact ⟨pos + c, Nat.add_lt_add_left hgt pos, Nat.add_lt_add_left hck pos, hc⟩

/-! ## §2 Arguments of options -/

/-- At the index `i`, there is the whole name of an option that has an argument. Only blanks
    separate it from the opening parenthesis at the index `l`. -/
structure OptionArg (p : CStr) (pos i l : Nat) : Prop where
  le : pos ≤ i
  start : i = pos ∨ isalpha (charAt p (i - 1)) = false
  name : ∃ key ∈ argKeys, key.1.toList = (slice p i (skipWhile isalpha p i)).map tolower
  index : l = skipWhile isBlank p (skipWhile isalpha p i)
  paren_at : charAt p l = '('

/-- The index `k` is inside the parentheses that enclose the argument of an option. -/
def InArgument (p : CStr) (pos k : Nat) : Prop :=
  ∃ i l, OptionArg p pos i l ∧ l < k ∧ ∀ c, l < c → c < k → charAt p c ≠ ')'

section

variable {p : CStr} {pos q i j l k s : Nat} {f : Char → Bool}

/-- Skipping stops where the test fails. -/
theorem skipWhile_le_of (hi : i ≤ k) (hk : k ≤ p.length) (hf : f (charAt p k) = false) :
    skipWhile f p i ≤ k := by
  obtain ⟨-, -, hin, -⟩ := skipWhile_spec f (hi.trans hk)
  by_contra hlt
  have htrue := hin k hi (Nat.lt_of_not_le hlt)
  rw [hf] at htrue
  cases htrue

theorem skipWhile_mem (hi : i ≤ p.length) (hij : i ≤ j) (hj : j < skipWhile f p i) :
    f (charAt p j) = true :=
  (skipWhile_spec f hi).2.2.1 j hij hj

theorem skipWhile_stop (hi : i ≤ p.length) (hnul : f NUL = false) :
    f (charAt p (skipWhile f p i)) = false := by
  obtain ⟨-, hle, -, hstop⟩ := skipWhile_spec f hi
  obtain hlt | heq := Nat.lt_or_eq_of_le hle
  · exact hstop hlt
  · rw [heq, charAt_of_ge (Nat.le_refl _), hnul]

theorem argKeys_ne_nil : ∀ key ∈ argKeys, key.1.toList ≠ [] := by
  simp [argKeys]

theorem OptionArg.lt_length (h : OptionArg p pos i l) : l < p.length :=
  lt_length_of_charAt_ne_nul (by rw [h.paren_at]; decide)

/-- The name is not empty, and the parenthesis follows it. -/
theorem OptionArg.lt (h : OptionArg p pos i l) :
    i < skipWhile isalpha p i ∧ skipWhile isalpha p i ≤ l := by
  refine ⟨?_, h.index ▸ le_skipWhile ..⟩
  obtain ⟨key, hmem, hname⟩ := h.name
  refine Nat.lt_of_le_of_ne (le_skipWhile ..) fun heq => argKeys_ne_nil key hmem ?_
  rw [hname, ← heq, slice, Nat.sub_self]
  rfl

theorem OptionArg.isalpha_start (h : OptionArg p pos i l) : isalpha (charAt p i) = true :=
  have hlt := h.lt
  skipWhile_mem (by have := h.lt_length; omega) (Nat.le_refl i) hlt.1

/-- There is no closing parenthesis from the name to the opening parenthesis. -/
theorem OptionArg.no_close (h : OptionArg p pos i l) (hij : i ≤ j) (hj : j ≤ l) :
    charAt p j ≠ ')' := by
  have hlen := h.lt_length
  obtain ⟨hlt, hle⟩ := h.lt
  intro hclose
  by_cases hname : j < skipWhile isalpha p i
  · have halpha := skipWhile_mem (by omega) hij hname
    rw [hclose] at halpha
    exact absurd halpha (by decide)
  obtain hblank | rfl := Nat.lt_or_eq_of_le hj
  · rw [h.index] at hblank
    have htrue := skipWhile_mem (by omega) (Nat.le_of_not_lt hname) hblank
    rw [hclose] at htrue
    exact absurd htrue (by decide)
  · rw [h.paren_at] at hclose
    exact absurd hclose (by decide)

/-! ## §3 The invariant of the loop -/

/-- The parser of the options has proceeded from `pos` to `q`. -/
structure OptionInv (p : CStr) (pos q : Nat) : Prop where
  le : pos ≤ q
  /-- The position is not in the middle of a word. -/
  boundary : q = pos ∨ isalpha (charAt p (q - 1)) = false ∨ isalpha (charAt p q) = false
  /-- All semicolons that it passed are in arguments. -/
  within : ∀ k, pos ≤ k → k < q → charAt p k = ';' → InArgument p pos k
  /-- All arguments that began are closed. -/
  closed : ∀ i l, OptionArg p pos i l → i < q → ∃ c, l < c ∧ c < q ∧ charAt p c = ')'

theorem OptionInv.refl (p : CStr) (pos : Nat) : OptionInv p pos pos where
  le := Nat.le_refl pos
  boundary := .inl rfl
  within _ hle hlt := absurd hlt (Nat.not_lt.mpr hle)
  closed _ _ h hlt := absurd hlt (Nat.not_lt.mpr h.le)

/-- Skip bytes that are neither letters nor semicolons. -/
theorem OptionInv.skip (h : OptionInv p pos q) (hle : q ≤ j)
    (hskip : ∀ k, q ≤ k → k < j → isalpha (charAt p k) = false ∧ charAt p k ≠ ';') :
    OptionInv p pos j where
  le := h.le.trans hle
  boundary := by
    obtain rfl | hlt := Nat.eq_or_lt_of_le hle
    · exact h.boundary
    · exact .inr (.inl (hskip (j - 1) (Nat.le_sub_one_of_lt hlt) (Nat.sub_one_lt_of_lt hlt)).1)
  within k hk hlt hsemi := by
    by_cases hold : k < q
    · exact h.within k hk hold hsemi
    · exact absurd hsemi (hskip k (Nat.le_of_not_lt hold) hlt).2
  closed i l harg hlt := by
    by_cases hold : i < q
    · obtain ⟨c, hgt, hc, hclose⟩ := h.closed i l harg hold
      exact ⟨c, hgt, Nat.lt_of_lt_of_le hc hle, hclose⟩
    · have halpha := harg.isalpha_start
      rw [(hskip i (Nat.le_of_not_lt hold) hlt).1] at halpha
      cases halpha

/-- In a word, only its beginning can be the beginning of a name. -/
theorem OptionArg.eq_of_mem_word (h : OptionArg p pos i l) (hq : pos ≤ q) (hle : q ≤ i)
    (hlt : i < skipWhile isalpha p q) (hlen : q ≤ p.length) : i = q := by
  by_contra hne
  have hgt : q < i := Nat.lt_of_le_of_ne hle (Ne.symm hne)
  obtain heq | hstart := h.start
  · exact absurd heq (Nat.ne_of_gt (Nat.lt_of_le_of_lt hq hgt))
  · have halpha := skipWhile_mem hlen (Nat.le_sub_one_of_lt hgt)
      (Nat.lt_of_le_of_lt (Nat.sub_le i 1) hlt)
    rw [hstart] at halpha
    cases halpha

/-- Skip a word that is not the name of an option with an argument in parentheses. -/
theorem OptionInv.word (h : OptionInv p pos q) (hlen : q ≤ p.length)
    (hno : ∀ l, ¬ OptionArg p pos q l) : OptionInv p pos (skipWhile isalpha p q) where
  le := h.le.trans (le_skipWhile ..)
  boundary := .inr (.inr (skipWhile_stop hlen (by decide)))
  within k hk hlt hsemi := by
    by_cases hold : k < q
    · exact h.within k hk hold hsemi
    · have halpha := skipWhile_mem hlen (Nat.le_of_not_lt hold) hlt
      rw [hsemi] at halpha
      exact absurd halpha (by decide)
  closed i l harg hlt := by
    by_cases hold : i < q
    · obtain ⟨c, hgt, hc, hclose⟩ := h.closed i l harg hold
      exact ⟨c, hgt, Nat.lt_of_lt_of_le hc (le_skipWhile ..), hclose⟩
    · obtain rfl := harg.eq_of_mem_word h.le (Nat.le_of_not_lt hold) hlt hlen
      exact absurd harg (hno l)

/-- Skip an argument, up to the next closing parenthesis. -/
theorem OptionInv.arg (h : OptionInv p pos q) (harg : OptionArg p pos q l) {c : Nat} (hlc : l < c)
    (hclose : charAt p c = ')') (hfirst : ∀ k, l < k → k < c → charAt p k ≠ ')') :
    OptionInv p pos (c + 1) where
  le := by
    have hlt := harg.lt
    have hle := h.le
    omega
  boundary := by
    rw [Nat.add_sub_cancel, hclose]
    exact .inr (.inl (by decide))
  within k hk hlt hsemi := by
    have hlen := harg.lt_length
    obtain ⟨hname, hle⟩ := harg.lt
    by_cases hold : k < q
    · exact h.within k hk hold hsemi
    by_cases hin : l < k
    · exact ⟨q, l, harg, hin, fun c' hgt hlt' => hfirst c' hgt (by omega)⟩
    · -- There is no semicolon in the name, or between the name and the parenthesis.
      exfalso
      by_cases hword : k < skipWhile isalpha p q
      · have halpha := skipWhile_mem (by omega) (Nat.le_of_not_lt hold) hword
        rw [hsemi] at halpha
        exact absurd halpha (by decide)
      obtain hblank | rfl := Nat.lt_or_eq_of_le (Nat.le_of_not_lt hin)
      · rw [harg.index] at hblank
        have htrue := skipWhile_mem (by omega) (Nat.le_of_not_lt hword) hblank
        rw [hsemi] at htrue
        exact absurd htrue (by decide)
      · rw [harg.paren_at] at hsemi
        exact absurd hsemi (by decide)
  closed i l' harg' hlt := by
    have hlen := harg.lt_length
    obtain ⟨hname, hle⟩ := harg.lt
    by_cases hold : i < q
    · obtain ⟨c', hgt, hc', hclose'⟩ := h.closed i l' harg' hold
      exact ⟨c', hgt, by omega, hclose'⟩
    by_cases hword : i < skipWhile isalpha p q
    · obtain rfl := harg'.eq_of_mem_word h.le (Nat.le_of_not_lt hold) hword (by omega)
      refine ⟨c, ?_, Nat.lt_succ_self c, hclose⟩
      rw [harg'.index, ← harg.index]
      exact hlc
    · -- Another name inside the argument: its argument is not closed any earlier.
      refine ⟨c, ?_, Nat.lt_succ_self c, hclose⟩
      by_contra hge
      exact harg'.no_close (Nat.le_of_lt_succ hlt) (Nat.le_of_not_lt hge) hclose

/-! ## §4 One option -/

/-- The closing parenthesis that `arg()` finds. -/
def argEnd (p : CStr) (b : Nat) : Nat := skipWhile (· ≠ ')') p (b + 1)

theorem argEnd_spec {b c : Nat} (hbc : b < c) (hclose : charAt p c = ')') :
    b < argEnd p b ∧ argEnd p b ≤ c ∧ charAt p (argEnd p b) = ')' ∧
      ∀ k, b < k → k < argEnd p b → charAt p k ≠ ')' := by
  have hlen : c < p.length := lt_length_of_charAt_ne_nul (by rw [hclose]; decide)
  have hle : argEnd p b ≤ c := skipWhile_le_of hbc (Nat.le_of_lt hlen) (by rw [hclose]; decide)
  have hb : b + 1 ≤ p.length := Nat.le_of_lt (Nat.lt_of_le_of_lt hbc hlen)
  refine ⟨le_skipWhile .., hle, ?_, fun k hbk hk => ?_⟩
  · have hstop := (skipWhile_spec (· ≠ ')') hb).2.2.2 (Nat.lt_of_le_of_lt hle hlen)
    exact of_not_not (of_decide_eq_false hstop)
  · exact of_decide_eq_true (skipWhile_mem (f := (· ≠ ')')) hb hbk hk)

/-- An argument in parentheses ends behind the first closing parenthesis. -/
theorem optArg_paren (opts : TblOpts) (key : OptKey) {b : Nat} (hb : b = skipWhile isBlank p j)
    (hparen : charAt p b = '(') (hend : charAt p (argEnd p b) = ')') :
    ∃ opts', optArg opts p j key = .ok (opts', argEnd p b + 1) := by
  have hlen : argEnd p b < p.length := lt_length_of_charAt_ne_nul (by rw [hend]; decide)
  have harg : argLength p (b + 1) = .ok (((p.drop (b + 1)).takeWhile (· ≠ ')')).length) :=
    if_pos hlen
  have hpos : b + 1 + ((p.drop (b + 1)).takeWhile (· ≠ ')')).length = argEnd p b := rfl
  unfold optArg
  rw [← hb]
  simp only [hparen, decide_true, if_true, harg, Res.ok_bind, hpos, hend]
  exact ⟨_, rfl⟩

/-- Without an opening parenthesis, there is no argument. -/
theorem optArg_plain (opts : TblOpts) (key : OptKey) {b : Nat} (hb : b = skipWhile isBlank p j)
    (hparen : charAt p b ≠ '(') :
    ∃ opts', optArg opts p j key = .ok (opts', if charAt p b = ')' then b + 1 else b) := by
  unfold optArg
  rw [← hb]
  simp only [hparen, decide_false]
  exact ⟨_, rfl⟩

/-- The option with an argument at the index `q`. -/
theorem OptionInv.option (h : OptionInv p pos q) (hs : EndsOptions p pos s) (hq : q ≤ s)
    (halpha : isalpha (charAt p q) = true) {key : String × OptKey} (hmem : key ∈ argKeys)
    (hname : key.1.toList = (slice p q (skipWhile isalpha p q)).map tolower) (opts : TblOpts) :
    ∃ opts' i, optArg opts p (skipWhile isalpha p q) key.2 = .ok (opts', i) ∧
      OptionInv p pos i ∧ i ≤ s ∧ q < i := by
  -- The name of the option and the blanks behind it end before the semicolon.
  have hlen : s < p.length := lt_length_of_charAt_ne_nul (by rw [hs.semicolon]; decide)
  have hqlen : q < p.length := Nat.lt_of_le_of_lt hq hlen
  have hword : skipWhile isalpha p q ≤ s :=
    skipWhile_le_of hq (Nat.le_of_lt hlen) (by rw [hs.semicolon]; decide)
  have hgt : q < skipWhile isalpha p q := by
    rw [skipWhile_step isalpha hqlen, if_pos halpha]
    exact le_skipWhile ..
  have hblank : skipWhile isBlank p (skipWhile isalpha p q) ≤ s :=
    skipWhile_le_of hword (Nat.le_of_lt hlen) (by rw [hs.semicolon]; decide)
  have hle : skipWhile isalpha p q ≤ skipWhile isBlank p (skipWhile isalpha p q) := le_skipWhile ..
  obtain ⟨b, hb⟩ : ∃ b, b = skipWhile isBlank p (skipWhile isalpha p q) := ⟨_, rfl⟩
  rw [← hb] at hblank hle
  -- The argument in parentheses ends before the semicolon, too.
  by_cases hparen : charAt p b = '('
  · have hbs : b < s := by
      refine Nat.lt_of_le_of_ne hblank fun heq => ?_
      rw [heq, hs.semicolon] at hparen
      exact absurd hparen (by decide)
    have harg : OptionArg p pos q b := {
      le := h.le
      start := h.boundary.imp_right fun hor => hor.resolve_right (by rw [halpha]; decide)
      name := ⟨key, hmem, hname⟩
      index := hb
      paren_at := hparen }
    obtain ⟨c, hbc, hcs, hclose⟩ := hs.closed b (h.le.trans (hgt.le.trans hle)) hbs hparen
    obtain ⟨hlt, hend, hat, hfirst⟩ := argEnd_spec hbc hclose
    obtain ⟨opts', heq⟩ := optArg_paren opts key.2 hb hparen hat
    exact ⟨opts', _, heq, h.arg harg hlt hat hfirst, Nat.lt_of_le_of_lt hend hcs, by omega⟩
  · -- Without an argument, the option ends behind the blanks or at a parenthesis.
    obtain ⟨opts', heq⟩ := optArg_plain opts key.2 hb hparen
    have hafter : OptionInv p pos b := by
      refine (h.word hqlen.le fun l harg => ?_).skip hle fun k hk hkb => ?_
      · rw [hb, ← harg.index] at hparen
        exact hparen harg.paren_at
      · have htrue := skipWhile_mem (f := isBlank) (hword.trans hlen.le) hk (hb ▸ hkb)
        obtain hc | hc := (Bool.or_eq_true _ _).mp htrue
        · rw [of_decide_eq_true hc]
          decide
        · rw [of_decide_eq_true hc]
          decide
    refine ⟨opts', _, heq, ?_⟩
    split
    · next hclose =>
      have hbs : b < s := by
        refine Nat.lt_of_le_of_ne hblank fun heq => ?_
        rw [heq, hs.semicolon] at hclose
        exact absurd hclose (by decide)
      refine ⟨hafter.skip (Nat.le_succ b) fun k hk hkb => ?_, hbs, by omega⟩
      rw [Nat.le_antisymm (Nat.le_of_lt_succ hkb) hk, hclose]
      decide
    · exact ⟨hafter, hblank, by omega⟩

/-! ## §5 The loop -/

/-- The loop ends behind a semicolon, without reading beyond the line. -/
theorem optionLoop_spec (hs : EndsOptions p pos s) (n : Nat) (opts : TblOpts)
    (h : OptionInv p pos q) (hq : q ≤ s) (hn : s - q < n) :
    ∃ opts' i, optionLoop p n opts q = .ok (opts', i + 1) ∧ OptionInv p pos i ∧ i ≤ s ∧
      charAt p i = ';' := by
  have hlen : s < p.length := lt_length_of_charAt_ne_nul (by rw [hs.semicolon]; decide)
  induction n generalizing opts q with
  | zero => exact absurd hn (Nat.not_lt_zero _)
  | succ n ih =>
    unfold optionLoop
    dsimp only
    have hle : q ≤ skipWhile (fun c => isBlank c || decide (c = ',')) p q := le_skipWhile ..
    have hskip : OptionInv p pos (skipWhile (fun c => isBlank c || decide (c = ',')) p q) := by
      refine h.skip hle fun k hk hki => ?_
      have htrue := skipWhile_mem (hq.trans hlen.le) hk hki
      obtain hc | hc := (Bool.or_eq_true _ _).mp htrue
      · obtain hc | hc := (Bool.or_eq_true _ _).mp hc
        · rw [of_decide_eq_true hc]
          decide
        · rw [of_decide_eq_true hc]
          decide
      · rw [of_decide_eq_true hc]
        decide
    have his : skipWhile (fun c => isBlank c || decide (c = ',')) p q ≤ s :=
      skipWhile_le_of hq hlen.le (by rw [hs.semicolon]; decide)
    generalize skipWhile (fun c => isBlank c || decide (c = ',')) p q = i at hle hskip his ⊢
    split
    · next hsemi => exact ⟨opts, i, rfl, hskip, his, hsemi⟩
    next hsemi =>
    have hlt : i < s := Nat.lt_of_le_of_ne his fun heq => hsemi (heq ▸ hs.semicolon)
    have hilen : i < p.length := hlt.trans hlen
    have hstep : skipWhile isalpha p i = i + ((p.drop i).takeWhile isalpha).length := rfl
    rw [← hstep]
    split
    · next hzero =>
      -- A byte that cannot begin the name of an option.
      have hno : isalpha (charAt p i) = false := by
        have hstop := skipWhile_stop (f := isalpha) hilen.le (by decide)
        rwa [hstep, hzero, Nat.add_zero] at hstop
      refine ih _ (hskip.skip (Nat.le_succ i) fun k hk hki => ?_) hlt (by omega)
      rw [Nat.le_antisymm (Nat.le_of_lt_succ hki) hk]
      exact ⟨hno, hsemi⟩
    · next hpos =>
      have halpha : isalpha (charAt p i) = true :=
        skipWhile_mem hilen.le (Nat.le_refl i) (by omega)
      have hword : skipWhile isalpha p i ≤ s :=
        skipWhile_le_of his hlen.le (by rw [hs.semicolon]; decide)
      split
      · next key hfind =>
        obtain ⟨opts', j, heq, hinv, hjs, hij⟩ := hskip.option hs his halpha
          (List.mem_of_find?_eq_some hfind) (by simpa using List.find?_some hfind) opts
        rw [heq, Res.ok_bind]
        exact ih opts' hinv hjs (by omega)
      · next hfind =>
        have hinv : OptionInv p pos (skipWhile isalpha p i) := by
          refine hskip.word hilen.le fun l harg => ?_
          obtain ⟨key, hmem, hname⟩ := harg.name
          exact List.find?_eq_none.mp hfind key hmem (decide_eq_true hname)
        split
        · exact ih _ hinv hword (by omega)
        · exact ih _ hinv hword (by omega)

/-! ## §6 The two scanners -/

theorem tblOption_of_endsOptions (hs : EndsOptions p pos s) (tbl : Tbl) :
    ∃ tbl' i, tblOption tbl p pos = .ok (tbl', i + 1) ∧ OptionInv p pos i ∧ i ≤ s ∧
      charAt p i = ';' := by
  have hlen : s < p.length := lt_length_of_charAt_ne_nul (by rw [hs.semicolon]; decide)
  obtain ⟨opts', i, heq, hrest⟩ :=
    optionLoop_spec hs (p.length + 1) tbl.opts (OptionInv.refl p pos) hs.le (by omega)
  refine ⟨{ tbl with opts := opts' }, i, ?_, hrest⟩
  rw [tblOption, heq]
  rfl

theorem OptionInv.not_inArgument (h : OptionInv p pos q) : ¬ InArgument p pos q := by
  rintro ⟨i, l, harg, hlt, hopen⟩
  have hil : i < l := Nat.lt_of_lt_of_le harg.lt.1 harg.lt.2
  obtain ⟨c, hlc, hcq, hclose⟩ := h.closed i l harg (hil.trans hlt)
  exact hopen c hlc hcq hclose

/-- If `tbl_read()` finds a semicolon, `tbl_option()` always terminates without reading beyond the
    end of the line. It ends right behind the same semicolon if and only if all semicolons before
    that one are inside arguments of options. -/
theorem tblOption_ends_iff (tbl : Tbl) {p : CStr} {pos k : Nat}
    (h : semicolonIndex true (p.drop pos) = some k) :
    (∃ r, tblOption tbl p pos = .ok r) ∧
      ((∃ tbl', tblOption tbl p pos = .ok (tbl', pos + k + 1)) ↔
        ∀ i, pos ≤ i → i < pos + k → charAt p i = ';' → InArgument p pos i) := by
  obtain ⟨tbl', i, heq, hinv, hle, hsemi⟩ :=
    tblOption_of_endsOptions (endsOptions_of_semicolonIndex h) tbl
  refine ⟨⟨_, heq⟩, fun hend => ?_, fun hall => ?_⟩
  · obtain ⟨tbl'', hend⟩ := hend
    rw [heq] at hend
    injection hend with hend
    injection hend with _ hpos
    obtain rfl := Nat.succ.inj hpos
    exact hinv.within
  · obtain hlt | rfl := Nat.lt_or_eq_of_le hle
    · exact absurd (hall i hinv.le hlt hsemi) hinv.not_inArgument
    · exact ⟨tbl', heq⟩

end

/-- A semicolon in the argument of the option `tab` is not mistaken for the end. -/
theorem tblOption_ends_tab :
    ∃ tbl', tblOption tblAlloc "tab(;) box;".toList 0 = .ok (tbl', 11) := by
  have hfind : semicolonIndex true ("tab(;) box;".toList.drop 0) = some 10 := by decide +kernel
  refine (tblOption_ends_iff tblAlloc hfind).2.mpr fun i _ hlt hsemi => ?_
  have hi : i = 4 := by
    have honly : ∀ i, i < 10 → charAt "tab(;) box;".toList i = ';' → i = 4 := by decide +kernel
    exact honly i hlt hsemi
  subst hi
  have harg : OptionArg "tab(;) box;".toList 0 0 3 := {
    le := Nat.le_refl 0
    start := .inl rfl
    name := ⟨("tab", .TAB), by decide, by decide +kernel⟩
    index := by decide +kernel
    paren_at := rfl }
  exact ⟨0, 3, harg, by decide, fun c hgt hlt => absurd hlt (Nat.not_lt.mpr hgt)⟩

/-- A semicolon in parentheses that do not belong to an option with an argument: `tbl_read()`
    ignores it, but `tbl_option()` does not. -/
theorem tblOption_ends_false :
    ¬ ∀ (tbl : Tbl) (p : CStr) (pos k : Nat), semicolonIndex true (p.drop pos) = some k →
      ∃ tbl', tblOption tbl p pos = .ok (tbl', pos + k + 1) := by
  intro h
  obtain ⟨tbl', heq⟩ := h tblAlloc "box(;);".toList 0 6 (by decide +kernel)
  have hends : (tblOption tblAlloc "box(;);".toList 0).map Prod.snd = .ok 5 := by decide +kernel
  rw [heq] at hends
  injection hends with hpos
  exact absurd (show 7 = 5 from hpos) (by decide)

end Mandoc
