import Mandoc.Roff.EscapeBounds
import Mandoc.Roff.PlainLines
import Mandoc.Roff.Rename

/-!
# Macro Arguments

The arguments of a macro call are split off the line by `roff_getarg()`, and `roff_userdef()`
stores them with the double quotes escaped. The escape sequence `\$@` pastes the stored
arguments into a line, each of them quoted, such that the same arguments result when they are
split off again. The definition that `.als` makes for an alias relies on that.
-/

namespace Mandoc

variable {X : Type}

/-! ## §1 Splitting off arguments -/

theorem nextArg_length (t : CStr) : (nextArg t).length ≤ t.length - 1 :=
  (List.dropWhile_suffix _).length_le.trans (List.length_drop.le)

theorem nextArg_subset (t : CStr) : nextArg t ⊆ t :=
  List.Subset.trans (List.dropWhile_suffix _).subset (List.drop_subset 1 t)

/-- The text that remains is shorter than the text parsed. -/
theorem getargLoop_rest_length (start : CStr) (quoted : Bool) (s acc : CStr) (newesc : Bool) :
    (getargLoop start quoted s acc newesc).rest.length ≤ s.length - 1 := by
  fun_induction getargLoop start quoted s acc newesc
  case case1 | case2 | case3 => exact Nat.zero_le _
  case case4 ih | case5 ih | case6 ih | case10 ih =>
    exact ih.trans (by rw [List.length_cons, List.length_cons]; omega)
  case case7 ih | case9 ih | case12 ih =>
    exact ih.trans (by simp only [List.length_cons]; omega)
  case case8 | case11 => exact nextArg_length _

/-- Without backslashes, an argument and the text that remains only contain bytes of the line,
    and there is no new escape character. -/
theorem getargLoop_plain (start : CStr) (quoted : Bool) (s acc : CStr) (newesc : Bool)
    (hs : '\\' ∉ s) :
    (getargLoop start quoted s acc newesc).arg ⊆ acc ++ s ∧
      (getargLoop start quoted s acc newesc).rest ⊆ s ∧
      (getargLoop start quoted s acc newesc).newesc = newesc := by
  fun_induction getargLoop start quoted s acc newesc
  case case1 => exact ⟨by simp, List.Subset.refl _, rfl⟩
  case case2 => exact ⟨by simp, List.nil_subset _, rfl⟩
  case case3 => exact ⟨List.Subset.refl _, List.nil_subset _, rfl⟩
  case case4 | case5 | case6 | case7 => exact absurd List.mem_cons_self hs
  case case8 | case11 => exact ⟨List.subset_append_left _ _, nextArg_subset _, rfl⟩
  case case9 ih | case12 ih =>
    obtain ⟨harg, hrest, hnew⟩ := ih fun h => hs (List.mem_cons_of_mem _ h)
    exact ⟨by simpa using harg, List.Subset.trans hrest (List.subset_cons_self _ _), hnew⟩
  case case10 ih =>
    obtain ⟨harg, hrest, hnew⟩ := ih fun h => hs (by simp [h])
    refine ⟨List.Subset.trans harg fun c hc => ?_, List.Subset.trans hrest fun c hc => ?_, hnew⟩
    · simp only [List.append_assoc, List.mem_append, List.mem_cons, List.not_mem_nil] at hc ⊢
      tauto
    · exact List.mem_cons_of_mem _ (List.mem_cons_of_mem _ hc)

/-- The parse point advances exactly as far as the argument pointer. -/
theorem roffGetarg_pos (env : Env X) (fuel : Nat) (r : Roff X) (src : CStr) (pos : Nat) :
    Ensures (roffGetarg env fuel r src pos) fun g =>
      g.rest.length ≤ src.length ∧ g.pos = pos + (src.length - g.rest.length) := by
  have hpos : ∀ quoted : Prop, [Decidable quoted] → (quoted → src ≠ []) →
      ∀ start : CStr, start = (if quoted then src.drop 1 else src) →
      ∀ rest : CStr, rest.length ≤ start.length - 1 →
        rest.length ≤ src.length ∧ pos + (start.length - rest.length) + (if quoted then 1 else 0) =
          pos + (src.length - rest.length) := by
    intro quoted _ hne start hstart rest hrest
    split_ifs at hstart ⊢ with hq
    · have := List.length_pos_iff.mpr (hne hq)
      rw [hstart, List.length_drop] at hrest ⊢
      omega
    · rw [hstart] at hrest ⊢
      omega
  have hne : charAt src 0 = '"' → src ≠ [] := by
    rintro h rfl
    exact absurd h (by decide)
  unfold roffGetarg
  dsimp only
  apply Ensures.ite
  · intro _
    exact Ensures.call fun e => Ensures.pure_iff.mpr
      (hpos (charAt src 0 = '"') hne _ rfl _ (getargLoop_rest_length ..))
  · intro _
    exact Ensures.pure_iff.mpr (hpos (charAt src 0 = '"') hne _ rfl _ (getargLoop_rest_length ..))

/-- Splitting a plain argument off a line does not need an expansion. -/
theorem roffGetarg_plain {src : CStr} (hne : src ≠ []) (hsrc : '\\' ∉ src) :
    ∃ arg rest : CStr, arg ⊆ src ∧ rest ⊆ src ∧ rest.length < src.length ∧
      ∀ (env : Env X) fuel r pos, ∃ pos', roffGetarg env fuel r src pos = .ok ⟨arg, rest, pos', r⟩ := by
  set start := if charAt src 0 = '"' then src.drop 1 else src with hstart
  have hsub : start ⊆ src := by
    rw [hstart]
    split
    · exact List.drop_subset 1 src
    · exact List.Subset.refl src
  have hlen : start.length ≤ src.length := by
    rw [hstart]
    split
    · exact (List.drop_sublist 1 src).length_le
    · exact le_rfl
  have hplain := getargLoop_plain start (charAt src 0 = '"') start [] false
    fun h => hsrc (hsub h)
  have hshort := getargLoop_rest_length start (charAt src 0 = '"') start [] false
  set g := getargLoop start (charAt src 0 = '"') start [] false with hg
  obtain ⟨harg, hrest, hnew⟩ := hplain
  have hpos := List.length_pos_iff.mpr hne
  refine ⟨g.arg, g.rest, List.Subset.trans harg hsub, List.Subset.trans hrest hsub, by omega,
    fun env fuel r pos =>
      ⟨pos + (start.length - g.rest.length) + if charAt src 0 = '"' then 1 else 0, ?_⟩⟩
  rw [roffGetarg, ← hstart, ← hg, hnew]
  rfl

theorem pushArg_of_mstack {r : Roff X} {argv : List CStr} {ms : List (List CStr)}
    (h : r.mstack = argv :: ms) (arg : CStr) :
    pushArg r arg = { r with mstack := (argv ++ [arg]) :: ms } := by
  rw [pushArg, h]

/-- **Plain arguments.** The arguments in a text without backslashes, which `roff_userdef()`
    stores with the quotes escaped. -/
theorem collectArgs_plain (text : CStr) (htext : '\\' ∉ text) :
    ∃ args : List CStr, (∀ arg ∈ args, arg ⊆ text) ∧
      ∀ (env : Env X) fuel steps (r : Roff X) pos argv ms, text.length < steps →
        r.mstack = argv :: ms → collectArgs env fuel steps r text pos =
          .ok { r with mstack := (argv ++ args.map escapeQuotes) :: ms } := by
  induction hn : text.length using Nat.strong_induction_on generalizing text with
  | _ n ih =>
    cases text with
    | nil =>
      refine ⟨[], by simp, fun env fuel steps r pos argv ms hsteps hr => ?_⟩
      obtain ⟨m, rfl⟩ := Nat.exists_eq_succ_of_ne_zero (Nat.ne_zero_of_lt hsteps)
      rw [collectArgs, List.map_nil, List.append_nil, ← hr]
    | cons c src =>
      obtain ⟨arg, rest, harg, hrest, hlt, hget⟩ :=
        roffGetarg_plain (X := X) (List.cons_ne_nil c src) htext
      obtain ⟨args, hargs, hcollect⟩ := ih rest.length (hn ▸ hlt) rest (fun h => htext (hrest h)) rfl
      refine ⟨arg :: args, ?_, fun env fuel steps r pos argv ms hsteps hr => ?_⟩
      · intro a ha
        rcases List.mem_cons.mp ha with rfl | ha
        · exact harg
        · exact List.Subset.trans (hargs a ha) hrest
      · obtain ⟨m, rfl⟩ := Nat.exists_eq_succ_of_ne_zero (Nat.ne_zero_of_lt hsteps)
        obtain ⟨pos', hget⟩ := hget env fuel r pos
        rw [collectArgs, hget, Res.ok_bind]
        dsimp only
        rw [pushArg_of_mstack hr, hcollect env fuel m _ pos' _ ms (by omega) rfl]
        simp

/-! ## §2 Pasted arguments -/

/-- Text without escape sequences, except for the one that stands for a double quote. -/
inductive Inert : CStr → Prop where
  | nil : Inert []
  | char {c : Char} {s : CStr} (hc : c ≠ '\\') (hnul : c ≠ NUL) (h : Inert s) : Inert (c :: s)
  | quote {s : CStr} (h : Inert s) : Inert ('\\' :: '(' :: 'd' :: 'q' :: s)

theorem Inert.append {s t : CStr} (hs : Inert s) (ht : Inert t) : Inert (s ++ t) := by
  induction hs with
  | nil => exact ht
  | char hc hnul _ ih => exact .char hc hnul ih
  | quote _ ih => exact .quote ih

/-- Plain text is inert. -/
theorem Inert.of_plain {ec : Char} {s : CStr} (hs : Plain ec s) : Inert s := by
  induction s with
  | nil => exact .nil
  | cons c s ih =>
    refine .char (fun h => ?_) (fun h => ?_) (ih hs.tail)
    · exact hs.noBackslash (h ▸ List.mem_cons_self)
    · exact hs.noNul (h ▸ List.mem_cons_self)

theorem Inert.noNul {s : CStr} (hs : Inert s) : NUL ∉ s := by
  induction hs with
  | nil => exact List.not_mem_nil
  | char _ hnul _ ih => exact List.not_mem_cons_of_ne_of_not_mem hnul.symm ih
  | quote _ ih =>
    refine List.not_mem_cons_of_ne_of_not_mem (by decide) ?_
    refine List.not_mem_cons_of_ne_of_not_mem (by decide) ?_
    exact List.not_mem_cons_of_ne_of_not_mem (by decide)
      (List.not_mem_cons_of_ne_of_not_mem (by decide) ih)

theorem escapeQuotes_cons (c : Char) (s : CStr) :
    escapeQuotes (c :: s) = (if c = '"' then "\\(dq".toList else [c]) ++ escapeQuotes s :=
  List.flatMap_cons

/-- Escaping the quotes keeps plain text inert, and there are no quotes in it any more. -/
theorem escapeQuotes_inert {ec : Char} {s : CStr} (hs : Plain ec s) :
    Inert (escapeQuotes s) ∧ '"' ∉ escapeQuotes s := by
  induction s with
  | nil => exact ⟨.nil, List.not_mem_nil⟩
  | cons c s ih =>
    obtain ⟨hinert, hquote⟩ := ih hs.tail
    rw [escapeQuotes_cons]
    split
    · exact ⟨.quote hinert, by simpa using hquote⟩
    · next hc =>
      refine ⟨.char (fun h => ?_) (fun h => ?_) hinert, ?_⟩
      · exact hs.noBackslash (h ▸ List.mem_cons_self)
      · exact hs.noNul (h ▸ List.mem_cons_self)
      · simpa using ⟨fun h => hc h.symm, hquote⟩

/-- Without quotes, there is nothing to escape. -/
theorem escapeQuotes_eq_self {s : CStr} (hs : '"' ∉ s) : escapeQuotes s = s := by
  induction s with
  | nil => rfl
  | cons c s ih =>
    have hc : c ≠ '"' := fun h => hs (h ▸ List.mem_cons_self)
    rw [escapeQuotes_cons, if_neg hc, ih fun h => hs (List.mem_cons_of_mem _ h)]
    rfl

theorem getargLoop_quoted_char {start s acc : CStr} {newesc : Bool} {c : Char} (hc : c ≠ '\\')
    (hquote : c ≠ '"') :
    getargLoop start true (c :: s) acc newesc = getargLoop start true s (acc ++ [c]) newesc := by
  cases s with
  | nil => simp [getargLoop, hquote]
  | cons d s => simp [getargLoop, hc, hquote]

/-- Inside quotes, inert text without quotes is copied as it is. -/
theorem getargLoop_inert {start s : CStr} (hs : Inert s) (hquote : '"' ∉ s) (t acc : CStr)
    (newesc : Bool) :
    getargLoop start true (s ++ t) acc newesc = getargLoop start true t (acc ++ s) newesc := by
  induction hs generalizing acc with
  | nil => rw [List.nil_append, List.append_nil]
  | char hc _ _ ih =>
    rw [List.cons_append, getargLoop_quoted_char hc fun h => hquote (h ▸ List.mem_cons_self),
      ih (fun h => hquote (List.mem_cons_of_mem _ h)), List.append_assoc]
    rfl
  | @quote s _ ih =>
    have hbs : getargLoop start true ('\\' :: '(' :: 'd' :: 'q' :: s ++ t) acc newesc =
        getargLoop start true ('(' :: 'd' :: 'q' :: s ++ t) (acc ++ ['\\']) newesc := by
      simp [getargLoop]
    rw [hbs, List.cons_append, getargLoop_quoted_char (by decide) (by decide), List.cons_append,
      getargLoop_quoted_char (by decide) (by decide), List.cons_append,
      getargLoop_quoted_char (by decide) (by decide), ih (by simpa using hquote)]
    simp

/-- The argument at the beginning of pasted text. -/
theorem roffGetarg_pasted (env : Env X) (fuel : Nat) (r : Roff X) {arg t : CStr} (pos : Nat)
    (harg : Inert arg) (hquote : '"' ∉ arg) (ht : ∀ c s, t = c :: s → c = ' ') :
    ∃ pos', roffGetarg env fuel r ('"' :: arg ++ '"' :: t) pos =
      .ok ⟨arg, t.dropWhile (· = ' '), pos', r⟩ := by
  have hloop : getargLoop (arg ++ '"' :: t) true (arg ++ '"' :: t) [] false =
      ⟨arg, t.dropWhile (· = ' '), false⟩ := by
    rw [getargLoop_inert harg hquote, List.nil_append]
    cases t with
    | nil => simp [getargLoop]
    | cons c s =>
      obtain rfl := ht c s rfl
      simp [getargLoop, nextArg]
  refine ⟨pos + ((arg ++ '"' :: t).length - (t.dropWhile (· = ' ')).length) + 1, ?_⟩
  rw [roffGetarg]
  simp only [List.cons_append, charAt_cons_zero, List.drop_succ_cons, List.drop_zero, decide_true,
    ↓reduceIte, hloop]
  rfl

theorem pasteArgs_cons (arg : CStr) (argv : List CStr) :
    pasteArgs true (arg :: argv) =
      '"' :: arg ++ '"' :: (if argv = [] then [] else ' ' :: pasteArgs true argv) := by
  cases argv with
  | nil => simp [pasteArgs]
  | cons b argv => simp [pasteArgs, List.intercalate]

/-- Pasted arguments begin with a quote, and they are inert. -/
theorem pasteArgs_inert {argv : List CStr} (h : ∀ arg ∈ argv, Inert arg) :
    Inert (pasteArgs true argv) := by
  induction argv with
  | nil => exact .nil
  | cons arg argv ih =>
    rw [pasteArgs_cons]
    have hrest := ih fun a ha => h a (List.mem_cons_of_mem _ ha)
    refine .char (by decide) (by decide) ((h arg List.mem_cons_self).append ?_)
    refine .char (by decide) (by decide) ?_
    split
    · exact .nil
    · exact .char (by decide) (by decide) hrest

/-- **Round trip.** Collecting the arguments from the pasted text yields the same stored
    arguments. -/
theorem collectArgs_pasteArgs (env : Env X) (fuel : Nat) {args : List CStr} :
    (∀ arg ∈ args, Inert arg ∧ '"' ∉ arg) → ∀ steps (r : Roff X) pos argv ms,
      (pasteArgs true args).length < steps → r.mstack = argv :: ms →
        collectArgs env fuel steps r (pasteArgs true args) pos =
          .ok { r with mstack := (argv ++ args) :: ms } := by
  induction args with
  | nil =>
    intro _ steps r pos argv ms hsteps hr
    obtain ⟨m, rfl⟩ := Nat.exists_eq_succ_of_ne_zero (Nat.ne_zero_of_lt hsteps)
    rw [List.append_nil, ← hr]
    rfl
  | cons arg args ih =>
    intro h steps r pos argv ms hsteps hr
    obtain ⟨m, rfl⟩ := Nat.exists_eq_succ_of_ne_zero (Nat.ne_zero_of_lt hsteps)
    obtain ⟨hinert, hquote⟩ := h arg List.mem_cons_self
    rw [pasteArgs_cons] at hsteps ⊢
    set t := if args = [] then [] else ' ' :: pasteArgs true args with ht
    obtain ⟨pos', hget⟩ := roffGetarg_pasted env fuel r (t := t) pos hinert hquote fun c s hcs => by
      rw [ht] at hcs
      split_ifs at hcs
      exact (List.cons.inj hcs).1.symm
    -- After skipping the blank, the rest of the pasted text remains.
    have hrest : t.dropWhile (· = ' ') = pasteArgs true args := by
      rw [ht]
      split_ifs with hnil
      · rw [hnil]
        rfl
      · obtain ⟨b, bs, rfl⟩ := List.exists_cons_of_ne_nil hnil
        rw [pasteArgs_cons]
        rfl
    rw [List.cons_append, collectArgs, ← List.cons_append, hget, Res.ok_bind]
    dsimp only
    have hlen : (pasteArgs true args).length ≤ t.length := by
      rw [← hrest]
      exact (List.dropWhile_suffix _).length_le
    rw [pushArg_of_mstack hr, hrest, escapeQuotes_eq_self hquote,
      ih (fun a ha => h a (List.mem_cons_of_mem _ ha)) m _ pos' _ ms ?_ rfl]
    · simp
    · simp only [List.length_append, List.length_cons] at hsteps
      omega

/-! ## §3 Expansion -/

section

variable {sub : Nat → Res EscResult} {buf : CStr} {iesc i j steps m : Nat} {name c : Char}
  {a : ArgStart} {valid : Bool}

/-- A byte of an argument of fixed length. -/
theorem argLoop_char (hec : rd buf iesc = .ok '\\') (hc : rd buf i = .ok c) (hnul : c ≠ NUL)
    (hne : c ≠ '\\') (hterm : a.term = NUL) (hname : name ≠ 'N') :
    argLoop sub buf iesc name a (steps + 1) (some (m + 1)) i j valid =
      argLoop sub buf iesc name a steps (some m) (i + 1) (i + 1)
        (valid && !(c = ' ' || c = '\t')) := by
  rw [argLoop, if_neg (by simp), hec, Res.ok_bind, hc, Res.ok_bind, if_neg hnul, if_neg,
    if_neg hne, if_neg]
  · rfl
  · simp [hname]
  · simp [hterm, hnul]

theorem argLoop_end :
    argLoop sub buf iesc name a (steps + 1) (some 0) i j valid = .ok (.done a.rval i j valid) := by
  rw [argLoop, if_pos rfl]

end

/-- The escape sequence that stands for all arguments. -/
theorem roffEscape_args {buf s : CStr} {pos : Nat} (h : buf.drop pos = '\\' :: '$' :: '@' :: s) :
    roffEscape buf pos = .ok ⟨.EXPAND, pos, pos + 1, pos + 2, pos + 3, pos + 3⟩ := by
  have hlen := length_of_drop h (by simp)
  simp only [List.length_cons] at hlen
  have h0 : rd buf pos = .ok '\\' := rd_of_drop h 0 (by simp)
  have h1 : rd buf (pos + 1) = .ok '$' := rd_of_drop h 1 (by simp)
  have h2 : rd buf (pos + 2) = .ok '@' := rd_of_drop h 2 (by simp)
  have hname : nameIndex buf pos = pos + 1 := nameIndex_of_drop h (by decide)
  have hkind : escName '$' = .standard .EXPAND := by decide
  have hloop : ∀ sub, argLoop sub buf pos '$' ⟨.EXPAND, pos + 2, pos + 2, NUL, false, some 1⟩
      (buf.length + 1) (some 1) (pos + 2) (pos + 2) true =
        .ok (.done .EXPAND (pos + 3) (pos + 3) true) := by
    intro sub
    rw [hlen]
    exact (argLoop_char h0 h2 (by decide) (by decide) rfl (by decide)).trans argLoop_end
  rw [roffEscape, escapeRec, escapeAt, escapeStart, hname, h1, Res.ok_bind, hkind]
  dsimp only
  have harg : ∀ sub, standardArg sub buf pos (pos + 1) (pos + 1 + 1) .EXPAND =
      .ok (.scan ⟨.EXPAND, pos + 2, pos + 2, NUL, false, some 1⟩) := by
    intro sub
    rw [standardArg, h2, Res.ok_bind, h0, Res.ok_bind, if_neg (by decide), standardForm, h1,
      Res.ok_bind, h2, Res.ok_bind]
    simp [regSign, h2]
  rw [harg, Res.ok_bind]
  dsimp only
  rw [Res.ok_bind, hloop, Res.ok_bind]
  simp [postProcess]

/-- The escape sequence that stands for a double quote. -/
theorem roffEscape_quote {buf s : CStr} {pos : Nat}
    (h : buf.drop pos = '\\' :: '(' :: 'd' :: 'q' :: s) :
    roffEscape buf pos = .ok ⟨.SPECIAL, pos, pos + 1, pos + 2, pos + 4, pos + 4⟩ := by
  have hlen := length_of_drop h (by simp)
  simp only [List.length_cons] at hlen
  have h0 : rd buf pos = .ok '\\' := rd_of_drop h 0 (by simp)
  have h1 : rd buf (pos + 1) = .ok '(' := rd_of_drop h 1 (by simp)
  have h2 : rd buf (pos + 2) = .ok 'd' := rd_of_drop h 2 (by simp)
  have h3 : rd buf (pos + 3) = .ok 'q' := rd_of_drop h 3 (by simp)
  have hname : nameIndex buf pos = pos + 1 := nameIndex_of_drop h (by decide)
  have hkind : escName '(' = .bracket := by decide
  have hdrop : buf.drop (pos + 2) = 'd' :: 'q' :: s := by
    rw [← List.drop_drop, h]
    rfl
  -- The name has two characters, and they are taken as they are.
  have hloop : ∀ sub, argLoop sub buf pos '(' ⟨.SPECIAL, pos + 2, pos + 1, NUL, false, some 2⟩
      (buf.length + 1) (some 2) (pos + 2) (pos + 1) true =
        .ok (.done .SPECIAL (pos + 4) (pos + 4) true) := by
    intro sub
    rw [hlen]
    exact ((argLoop_char h0 h2 (by decide) (by decide) rfl (by decide)).trans
      (argLoop_char h0 h3 (by decide) (by decide) rfl (by decide))).trans argLoop_end
  rw [roffEscape, escapeRec, escapeAt, escapeStart, hname, h1, Res.ok_bind, hkind]
  dsimp only
  have harg : ∀ sub, standardArg sub buf pos (pos + 1) (pos + 1) .SPECIAL =
      .ok (.scan ⟨.SPECIAL, pos + 2, pos + 1, NUL, false, some 2⟩) := by
    intro sub
    rw [standardArg, h1, Res.ok_bind, h0, Res.ok_bind, if_neg (by decide), standardForm, h1,
      Res.ok_bind]
    simp [regSign, h1]
  rw [harg, Res.ok_bind]
  dsimp only
  rw [Res.ok_bind, hloop, Res.ok_bind]
  simp [postProcess, hdrop, specialArg, isUnicode, charAt]

/-- The translation of escape characters does not change a sequence that begins with a
    backslash and contains no further ones. -/
theorem translate_quote {buf : Buf} {s : CStr} {pos : Nat}
    (h : buf.buf.drop pos = '\\' :: '(' :: 'd' :: 'q' :: s) :
    translate '\\' 4 buf pos = (buf, pos + 4) := by
  have hchar : ∀ i, i < 4 → charAt buf.buf (pos + i) = charAt ('\\' :: '(' :: 'd' :: 'q' :: s) i := by
    intro i _
    rw [← h, charAt_drop]
  have hlen := length_of_drop h (by simp)
  simp only [List.length_cons] at hlen
  have hset : buf.buf.set pos '\\' = buf.buf := by
    have hlt : pos < buf.buf.length := by omega
    have hget : buf.buf[pos] = '\\' := by
      rw [← charAt_eq_getElem hlt]
      exact hchar 0 (by decide)
    exact (congrArg _ hget.symm).trans (List.set_getElem_self _)
  have h0 : charAt buf.buf pos = '\\' := hchar 0 (by decide)
  have h2 : charAt buf.buf (pos + 2) = 'd' := hchar 2 (by decide)
  have h3 : charAt buf.buf (pos + 2 + 1) = 'q' := hchar 3 (by decide)
  rw [translate, if_pos h0, hset]
  dsimp only
  rw [translate, h2, if_neg (by decide), if_neg (by decide), translate, h3, if_neg (by decide),
    if_neg (by decide), translate]

/-- Inert text is skipped. -/
theorem Inert.reaches (env : Env X) {t : CStr} (ht : Inert t) (r : Roff X) (buf : Buf) (n : Nat) :
    ∀ (pos : Nat) (s : CStr), buf.buf.drop pos = t ++ s →
      Loop.Reaches (expandStep env '\\') ⟨r, buf, pos, n⟩ ⟨r, buf, pos + t.length, n⟩ := by
  -- By induction on the text: one byte, or one escape sequence that is kept.
  induction ht with
  | nil => exact fun _ _ _ => .refl
  | @char c t hc hnul _ ih =>
    intro pos s h
    have hlen := length_of_drop h (by simp)
    have hrd : charAt buf.buf pos = c := by
      have h0 := charAt_drop buf.buf pos 0
      rw [h] at h0
      exact h0.symm
    have hdrop : buf.buf.drop (pos + 1) = t ++ s := by
      rw [← List.drop_drop, h]
      rfl
    have hstep : Loop.Continues (expandStep env '\\') ⟨r, buf, pos, n⟩ ⟨r, buf, pos + 1, n⟩ :=
      expandStep_plain env (by simp at hlen ⊢; omega) (hrd ▸ hc) (hrd ▸ hc) (hrd ▸ hnul)
    have hrest := ih _ s hdrop
    rw [List.length_cons, Nat.add_comm t.length, ← Nat.add_assoc]
    exact .head hstep hrest
  | @quote t _ ih =>
    intro pos s h
    have hlen := length_of_drop h (by simp)
    have h' : buf.buf.drop pos = '\\' :: '(' :: 'd' :: 'q' :: (t ++ s) := h
    have hdrop : buf.buf.drop (pos + 4) = t ++ s := by
      rw [← List.drop_drop, h']
      rfl
    have hstep : Loop.Continues (expandStep env '\\') ⟨r, buf, pos, n⟩ ⟨r, buf, pos + 4, n⟩ := by
      have hrd : rd buf.buf pos = .ok '\\' := rd_of_drop h' 0 (by simp)
      rw [Loop.Continues, expandStep]
      dsimp only
      rw [hrd, Res.ok_bind, if_neg (by decide), if_neg (by simp), roffEscape_quote h', Res.ok_bind,
        if_pos (by simp)]
      dsimp only
      rw [Nat.add_sub_cancel_left, translate_quote h']
      rfl
    have hrest := ih _ s hdrop
    rw [List.length_cons, List.length_cons, List.length_cons, List.length_cons,
      show pos + (t.length + 1 + 1 + 1 + 1) = pos + 4 + t.length by omega]
    exact .head hstep hrest

/-- **Pasting.** At the end of a line, `\$@` is replaced by the pasted arguments. -/
theorem roffExpand_args (env : Env X) (sz : Nat) {r : Roff X} {line : CStr} {argv : List CStr}
    {ms : List (List CStr)} (hr : r.mstack = argv :: ms) (hline : Inert line)
    (hargv : ∀ arg ∈ argv, Inert arg) :
    ∃ sz' k, ∀ fuel, k ≤ fuel →
      roffExpand env fuel r ⟨line ++ "\\$@".toList, sz⟩ 0 '\\' =
        .ok ⟨ROFF_CONT, r, ⟨line ++ pasteArgs true argv, sz'⟩⟩ := by
  set buf : Buf := ⟨line ++ "\\$@".toList, sz⟩ with hbuf
  have hdrop : buf.buf.drop line.length = '\\' :: '$' :: '@' :: [] := List.drop_left
  set buf' : Buf := ⟨line ++ pasteArgs true argv,
    line.length + (pasteArgs true argv).length + (sz - (line.length + 3))⟩ with hbuf'
  -- The text before the escape sequence has none, so it is passed over.
  have hfirst : Loop.Reaches (expandStep env '\\') ⟨r, buf, 0, 0⟩ ⟨r, buf, line.length, 0⟩ := by
    have h := hline.reaches env r buf 0 0 _ rfl
    rwa [Nat.zero_add] at h
  -- The escape sequence is replaced by the arguments.
  have hpaste : Loop.Continues (expandStep env '\\') ⟨r, buf, line.length, 0⟩
      ⟨r, buf', line.length, 0⟩ := by
    have h0 : rd buf.buf line.length = .ok '\\' := rd_of_drop hdrop 0 (by simp)
    have h1 : charAt buf.buf (line.length + 1) = '$' := (rd_eq_ok.mp (rd_of_drop hdrop 1 (by simp))).2
    have h2 : charAt buf.buf (line.length + 2) = '@' := (rd_eq_ok.mp (rd_of_drop hdrop 2 (by simp))).2
    have htake : buf.buf.take line.length = line := List.take_left
    have hend : buf.buf.drop (line.length + 3) = [] := by
      rw [← List.drop_drop, hdrop]
      rfl
    rw [Loop.Continues, expandStep]
    dsimp only
    rw [h0, Res.ok_bind, if_neg (by decide), if_neg (by simp), roffEscape_args hdrop, Res.ok_bind,
      if_neg (by simp), reduceSeq]
    dsimp only
    rw [h1, if_neg (by decide), expandSeq]
    dsimp only
    rw [h1, if_neg (by decide), if_pos rfl, expandArg, hr, h2]
    dsimp only
    rw [if_neg (by decide), if_pos (.inr rfl), htake, hend, List.append_nil]
    rfl
  -- The arguments have no escape sequences, either.
  have hlast : Loop.Reaches (expandStep env '\\') ⟨r, buf', line.length, 0⟩
      ⟨r, buf', buf'.buf.length, 0⟩ := by
    have h := (pasteArgs_inert hargv).reaches env r buf' 0 line.length [] <| by
      rw [List.append_nil]
      exact List.drop_left
    rwa [show line.length + (pasteArgs true argv).length = buf'.buf.length from
      List.length_append.symm] at h
  have hrun : ∃ k, ∀ fuel, k ≤ fuel →
      Loop.run (expandStep env '\\') .fuel fuel ⟨r, buf, 0, 0⟩ = .ok ⟨ROFF_CONT, r, buf'⟩ :=
    Loop.run_of_reaches (hfirst.trans (.head hpaste hlast)) (expandStep_end env rfl)
  exact ⟨_, hrun⟩

/-! ## §4 Calls -/

/-- A name that can follow the control character. -/
structure CallName (name : CStr) : Prop where
  ne_nil : name ≠ []
  plain : Plain '\\' name
  noQuote : name.head? ≠ some '"'
  noBlank : ∀ c ∈ name, endsWord c = false

/-- How `roff_parseln()` processes a line that calls a macro: comments, escape sequences, the
    name, and the arguments. -/
def callLine (env : Env X) (fuel : Nat) (r : Roff X) (ln : Nat) (line : CStr) : Res (Out X) := do
  let (_, r, buf) ← roffParseComment r (Buf.ofStr line) ln 0 r.escape
  let e ← roffExpand env fuel r buf 0 r.escape
  let t ← roffParse e.r e.buf 1
  roffProc env fuel ⟨t.r, t.tok, t.buf, ln, 1, t.pos, 0⟩

/-- The end of the name on a line that calls a macro. -/
theorem wordEnd_call {name text : CStr} (hname : CallName name) :
    wordEnd ('.' :: name ++ ' ' :: text) 1 = name.length + 1 := by
  have hdrop : ('.' :: name ++ ' ' :: text).drop 1 = name ++ ' ' :: text := rfl
  have htake : (name ++ ' ' :: text).takeWhile (fun c => !endsWord c) = name := by
    rw [List.takeWhile_append_of_pos fun c hc => by simpa using hname.noBlank c hc]
    rw [List.takeWhile_cons_of_neg (by decide), List.append_nil]
  rw [wordEnd, skipWhile, hdrop, htake, Nat.add_comm]

/-- The name of a user-defined macro is found, and the arguments follow it. -/
theorem roffParse_user {r : Roff X} {name text body : CStr} (sz : Nat) (hname : CallName name)
    (htext : NUL ∉ text) (hbody : lookup r.strtab name = some body) :
    ∃ pos, ('.' :: name ++ ' ' :: text).drop pos = text.dropWhile (· = ' ') ∧
      roffParse r ⟨'.' :: name ++ ' ' :: text, sz⟩ 1 =
        .ok ⟨.ROFF_USERDEF, { r with currentString := some body },
          ⟨'.' :: name ++ ' ' :: text, sz⟩, pos⟩ := by
  set line := '.' :: name ++ ' ' :: text with hline
  have hend : wordEnd line 1 = name.length + 1 := wordEnd_call hname
  have hlen : line.length = name.length + text.length + 2 := by
    simp only [hline, List.length_cons, List.length_append, List.cons_append]
    omega
  have hnul : NUL ∉ line := by
    simp only [hline, List.cons_append, List.mem_cons, List.mem_append, not_or]
    exact ⟨by decide, hname.plain.noNul, by decide, htext⟩
  -- The bytes of the name are those of the line.
  have hchar : ∀ j, 1 ≤ j → j < name.length + 1 → charAt line j ∈ name := by
    intro j hj hlt
    obtain ⟨i, rfl⟩ := Nat.exists_eq_add_of_le' hj
    rw [hline, List.cons_append, charAt_cons_succ, charAt, List.getD_append _ _ _ _ (by omega),
      List.getD_eq_getElem _ _ (by omega)]
    exact List.getElem_mem _
  have hget : roffGetname line 1 = .ok ⟨line, wordEnd line 1 - 1, nextWord line 1⟩ := by
    refine roffGetname_word hnul (fun j hj hlt hc => ?_) (by omega)
    exact hname.plain.noBackslash (hc ▸ hchar j hj (hend ▸ hlt))
  have hmac : GetName.name ⟨line, wordEnd line 1 - 1, nextWord line 1⟩ 1 = name := by
    rw [getName_name_word (by omega), word, hend, slice, hline]
    exact List.take_left
  refine ⟨nextWord line 1, ?_, ?_⟩
  · rw [nextWord, hend, if_pos (by omega), skipBlanks, drop_skipWhile]
    have hdrop : line.drop (name.length + 1 + 1) = text := by
      rw [hline, List.cons_append, List.drop_succ_cons, ← List.drop_drop, List.drop_left]
      rfl
    rw [hdrop]
  · obtain ⟨c, cs, hcs⟩ := List.exists_cons_of_ne_nil hname.ne_nil
    have hfirst : charAt line 1 = c := by
      rw [hline, hcs]
      rfl
    have hc : c ∈ name := by simp [hcs]
    have hblank := hname.noBlank c hc
    have hno : ¬ (c = NUL ∨ c = '"' ∨ c = '\t' ∨ c = ' ') := by
      rintro (rfl | rfl | rfl | rfl)
      · exact hname.plain.noNul hc
      · exact hname.noQuote (by rw [hcs]; rfl)
      · exact absurd hblank (by decide)
      · exact absurd hblank (by decide)
    have huser : roffGetstrn r name [.USER, .REN] = ⟨some body, .USER, r⟩ := by
      simp [roffGetstrn, hbody]
    rw [roffParse]
    dsimp only
    rw [hfirst, if_neg hno, hget, Res.ok_bind, hmac, huser]
    rfl

/-- A call of a user-defined macro stores the arguments that follow its name. -/
theorem roffUserdef_of_collect (env : Env X) (fuel : Nat) {a : Args X} {body : CStr}
    {args : List CStr} (hbody : a.r.currentString = some body) (hne : body ≠ [])
    (hargs : collectArgs env fuel (a.buf.buf.length + 1) { a.r with mstack := [] :: a.r.mstack }
      a.rest a.pos = .ok { a.r with mstack := args :: a.r.mstack }) :
    ∃ out, roffUserdef env fuel a = .ok out ∧ out.r = { a.r with mstack := args :: a.r.mstack } ∧
      out.buf = Buf.ofStr body := by
  obtain ⟨c, cs, rfl⟩ := List.exists_cons_of_ne_nil hne
  rw [roffUserdef, hbody]
  dsimp only
  rw [hargs]
  exact ⟨_, rfl, rfl, rfl⟩

/-- What `callLine` does once the line has been expanded. -/
theorem callLine_of_expanded {env : Env X} {fuel : Nat} {r r₁ : Roff X} {ln : Nat}
    {line name text body : CStr} {args : List CStr} {code : Code} {buf : Buf} {sz : Nat}
    (hcomment : roffParseComment r (Buf.ofStr line) ln 0 r.escape = .ok (code, r₁, buf))
    (hexpand : roffExpand env fuel r₁ buf 0 r₁.escape =
      .ok ⟨ROFF_CONT, r₁, ⟨'.' :: name ++ ' ' :: text, sz⟩⟩)
    (hname : CallName name) (htext : NUL ∉ text) (hbody : lookup r₁.strtab name = some body)
    (hne : body ≠ [])
    (hargs : ∀ steps (r : Roff X) pos argv ms, (text.dropWhile (· = ' ')).length < steps →
      r.mstack = argv :: ms → collectArgs env fuel steps r (text.dropWhile (· = ' ')) pos =
        .ok { r with mstack := (argv ++ args) :: ms }) :
    ∃ out, callLine env fuel r ln line = .ok out ∧ out.buf = Buf.ofStr body ∧
      out.r = { r₁ with currentString := some body, mstack := args :: r₁.mstack } := by
  obtain ⟨pos, hdrop, hparse⟩ := roffParse_user (r := r₁) sz hname htext hbody
  have hlen : (text.dropWhile (· = ' ')).length < ('.' :: name ++ ' ' :: text).length + 1 := by
    have := (List.dropWhile_suffix (l := text) (· = ' ')).length_le
    simp only [List.length_append, List.length_cons]
    omega
  have hcall := roffUserdef_of_collect env fuel
    (a := ⟨{ r₁ with currentString := some body }, .ROFF_USERDEF,
      ⟨'.' :: name ++ ' ' :: text, sz⟩, ln, 1, pos, 0⟩) rfl hne
    (by rw [Args.rest, hdrop, hargs _ _ _ [] r₁.mstack hlen rfl, List.nil_append])
  obtain ⟨out, hout, hr, hbuf⟩ := hcall
  refine ⟨out, ?_, hbuf, hr⟩
  rw [callLine, hcomment, Res.ok_bind]
  dsimp only
  rw [hexpand, Res.ok_bind]
  dsimp only
  rw [hparse, Res.ok_bind]
  exact hout

/-- The parser is outside of blocks, tables, and equations, a title or text has been seen, and
    the standard control character is in use. -/
structure Outside (env : Env X) (r : Roff X) : Prop where
  last : r.last = []
  tbl : r.tbl = false
  eqn : r.eqn = false
  delim : r.lastEqn = true → env.eqnDelim r.x = none
  comment : r.optComment = false
  control : r.control = NUL

/-- Outside of all scopes, the name of a request or macro decides what happens. -/
theorem roffControl_of_nil {env : Env X} {fuel ln ppos pos offs : Nat} {r : Roff X} {buf : Buf}
    (hlast : r.last = []) (hpos : ¬ (charAt buf.buf pos = '"' ∨ charAt buf.buf pos = NUL)) :
    roffControl env fuel r ln buf ppos pos offs =
      (roffParse { r with optComment := false } buf pos >>= fun t =>
        roffReqOrMacro env fuel ⟨t.r, t.tok, t.buf, ln, pos, t.pos, offs⟩) := by
  unfold roffControl
  rw [if_neg hpos]
  split
  · next heq => exact absurd (hlast.symm.trans heq) (by simp)
  · rfl

/-- Outside of tables, user-defined macros are called. -/
theorem roffReqOrMacro_user {env : Env X} {fuel : Nat} {a : Args X} (htbl : a.r.tbl = false)
    (htok : a.tok = .ROFF_USERDEF) : roffReqOrMacro env fuel a = roffProc env fuel a := by
  have hce : abortCe a.r .ROFF_USERDEF = a.r := by
    unfold abortCe
    split <;> rfl
  rw [roffReqOrMacro, if_neg (by simp [htbl]), if_neg (by simp [htok]), htok, hce]
  cases a
  cases htok
  rfl

/-- There, `roff_parseln()` processes a line that calls a user-defined macro as `callLine`
    says. -/
theorem roffParseln_call {env : Env X} {fuel : Nat} {r r₁ : Roff X} {ln sz : Nat}
    {line name text body : CStr} {buf : Buf} (hr : Outside env r) (hman : r₁ = { r with man := r₁.man })
    (hcomment : roffParseComment r (Buf.ofStr line) ln 0 r.escape = .ok (ROFF_CONT, r₁, buf))
    (hexpand : roffExpand env fuel r₁ buf 0 r.escape =
      .ok ⟨ROFF_CONT, r₁, ⟨'.' :: name ++ ' ' :: text, sz⟩⟩)
    (hname : CallName name) (htext : NUL ∉ text) (hbody : lookup r₁.strtab name = some body) :
    roffParseln env fuel r ln (Buf.ofStr line) 0 = callLine env fuel r ln line := by
  -- The comment and the escape sequences change neither the modes nor the scopes.
  have hr₁ : Outside env r₁ := by
    rw [hman]
    exact ⟨hr.last, hr.tbl, hr.eqn, hr.delim, hr.comment, hr.control⟩
  have hesc : r₁.escape = r.escape := by rw [hman]
  rw [← hesc] at hexpand
  obtain ⟨pos, hdrop, hparse⟩ := roffParse_user sz hname htext hbody
  set expanded := '.' :: name ++ ' ' :: text with hexpanded
  have hprepare : roffPrepare env fuel r ln (Buf.ofStr line) 0 =
      .ok ⟨ROFF_CONT, r₁, ⟨expanded, sz⟩, 0⟩ := by
    have hdelim : (if !r.tbl && r.lastEqn && (!r.eqn || r.eqnInline) then env.eqnDelim r.x
        else none) = none := by
      rw [hr.tbl, hr.eqn]
      cases hl : r.lastEqn with
      | true => simpa using hr.delim hl
      | false => rfl
    rw [roffPrepare, hdelim, Option.bind_none, hcomment, Res.ok_bind]
    dsimp only
    rw [if_neg (by decide), hexpand]
    rfl
  obtain ⟨c, cs, hcs⟩ := List.exists_cons_of_ne_nil hname.ne_nil
  have hc : c ∈ name := by simp [hcs]
  have hfirst : charAt expanded 1 = c := by
    rw [hexpanded, hcs]
    rfl
  -- The period at the beginning is the control character, and there are no blanks behind it.
  have hcontrol : roffGetcontrol r₁ expanded 0 = some 1 := by
    have hblank : (c = ' ' || c = '\t') = false := hname.noBlank c hc
    have hlt : 1 < expanded.length := by
      simp only [hexpanded, List.length_append, List.length_cons]
      omega
    have hskip : skipWhile (fun c => c = ' ' || c = '\t') expanded 1 = 1 := by
      rw [skipWhile_step _ hlt, hfirst, hblank]
      rfl
    have hdot : charAt expanded 0 = '.' := rfl
    rw [roffGetcontrol, hr₁.control, if_neg (by simp), hdot,
      if_neg fun h => absurd h.1 (by decide), if_pos (.inl rfl), Option.map_some, hskip]
  have hbegin : ¬ (c = '"' ∨ c = NUL) := by
    rintro (rfl | rfl)
    · exact hname.noQuote (by rw [hcs]; rfl)
    · exact hname.plain.noNul hc
  have hopt : { r₁ with optComment := false } = r₁ := by
    rw [← hr₁.comment]
  have hfilter : roffFilter r₁ true ln ⟨expanded, sz⟩ 1 0 =
      .ok ⟨ROFF_CONT, r₁, ⟨expanded, sz⟩, 0⟩ := by
    rw [roffFilter, hr₁.last]
  -- Hence, the macro is called with its definition as the current string.
  have hrequest : roffControl env fuel r₁ ln ⟨expanded, sz⟩ 0 1 0 =
      roffProc env fuel ⟨{ r₁ with currentString := some body }, .ROFF_USERDEF, ⟨expanded, sz⟩,
        ln, 1, pos, 0⟩ := by
    rw [roffControl_of_nil hr₁.last (by rw [hfirst]; exact hbegin), hopt, hparse, Res.ok_bind]
    exact roffReqOrMacro_user hr₁.tbl rfl
  -- The line goes through all the stages up to this call.
  rw [roffParseln, hprepare, Res.ok_bind, if_neg (by simp), roffDispatch]
  dsimp only
  rw [hcontrol]
  dsimp only [Option.getD_some, Option.isSome_some]
  rw [hfilter, Res.ok_bind]
  dsimp only
  rw [if_neg (by decide), hr₁.eqn, if_neg (by simp), hr₁.tbl, if_neg (by simp [hfirst]),
    if_neg (by simp), hrequest, callLine, hcomment, Res.ok_bind]
  dsimp only
  rw [hexpand, Res.ok_bind, hparse, Res.ok_bind]

/-- **Direct calls.** The arguments that a macro receives from a line without escape sequences
    do not depend on the macro. -/
theorem callLine_plain (text : CStr) (htext : Plain '\\' text) :
    ∃ args : List CStr, (∀ arg ∈ args, Plain '\\' arg) ∧
      ∀ (env : Env X) (r : Roff X) (ln : Nat) (name body : CStr), CallName name →
        r.escape = '\\' → lookup r.strtab name = some body → body ≠ [] →
        ∀ fuel, name.length + text.length + 2 < fuel →
          ∃ out, callLine env fuel r ln ('.' :: name ++ ' ' :: text) = .ok out ∧
            out.buf = Buf.ofStr body ∧
            out.r = { r with
              currentString := some body
              mstack := args.map escapeQuotes :: r.mstack } := by
  have hsub : text.dropWhile (· = ' ') ⊆ text := (List.dropWhile_suffix _).subset
  obtain ⟨args, hargs, hcollect⟩ := collectArgs_plain (X := X) _ fun h => htext.noBackslash (hsub h)
  refine ⟨args, fun arg harg => htext.of_subset (List.Subset.trans (hargs arg harg) hsub), ?_⟩
  intro env r ln name body hname hesc hbody hne fuel hfuel
  set line := '.' :: name ++ ' ' :: text with hdef
  -- There is no escape character in the line, so nothing is a comment, and nothing is expanded.
  have hline : Plain '\\' line := by
    have hdot : Plain '\\' ['.'] := ⟨by decide, by decide, by decide, by decide⟩
    have hblank : Plain '\\' [' '] := ⟨by decide, by decide, by decide, by decide⟩
    exact (hdot.append hname.plain).append (hblank.append htext)
  have hcomment : roffParseComment r (Buf.ofStr line) ln 0 r.escape =
      .ok (ROFF_CONT, r, Buf.ofStr line) := by
    rw [hesc]
    exact roffParseComment_plain hline ln
  have hexpand : roffExpand env fuel r (Buf.ofStr line) 0 r.escape =
      .ok ⟨ROFF_CONT, r, Buf.ofStr line⟩ := by
    rw [hesc]
    refine roffExpand_plain env hline ?_
    simp only [hdef, Buf.ofStr, List.length_append, List.length_cons]
    omega
  exact callLine_of_expanded hcomment hexpand hname htext.noNul hbody hne
    fun steps r pos argv ms => hcollect env fuel steps r pos argv ms

/-! ## §5 Aliases -/

/-- The line that an alias of a macro is replaced with. -/
def aliasLine (oldn : CStr) : CStr := '.' :: oldn ++ ' ' :: "\\$@\\\"".toList

/-- A request defining an alias. -/
theorem roffAls_value {a : Args X} {newn oldn : CStr} (hnames : RnNames a newn oldn)
    (hstr : StrTable a.r.strtab) (hold : '\\' ∉ oldn) :
    ∃ out, roffAls a = .ok out ∧ lookup out.r.strtab newn = some (aliasLine oldn ++ ['\n']) := by
  obtain ⟨hne, o, n, ho, rfl, hend, hn, hsz, rfl⟩ := hnames
  set value := '.' :: n.name o.cp ++ " \\$@\\\"\n".toList with hvalue
  refine ⟨a.out ROFF_IGN (roffSetstr a.r (o.name a.pos) (some value) 0), ?_, ?_⟩
  · rw [roffAls, if_neg hne, ho, Res.ok_bind, hend, if_neg (by simp), hn, Res.ok_bind, if_neg hsz]
    rfl
  · have hcopy : copyMode value = value := by
      have hdot : '\\' ∉ '.' :: n.name o.cp := by simpa using hold
      rw [hvalue, copyMode_append hdot]
      rfl
    have hlook : lookup (roffSetstrn a.r.strtab (o.name a.pos) (some value) 0) (o.name a.pos) =
        some value := by
      rw [lookup_setstrn_self hstr, setVal, hcopy]
      simp
    refine hlook.trans (congrArg some ?_)
    rw [hvalue, aliasLine, List.append_assoc]
    rfl

/-- A plain beginning of a line is skipped when looking for a comment. -/
theorem commentScan_append {ec : Char} {s : CStr} (hs : Plain ec s) (c : Char) (t : CStr) (i : Nat) :
    commentScan ec (s ++ c :: t) i = commentScan ec (c :: t) (i + s.length) := by
  induction s generalizing i with
  | nil => rfl
  | cons b s ih =>
    have hnl : b ≠ '\n' := fun h => hs.noNewline (h ▸ List.mem_cons_self)
    have hec : b ≠ ec := fun h => hs.noEscape (h ▸ List.mem_cons_self)
    have hrest := ih hs.tail (i + 1)
    rw [List.cons_append]
    obtain ⟨d, u, hdu⟩ : ∃ d u, s ++ c :: t = d :: u :=
      List.exists_cons_of_ne_nil (by simp)
    rw [hdu] at hrest ⊢
    rw [commentScan, if_neg hnl, if_pos hec, hrest, List.length_cons]
    congr 1
    omega

/-- Saving a comment only changes the syntax tree. -/
theorem saveComment_man {r r₁ : Roff X} {ln pos : Nat} {comment : CStr}
    (h : saveComment r ln pos comment = .ok r₁) : r₁ = { r with man := r₁.man } := by
  unfold saveComment at h
  split at h
  · obtain ⟨man, -, hman⟩ := Res.bind_eq_ok.mp h
    cases hman
    rfl
  · cases h
    rfl

/-- Whether a comment can be saved depends on the syntax tree only. -/
theorem saveComment_congr {r r₁ r' : Roff X} {ln pos : Nat} {comment : CStr}
    (h : saveComment r ln pos comment = .ok r₁) (hman : r'.man = r.man)
    (hopt : r'.optComment = r.optComment) :
    saveComment r' ln pos comment = .ok { r' with man := r₁.man } := by
  unfold saveComment at h ⊢
  split at h
  · next hc =>
    obtain ⟨man, hleaf, hr⟩ := Res.bind_eq_ok.mp h
    cases hr
    rw [if_pos (hopt.trans hc), hman, hleaf]
    rfl
  · next hc =>
    cases h
    rw [if_neg (hopt.symm ▸ hc), ← hman]
    rfl

/-- The comment at the end of the line of an alias. -/
theorem roffParseComment_alias {r r₁ : Roff X} {oldn : CStr} (hold : Plain '\\' oldn) (ln : Nat)
    (hsave : saveComment r ln (oldn.length + 6) [] = .ok r₁) :
    roffParseComment r (Buf.ofStr (aliasLine oldn)) ln 0 '\\' =
      .ok (ROFF_CONT, r₁, ⟨'.' :: oldn ++ ' ' :: "\\$@".toList, (aliasLine oldn).length + 1⟩) := by
  have hstart : Plain '\\' ('.' :: oldn ++ [' ']) := by
    have hdot : Plain '\\' ['.'] := ⟨by decide, by decide, by decide, by decide⟩
    have hblank : Plain '\\' [' '] := ⟨by decide, by decide, by decide, by decide⟩
    exact (hdot.append hold).append hblank
  have hline : aliasLine oldn = ('.' :: oldn ++ [' ']) ++ "\\$@\\\"".toList := by
    rw [aliasLine, List.append_assoc]
    rfl
  have hlen : ('.' :: oldn ++ [' ']).length = oldn.length + 2 := by simp
  have hscan : commentScan '\\' (aliasLine oldn) 0 = .ok (.comment (oldn.length + 5)) := by
    rw [hline]
    refine (commentScan_append hstart '\\' "$@\\\"".toList 0).trans ?_
    rw [hlen, Nat.zero_add]
    rfl
  -- The comment is empty, and the byte before it is not a blank.
  have hcomment : (aliasLine oldn).drop (oldn.length + 5 + 2) = [] := by
    refine List.drop_eq_nil_of_le ?_
    rw [hline, List.length_append, hlen]
    rfl
  have hhash : charAt (aliasLine oldn) (oldn.length + 5 + 1) = '"' := by
    rw [hline, show oldn.length + 5 + 1 = ('.' :: oldn ++ [' ']).length + 4 by rw [hlen],
      charAt_append]
    rfl
  have hlast : charAt (aliasLine oldn) (oldn.length + 4) = '@' := by
    rw [hline, show oldn.length + 4 = ('.' :: oldn ++ [' ']).length + 2 by rw [hlen], charAt_append]
    rfl
  have htake : (aliasLine oldn).take (oldn.length + 5) = '.' :: oldn ++ ' ' :: "\\$@".toList := by
    rw [hline, show oldn.length + 5 = ('.' :: oldn ++ [' ']).length + 3 by rw [hlen],
      List.take_length_add_append, List.append_assoc]
    rfl
  have hids : rcsIds [] r.man.rcsids = r.man.rcsids := rfl
  have hbuf : Buf.ofStr (aliasLine oldn) = ⟨aliasLine oldn, (aliasLine oldn).length + 1⟩ := rfl
  rw [hbuf, roffParseComment]
  dsimp only
  rw [List.drop_zero, hscan, Res.ok_bind]
  dsimp only
  rw [hcomment, hids, hsave, Res.ok_bind, if_neg (by rw [hhash]; decide), stripBlanks,
    if_neg (by rw [hlast]; simp), htake]
  rfl

/-- **Calls through an alias.** The line of an alias calls the macro with the arguments of the
    alias. -/
theorem callLine_alias (env : Env X) {r r₁ : Roff X} {ln : Nat} {oldn body : CStr}
    {args : List CStr} {ms : List (List CStr)} (hname : CallName oldn) (hesc : r.escape = '\\')
    (hbody : lookup r.strtab oldn = some body) (hne : body ≠ [])
    (hargs : ∀ arg ∈ args, Plain '\\' arg) (hr : r.mstack = args.map escapeQuotes :: ms)
    (hsave : saveComment r ln (oldn.length + 6) [] = .ok r₁) :
    ∃ k, ∀ fuel, k ≤ fuel → ∃ out, callLine env fuel r ln (aliasLine oldn) = .ok out ∧
      out.buf = Buf.ofStr body ∧ out.r.mstack = args.map escapeQuotes :: r.mstack := by
  have hman := saveComment_man hsave
  have hstored : ∀ arg ∈ args.map escapeQuotes, Inert arg ∧ '"' ∉ arg := by
    intro arg harg
    obtain ⟨b, hb, rfl⟩ := List.mem_map.mp harg
    exact escapeQuotes_inert (hargs b hb)
  have hinert : Inert ('.' :: oldn ++ [' ']) :=
    .char (by decide) (by decide)
      ((Inert.of_plain hname.plain).append (.char (by decide) (by decide) .nil))
  have hmstack : r₁.mstack = args.map escapeQuotes :: ms := by
    rw [hman]
    exact hr
  have hescape : r₁.escape = '\\' := by
    rw [hman]
    exact hesc
  obtain ⟨sz, k, hk⟩ := roffExpand_args env ((aliasLine oldn).length + 1) hmstack hinert
    fun arg harg => (hstored arg harg).1
  refine ⟨k, fun fuel hfuel => ?_⟩
  set pasted := pasteArgs true (args.map escapeQuotes) with hpasted
  -- The pasted text begins with a quote, so no blanks are skipped.
  have hskip : pasted.dropWhile (· = ' ') = pasted := by
    cases hl : args.map escapeQuotes with
    | nil => rw [hpasted, hl]; rfl
    | cons arg argv => rw [hpasted, hl, pasteArgs_cons]; rfl
  have hnul : NUL ∉ pasted := (pasteArgs_inert fun arg harg => (hstored arg harg).1).noNul
  have hcomment := roffParseComment_alias hname.plain ln hsave
  have hexpand : roffExpand env fuel r₁
      ⟨'.' :: oldn ++ ' ' :: "\\$@".toList, (aliasLine oldn).length + 1⟩ 0 r₁.escape =
        .ok ⟨ROFF_CONT, r₁, ⟨'.' :: oldn ++ ' ' :: pasted, sz⟩⟩ := by
    have h := hk fuel hfuel
    rw [List.append_assoc, List.append_assoc] at h
    rw [hescape]
    exact h
  rw [← hesc] at hcomment
  have hlook : lookup r₁.strtab oldn = some body := by
    rw [hman]
    exact hbody
  obtain ⟨out, hout, hbuf, hr'⟩ := callLine_of_expanded hcomment hexpand hname hnul hlook hne
    fun steps r pos argv ms hsteps hr => by
      rw [hskip] at hsteps ⊢
      exact collectArgs_pasteArgs env fuel hstored steps r pos argv ms hsteps hr
  refine ⟨out, hout, hbuf, ?_⟩
  rw [hr', hman]

/-- **Round trip of macro arguments.** Every argument advances the parse point exactly as far as
    the argument pointer. Pasting the stored arguments of a macro with `\$@` into a line and
    collecting the arguments of that line again yields the same list. A macro that is called
    through an alias receives the same arguments as when it is called directly. -/
theorem roffArgs_roundTrip (env : Env X) :
    (∀ fuel (r : Roff X) src pos g, roffGetarg env fuel r src pos = .ok g →
      g.rest.length ≤ src.length ∧ g.pos = pos + (src.length - g.rest.length)) ∧
    (∀ (r : Roff X) (args : List CStr) ms line, r.mstack = args.map escapeQuotes :: ms →
      (∀ arg ∈ args, Plain '\\' arg) → Plain '\\' line →
        ∃ pasted sz k, ∀ fuel, k ≤ fuel →
          roffExpand env fuel r (Buf.ofStr (line ++ "\\$@".toList)) 0 '\\' =
            .ok ⟨ROFF_CONT, r, ⟨line ++ pasted, sz⟩⟩ ∧
          ∀ steps pos, pasted.length < steps →
            collectArgs env fuel steps { r with mstack := [] :: r.mstack } pasted pos =
              .ok { r with mstack := args.map escapeQuotes :: r.mstack }) ∧
    (∀ (a : Args X) newn oldn, RnNames a newn oldn → StrTable a.r.strtab → '\\' ∉ oldn →
      ∃ out, roffAls a = .ok out ∧ lookup out.r.strtab newn = some (aliasLine oldn ++ ['\n'])) ∧
    (∀ (r r₁ : Roff X) ln newn oldn body text, CallName newn → CallName oldn → r.escape = '\\' →
      lookup r.strtab newn = some (aliasLine oldn ++ ['\n']) →
      lookup r.strtab oldn = some body → body ≠ [] → Plain '\\' text →
      saveComment r ln (oldn.length + 6) [] = .ok r₁ →
        ∃ args k, ∀ fuel, k ≤ fuel → ∃ direct via out,
          callLine env fuel r ln ('.' :: oldn ++ ' ' :: text) = .ok direct ∧
          direct.buf = Buf.ofStr body ∧ direct.r.mstack = args :: r.mstack ∧
          callLine env fuel r ln ('.' :: newn ++ ' ' :: text) = .ok via ∧
          via.buf = Buf.ofStr (aliasLine oldn ++ ['\n']) ∧ via.r.mstack = args :: r.mstack ∧
          callLine env fuel via.r ln (aliasLine oldn) = .ok out ∧
          out.buf = Buf.ofStr body ∧ out.r.mstack = args :: args :: r.mstack) := by
  refine ⟨fun fuel r src pos g h => (roffGetarg_pos env fuel r src pos).of_eq_ok h, ?_,
    fun a newn oldn => roffAls_value, ?_⟩
  · -- The arguments are pasted by an escape sequence, and collected again.
    intro r args ms line hr hargs hline
    have hstored : ∀ arg ∈ args.map escapeQuotes, Inert arg ∧ '"' ∉ arg := by
      intro arg harg
      obtain ⟨b, hb, rfl⟩ := List.mem_map.mp harg
      exact escapeQuotes_inert (hargs b hb)
    obtain ⟨sz, k, hk⟩ := roffExpand_args env ((line ++ "\\$@".toList).length + 1) hr
      (.of_plain hline) fun arg harg => (hstored arg harg).1
    refine ⟨_, sz, k, fun fuel hfuel => ⟨hk fuel hfuel, fun steps pos hsteps => ?_⟩⟩
    exact collectArgs_pasteArgs env fuel hstored steps _ pos [] r.mstack hsteps rfl
  · -- The macro is called once directly, and once by its alias.
    intro r r₁ ln newn oldn body text hnew hold hesc halias hbody hne htext hsave
    obtain ⟨args, hargs, hcall⟩ := callLine_plain (X := X) text htext
    set r' : Roff X := { r with
      currentString := some (aliasLine oldn ++ ['\n'])
      mstack := args.map escapeQuotes :: r.mstack } with hr'
    have hsave' : saveComment r' ln (oldn.length + 6) [] = .ok { r' with man := r₁.man } :=
      saveComment_congr hsave rfl rfl
    -- The line of the alias calls the macro with the arguments it has received itself.
    obtain ⟨k, hk⟩ := callLine_alias env (r := r') hold hesc hbody hne hargs rfl hsave'
    refine ⟨args.map escapeQuotes, k + newn.length + oldn.length + text.length + 3,
      fun fuel hfuel => ?_⟩
    obtain ⟨direct, hdirect, hbuf, hmstack⟩ :=
      hcall env r ln oldn body hold hesc hbody hne fuel (by omega)
    obtain ⟨via, hvia, hbuf', hmstack'⟩ :=
      hcall env r ln newn _ hnew hesc halias (by simp) fuel (by omega)
    obtain ⟨out, hout, hbuf'', hmstack''⟩ := hk fuel (by omega)
    refine ⟨direct, via, out, hdirect, hbuf, ?_, hvia, hbuf', ?_, ?_, hbuf'', hmstack''⟩
    · rw [hmstack]
    · rw [hmstack']
    · rw [hmstack']
      exact hout

/-- A state in which `y` is an alias of the macro `x`. -/
def aliasState : Roff Unit :=
  { roffAlloc () with
    strtab := [⟨['x'], some "foo\n".toList⟩, ⟨['y'], some (aliasLine ['x'] ++ ['\n'])⟩]
    optComment := false }

/-- An empty argument, an argument with a blank, an argument that is a quote, and an argument with
    a tab. -/
theorem roffArgs_roundTrip_xy :
    (∃ pasted sz k, ∀ fuel, k ≤ fuel →
      roffExpand plainEnv fuel { aliasState with mstack := [["".toList, "a b".toList, ['"'],
        "c\td".toList].map escapeQuotes] } (Buf.ofStr (".x ".toList ++ "\\$@".toList)) 0 '\\' =
          .ok ⟨ROFF_CONT, { aliasState with mstack := [["".toList, "a b".toList, ['"'],
            "c\td".toList].map escapeQuotes] }, ⟨".x ".toList ++ pasted, sz⟩⟩) ∧
    (∃ out, roffAls (rnLine [] "y x".toList) = .ok out ∧
      lookup out.r.strtab ['y'] = some (aliasLine ['x'] ++ ['\n'])) ∧
    (∃ args k, ∀ fuel, k ≤ fuel → ∃ via out,
      callLine plainEnv fuel aliasState 1 ".y \"a b\" \"\"\"\"".toList = .ok via ∧
      callLine plainEnv fuel via.r 1 (aliasLine ['x']) = .ok out ∧
      out.r.mstack = [args, args]) := by
  obtain ⟨-, hpaste, hals, hcall⟩ := roffArgs_roundTrip plainEnv
  have hplain : ∀ s : CStr, decide ('\\' ∉ s ∧ NUL ∉ s ∧ '\n' ∉ s) = true → Plain '\\' s :=
    fun s hs => ⟨(of_decide_eq_true hs).1, (of_decide_eq_true hs).1, (of_decide_eq_true hs).2.1,
      (of_decide_eq_true hs).2.2⟩
  refine ⟨?_, ?_, ?_⟩
  · obtain ⟨pasted, sz, k, hk⟩ := hpaste
      { aliasState with mstack := [["".toList, "a b".toList, ['"'], "c\td".toList].map escapeQuotes] }
      _ [] ".x ".toList rfl (fun arg harg => hplain arg (by revert arg; decide)) (hplain _ (by decide))
    exact ⟨pasted, sz, k, fun fuel hfuel => (hk fuel hfuel).1⟩
  · exact hals (rnLine [] "y x".toList) ['y'] ['x']
      ⟨by decide, ⟨"y x".toList, 1, 2⟩, ⟨"y x".toList, 1, 3⟩, by decide +kernel, by decide,
        by decide, by decide +kernel, by decide, by decide⟩ (.set _ _ _ .nil) (by decide)
  · obtain ⟨args, k, hk⟩ := hcall aliasState aliasState 1 ['y'] ['x'] "foo\n".toList
      "\"a b\" \"\"\"\"".toList ⟨by decide, hplain _ (by decide), by decide, by simp [endsWord]⟩
      ⟨by decide, hplain _ (by decide), by decide, by simp [endsWord]⟩ rfl (by decide +kernel)
      (by decide +kernel) (by decide) (hplain _ (by decide +kernel)) rfl
    refine ⟨args, k, fun fuel hfuel => ?_⟩
    obtain ⟨_, via, out, -, -, -, hvia, -, -, hout, -, hmstack⟩ := hk fuel hfuel
    exact ⟨via, out, hvia, hout, hmstack⟩

end Mandoc
