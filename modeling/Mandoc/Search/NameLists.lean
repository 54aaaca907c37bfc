import Mandoc.Lib.SizedBuffer
import Mandoc.Search.DbaRead

/-!
# Printing lists of names

`lstlen`, `lstcat`, `buildnames`, and `buildoutput` in `mansearch.c`.  A list of strings in the
database is printed into a buffer whose size has been computed before, by another loop over the
same list.  Both loops skip the names that appear only in the SYNOPSIS, and both put a separator
in front of each string but the first; but one looks at the size so far, and the other one at the
position in the buffer.

Sizes are natural numbers here: a text whose size is not a `size_t` has no buffer to go to.
-/

namespace Mandoc

/-! ## §1 The program -/

/-- `NAME_SYN & NAME_MASK`. -/
def nameSynClass : Int := 1

/-- The result of a write: a fault beyond the end of the allocated memory. -/
def inBounds {β : Type} : Option β → Res β
  | none => .error .overrun
  | some b => .ok b

/-- The loop of `lstlen`.  The first argument bounds the number of iterations. -/
def lstlenLoop (sep : Nat) : Nat → Ptr → Nat → Res Nat
  | 0, _, _ => .error .fuel
  | n + 1, cp, sz => do
    let c ← cp.get
    if c = 0 then return sz
    -- Skip names appearing only in the SYNOPSIS.
    if charValue c ≤ nameSynClass then
      lstlenLoop sep n (← cp.skipStr) sz
    else
      -- Skip name class markers.
      let cp := if charValue c < 0x20 then cp.add 1 else cp
      -- A separator before each but the first string.
      let sz := if sz = 0 then sz else sz + sep
      let s ← cp.str
      lstlenLoop sep n (← cp.skipStr) (sz + s.length)

/-- `lstlen`: the buffer space needed to print a list of strings. -/
def lstlen (cp : Ptr) (sep : Nat) : Res Nat := lstlenLoop sep (cp.mem.length + 1) cp 0

/-- The loop of `lstcat`, from the position `iStart` on. -/
def lstcatLoop (sep : Ptr) (iStart : Nat) : Nat → Ptr → SizedBuffer UInt8 → Res (SizedBuffer UInt8)
  | 0, _, _ => .error .fuel
  | n + 1, cp, buf => do
    let c ← cp.get
    if c = 0 then return buf
    -- Skip names appearing only in the SYNOPSIS.
    if charValue c ≤ nameSynClass then
      lstcatLoop sep iStart n (← cp.skipStr) buf
    else
      -- Skip name class markers.
      let cp := if charValue c < 0x20 then cp.add 1 else cp
      if iStart < buf.written.length then
        -- A separator before each but the first string.
        let buf ← inBounds (buf.puts (← sep.str))
        let buf ← inBounds (buf.puts (← cp.str))
        lstcatLoop sep iStart n (← cp.skipStr) buf
      else
        let buf ← inBounds (buf.puts (← cp.str))
        lstcatLoop sep iStart n (← cp.skipStr) buf

/-- `lstcat`: print a list of strings into a buffer; `*i` is the number of bytes written. -/
def lstcat (buf : SizedBuffer UInt8) (cp sep : Ptr) : Res (SizedBuffer UInt8) :=
  lstcatLoop sep buf.written.length (cp.mem.length + 1) cp buf

/-- The part of the size in `buildnames` that belongs to the architectures. -/
def archlen : Option Ptr → Res Nat
  | none => return 0
  | some arch => return 1 + (← lstlen arch 2)

/-- The part of `buildnames` that prints the architectures. -/
def archcat (buf : SizedBuffer UInt8) : Option Ptr → Res (SizedBuffer UInt8)
  | none => return buf
  | some arch => do
    let buf ← inBounds (buf.put 0x2f)
    lstcat buf arch (constant ", ")

/-- `assert(i == sz)`, and the string in the buffer, with the NUL at its end. -/
def finished (buf : SizedBuffer UInt8) : Res (List UInt8) :=
  if buf.written.length = buf.size then .ok buf.written else .error .abort

/-- `buildnames`: the names, sections, and architectures of a page. -/
def buildnames (page : DbmPage) : Res (List UInt8) := do
  let sz := (← lstlen page.name 2) + 1 + (← lstlen page.sect 2) + (← archlen page.arch) + 2
  let buf ← lstcat (.alloc sz) page.name (constant ", ")
  let buf ← inBounds (buf.put 0x28)
  let buf ← lstcat buf page.sect (constant ", ")
  let buf ← archcat buf page.arch
  let buf ← inBounds (buf.put 0x29)
  let buf ← inBounds (buf.put 0)
  finished buf

/-- The output keys that are not macros. -/
def keyArch : Nat := 0
def keySec : Nat := 1
def keyNm : Nat := 38
def keyNd : Nat := 39

/-- The list that `buildoutput` prints for a key, if it prints a list. -/
def outputList (im : Nat) (page : DbmPage) : Option Ptr :=
  if im = keyNm then some page.name
  else if im = keySec then some page.sect
  else if im = keyArch then some (page.arch.getD (constant "all\x00"))
  else none

/-- The part of `buildoutput` that prints a list. -/
def listOutput (input : Ptr) : Res (List UInt8) := do
  let sz := (← lstlen input 3) + 1
  let buf ← lstcat (.alloc sz) input (constant " # ")
  let buf ← inBounds (buf.put 0)
  finished buf

/-- The loop of `buildoutput` over the values of a macro: the output so far is `NULL` before the
    first value. -/
def macroOutput (db : Dbm) : Nat → MacroIter → Option Str → Res (Option Str)
  | 0, _, _ => .error .fuel
  | n + 1, it, output => do
    let (value, it) ← dbmMacroNext db it
    match value with
    | none => return output
    | some value =>
      let value ← value.str
      match output with
      | none => macroOutput db n it (some value)
      | some oldoutput =>
        macroOutput db n it (some (oldoutput ++ " # ".toUTF8.toList ++ value))

/-- `buildoutput` for the page with the number `ip`: the string in the returned buffer, with the
    NUL at its end. -/
def buildoutput (db : Dbm) (im : Nat) (page : DbmPage) (ip : Nat) (it : MacroIter) :
    Res (Option (List UInt8)) := do
  if im = keyNd then return some ((← page.desc.str) ++ [0])
  match outputList im page with
  | some input => some <$> listOutput input
  | none =>
    let it ← dbmMacroBypage db (im - 2) (pageAddr ip) it
    let output ← macroOutput db (db.base.length + 1) it none
    return output.map (· ++ [0])

/-! ## §2 What is printed -/

/-- What is printed of a string: nothing for a name that appears only in the SYNOPSIS, and
    otherwise what follows the class marker, if there is one. -/
def shownName : Str → Option Str
  | [] => none
  | c :: s =>
    if charValue c ≤ nameSynClass then none
    else if charValue c < 0x20 then some s
    else some (c :: s)

/-- One more name behind a text. -/
def addListed (sep out name : Str) : Str := if out = [] then name else out ++ sep ++ name

/-- A text, and behind it the names of a list. -/
def namesBehind (sep out : Str) (ss : List Str) : Str :=
  (ss.filterMap shownName).foldl (addListed sep) out

/-- The names of a list, with separators between them. -/
def namesText (sep : Str) (ss : List Str) : Str := namesBehind sep [] ss

theorem namesBehind_skip {sep out s : Str} {ss : List Str} (h : shownName s = none) :
    namesBehind sep out (s :: ss) = namesBehind sep out ss := by
  rw [namesBehind, List.filterMap_cons_none h]
  rfl

theorem namesBehind_show {sep out s name : Str} {ss : List Str} (h : shownName s = some name) :
    namesBehind sep out (s :: ss) = namesBehind sep (addListed sep out name) ss := by
  rw [namesBehind, List.filterMap_cons_some h]
  rfl

theorem addListed_nil (sep name : Str) : addListed sep [] name = name := if_pos rfl

theorem addListed_of_ne_nil {sep out name : Str} (h : out ≠ []) :
    addListed sep out name = out ++ sep ++ name := if_neg h

/-- The first string is the one in front of which the size is zero. -/
theorem length_addListed (sep out name : Str) :
    (addListed sep out name).length =
      (if out.length = 0 then out.length else out.length + sep.length) + name.length := by
  by_cases h : out = []
  · subst h
    simp [addListed]
  · rw [addListed_of_ne_nil h, if_neg (fun hlen => h (List.length_eq_zero_iff.mp hlen))]
    simp [Nat.add_assoc]

theorem le_length_addListed (sep out name : Str) :
    out.length ≤ (addListed sep out name).length := by
  rw [length_addListed]
  split
  · exact Nat.le_add_right _ _
  · exact Nat.le_trans (Nat.le_add_right _ _) (Nat.le_add_right _ _)

/-- The text only grows. -/
theorem le_length_namesBehind (sep out : Str) (ss : List Str) :
    out.length ≤ (namesBehind sep out ss).length := by
  induction ss generalizing out with
  | nil => exact Nat.le_refl _
  | cons s ss ih =>
    cases h : shownName s with
    | none =>
      rw [namesBehind_skip h]
      exact ih out
    | some name =>
      rw [namesBehind_show h]
      exact Nat.le_trans (le_length_addListed ..) (ih _)

/-! ## §3 The two loops -/

/-- A list of strings in memory. -/
structure StringList (p : Ptr) (ss : List Str) : Prop where
  /-- The strings are not empty. -/
  proper : ProperStrings ss
  /-- They are followed by an empty string. -/
  bytes : ∃ r, p.rest = lstBytes ss ++ r

/-- There are fewer strings than bytes of memory. -/
theorem StringList.length_lt {p : Ptr} {ss : List Str} (h : StringList p ss) :
    ss.length < p.mem.length + 1 := by
  obtain ⟨r, hr⟩ := h.bytes
  have hmem : p.rest.length ≤ p.mem.length := by simp [Ptr.rest]
  rw [hr, List.length_append] at hmem
  exact Nat.lt_succ_of_le (Nat.le_trans (length_le_length_lstBytes ss)
    (Nat.le_trans (Nat.le_add_right _ _) hmem))

theorem rest_cons {p : Ptr} {s : Str} {ss : List Str} {r : List UInt8}
    (h : p.rest = lstBytes (s :: ss) ++ r) : p.rest = s ++ 0 :: (lstBytes ss ++ r) := by
  rw [h, lstBytes_cons, strBytes]
  simp

/-- Behind the class marker is the name that is printed. -/
theorem rest_marker {p : Ptr} {c : UInt8} {s r : List UInt8} (h : p.rest = c :: s ++ 0 :: r)
    (hnul : NulFree (c :: s)) (hc : ¬ charValue c ≤ nameSynClass) :
    ∃ name, shownName (c :: s) = some name ∧ NulFree name ∧
      (if charValue c < 0x20 then p.add 1 else p).rest = name ++ 0 :: r := by
  by_cases hmark : charValue c < 0x20
  · refine ⟨s, ?_, fun hmem => hnul (List.mem_cons_of_mem c hmem), ?_⟩
    · rw [shownName, if_neg hc, if_pos hmark]
    · rw [if_pos hmark, Ptr.rest_add, h]
      rfl
  · refine ⟨c :: s, ?_, hnul, ?_⟩
    · rw [shownName, if_neg hc, if_neg hmark]
    · rw [if_neg hmark, h]

/-- The loop of `lstlen` computes the length of the text. -/
theorem lstlenLoop_eq {sep : Str} {ss : List Str} (hss : ProperStrings ss) {p : Ptr}
    {r : List UInt8} (h : p.rest = lstBytes ss ++ r) {n : Nat} (hn : ss.length < n) (out : Str) :
    lstlenLoop sep.length n p out.length = .ok (namesBehind sep out ss).length := by
  induction ss generalizing p n out with
  | nil =>
    obtain ⟨n, rfl⟩ := Nat.exists_eq_add_one.mpr hn
    have hget : p.get = .ok 0 := Ptr.get_of_rest h
    rw [lstlenLoop, hget]
    rfl
  | cons s ss ih =>
    obtain ⟨n, rfl⟩ := Nat.exists_eq_add_one.mpr (Nat.zero_lt_of_lt hn)
    have hlt := Nat.lt_of_succ_lt_succ hn
    obtain ⟨hne, hnul⟩ := hss s (List.mem_cons_self ..)
    have hss' : ProperStrings ss := fun t ht => hss t (List.mem_cons_of_mem s ht)
    obtain ⟨c, s, rfl⟩ := List.exists_cons_of_ne_nil hne
    have hrest := rest_cons h
    have hc : c ≠ 0 := fun heq => hnul (heq ▸ List.mem_cons_self ..)
    rw [lstlenLoop, Ptr.get_of_rest hrest, Res.ok_bind, if_neg hc]
    by_cases hsyn : charValue c ≤ nameSynClass
    · -- The whole string is skipped.
      have hskip : shownName (c :: s) = none := by rw [shownName, if_pos hsyn]
      rw [if_pos hsyn, Ptr.skipStr_of_rest hnul hrest, Res.ok_bind,
        ih hss' (Ptr.rest_skipStr hrest) hlt, namesBehind_skip hskip]
    · -- The string behind the marker is counted.
      obtain ⟨name, hshow, hname, hplace⟩ := rest_marker hrest hnul hsyn
      rw [if_neg hsyn]
      simp only [Ptr.str_of_rest hname hplace, Ptr.skipStr_of_rest hname hplace, Res.ok_bind]
      rw [← length_addListed, ih hss' (Ptr.rest_skipStr hplace) hlt, namesBehind_show hshow]

/-- A piece of the program that prints a text, if there is room for it. -/
def Prints (f : SizedBuffer UInt8 → Res (SizedBuffer UInt8)) (text : Str) : Prop :=
  ∀ b : SizedBuffer UInt8, b.written.length + text.length ≤ b.size →
    ∃ b', f b = .ok b' ∧ b'.size = b.size ∧ b'.written = b.written ++ text

theorem prints_nil : Prints pure [] :=
  fun b _ => ⟨b, rfl, rfl, (List.append_nil _).symm⟩

theorem prints_puts (s : Str) : Prints (fun b => inBounds (b.puts s)) s := by
  intro b hroom
  obtain ⟨b', hputs, hafter⟩ := SizedBuffer.exists_puts hroom
  exact ⟨b', congrArg inBounds hputs, hafter⟩

theorem prints_put (c : UInt8) : Prints (fun b => inBounds (b.put c)) [c] := by
  intro b hroom
  obtain ⟨b', hput, hafter⟩ := SizedBuffer.exists_put hroom
  exact ⟨b', congrArg inBounds hput, hafter⟩

/-- One piece after the other. -/
theorem Prints.comp {f g : SizedBuffer UInt8 → Res (SizedBuffer UInt8)} {s t : Str}
    (hf : Prints f s) (hg : Prints g t) : Prints (fun b => f b >>= g) (s ++ t) := by
  intro b hroom
  rw [List.length_append] at hroom
  obtain ⟨b₁, hrun₁, hsize₁, hwritten₁⟩ := hf b (by omega)
  obtain ⟨b₂, hrun₂, hsize₂, hwritten₂⟩ := hg b₁ (by
    rw [hwritten₁, hsize₁, List.length_append]
    omega)
  refine ⟨b₂, by simp only [hrun₁, Res.ok_bind, hrun₂], hsize₂.trans hsize₁, ?_⟩
  rw [hwritten₂, hwritten₁, List.append_assoc]

/-- In a buffer of the size of the text, the text can be printed, and then the buffer is full. -/
theorem Prints.finished {f : SizedBuffer UInt8 → Res (SizedBuffer UInt8)} {text : Str}
    (hf : Prints f text) {sz : Nat} (hsz : sz = text.length) :
    (f (.alloc sz) >>= Mandoc.finished) = .ok text := by
  obtain ⟨b, hrun, hsize, hwritten⟩ := hf (.alloc sz) (by
    rw [SizedBuffer.alloc_written, SizedBuffer.alloc_size, hsz, List.length_nil, Nat.zero_add])
  rw [SizedBuffer.alloc_size] at hsize
  rw [SizedBuffer.alloc_written, List.nil_append] at hwritten
  rw [hrun, Res.ok_bind, Mandoc.finished, if_pos (by rw [hwritten, hsize, hsz]), hwritten]

/-- The loop of `lstcat` prints the text behind what was in the buffer before: `pre`, and the
    part `out` of the text. -/
theorem lstcatLoop_eq {sep : Ptr} {t : Str} {q : List UInt8} (hsep : sep.rest = t ++ 0 :: q)
    (ht : NulFree t) {ss : List Str} (hss : ProperStrings ss) {p : Ptr} {r : List UInt8}
    (h : p.rest = lstBytes ss ++ r) {n : Nat} (hn : ss.length < n) {pre out : Str}
    {b : SizedBuffer UInt8} (hb : b.written = pre ++ out)
    (hroom : pre.length + (namesBehind t out ss).length ≤ b.size) :
    ∃ b', lstcatLoop sep pre.length n p b = .ok b' ∧ b'.size = b.size ∧
      b'.written = pre ++ namesBehind t out ss := by
  induction ss generalizing p n out b with
  | nil =>
    obtain ⟨n, rfl⟩ := Nat.exists_eq_add_one.mpr hn
    have hget : p.get = .ok 0 := Ptr.get_of_rest h
    exact ⟨b, by rw [lstcatLoop, hget]; rfl, rfl, hb⟩
  | cons s ss ih =>
    obtain ⟨n, rfl⟩ := Nat.exists_eq_add_one.mpr (Nat.zero_lt_of_lt hn)
    have hlt := Nat.lt_of_succ_lt_succ hn
    obtain ⟨hne, hnul⟩ := hss s (List.mem_cons_self ..)
    have hss' : ProperStrings ss := fun t ht => hss t (List.mem_cons_of_mem s ht)
    obtain ⟨c, s, rfl⟩ := List.exists_cons_of_ne_nil hne
    have hrest := rest_cons h
    have hc : c ≠ 0 := fun heq => hnul (heq ▸ List.mem_cons_self ..)
    rw [lstcatLoop, Ptr.get_of_rest hrest, Res.ok_bind, if_neg hc]
    by_cases hsyn : charValue c ≤ nameSynClass
    · have hskip : shownName (c :: s) = none := by rw [shownName, if_pos hsyn]
      rw [namesBehind_skip hskip] at hroom ⊢
      rw [if_pos hsyn, Ptr.skipStr_of_rest hnul hrest, Res.ok_bind]
      exact ih hss' (Ptr.rest_skipStr hrest) hlt hb hroom
    · obtain ⟨name, hshow, hname, hplace⟩ := rest_marker hrest hnul hsyn
      rw [namesBehind_show hshow] at hroom ⊢
      rw [if_neg hsyn]
      simp only [Ptr.str_of_rest hname hplace, Ptr.skipStr_of_rest hname hplace,
        Ptr.str_of_rest ht hsep, Res.ok_bind]
      -- What follows only adds to the text, so there is room for this string.
      have hsize : pre.length + (addListed t out name).length ≤ b.size :=
        Nat.le_trans (Nat.add_le_add_left (le_length_namesBehind ..) _) hroom
      by_cases hout : out = []
      · -- The position is where it was at the start: no separator.
        subst hout
        rw [addListed_nil] at hsize hroom ⊢
        rw [List.append_nil] at hb
        obtain ⟨b₁, hwrite, hsize₁, hwritten⟩ := prints_puts name b (by rw [hb]; exact hsize)
        dsimp only at hwrite
        rw [if_neg (by rw [hb]; exact Nat.lt_irrefl _), hwrite, Res.ok_bind, ← hsize₁]
        exact ih hss' (Ptr.rest_skipStr hplace) hlt (by rw [hwritten, hb]) (hsize₁ ▸ hroom)
      · -- Something has been printed, so the position has moved.
        have hpos : pre.length < b.written.length := by
          rw [hb, List.length_append]
          exact Nat.lt_add_of_pos_right (List.length_pos_iff.mpr hout)
        rw [addListed_of_ne_nil hout] at hsize hroom ⊢
        rw [List.append_assoc, List.length_append] at hsize
        obtain ⟨b₂, hwrite, hsize₂, hwritten₂⟩ := (prints_puts t).comp (prints_puts name) b
          (by rw [hb, List.length_append]; omega)
        obtain ⟨b₁, hwrite₁, hwrite₂⟩ := Res.bind_eq_ok.mp hwrite
        rw [if_pos hpos, hwrite₁, Res.ok_bind, hwrite₂, Res.ok_bind, ← hsize₂]
        refine ih hss' (Ptr.rest_skipStr hplace) hlt ?_ (by rw [hsize₂]; exact hroom)
        rw [hwritten₂, hb, List.append_assoc, List.append_assoc]

/-! ## §4 The functions -/

/-- A string in memory. -/
def StringAt (p : Ptr) (s : Str) : Prop := NulFree s ∧ ∃ r, p.rest = s ++ 0 :: r

theorem lstlen_eq {p : Ptr} {ss : List Str} (hss : StringList p ss) (sep : Str) :
    lstlen p sep.length = .ok (namesText sep ss).length := by
  obtain ⟨r, hr⟩ := hss.bytes
  exact lstlenLoop_eq hss.proper hr hss.length_lt []

theorem prints_lstcat {p sep : Ptr} {ss : List Str} {t : Str} (hss : StringList p ss)
    (hsep : StringAt sep t) : Prints (fun b => lstcat b p sep) (namesText t ss) := by
  intro b hroom
  obtain ⟨ht, q, hq⟩ := hsep
  obtain ⟨r, hr⟩ := hss.bytes
  exact lstcatLoop_eq hq ht hss.proper hr hss.length_lt (List.append_nil _).symm hroom

/-- A comma and a blank. -/
def commaBlank : Str := [0x2c, 0x20]

/-- A hash with blanks around it. -/
def hashBlanks : Str := [0x20, 0x23, 0x20]

theorem stringAt_commaBlank : StringAt (constant ", ") commaBlank :=
  ⟨by decide, [], by decide +kernel⟩

theorem stringAt_hashBlanks : StringAt (constant " # ") hashBlanks :=
  ⟨by decide, [], by decide +kernel⟩

/-- The lists of a page. -/
structure PageLists (page : DbmPage) (names sects : List Str) (archs : Option (List Str)) :
    Prop where
  name : StringList page.name names
  sect : StringList page.sect sects
  arch : Option.Rel StringList page.arch archs

/-- The architectures behind a slash. -/
def archText : Option (List Str) → Str
  | none => []
  | some archs => 0x2f :: namesText commaBlank archs

/-- Names, sections, and architectures of a page. -/
def pageText (names sects : List Str) (archs : Option (List Str)) : Str :=
  namesText commaBlank names ++ [0x28] ++ namesText commaBlank sects ++ archText archs ++ [0x29]

theorem archlen_eq {arch : Option Ptr} {archs : Option (List Str)}
    (h : Option.Rel StringList arch archs) : archlen arch = .ok (archText archs).length := by
  cases h with
  | none => rfl
  | some hlist =>
    have hlen := lstlen_eq hlist commaBlank
    have htwo : commaBlank.length = 2 := rfl
    rw [htwo] at hlen
    rw [archlen, hlen, Res.ok_bind, archText, List.length_cons, Nat.add_comm]
    rfl

theorem prints_archcat {arch : Option Ptr} {archs : Option (List Str)}
    (h : Option.Rel StringList arch archs) :
    Prints (fun b => archcat b arch) (archText archs) := by
  cases h with
  | none => exact prints_nil
  | some hlist => exact (prints_put 0x2f).comp (prints_lstcat hlist stringAt_commaBlank)

/-- The size computed by `buildnames` is the one that its text needs. -/
theorem buildnames_eq {page : DbmPage} {names sects : List Str} {archs : Option (List Str)}
    (h : PageLists page names sects archs) :
    buildnames page = .ok (pageText names sects archs ++ [0]) := by
  have hname := lstlen_eq h.name commaBlank
  have hsect := lstlen_eq h.sect commaBlank
  have htwo : commaBlank.length = 2 := rfl
  rw [htwo] at hname hsect
  have hprint := ((((prints_lstcat h.name stringAt_commaBlank).comp (prints_put 0x28)).comp
    (prints_lstcat h.sect stringAt_commaBlank)).comp (prints_archcat h.arch)).comp
      (prints_put 0x29) |>.comp (prints_put 0)
  have hsz : (namesText commaBlank names).length + 1 + (namesText commaBlank sects).length +
      (archText archs).length + 2 = (pageText names sects archs ++ [0]).length := by
    simp only [pageText, List.length_append, List.length_singleton]
  have hfull := hprint.finished hsz
  unfold buildnames
  simp only [hname, hsect, archlen_eq h.arch, Res.ok_bind]
  simp only [bind_assoc] at hfull
  exact hfull

/-- The strings that `buildoutput` prints for a key, if it prints a list. -/
def outputNames (im : Nat) (names sects : List Str) (archs : Option (List Str)) :
    Option (List Str) :=
  if im = keyNm then some names
  else if im = keySec then some sects
  else if im = keyArch then some (archs.getD [[0x61, 0x6c, 0x6c]])
  else none

theorem stringList_all : StringList (constant "all\x00") [[0x61, 0x6c, 0x6c]] where
  proper := by
    intro s hs
    rw [List.mem_singleton.mp hs]
    exact ⟨List.cons_ne_nil _ _, by decide⟩
  bytes := ⟨[], by decide +kernel⟩

theorem outputList_rel {page : DbmPage} {names sects : List Str} {archs : Option (List Str)}
    (h : PageLists page names sects archs) (im : Nat) :
    Option.Rel StringList (outputList im page) (outputNames im names sects archs) := by
  unfold outputList outputNames
  split
  · exact .some h.name
  · split
    · exact .some h.sect
    · split
      · have harch := h.arch
        generalize page.arch = arch at harch ⊢
        cases harch with
        | none => exact .some stringList_all
        | some hlist => exact .some hlist
      · exact .none

/-- The size computed by `buildoutput` is the one that its text needs. -/
theorem listOutput_eq {input : Ptr} {ss : List Str} (h : StringList input ss) :
    listOutput input = .ok (namesText hashBlanks ss ++ [0]) := by
  have hlen := lstlen_eq h hashBlanks
  have hthree : hashBlanks.length = 3 := rfl
  rw [hthree] at hlen
  have hsz : (namesText hashBlanks ss).length + 1 = (namesText hashBlanks ss ++ [0]).length := by
    rw [List.length_append, List.length_singleton]
  have hfull := ((prints_lstcat h stringAt_hashBlanks).comp (prints_put 0)).finished hsz
  unfold listOutput
  simp only [hlen, Res.ok_bind]
  simp only [bind_assoc] at hfull
  exact hfull

theorem buildoutput_eq {page : DbmPage} {names sects : List Str} {archs : Option (List Str)}
    (h : PageLists page names sects archs) {im : Nat} {ss : List Str}
    (hss : outputNames im names sects archs = some ss) (db : Dbm) (ip : Nat) (it : MacroIter) :
    buildoutput db im page ip it = .ok (some (namesText hashBlanks ss ++ [0])) := by
  have hrel := outputList_rel h im
  rw [hss] at hrel
  have hkey : im ≠ keyNd := by
    intro heq
    rw [heq] at hss
    cases hss
  unfold buildoutput
  rw [if_neg hkey]
  cases hinput : outputList im page with
  | none =>
    rw [hinput] at hrel
    cases hrel
  | some input =>
    rw [hinput] at hrel
    cases hrel with
    | some hlist =>
      dsimp only
      rw [listOutput_eq hlist]
      rfl

/-! ## §5 Pages of a database -/

/-- The lists of a page in a file that `dba_write` has written. -/
theorem pageLists_stored {us : List DbaPage} {tables : List (List ValueRefs)}
    (hsize : (fileBytes us tables).length ≤ INT32_MAX) {k : Nat} {u : DbaPage}
    (hu : us[k]? = some u) (hproper : u.Proper) :
    ∃ page, dbmPageGet (openedDbm us tables) k = .ok page ∧
      PageLists page (sortBy compareNames u.name) (sortBy compareStrings u.sect)
        (u.arch.map (sortBy compareStrings)) := by
  obtain ⟨hname, hsect, harch, -, -⟩ := at_lists tables hu
  refine ⟨_, dbmPageGet_eq hsize hu, ⟨hproper.name.sortBy compareNames, rest_of_at hname⟩,
    ⟨hproper.sect.sortBy compareStrings, rest_of_at hsect⟩, ?_⟩
  cases hl : u.arch with
  | none =>
    simp only [archPlace, hl, Option.map_none]
    exact .none
  | some l =>
    have hblock : archBlock u = lstBytes (sortBy compareStrings l) := by simp [archBlock, hl]
    rw [hblock] at harch
    have hstrings := ((hproper.arch l (by rw [hl]; rfl)).2.1).sortBy compareStrings
    simp only [archPlace, hl, Option.map_some]
    exact .some ⟨hstrings, rest_of_at harch⟩

/-- The names of such a page can be printed. -/
theorem buildnames_stored {us : List DbaPage} {tables : List (List ValueRefs)}
    (hsize : (fileBytes us tables).length ≤ INT32_MAX) {k : Nat} {u : DbaPage}
    (hu : us[k]? = some u) (hproper : u.Proper) :
    (dbmPageGet (openedDbm us tables) k >>= buildnames) =
      .ok (pageText (sortBy compareNames u.name) (sortBy compareStrings u.sect)
        (u.arch.map (sortBy compareStrings)) ++ [0]) := by
  obtain ⟨page, hget, hlists⟩ := pageLists_stored hsize hu hproper
  rw [hget, Res.ok_bind, buildnames_eq hlists]

/-! ## §6 Sizes and copies agree -/

/-- For every list of strings and every separator, `lstcat` appends as many bytes as `lstlen`
    computes, and the assertions in `buildnames` and `buildoutput` hold. -/
theorem lstcat_appends_lstlen :
    (∀ {p sep : Ptr} {ss : List Str} {t : Str}, StringList p ss → StringAt sep t →
      ∃ text, lstlen p t.length = .ok text.length ∧ Prints (fun b => lstcat b p sep) text) ∧
    (∀ {page : DbmPage} {names sects : List Str} {archs : Option (List Str)},
      PageLists page names sects archs →
      buildnames page = .ok (pageText names sects archs ++ [0]) ∧
      ∀ {im : Nat} {ss : List Str}, outputNames im names sects archs = some ss →
        ∀ (db : Dbm) (ip : Nat) (it : MacroIter),
          buildoutput db im page ip it = .ok (some (namesText hashBlanks ss ++ [0]))) := by
  refine ⟨fun {p sep ss t} hss hsep => ?_, fun {page names sects archs} h => ?_⟩
  · exact ⟨namesText t ss, lstlen_eq hss t, prints_lstcat hss hsep⟩
  · exact ⟨buildnames_eq h, fun hss db ip it => buildoutput_eq h hss db ip it⟩

/-- A page whose first and last names appear only in the SYNOPSIS. -/
def synopsisNames : DbmPage where
  name := ⟨[1, 0x61, 0, 4, 0x6c, 0x73, 0, 16, 0x64, 0x69, 0x72, 0, 1, 0x62, 0, 0], 0⟩
  sect := constant "1\x00"
  arch := none
  desc := constant "list"
  file := constant "\x01ls.1\x00"

theorem pageLists_synopsisNames :
    PageLists synopsisNames [[1, 0x61], [4, 0x6c, 0x73], [16, 0x64, 0x69, 0x72], [1, 0x62]]
      [[0x31]] none where
  name := ⟨by unfold ProperStrings; decide, [], by decide⟩
  sect := ⟨by unfold ProperStrings; decide, [], by decide +kernel⟩
  arch := .none

/-- The names are printed as `ls, dir(1)`, and as `ls # dir` for the output key `Nm`. -/
theorem lstcat_appends_synopsisNames :
    (∃ text, lstlen synopsisNames.name 2 = .ok text.length ∧
      Prints (fun b => lstcat b synopsisNames.name (constant ", ")) text) ∧
    buildnames synopsisNames =
      .ok [0x6c, 0x73, 0x2c, 0x20, 0x64, 0x69, 0x72, 0x28, 0x31, 0x29, 0] ∧
    ∀ (db : Dbm) (ip : Nat) (it : MacroIter), buildoutput db keyNm synopsisNames ip it =
      .ok (some [0x6c, 0x73, 0x20, 0x23, 0x20, 0x64, 0x69, 0x72, 0]) := by
  obtain ⟨hlist, hpage⟩ := lstcat_appends_lstlen
  obtain ⟨hnames, houtput⟩ := hpage pageLists_synopsisNames
  have hkey : outputNames keyNm [[1, 0x61], [4, 0x6c, 0x73], [16, 0x64, 0x69, 0x72], [1, 0x62]]
      [[0x31]] none = some [[1, 0x61], [4, 0x6c, 0x73], [16, 0x64, 0x69, 0x72], [1, 0x62]] := rfl
  have htext : pageText [[1, 0x61], [4, 0x6c, 0x73], [16, 0x64, 0x69, 0x72], [1, 0x62]]
      [[0x31]] none ++ [0] =
      [0x6c, 0x73, 0x2c, 0x20, 0x64, 0x69, 0x72, 0x28, 0x31, 0x29, 0] := by decide +kernel
  have hjoined : namesText hashBlanks
      [[1, 0x61], [4, 0x6c, 0x73], [16, 0x64, 0x69, 0x72], [1, 0x62]] ++ [0] =
      [0x6c, 0x73, 0x20, 0x23, 0x20, 0x64, 0x69, 0x72, 0] := by decide +kernel
  have hfirst := hlist pageLists_synopsisNames.name stringAt_commaBlank
  have htwo : commaBlank.length = 2 := rfl
  rw [htwo] at hfirst
  rw [htext] at hnames
  refine ⟨hfirst, hnames, ?_⟩
  intro db ip it
  rw [houtput hkey, hjoined]

end Mandoc
