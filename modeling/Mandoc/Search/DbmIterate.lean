import Mandoc.Search.DbaRoundTrip

/-!
# Filtered iterations over a file that has been written

`page_bytitle` walks over the lists of all pages with a single cursor, `page_byarch` looks at the
list of each page, and `page_bymacro` walks over the values of a macro.  The first one assumes
that no list is empty.
-/

namespace Mandoc

open BackPatch

/-! ## §1 Iterations step by step -/

/-- An iteration yields a list if every step yields the next element of the list, and if there is
    nothing to yield at its end. -/
theorem Yields.of_step {db : Dbm} {P : DbmIter → List DbmRes → Prop}
    (hdone : ∀ it, P it [] → ∃ it', dbmPageNext db it = .ok (none, it'))
    (hmore : ∀ it res rest, P it (res :: rest) →
      ∃ it', dbmPageNext db it = .ok (some res, it') ∧ P it' rest)
    {it : DbmIter} {rs : List DbmRes} (h : P it rs) : Yields db it rs := by
  induction rs generalizing it with
  | nil =>
    obtain ⟨it', hnext⟩ := hdone it h
    exact .done hnext
  | cons res rest ih =>
    obtain ⟨it', hnext, hrest⟩ := hmore it res rest h
    exact .more hnext (ih hrest)

/-- What an iteration yields is determined. -/
theorem Yields.unique {db : Dbm} {it : DbmIter} {rs rs' : List DbmRes} (h : Yields db it rs)
    (h' : Yields db it rs') : rs = rs' := by
  induction h generalizing rs' with
  | done hnext =>
    cases h' with
    | done => rfl
    | more hnext' =>
      rw [hnext] at hnext'
      cases hnext'
  | more hnext _ ih =>
    cases h' with
    | done hnext' =>
      rw [hnext] at hnext'
      cases hnext'
    | more hnext' hrest' =>
      rw [hnext] at hnext'
      cases hnext'
      rw [ih hrest']

/-! ## §2 The lists that are walked over -/

namespace Title

/-- The strings in the list of a page, as they are in the file. -/
def stored (kind : Title) (u : DbaPage) : List Str :=
  match kind with
  | .name => sortBy compareNames u.name
  | .sect => sortBy compareStrings u.sect
  | .desc => [u.desc]

/-- What is matched: the mask byte in front of a name is skipped. -/
def seen (kind : Title) (s : Str) : Str := if kind = .name then s.tail else s

/-- How many bytes are skipped in front of a string. -/
def skipped (kind : Title) : Nat := if kind = .name then 1 else 0

/-- What is behind the last string. -/
def stop (kind : Title) : List UInt8 := if kind = .desc then [] else [0]

/-- The list of a page in the file. -/
def block (kind : Title) (u : DbaPage) : List UInt8 :=
  (kind.stored u).flatMap strBytes ++ kind.stop

/-- Where the lists of all pages start. -/
def start (kind : Title) (us : List DbaPage) : Nat :=
  match kind with
  | .name => namesStart 16 us
  | .sect => sectsStart 16 us
  | .desc => descsStart 16 us

/-- Where the list of a page starts. -/
def place (kind : Title) (us : List DbaPage) (k : Nat) : Nat :=
  startOf kind.block (kind.start us) us k

theorem place_succ {us : List DbaPage} {k : Nat} {u : DbaPage} (kind : Title)
    (hu : us[k]? = some u) : kind.place us (k + 1) = kind.place us k + (kind.block u).length :=
  startOf_succ hu

theorem block_ne_nil (kind : Title) (u : DbaPage) : kind.block u ≠ [] := by
  cases kind <;> simp [block, stored, stop, strBytes]

theorem block_desc : block .desc = descBlock := by
  funext u
  simp [block, stored, stop, descBlock]

/-- The strings that a page with proper lists has in the file. -/
theorem proper_stored {u : DbaPage} (h : u.Proper) (kind : Title) :
    ∀ s ∈ kind.stored u, NulFree s ∧ (kind ≠ .desc → s ≠ []) := by
  intro s hs
  cases kind with
  | name => exact ⟨(h.name.sortBy _ s hs).2, fun _ => (h.name.sortBy _ s hs).1⟩
  | sect => exact ⟨(h.sect.sortBy _ s hs).2, fun _ => (h.sect.sortBy _ s hs).1⟩
  | desc =>
    obtain rfl := List.mem_singleton.mp hs
    exact ⟨h.desc, fun hne => absurd rfl hne⟩

end Title

/-- The list of a page is in its place. -/
theorem at_title (tables : List (List ValueRefs)) {us : List DbaPage} {k : Nat} {u : DbaPage}
    (kind : Title) (hu : us[k]? = some u) :
    At (fileBytes us tables) (kind.place us k) (kind.block u) := by
  obtain ⟨hname, hsect, -, hdesc, -⟩ := at_lists tables hu
  cases kind with
  | name => exact hname
  | sect => exact hsect
  | desc =>
    rw [Title.place, Title.block_desc]
    exact hdesc

/-! ## §3 The cursor of `page_bytitle` -/

section Cursor

variable {db : Dbm} {kind : Title} {match_ : DbmMatch} {file : List UInt8}

/-- The string at the cursor. -/
theorem str_of_cursor (kind : Title) {off : Nat} {s : Str} (hs : NulFree s) (hne : kind ≠ .desc → s ≠ [])
    (h : At file off (strBytes s)) :
    Ptr.str (if kind = .name then Ptr.add ⟨file, off⟩ 1 else ⟨file, off⟩) = .ok (kind.seen s) ∧
      Ptr.skipStr (if kind = .name then Ptr.add ⟨file, off⟩ 1 else ⟨file, off⟩) =
        .ok ⟨file, off + (s.length + 1)⟩ := by
  obtain ⟨r, hr⟩ := rest_of_at h
  have hrest : Ptr.rest ⟨file, off⟩ = s ++ 0 :: r := by
    rw [hr]
    simp [strBytes]
  cases decEq kind .name with
  | isFalse hkind =>
    simp only [Title.seen, if_neg hkind]
    exact ⟨Ptr.str_of_rest hs hrest, Ptr.skipStr_of_rest hs hrest⟩
  | isTrue hkind =>
    obtain ⟨c, t, rfl⟩ := List.exists_cons_of_ne_nil (hne (by rw [hkind]; decide))
    have ht : NulFree t := fun hmem => hs (List.mem_cons_of_mem c hmem)
    have htail : (Ptr.add ⟨file, off⟩ 1).rest = t ++ 0 :: r := by
      rw [Ptr.rest_add, hrest]
      rfl
    simp only [Title.seen, if_pos hkind, List.tail_cons]
    refine ⟨Ptr.str_of_rest ht htail, ?_⟩
    rw [Ptr.skipStr_of_rest ht htail]
    simp only [Ptr.add, List.length_cons]
    congr 2
    omega

theorem get_of_at {off : Nat} {c : UInt8} {bs : List UInt8} (h : At file off (c :: bs)) :
    Ptr.get ⟨file, off⟩ = .ok c := by
  obtain ⟨r, hr⟩ := rest_of_at h
  exact Ptr.get_of_rest hr

theorem at_tail {off : Nat} {c : UInt8} {bs : List UInt8} (h : At file off (c :: bs)) :
    At file (off + 1) bs := by
  have hsplit : At file off ([c] ++ bs) := h
  exact hsplit.right

/-- A string that matches ends the search. -/
theorem searchTitle_match {n off ip : Nat} {s : Str} (hs : NulFree s)
    (hne : kind ≠ .desc → s ≠ []) (h : At file off (strBytes s)) (hip : ip < db.npages)
    (hmatch : dbmMatch match_ (kind.seen s) = true) :
    searchTitle db kind match_ (n + 1) ⟨file, off⟩ ip =
      .ok (⟨file, off + kind.skipped⟩, ip) := by
  obtain ⟨hstr, -⟩ := str_of_cursor kind hs hne h
  rw [searchTitle, if_neg (Nat.not_le_of_lt hip)]
  simp only [hstr, Res.ok_bind, hmatch, if_true]
  cases kind <;> rfl

/-- A string that does not match is skipped. -/
theorem searchTitle_skip {n off ip : Nat} {s : Str} (hs : NulFree s)
    (hne : kind ≠ .desc → s ≠ []) (h : At file off (strBytes s)) (hip : ip < db.npages)
    (hno : dbmMatch match_ (kind.seen s) = false) :
    searchTitle db kind match_ (n + 1) ⟨file, off⟩ ip =
      if kind = .desc then searchTitle db kind match_ n ⟨file, off + (s.length + 1)⟩ (ip + 1)
      else (do
        let c ← Ptr.get ⟨file, off + (s.length + 1)⟩
        if c = 0 then searchTitle db kind match_ n ⟨file, off + (s.length + 2)⟩ (ip + 1)
        else searchTitle db kind match_ n ⟨file, off + (s.length + 1)⟩ ip) := by
  obtain ⟨hstr, hskip⟩ := str_of_cursor kind hs hne h
  rw [searchTitle, if_neg (Nat.not_le_of_lt hip)]
  simp only [hstr, hskip, Res.ok_bind, hno, Bool.false_eq_true, if_false]
  rfl

/-- A page without a string that matches is skipped. -/
theorem searchTitle_page {n off ip : Nat} {ss : List Str} (hss : ss ≠ [])
    (hproper : ∀ s ∈ ss, NulFree s ∧ (kind ≠ .desc → s ≠ []))
    (hdesc : kind = .desc → ss.length = 1) (hip : ip < db.npages)
    (hno : ∀ s ∈ ss, dbmMatch match_ (kind.seen s) = false)
    (h : At file off (ss.flatMap strBytes ++ kind.stop)) :
    searchTitle db kind match_ (n + ss.length) ⟨file, off⟩ ip =
      searchTitle db kind match_ n
        ⟨file, off + (ss.flatMap strBytes ++ kind.stop).length⟩ (ip + 1) := by
  induction ss generalizing off with
  | nil => exact absurd rfl hss
  | cons s rest ih =>
    obtain ⟨hs, hne⟩ := hproper s (List.mem_cons_self ..)
    rw [List.flatMap_cons, List.append_assoc] at h
    have hrest := h.right
    have hlen : (strBytes s).length = s.length + 1 := List.length_append
    rw [hlen] at hrest
    rw [List.length_cons, ← Nat.add_assoc, searchTitle_skip hs hne h.left hip
      (hno s (List.mem_cons_self ..))]
    cases decEq kind .desc with
    | isTrue hkind =>
      obtain rfl : rest = [] := List.length_eq_zero_iff.mp (Nat.succ.inj (hdesc hkind))
      simp [hkind, Title.stop, hlen]
    | isFalse hkind =>
      have hstop : kind.stop = [0] := if_neg hkind
      rw [if_neg hkind]
      cases rest with
      | nil =>
        rw [hstop] at hrest
        rw [get_of_at hrest, Res.ok_bind, if_pos rfl]
        simp [hstop, hlen, Nat.add_assoc]
      | cons t rest =>
        -- The next string is not empty, so the page is not finished.
        obtain ⟨ht, htne⟩ := hproper t (List.mem_cons_of_mem s (List.mem_cons_self ..))
        obtain ⟨c, t', rfl⟩ := List.exists_cons_of_ne_nil (htne hkind)
        have hc : c ≠ 0 := fun heq => ht (heq ▸ List.mem_cons_self ..)
        have hnext := ih (List.cons_ne_nil _ _)
          (fun s' hs' => hproper s' (List.mem_cons_of_mem s hs')) (fun hk => absurd hk hkind)
          (fun s' hs' => hno s' (List.mem_cons_of_mem s hs')) hrest
        rw [get_of_at hrest, Res.ok_bind, if_neg hc, hnext]
        congr 2
        simp only [List.flatMap_cons, List.length_append, hlen]
        omega

/-- The search finds the first string of a page that matches. -/
theorem searchTitle_found {n off ip : Nat} {pre : List Str} {s : Str}
    (hproper : ∀ t ∈ pre ++ [s], NulFree t ∧ (kind ≠ .desc → t ≠ []))
    (hdesc : kind = .desc → pre = []) (hip : ip < db.npages)
    (hno : ∀ t ∈ pre, dbmMatch match_ (kind.seen t) = false)
    (hmatch : dbmMatch match_ (kind.seen s) = true)
    (h : At file off (pre.flatMap strBytes ++ strBytes s)) :
    searchTitle db kind match_ (n + pre.length + 1) ⟨file, off⟩ ip =
      .ok (⟨file, off + (pre.flatMap strBytes).length + kind.skipped⟩, ip) := by
  induction pre generalizing off with
  | nil =>
    obtain ⟨hs, hne⟩ := hproper s (List.mem_cons_self ..)
    exact searchTitle_match hs hne h hip hmatch
  | cons t pre ih =>
    have hkind : kind ≠ .desc := fun heq => absurd (hdesc heq) (List.cons_ne_nil _ _)
    obtain ⟨ht, htne⟩ := hproper t (List.mem_cons_self ..)
    rw [List.flatMap_cons, List.append_assoc] at h
    have hrest := h.right
    have hlen : (strBytes t).length = t.length + 1 := List.length_append
    rw [hlen] at hrest
    have hnext := ih (fun t' ht' => hproper t' (List.mem_cons_of_mem t ht'))
      (fun hk => absurd hk hkind) (fun t' ht' => hno t' (List.mem_cons_of_mem t ht')) hrest
    -- What follows starts with a string that is not empty.
    obtain ⟨c, bs, hbs, hc⟩ : ∃ c bs, pre.flatMap strBytes ++ strBytes s = c :: bs ∧ c ≠ 0 := by
      have hfirst : ∀ t' ∈ pre ++ [s], ∃ c t'', t' = c :: t'' ∧ c ≠ 0 := by
        intro t' ht'
        obtain ⟨hnul, hne⟩ := hproper t' (List.mem_cons_of_mem t ht')
        obtain ⟨c, t'', rfl⟩ := List.exists_cons_of_ne_nil (hne hkind)
        exact ⟨c, t'', rfl, fun heq => hnul (heq ▸ List.mem_cons_self ..)⟩
      cases pre with
      | nil =>
        obtain ⟨c, s', rfl, hc⟩ := hfirst s (List.mem_cons_self ..)
        exact ⟨c, s' ++ [0], rfl, hc⟩
      | cons t' pre =>
        obtain ⟨c, t'', rfl, hc⟩ := hfirst t' (List.mem_cons_self ..)
        exact ⟨c, _, rfl, hc⟩
    rw [List.length_cons, ← Nat.add_assoc, searchTitle_skip ht htne h.left hip
      (hno t (List.mem_cons_self ..)), if_neg hkind, get_of_at (hbs ▸ hrest), Res.ok_bind,
      if_neg hc, hnext]
    congr 3
    simp only [List.flatMap_cons, List.length_append, hlen]
    omega

/-- One step over the remaining strings of a page. -/
theorem skipTitle_step {n off : Nat} {c : UInt8} (h : Ptr.get ⟨file, off⟩ = .ok c) :
    skipTitle kind (n + 1) ⟨file, off⟩ =
      if c ≠ 0 then skipTitle kind n ⟨file, off + 1⟩
      else if kind = .desc then .ok ⟨file, off + 1⟩
      else (do
        let c2 ← Ptr.before ⟨file, off⟩ 1
        if c2 ≠ 0 then skipTitle kind n ⟨file, off + 1⟩ else .ok ⟨file, off + 1⟩) := by
  have h1 : Ptr.before ⟨file, off + 1⟩ 1 = .ok c := by
    rw [Ptr.before, if_pos (Nat.le_add_left 1 off)]
    exact h
  have h2 : Ptr.before ⟨file, off + 1⟩ 2 = Ptr.before ⟨file, off⟩ 1 := by
    simp only [Ptr.before, Nat.reduceLeDiff]
    rfl
  rw [skipTitle]
  simp only [Ptr.add, h1, h2, Res.ok_bind]
  rfl

theorem before_of_get {off : Nat} {c : UInt8} (h : Ptr.get ⟨file, off⟩ = .ok c) :
    Ptr.before ⟨file, off + 1⟩ 1 = .ok c := by
  rw [Ptr.before, if_pos (Nat.le_add_left 1 off)]
  exact h

/-- A string of a list is skipped, unless it is an empty string behind a NUL. -/
theorem skipTitle_string (hkind : kind ≠ .desc) {n off : Nat} {s : Str} (hs : NulFree s)
    (hprev : s ≠ [] ∨ ∃ c, c ≠ 0 ∧ Ptr.before ⟨file, off⟩ 1 = .ok c)
    (h : At file off (strBytes s)) :
    skipTitle kind (n + (s.length + 1)) ⟨file, off⟩ =
      skipTitle kind n ⟨file, off + (s.length + 1)⟩ := by
  induction s generalizing off with
  | nil =>
    obtain ⟨c, hc, hbefore⟩ := hprev.resolve_left fun hne => hne rfl
    rw [List.length_nil, Nat.zero_add, skipTitle_step (get_of_at h), if_neg (fun hne => hne rfl),
      if_neg hkind, hbefore, Res.ok_bind, if_pos hc]
  | cons c s ih =>
    have hc : c ≠ 0 := fun heq => hs (heq ▸ List.mem_cons_self ..)
    have hget : Ptr.get ⟨file, off⟩ = .ok c := get_of_at h
    have hrest : At file (off + 1) (strBytes s) := at_tail h
    have hnext := ih (fun hmem => hs (List.mem_cons_of_mem c hmem))
      (.inr ⟨c, hc, before_of_get hget⟩) hrest
    rw [List.length_cons, ← Nat.add_assoc, skipTitle_step hget, if_pos hc, hnext]
    congr 2
    omega

/-- The remaining strings of a list are skipped, and the NUL at its end. -/
theorem skipTitle_strings (hkind : kind ≠ .desc) {n off : Nat} {ss : List Str}
    (hproper : ProperStrings ss) (hprev : Ptr.before ⟨file, off⟩ 1 = .ok 0)
    (h : At file off (ss.flatMap strBytes ++ [0])) :
    skipTitle kind (n + (ss.flatMap strBytes ++ [0]).length) ⟨file, off⟩ =
      .ok ⟨file, off + (ss.flatMap strBytes ++ [0]).length⟩ := by
  induction ss generalizing off with
  | nil =>
    have hget : Ptr.get ⟨file, off⟩ = .ok 0 := get_of_at h
    change skipTitle kind (n + 1) ⟨file, off⟩ = .ok ⟨file, off + 1⟩
    rw [skipTitle_step hget, if_neg (fun hne => hne rfl), if_neg hkind, hprev, Res.ok_bind,
      if_neg (fun hne => hne rfl)]
  | cons s ss ih =>
    obtain ⟨hne, hs⟩ := hproper s (List.mem_cons_self ..)
    rw [List.flatMap_cons, List.append_assoc] at h
    have hlen : (strBytes s).length = s.length + 1 := List.length_append
    have hrest := h.right
    rw [hlen] at hrest
    have hlast : Ptr.get ⟨file, off + s.length⟩ = .ok 0 := get_of_at h.left.right
    have hfront : Ptr.before ⟨file, off + (s.length + 1)⟩ 1 = .ok 0 := before_of_get hlast
    have hnext := ih (fun t ht => hproper t (List.mem_cons_of_mem s ht)) hfront hrest
    have hsum : n + ((s :: ss).flatMap strBytes ++ [0]).length =
        n + (ss.flatMap strBytes ++ [0]).length + (s.length + 1) := by
      simp only [List.flatMap_cons, List.length_append, hlen]
      omega
    rw [hsum, skipTitle_string hkind hs (.inl hne) h.left, hnext]
    congr 2
    simp only [List.flatMap_cons, List.length_append, hlen]
    omega

/-- A description is skipped. -/
theorem skipTitle_desc {n off : Nat} {s : Str} (hs : NulFree s) (h : At file off (strBytes s)) :
    skipTitle .desc (n + (s.length + 1)) ⟨file, off⟩ = .ok ⟨file, off + (s.length + 1)⟩ := by
  induction s generalizing off with
  | nil => rw [List.length_nil, Nat.zero_add, skipTitle_step (get_of_at h)]; rfl
  | cons c s ih =>
    have hc : c ≠ 0 := fun heq => hs (heq ▸ List.mem_cons_self ..)
    have hnext := ih (fun hmem => hs (List.mem_cons_of_mem c hmem)) (at_tail h)
    rw [List.length_cons, ← Nat.add_assoc, skipTitle_step (get_of_at h), if_pos hc]
    refine hnext.trans ?_
    congr 2
    omega

/-- From a string that has matched to the end of the list. -/
theorem skipTitle_found {n off : Nat} {s : Str} {post : List Str} (hs : NulFree s)
    (hne : kind ≠ .desc → s ≠ []) (hproper : ProperStrings post)
    (hdesc : kind = .desc → post = [])
    (h : At file off (strBytes s ++ (post.flatMap strBytes ++ kind.stop))) (hfuel : file.length < n) :
    skipTitle kind n ⟨file, off + kind.skipped⟩ =
      .ok ⟨file, off + (strBytes s ++ (post.flatMap strBytes ++ kind.stop)).length⟩ := by
  have hlen : (strBytes s).length = s.length + 1 := List.length_append
  have hle := at_add_length_le h (by simp [strBytes])
  rw [List.length_append, hlen] at hle ⊢
  cases decEq kind .desc with
  | isTrue hkind =>
    subst hkind
    obtain rfl := hdesc rfl
    obtain ⟨m, rfl⟩ : ∃ m, n = m + (s.length + 1) :=
      ⟨n - (s.length + 1), by omega⟩
    exact skipTitle_desc hs h.left
  | isFalse hkind =>
    have hstop : kind.stop = [0] := if_neg hkind
    rw [hstop] at h hle ⊢
    have hrest := h.right
    rw [hlen] at hrest
    have hlast : Ptr.get ⟨file, off + s.length⟩ = .ok 0 := get_of_at h.left.right
    -- The rest of the string, which may be empty behind the mask byte of a name.
    obtain ⟨t, ht, hat, hprev, hsum⟩ : ∃ t, NulFree t ∧
        At file (off + kind.skipped) (strBytes t) ∧
        (t ≠ [] ∨ ∃ c, c ≠ 0 ∧ Ptr.before ⟨file, off + kind.skipped⟩ 1 = .ok c) ∧
        kind.skipped + (t.length + 1) = s.length + 1 := by
      obtain ⟨c, s', rfl⟩ := List.exists_cons_of_ne_nil (hne hkind)
      have hc : c ≠ 0 := fun heq => hs (heq ▸ List.mem_cons_self ..)
      cases decEq kind .name with
      | isFalse hname =>
        have hzero : kind.skipped = 0 := if_neg hname
        exact ⟨c :: s', hs, by rw [hzero]; exact h.left, .inl (List.cons_ne_nil _ _),
          by rw [hzero, Nat.zero_add]⟩
      | isTrue hname =>
        have hone : kind.skipped = 1 := if_pos hname
        have hget : Ptr.get ⟨file, off⟩ = .ok c := get_of_at h.left
        exact ⟨s', fun hmem => hs (List.mem_cons_of_mem c hmem),
          by rw [hone]; exact at_tail h.left,
          .inr ⟨c, hc, by rw [hone]; exact before_of_get hget⟩,
          by rw [hone, List.length_cons]; omega⟩
    obtain ⟨m, rfl⟩ : ∃ m, n = m + (post.flatMap strBytes ++ [0]).length + (t.length + 1) :=
      ⟨n - (post.flatMap strBytes ++ [0]).length - (t.length + 1), by omega⟩
    have hfront : Ptr.before ⟨file, off + (s.length + 1)⟩ 1 = .ok 0 := before_of_get hlast
    rw [skipTitle_string hkind ht hprev hat, Nat.add_assoc, hsum,
      skipTitle_strings hkind hproper hfront hrest, Nat.add_assoc]

end Cursor

/-! ## §4 Results in the order of the pages -/

/-- The results for a list of pages, the first of which has the number `ip`. -/
def pageResults (result : Nat → DbaPage → Option DbmRes) : Nat → List DbaPage → List DbmRes
  | _, [] => []
  | ip, u :: us => (result ip u).toList ++ pageResults result (ip + 1) us

/-- The pages with a result are yielded, each of them once. -/
theorem pageResults_eq {result : Nat → DbaPage → Option DbmRes}
    (hpage : ∀ {ip u res}, result ip u = some res → res.page = ip) {p : Nat → Bool}
    {us : List DbaPage} {ip : Nat}
    (hp : ∀ i u, us[i]? = some u → p (ip + i) = (result (ip + i) u).isSome) :
    (pageResults result ip us).map DbmRes.page = (List.range' ip us.length).filter p := by
  induction us generalizing ip with
  | nil => rfl
  | cons u us ih =>
    have hfirst : p ip = (result ip u).isSome := hp 0 u rfl
    have hrest := @ih (ip + 1) fun i v hv => by
      have hnext := hp (i + 1) v (by simpa using hv)
      rwa [← Nat.add_assoc, Nat.add_right_comm] at hnext
    rw [pageResults, List.map_append, List.length_cons, List.range'_succ, List.filter_cons,
      hfirst, hrest]
    cases hres : result ip u with
    | none => simp
    | some res => simp [hpage hres]

/-! ## §5 The results of `page_bytitle` -/

/-- The result for a page with a string that matches. -/
def titleRes (kind : Title) (ip : Nat) (s : Str) : DbmRes :=
  ⟨ip, BitVec.ofInt 32 (charValue (if kind = .name then s.headD 0 else 0))⟩

/-- The result for a page. -/
def titleResult (kind : Title) (match_ : DbmMatch) (ip : Nat) (u : DbaPage) : Option DbmRes :=
  ((kind.stored u).find? fun s => dbmMatch match_ (kind.seen s)).map (titleRes kind ip)

theorem page_titleResult {kind : Title} {match_ : DbmMatch} {ip : Nat} {u : DbaPage}
    {res : DbmRes} (h : titleResult kind match_ ip u = some res) : res.page = ip := by
  obtain ⟨s, -, rfl⟩ := Option.map_eq_some_iff.mp h
  rfl

theorem isSome_titleResult {kind : Title} {match_ : DbmMatch} {ip : Nat} {u : DbaPage} :
    (titleResult kind match_ ip u).isSome ↔
      ((kind.stored u).map kind.seen).any (dbmMatch match_) = true := by
  rw [titleResult, Option.isSome_map, List.find?_isSome, List.any_map, List.any_eq_true]
  rfl

section Titles

variable {us : List DbaPage} {tables : List (List ValueRefs)} {kind : Title}
  {match_ : DbmMatch}
variable (hproper : ∀ u ∈ us, u.Proper)

/-- The number of strings of a page is less than the number of its bytes. -/
theorem length_stored_le (kind : Title) (u : DbaPage) :
    (kind.stored u).length ≤ (kind.block u).length := by
  have hle := length_le_length_lstBytes (kind.stored u)
  have hpos : 0 < (kind.block u).length := List.length_pos_iff.mpr (kind.block_ne_nil u)
  have hstrings : ∀ ss : List Str, ss.length ≤ (ss.flatMap strBytes).length := by
    intro ss
    induction ss with
    | nil => exact Nat.le_refl 0
    | cons s ss ih =>
      have hlen : (strBytes s).length = s.length + 1 := List.length_append
      rw [List.flatMap_cons, List.length_append, List.length_cons, hlen]
      omega
  rw [Title.block, List.length_append]
  exact Nat.le_add_right_of_le (hstrings _)

include hproper

/-- The search ends at the first string that matches, in the first page that has one. -/
theorem searchTitle_results (match_ : DbmMatch) {todo : List DbaPage} {ip n : Nat} {cp : Ptr}
    (htodo : us.drop ip = todo) (hne : ∀ u ∈ todo, kind.stored u ≠ [])
    (hcp : ip < us.length → cp = ⟨fileBytes us tables, kind.place us ip⟩) (hip : ip ≤ us.length)
    (hn : (todo.flatMap kind.block).length < n) :
    (pageResults (titleResult kind match_) ip todo = [] ∧
      ∃ cp', searchTitle (openedDbm us tables) kind match_ n cp ip = .ok (cp', us.length)) ∨
    ∃ k u pre s post, us[k]? = some u ∧ kind.stored u = pre ++ s :: post ∧
      searchTitle (openedDbm us tables) kind match_ n cp ip =
        .ok (⟨fileBytes us tables,
          kind.place us k + (pre.flatMap strBytes).length + kind.skipped⟩, k) ∧
      pageResults (titleResult kind match_) ip todo =
        titleRes kind k s :: pageResults (titleResult kind match_) (k + 1) (us.drop (k + 1)) := by
  -- The induction is on the pages that are still to be searched.
  induction todo generalizing ip n cp with
  | nil =>
    -- Behind the last page, nothing is found.
    have hlen : us.length ≤ ip := List.drop_eq_nil_iff.mp htodo
    obtain rfl : ip = us.length := Nat.le_antisymm hip hlen
    obtain ⟨m, rfl⟩ := Nat.exists_eq_add_of_lt hn
    refine .inl ⟨rfl, cp, ?_⟩
    have hnpages : (openedDbm us tables).npages ≤ us.length := Nat.le_refl _
    rw [searchTitle, if_pos hnpages]
    rfl
  | cons u todo ih =>
    have hlt : ip < us.length := by
      have hlen := congrArg List.length htodo
      rw [List.length_drop, List.length_cons] at hlen
      omega
    have hu : us[ip]? = some u := by
      rw [← List.head?_drop, htodo]
      rfl
    have hrest : us.drop (ip + 1) = todo := by
      rw [← List.drop_drop, htodo]
      rfl
    obtain rfl := hcp hlt
    -- The cursor is at the list of the first of these pages.
    have hat := at_title tables kind hu
    have hstored := kind.proper_stored (hproper u (List.mem_of_getElem? hu))
    have hdesc : kind = .desc → (kind.stored u).length = 1 := by
      rintro rfl
      rfl
    rw [List.flatMap_cons, List.length_append] at hn
    rw [pageResults, titleResult]
    cases hfind : (kind.stored u).find? fun s => dbmMatch match_ (kind.seen s) with
    | none =>
      -- No string of this page matches: the search goes on with the next page.
      have hno : ∀ s ∈ kind.stored u, dbmMatch match_ (kind.seen s) = false :=
        fun s hs => by simpa using List.find?_eq_none.mp hfind s hs
      have hlen := length_stored_le kind u
      obtain ⟨m, rfl⟩ : ∃ m, n = m + (kind.stored u).length :=
        ⟨n - (kind.stored u).length, by omega⟩
      have hpage := @searchTitle_page (openedDbm us tables) kind match_ _ m _ _ _
        (hne u (List.mem_cons_self ..)) hstored hdesc hlt hno hat
      have hplace : kind.place us ip + ((kind.stored u).flatMap strBytes ++ kind.stop).length =
          kind.place us (ip + 1) := (kind.place_succ hu).symm
      rw [hplace] at hpage
      rw [hpage]
      exact ih hrest (fun v hv => hne v (List.mem_cons_of_mem u hv)) (fun _ => rfl) hlt
        (by omega)
    | some s =>
      -- The first string that matches ends the search.
      obtain ⟨hmatch, pre, post, heq, hno⟩ := List.find?_eq_some_iff_append.mp hfind
      right
      refine ⟨ip, u, pre, s, post, hu, heq, ?_, by rw [hrest]; rfl⟩
      have hlen := length_stored_le kind u
      rw [heq, List.length_append, List.length_cons] at hlen
      obtain ⟨m, rfl⟩ : ∃ m, n = m + pre.length + 1 := ⟨n - pre.length - 1, by omega⟩
      have hblock : kind.block u =
          pre.flatMap strBytes ++ strBytes s ++ (post.flatMap strBytes ++ kind.stop) := by
        simp [Title.block, heq]
      rw [hblock] at hat
      refine searchTitle_found (fun t ht => hstored t ?_) ?_ hlt
        (fun t ht => by simpa using hno t ht) hmatch hat.left
      · rw [heq, List.append_cons]
        exact List.mem_append_left _ ht
      · intro hkind
        have hone := hdesc hkind
        rw [heq, List.length_append, List.length_cons] at hone
        exact List.length_eq_zero_iff.mp (by omega)

/-- What follows when the search has found a string. -/
theorem nextTitle_found {ip k : Nat} {cp : Ptr} {u : DbaPage} {pre post : List Str} {s : Str}
    (hu : us[k]? = some u) (hstored : kind.stored u = pre ++ s :: post)
    (hsearch : searchTitle (openedDbm us tables) kind match_ ((fileBytes us tables).length + 1)
      cp ip = .ok (⟨fileBytes us tables,
        kind.place us k + (pre.flatMap strBytes).length + kind.skipped⟩, k)) :
    ∃ cp', (k + 1 < us.length → cp' = ⟨fileBytes us tables, kind.place us (k + 1)⟩) ∧
      nextTitle (openedDbm us tables) kind match_ cp ip =
        .ok (some (titleRes kind k s), .title kind match_ cp' (k + 1)) := by
  have hlt : k < us.length := (List.getElem?_eq_some_iff.mp hu).1
  have hblock : kind.block u =
      pre.flatMap strBytes ++ (strBytes s ++ (post.flatMap strBytes ++ kind.stop)) := by
    simp [Title.block, hstored]
  have hat := at_title tables kind hu
  have hnext := kind.place_succ hu
  rw [hblock] at hat hnext
  rw [List.length_append] at hnext
  have hall := kind.proper_stored (hproper u (List.mem_of_getElem? hu))
  rw [hstored] at hall
  obtain ⟨hs, hne⟩ := hall s (List.mem_append_right _ (List.mem_cons_self ..))
  -- There is one description only.
  have hdesc : kind = .desc → post = [] := by
    rintro rfl
    have hone := congrArg List.length hstored
    rw [List.length_append, List.length_cons] at hone
    exact List.length_eq_zero_iff.mp (by simp only [Title.stored, List.length_singleton] at hone; omega)
  -- For names, the byte before the string tells where the name was found.
  have hbits : (if kind = .name then Ptr.before ⟨fileBytes us tables,
        kind.place us k + (pre.flatMap strBytes).length + kind.skipped⟩ 1 else pure 0) =
      .ok (if kind = .name then s.headD 0 else 0) := by
    cases decEq kind .name with
    | isFalse hname => rw [if_neg hname, if_neg hname]; rfl
    | isTrue hname =>
      obtain ⟨c, s', rfl⟩ := List.exists_cons_of_ne_nil (hne (by rw [hname]; decide))
      have hone : kind.skipped = 1 := if_pos hname
      rw [if_pos hname, if_pos hname, hone]
      exact before_of_get (get_of_at hat.right.left)
  have hnpages : (openedDbm us tables).npages = us.length := rfl
  have hbase : (openedDbm us tables).base = fileBytes us tables := rfl
  unfold nextTitle
  simp only [hbase, hsearch, Res.ok_bind, hnpages, if_neg (Nat.ne_of_lt hlt), hbits]
  -- The cursor moves to the next page unless this was the last one.
  cases Nat.decLt (k + 1) us.length with
  | isFalse hend =>
    rw [if_neg hend]
    exact ⟨_, fun h => absurd h hend, rfl⟩
  | isTrue hmore =>
    have hskip := @skipTitle_found kind (fileBytes us tables) _ _ s post hs hne
      (fun t ht => by
        obtain ⟨htnul, htne⟩ := hall t (List.mem_append_right _ (List.mem_cons_of_mem s ht))
        refine ⟨htne fun hkind => ?_, htnul⟩
        rw [hdesc hkind] at ht
        cases ht) hdesc hat.right (Nat.lt_succ_self _)
    rw [if_pos hmore, hskip, Nat.add_assoc (kind.place us k), ← hnext]
    exact ⟨_, fun _ => rfl, rfl⟩

/-- The cursor of `page_bytitle` at the list of a page, with the results that are still to come. -/
def TitleAt (us : List DbaPage) (tables : List (List ValueRefs)) (kind : Title)
    (match_ : DbmMatch) (it : DbmIter) (rs : List DbmRes) : Prop :=
  ∃ cp ip, it = .title kind match_ cp ip ∧ ip ≤ us.length ∧
    (ip < us.length → cp = ⟨fileBytes us tables, kind.place us ip⟩) ∧
    rs = pageResults (titleResult kind match_) ip (us.drop ip)

/-- One step of the iteration. -/
theorem titleAt_step (hne : ∀ u ∈ us, kind.stored u ≠ []) {it : DbmIter} {rs : List DbmRes}
    (h : TitleAt us tables kind match_ it rs) :
    (rs = [] ∧ ∃ it', dbmPageNext (openedDbm us tables) it = .ok (none, it')) ∨
    ∃ res rest it', rs = res :: rest ∧
      dbmPageNext (openedDbm us tables) it = .ok (some res, it') ∧
      TitleAt us tables kind match_ it' rest := by
  obtain ⟨cp, ip, rfl, hip, hcp, rfl⟩ := h
  -- The number of steps is sufficient because the strings that are left fit into the file.
  have hfuel : ((us.drop ip).flatMap kind.block).length < (fileBytes us tables).length + 1 := by
    cases Nat.decLt ip us.length with
    | isFalse hend =>
      rw [List.drop_of_length_le (Nat.le_of_not_lt hend)]
      exact Nat.zero_lt_succ _
    | isTrue hlt =>
      have hat : At (fileBytes us tables) (kind.start us) (us.flatMap kind.block) := by
        have hall : At (fileBytes us tables) (namesStart 16 us) (stringBytes 16 us) := at_strings
        cases kind with
        | name => exact hall.left
        | sect => exact hall.right.left
        | desc =>
          rw [Title.block_desc]
          exact hall.right.right.right.left
      have hlen : (us.flatMap kind.block) ≠ [] := by
        obtain ⟨u, rest, rfl⟩ := List.exists_cons_of_ne_nil
          (List.ne_nil_of_length_pos (Nat.lt_of_le_of_lt (Nat.zero_le _) hlt))
        simp [kind.block_ne_nil u]
      have hle := at_add_length_le hat hlen
      have hdrop : (us.flatMap kind.block).length =
          ((us.take ip).flatMap kind.block).length + ((us.drop ip).flatMap kind.block).length := by
        rw [← List.length_append, ← List.flatMap_append, List.take_append_drop]
      omega
  rcases searchTitle_results hproper match_ rfl
      (fun u hu => hne u (List.mem_of_mem_drop hu)) hcp hip hfuel with
    ⟨hnil, cp', hsearch⟩ | ⟨k, u, pre, s, post, hu, hstored, hsearch, hrs⟩
  · -- No string matches, so the iteration ends.
    refine .inl ⟨hnil, .none, ?_⟩
    have hbase : (openedDbm us tables).base = fileBytes us tables := rfl
    have hnpages : (openedDbm us tables).npages = us.length := rfl
    simp only [dbmPageNext, nextTitle, hbase, hsearch, Res.ok_bind, hnpages, if_true]
    rfl
  · -- A page is found, and the cursor stands at the next one.
    obtain ⟨cp', hcp', hnext⟩ := nextTitle_found hproper hu hstored hsearch
    exact .inr ⟨_, _, _, hrs, hnext, cp', k + 1, rfl, (List.getElem?_eq_some_iff.mp hu).1, hcp',
      rfl⟩

omit hproper

/-- A database without pages: the cursor is not looked at. -/
theorem yields_title_nil (htables : tables.length = macroMax) (kind : Title)
    (match_ : DbmMatch) :
    ∃ it, startTitle (openedDbm [] tables) kind match_ = .ok it ∧
      Yields (openedDbm [] tables) it [] := by
  have hlong : 40 ≤ (fileBytes [] tables).length := by
    rw [length_fileBytes, macrosBytes]
    simp only [List.length_append, length_be32, length_flatMap_be32, length_placesOf, htables,
      macroMax]
    omega
  have hread : ∀ i ≤ 3, ∃ n, (openedDbm [] tables).pageInt 0 i = .ok n := by
    intro i hi
    apply Ptr.uint32_isOk
    change 20 + 20 * 0 + 4 * i + 4 ≤ (fileBytes [] tables).length
    omega
  obtain ⟨n, hn⟩ := hread kind.field (by cases kind <;> decide)
  have hend : ∀ cp, dbmPageNext (openedDbm [] tables) (.title kind match_ cp 0) =
      .ok (none, .none) := fun _ => rfl
  have hnone : dbmPageNext (openedDbm [] tables) .none = .ok (none, .none) := rfl
  unfold startTitle
  rw [hn]
  cases hget : (openedDbm [] tables).get n with
  | none => exact ⟨.none, by simp only [Res.ok_bind, hget]; rfl, .done hnone⟩
  | some cp => exact ⟨_, by simp only [Res.ok_bind, hget]; rfl, .done (hend cp)⟩

/-- The iteration starts at the list of the first page. -/
theorem startTitle_eq (hsize : (fileBytes us tables).length ≤ INT32_MAX) {u : DbaPage}
    (hu : us[0]? = some u) (kind : Title) (match_ : DbmMatch) :
    startTitle (openedDbm us tables) kind match_ =
      .ok (.title kind match_ ⟨fileBytes us tables, kind.place us 0⟩ 0) := by
  obtain ⟨hname, hsect, -, hdesc, -⟩ := @pageInt_of_at us tables hsize _ _ hu
  have hoffset : (openedDbm us tables).pageInt 0 kind.field = .ok (kind.place us 0) := by
    cases kind with
    | name => exact hname
    | sect => exact hsect
    | desc =>
      rw [Title.place, Title.block_desc]
      exact hdesc
  unfold startTitle
  simp only [hoffset, Res.ok_bind,
    get_place hsize (at_title tables kind hu) (kind.block_ne_nil u)]
  rfl

include hproper

/-- **`page_bytitle` is exact** when no list is empty. -/
theorem yields_title (hsize : (fileBytes us tables).length ≤ INT32_MAX)
    (htables : tables.length = macroMax) (hne : ∀ u ∈ us, kind.stored u ≠ [])
    (match_ : DbmMatch) :
    ∃ it, startTitle (openedDbm us tables) kind match_ = .ok it ∧
      Yields (openedDbm us tables) it (pageResults (titleResult kind match_) 0 us) := by
  cases us with
  | nil => exact yields_title_nil htables kind match_
  | cons u us =>
    refine ⟨_, startTitle_eq hsize rfl kind match_, ?_⟩
    have hstart : TitleAt (u :: us) tables kind match_
        (.title kind match_ ⟨fileBytes (u :: us) tables, kind.place (u :: us) 0⟩ 0)
        (pageResults (titleResult kind match_) 0 (u :: us)) :=
      ⟨_, 0, rfl, Nat.zero_le _, fun _ => rfl, rfl⟩
    refine Yields.of_step ?_ ?_ hstart
    · intro it h
      rcases titleAt_step hproper hne h with ⟨-, hdone⟩ | ⟨res, rest, it', hrs, -⟩
      · exact hdone
      · cases hrs
    · intro it res rest h
      rcases titleAt_step hproper hne h with ⟨hnil, -⟩ | ⟨res', rest', it', hrs, hnext, hat⟩
      · cases hnil
      · obtain ⟨rfl, rfl⟩ := List.cons.inj hrs
        exact ⟨it', hnext, hat⟩

omit hproper in
theorem dbmMatch_sub_nil (s : Str) : dbmMatch (.sub []) s = true := by
  cases s <;> simp [dbmMatch, strcasestr]

omit hproper in
/-- At an empty list, the page is yielded if every string matches: what is looked at is the end
    of the list, or what follows it. -/
theorem nextTitle_empty {off e : Nat} {res : Option DbmRes} {it' : DbmIter} {db : Dbm}
    (he : e < db.npages)
    (h : nextTitle db kind (.sub []) ⟨fileBytes us tables, off⟩ e = .ok (res, it')) :
    res.map DbmRes.page = some e := by
  obtain ⟨⟨cp, ip⟩, hsearch, hrest⟩ := Res.bind_eq_ok.mp h
  rw [searchTitle, if_neg (Nat.not_le_of_lt he)] at hsearch
  obtain ⟨s, -, hsearch⟩ := Res.bind_eq_ok.mp hsearch
  rw [dbmMatch_sub_nil, if_pos rfl] at hsearch
  obtain ⟨rfl, rfl⟩ := Prod.mk.inj (Except.ok.inj hsearch)
  simp only [if_neg (Nat.ne_of_lt he)] at hrest
  obtain ⟨bits, -, hrest⟩ := Res.bind_eq_ok.mp hrest
  split at hrest
  · obtain ⟨cp', -, hrest⟩ := Res.bind_eq_ok.mp hrest
    cases hrest
    rfl
  · cases hrest
    rfl

/-- The first page with an empty list is yielded if every string matches. -/
theorem mem_of_empty {e : Nat} {u : DbaPage}
    (hu : us[e]? = some u)
    (hfirst : ∀ k v, k < e → us[k]? = some v → kind.stored v ≠ []) {ip : Nat} (hip : ip ≤ e)
    {rs : List DbmRes}
    (h : Yields (openedDbm us tables)
      -- By induction on the number of pages before the empty one.
      (.title kind (.sub []) ⟨fileBytes us tables, kind.place us ip⟩ ip) rs) :
    e ∈ rs.map DbmRes.page := by
  have he : e < us.length := (List.getElem?_eq_some_iff.mp hu).1
  generalize hgap : e - ip = gap
  induction gap generalizing ip rs with
  | zero =>
    obtain rfl : ip = e := by omega
    cases h with
    | done hnext =>
      have hpage := nextTitle_empty he hnext
      cases hpage
    | more hnext _ =>
      have hpage := Option.some.inj (nextTitle_empty he hnext)
      -- The page at the cursor has a string, and the empty pattern matches it.
      rw [List.map_cons, hpage]
      exact List.mem_cons_self ..
  | succ gap ih =>
    have hlt : ip < us.length := by omega
    have hv : us[ip]? = some us[ip] := List.getElem?_eq_getElem hlt
    obtain ⟨s, post, hstored⟩ :=
      List.exists_cons_of_ne_nil (hfirst ip us[ip] (by omega) hv)
    have hat := at_title tables kind hv
    rw [Title.block, hstored, List.flatMap_cons] at hat
    obtain ⟨hs, hne⟩ := kind.proper_stored (hproper _ (List.getElem_mem hlt)) s
      (hstored ▸ List.mem_cons_self ..)
    have hsearch : searchTitle (openedDbm us tables) kind (.sub [])
        ((fileBytes us tables).length + 1) ⟨fileBytes us tables, kind.place us ip⟩ ip =
          -- So the cursor moves to the next page, still at or before the empty one.
          .ok (⟨fileBytes us tables, kind.place us ip + kind.skipped⟩, ip) :=
      searchTitle_match hs hne hat.left.left hlt (dbmMatch_sub_nil _)
    have hsplit : kind.stored us[ip] = [] ++ s :: post := hstored
    obtain ⟨cp', hcp', hnext⟩ := nextTitle_found hproper hv hsplit hsearch
    rw [hcp' (by omega)] at hnext
    cases h with
    | done hnext' =>
      have hclash := hnext.symm.trans hnext'
      cases hclash
    | more hnext' hrest =>
      have hclash := hnext.symm.trans hnext'
      cases hclash
      exact List.mem_cons_of_mem _ (ih (by omega) hrest (by omega))

end Titles

/-! ## §6 The results of `page_byarch` -/

/-- The architectures of a page in the file. -/
def storedArchs (u : DbaPage) : List Str := (u.arch.map (sortBy compareStrings)).getD []

/-- The result for a page. -/
def archResult (match_ : DbmMatch) (ip : Nat) (u : DbaPage) : Option DbmRes :=
  if (storedArchs u).any (dbmMatch match_) then some ⟨ip, 0⟩ else none

theorem page_archResult {match_ : DbmMatch} {ip : Nat} {u : DbaPage} {res : DbmRes}
    (h : archResult match_ ip u = some res) : res.page = ip := by
  obtain ⟨-, heq⟩ := Option.ite_none_right_eq_some.mp h
  cases heq
  rfl

theorem isSome_archResult {match_ : DbmMatch} {ip : Nat} {u : DbaPage} :
    (archResult match_ ip u).isSome ↔ (storedArchs u).any (dbmMatch match_) = true := by
  simp [archResult]

/-- The inner loop looks at all strings of a list. -/
theorem anyString_of_at (match_ : DbmMatch) {file : List UInt8} {off n : Nat} {ss : List Str}
    (hss : ProperStrings ss) (h : At file off (lstBytes ss)) (hn : ss.length < n) :
    anyString match_ n ⟨file, off⟩ = .ok (ss.any (dbmMatch match_)) := by
  induction ss generalizing off n with
  | nil =>
    obtain ⟨m, rfl⟩ := Nat.exists_eq_add_of_lt hn
    rw [anyString, get_of_at h]
    rfl
  | cons s ss ih =>
    obtain ⟨m, rfl⟩ : ∃ m, n = m + 1 := ⟨n - 1, by omega⟩
    obtain ⟨hne, hs⟩ := hss s (List.mem_cons_self ..)
    obtain ⟨hstr, hskip, hrest⟩ := first_of_at hs h
    obtain ⟨c, s', rfl⟩ := List.exists_cons_of_ne_nil hne
    have hc : c ≠ 0 := fun heq => hs (heq ▸ List.mem_cons_self ..)
    have hget : Ptr.get ⟨file, off⟩ = .ok c := by
      rw [lstBytes_cons] at h
      exact get_of_at h.left
    have hnext := ih (fun t ht => hss t (List.mem_cons_of_mem _ ht)) hrest
      (Nat.lt_of_succ_lt_succ hn)
    rw [anyString, hget]
    simp only [Res.ok_bind, if_neg hc, hstr, hskip, hnext, List.any_cons]
    cases dbmMatch match_ (c :: s') <;> rfl

section Archs

variable {us : List DbaPage} {tables : List (List ValueRefs)} {match_ : DbmMatch}
variable (hproper : ∀ u ∈ us, u.Proper)
  (hsize : (fileBytes us tables).length ≤ INT32_MAX)

include hproper hsize

/-- The outer loop ends at the first page that has an architecture that matches. -/
theorem nextArch_results (match_ : DbmMatch) {todo : List DbaPage} {ip : Nat} (htodo : us.drop ip = todo) :
    (pageResults (archResult match_) ip todo = [] ∧
      nextArch (openedDbm us tables) match_ todo.length ip = .ok (none, .none)) ∨
    ∃ k < us.length,
      nextArch (openedDbm us tables) match_ todo.length ip =
        .ok (some ⟨k, 0⟩, .arch match_ (k + 1)) ∧
      pageResults (archResult match_) ip todo =
        ⟨k, 0⟩ :: pageResults (archResult match_) (k + 1) (us.drop (k + 1)) := by
  induction todo generalizing ip with
  | nil => exact .inl ⟨rfl, rfl⟩
  | cons u todo ih =>
    -- The page is read from its record in the file.
    have hlt : ip < us.length := by
      have hlen := congrArg List.length htodo
      rw [List.length_drop, List.length_cons] at hlen
      omega
    have hu : us[ip]? = some u := by
      rw [← List.head?_drop, htodo]
      rfl
    have hrest : us.drop (ip + 1) = todo := by
      rw [← List.drop_drop, htodo]
      rfl
    obtain ⟨-, -, hint, -, -⟩ := @pageInt_of_at us tables hsize _ _ hu
    rw [List.length_cons, nextArch, hint, Res.ok_bind, pageResults]
    cases harch : u.arch with
    | none =>
      -- A page for all architectures matches none.
      have hzero : (pageMap 16 us ip u).arch = 0 := by simp [pageMap, harch]
      have hnone : archResult match_ ip u = none := by simp [archResult, storedArchs, harch]
      rw [if_pos hzero, hnone]
      exact ih hrest
    | some l =>
      -- Otherwise, the list of architectures is found at the place in the record.
      obtain ⟨-, hl, -⟩ := (hproper u (List.mem_of_getElem? hu)).arch l (by rw [harch]; rfl)
      have hplace : (pageMap 16 us ip u).arch = startOf archBlock (archsStart 16 us) us ip := by
        simp [pageMap, harch]
      have hpos : startOf archBlock (archsStart 16 us) us ip ≠ 0 := by
        simp [startOf, archsStart, sectsStart, namesStart]
      obtain ⟨-, -, hat, -, -⟩ := at_lists tables hu
      have hblock : archBlock u = lstBytes (sortBy compareStrings l) := by
        simp [archBlock, harch]
      rw [hblock] at hat
      have hfuel : (sortBy compareStrings l).length < (fileBytes us tables).length + 1 := by
        have hle := at_add_length_le hat (lstBytes_ne_nil _)
        have hlen := length_le_length_lstBytes (sortBy compareStrings l)
        omega
      have hany := anyString_of_at match_ (hl.sortBy compareStrings) hat hfuel
      have hbase : (openedDbm us tables).base = fileBytes us tables := rfl
      rw [if_neg (hplace ▸ hpos), hplace, get_place hsize hat (lstBytes_ne_nil _)]
      simp only [nonNull, Res.ok_bind, hbase, hany, archResult, storedArchs, harch,
        Option.map_some, Option.getD_some]
      -- The page is a result if one of them matches.
      cases (sortBy compareStrings l).any (dbmMatch match_) with
      | true => exact .inr ⟨ip, hlt, rfl, by rw [hrest]; rfl⟩
      | false => exact ih hrest

/-- **`page_byarch` is exact.** -/
theorem yields_arch :
    Yields (openedDbm us tables) (.arch match_ 0) (pageResults (archResult match_) 0 us) := by
  have hstep : ∀ it rs, (∃ ip ≤ us.length, it = .arch match_ ip ∧
        rs = pageResults (archResult match_) ip (us.drop ip)) →
      (rs = [] ∧ ∃ it', dbmPageNext (openedDbm us tables) it = .ok (none, it')) ∨
      ∃ ip ≤ us.length, ∃ res,
        dbmPageNext (openedDbm us tables) it = .ok (some res, .arch match_ ip) ∧
        rs = res :: pageResults (archResult match_) ip (us.drop ip) := by
    rintro it rs ⟨ip, hip, rfl, rfl⟩
    have hnext : dbmPageNext (openedDbm us tables) (.arch match_ ip) =
        nextArch (openedDbm us tables) match_ (us.drop ip).length ip := by
      rw [List.length_drop]
      rfl
    rw [hnext]
    rcases nextArch_results hproper hsize match_ rfl with
      ⟨hnil, hdone⟩ | ⟨k, hk, hmore, hrs⟩
    · exact .inl ⟨hnil, _, hdone⟩
    · exact .inr ⟨k + 1, hk, _, hmore, hrs⟩
  refine Yields.of_step (P := fun it rs => ∃ ip ≤ us.length, it = .arch match_ ip ∧
    rs = pageResults (archResult match_) ip (us.drop ip)) ?_ ?_ ⟨0, Nat.zero_le _, rfl, rfl⟩
  · intro it h
    rcases hstep it [] h with ⟨-, hdone⟩ | ⟨_, _, _, _, hrs⟩
    · exact hdone
    · cases hrs
  · intro it res rest h
    rcases hstep it _ h with ⟨hnil, -⟩ | ⟨ip, hip, res', hnext, hrs⟩
    · cases hnil
    · obtain ⟨rfl, rfl⟩ := List.cons.inj hrs
      exact ⟨_, hnext, ip, hip, rfl, rfl⟩

end Archs

/-! ## §7 The results of `page_bymacro` -/

/-- The results for a macro value: the pages it lists. -/
def valueResults (match_ : DbmMatch) (v : ValueRefs) : List DbmRes :=
  if dbmMatch match_ v.1 then v.2.map fun r => ⟨(r - 20) / 20, 0⟩ else []

section Macros

variable {us : List DbaPage} {tables : List (List ValueRefs)} {match_ : DbmMatch}
  {im place : Nat} {vs : List ValueRefs}

/-- The state of `page_bymacro`, with the results that are still to come: the rest of the pages
    of a value, and the values from number `iv` on. -/
structure MacroAt (us : List DbaPage) (tables : List (List ValueRefs)) (place : Nat)
    (vs : List ValueRefs) (match_ : DbmMatch) (pp cp : Option Ptr) (iv : Nat)
    (refs : List Nat) : Prop where
  iv_le : iv ≤ vs.length
  /-- The cursor is at the value that has been looked at. -/
  cursor : vs ≠ [] → cp =
    some ⟨fileBytes us tables, startOf valueBytes (valuesStart place vs) vs (iv - 1)⟩
  /-- The pointer is at the rest of the pages. -/
  pages : (pp = none ∧ refs = []) ∨
    ∃ off, pp = some ⟨fileBytes us tables, off⟩ ∧
      At (fileBytes us tables) off (refs.flatMap be32 ++ be32 0)
  refs : ∀ r ∈ refs, ∃ k < us.length, r = 20 + 20 * k

theorem MacroAt.pageAt_nil {pp cp : Option Ptr} {iv : Nat}
    (h : MacroAt us tables place vs match_ pp cp iv []) : pageAt pp = .ok 0 := by
  rcases h.pages with ⟨rfl, -⟩ | ⟨off, rfl, hrefs⟩
  · rfl
  · exact uint32_of_at (by decide) hrefs

variable (hsize : (fileBytes us tables).length ≤ INT32_MAX)
  (hvs : tables[im]? = some vs) (hplace : (tableStarts us tables)[im]? = some place)
  (hat : At (fileBytes us tables) place (macroBytes place vs)) (hwf : TableWF us.length vs)

/-- When pages are left, the next one is yielded. -/
theorem nextMacro_page {n iv r : Nat} {refs : List Nat} {pp cp : Option Ptr}
    (hsize : (fileBytes us tables).length ≤ INT32_MAX)
    (h : MacroAt us tables place vs match_ pp cp iv (r :: refs)) :
    ∃ pp', nextMacro (openedDbm us tables) match_ im (n + 1) pp cp iv =
        .ok (some ⟨(r - 20) / 20, 0⟩, .values match_ im pp' cp iv) ∧
      MacroAt us tables place vs match_ pp' cp iv refs := by
  obtain ⟨off, rfl, hrefs⟩ := h.pages.resolve_left fun hnone => List.cons_ne_nil _ _ hnone.2
  obtain ⟨k, hk, rfl⟩ := h.refs r (List.mem_cons_self ..)
  have hrec := at_record tables (List.getElem?_eq_getElem hk)
  have hrecne : recordBytes (pageMap 16 us k us[k]) ≠ [] := by simp [recordBytes, be32]
  rw [List.flatMap_cons, List.append_assoc] at hrefs
  have hread := uint32_place hsize hrec hrecne hrefs.left
  have hrest := hrefs.right
  rw [length_be32] at hrest
  have hne : ¬ (20 + 20 * k = 0) := by omega
  refine ⟨some ⟨fileBytes us tables, off + 4⟩, ?_, h.iv_le, h.cursor, .inr ⟨off + 4, rfl, hrest⟩,
    fun r hr => h.refs r (List.mem_cons_of_mem _ hr)⟩
  rw [nextMacro]
  simp only [pageAt, hread, Res.ok_bind, if_neg hne, get_place hsize hrec hrecne, nonNull]
  rfl

include hsize hvs hplace hat hwf

/-- When no pages are left, the next value is looked at. -/
theorem nextMacro_value {n iv : Nat} {v : ValueRefs} {pp cp : Option Ptr}
    (h : MacroAt us tables place vs match_ pp cp iv []) (hv : vs[iv]? = some v) :
    ∃ pp' cp' refs, nextMacro (openedDbm us tables) match_ im (n + 1) pp cp iv =
        nextMacro (openedDbm us tables) match_ im n pp' cp' (iv + 1) ∧
      MacroAt us tables place vs match_ pp' cp' (iv + 1) refs ∧
      refs = if dbmMatch match_ v.1 then v.2 else [] := by
  have hlt : iv < vs.length := (List.getElem?_eq_some_iff.mp hv).1
  have hne : vs ≠ [] := List.ne_nil_of_length_pos (Nat.lt_of_le_of_lt (Nat.zero_le _) hlt)
  obtain rfl := h.cursor hne
  have hvalue := (at_values hat).element hv
  have hstr := str_of_at (hwf.values v (List.mem_of_getElem? hv)) hvalue
  have hzero := h.pageAt_nil
  have hnvals : ¬ ((iv : Int) = (openedDbm us tables).nvals.getD im 0) := by
    simp only [openedDbm, List.getD_eq_getElem?_getD, List.getElem?_map, hvs, Option.map_some,
      Option.getD_some]
    omega
  -- The string in front of the value is skipped.
  have hskip : (if iv = 0 then
        pure ⟨fileBytes us tables, startOf valueBytes (valuesStart place vs) vs (iv - 1)⟩
      else Ptr.skipStr
        ⟨fileBytes us tables, startOf valueBytes (valuesStart place vs) vs (iv - 1)⟩ :
        Res Ptr) =
      .ok ⟨fileBytes us tables, startOf valueBytes (valuesStart place vs) vs iv⟩ := by
    cases iv with
    | zero => rfl
    | succ iv =>
      have hprev : vs[iv]? = some vs[iv] := List.getElem?_eq_getElem (by omega)
      have hs := hwf.values vs[iv] (List.getElem_mem _)
      obtain ⟨r, hr⟩ := rest_of_at ((at_values hat).element hprev)
      have hrest : Ptr.rest ⟨fileBytes us tables,
          startOf valueBytes (valuesStart place vs) vs iv⟩ = vs[iv].1 ++ 0 :: r := by
        rw [hr]
        simp [valueBytes, strBytes]
      rw [if_neg (Nat.succ_ne_zero iv), Nat.add_sub_cancel, Ptr.skipStr_of_rest hs hrest,
        startOf_succ hprev]
      simp [Ptr.add, valueBytes, strBytes]
  rw [nextMacro]
  simp only [hzero, Res.ok_bind, if_true, if_neg hnvals, nonNull, hskip, hstr]
  cases hmatch : dbmMatch match_ v.1 with
  | false =>
    refine ⟨pp, _, [], rfl, ⟨hlt, fun _ => rfl, h.pages, by simp⟩, rfl⟩
  | true =>
    obtain ⟨-, rrefs⟩ := macroInt_of_at hsize hplace hat hv
    have hrefs := (at_refs hat).element hv
    have hget := get_place hsize hrefs (by simp [refsBytes, be32])
    simp only [if_true, rrefs, Res.ok_bind, hget]
    exact ⟨_, _, v.2, rfl, ⟨hlt, fun _ => rfl, .inr ⟨_, rfl, hrefs⟩,
      hwf.refs v (List.mem_of_getElem? hv)⟩, rfl⟩

/-- The loop ends at the next page of a value that matches. -/
theorem nextMacro_results {todo : List ValueRefs} {n iv : Nat} {refs : List Nat}
    {pp cp : Option Ptr} (htodo : vs.drop iv = todo) (hn : todo.length < n)
    (h : MacroAt us tables place vs match_ pp cp iv refs) :
    (refs.map (fun r => ⟨(r - 20) / 20, 0⟩) ++ todo.flatMap (valueResults match_) = [] ∧
      nextMacro (openedDbm us tables) match_ im n pp cp iv = .ok (none, .none)) ∨
    ∃ res pp' cp' iv' refs',
      nextMacro (openedDbm us tables) match_ im n pp cp iv =
        .ok (some res, .values match_ im pp' cp' iv') ∧
      MacroAt us tables place vs match_ pp' cp' iv' refs' ∧
      refs.map (fun r => ⟨(r - 20) / 20, 0⟩) ++ todo.flatMap (valueResults match_) =
        res :: (refs'.map (fun r => ⟨(r - 20) / 20, 0⟩) ++
          (vs.drop iv').flatMap (valueResults match_)) := by
  -- By induction on the values that are left.
  induction todo generalizing n iv refs pp cp with
  | nil =>
    obtain ⟨m, rfl⟩ : ∃ m, n = m + 1 := ⟨n - 1, by rw [List.length_nil] at hn; omega⟩
    cases refs with
    | nil =>
      -- All values are done, and so are the pages of the last one.
      obtain rfl : iv = vs.length := Nat.le_antisymm h.iv_le (List.drop_eq_nil_iff.mp htodo)
      have hzero := h.pageAt_nil
      have hnvals : ((vs.length : Nat) : Int) = (openedDbm us tables).nvals.getD im 0 := by
        simp [openedDbm, List.getD_eq_getElem?_getD, hvs]
      refine .inl ⟨rfl, ?_⟩
      rw [nextMacro]
      simp only [hzero, Res.ok_bind, if_true, if_pos hnvals]
      rfl
    | cons r refs =>
      -- Pages of the last value are left.
      obtain ⟨pp', hnext, hat'⟩ := @nextMacro_page us tables match_ im place vs m iv r refs pp cp
        hsize h
      exact .inr ⟨_, pp', cp, iv, refs, hnext, hat', by rw [htodo]; rfl⟩
  | cons v todo ih =>
    obtain ⟨m, rfl⟩ : ∃ m, n = m + 1 := ⟨n - 1, by omega⟩
    cases refs with
    | cons r refs =>
      -- Pages of the value before are left.
      obtain ⟨pp', hnext, hat'⟩ := @nextMacro_page us tables match_ im place vs m iv r refs pp cp
        hsize h
      exact .inr ⟨_, pp', cp, iv, refs, hnext, hat', by rw [htodo]; rfl⟩
    | nil =>
      -- The next value is tried; if it does not match, it has no pages to return.
      have hv : vs[iv]? = some v := by
        rw [← List.head?_drop, htodo]
        rfl
      have hrest : vs.drop (iv + 1) = todo := by
        rw [← List.drop_drop, htodo]
        rfl
      obtain ⟨pp', cp', refs', hnext, hat', hrefs'⟩ :=
        nextMacro_value (n := m) hsize hvs hplace hat hwf h hv
      have hsame : valueResults match_ v = refs'.map fun r => ⟨(r - 20) / 20, 0⟩ := by
        rw [hrefs', valueResults]
        cases dbmMatch match_ v.1 <;> rfl
      rw [hnext, List.map_nil, List.nil_append, List.flatMap_cons, hsame]
      exact ih hrest (Nat.lt_of_succ_lt_succ hn) hat'

omit hplace hat in
/-- **`page_bymacro`** yields the pages of every value that matches. -/
theorem yields_macro (match_ : DbmMatch) (him : im < macroMax) :
    ∃ it, dbmPageByMacro (openedDbm us tables) im match_ = .ok it ∧
      Yields (openedDbm us tables) it (vs.flatMap (valueResults match_)) := by
  obtain ⟨place, hplace, hat⟩ := @at_table us _ _ _ hvs
  have hnvals : (openedDbm us tables).nvals.getD im 0 = vs.length := by
    simp [openedDbm, List.getD_eq_getElem?_getD, hvs]
  have hfuel : vs.length < (fileBytes us tables).length + 1 := by
    have hlen : ∀ ws : List ValueRefs, ws.length ≤ (ws.flatMap valueBytes).length := by
      intro ws
      induction ws with
      | nil => exact Nat.le_refl 0
      | cons w ws ih =>
        have hpos : (valueBytes w).length = w.1.length + 1 := List.length_append
        rw [List.flatMap_cons, List.length_append, List.length_cons, hpos]
        omega
    cases vs with
    | nil => exact Nat.zero_lt_succ _
    | cons v vs =>
      have hle := at_add_length_le (at_values hat) (by simp [valueBytes, strBytes])
      have hcount := hlen (v :: vs)
      omega
  -- The iteration starts in front of the first value.
  have hstart : ∃ cp, dbmPageByMacro (openedDbm us tables) im match_ =
        .ok (.values match_ im none cp 0) ∧
      MacroAt us tables place vs match_ none cp 0 [] := by
    rw [dbmPageByMacro, if_neg (Nat.not_le_of_lt him), hnvals]
    cases vs with
    | nil =>
      exact ⟨none, rfl, Nat.le_refl 0, fun hne => absurd rfl hne, .inl ⟨rfl, rfl⟩, by simp⟩
    | cons v vs =>
      have hne : ¬ ((((v :: vs).length : Nat) : Int) = 0) := by
        rw [List.length_cons]
        omega
      obtain ⟨rvalue, -⟩ := macroInt_of_at hsize hplace hat (rfl : (v :: vs)[0]? = some v)
      have hvalue := (at_values hat).element (rfl : (v :: vs)[0]? = some v)
      refine ⟨_, ?_, Nat.zero_le _, fun _ => rfl, .inl ⟨rfl, rfl⟩, by simp⟩
      rw [if_neg hne, rvalue]
      simp only [Res.ok_bind, get_place hsize hvalue (strBytes_ne_nil _)]
      rfl
  obtain ⟨cp, hbymacro, hinit⟩ := hstart
  refine ⟨_, hbymacro, ?_⟩
  have hstep : ∀ it rs, (∃ pp cp iv refs, it = .values match_ im pp cp iv ∧
        MacroAt us tables place vs match_ pp cp iv refs ∧
        rs = refs.map (fun r => ⟨(r - 20) / 20, 0⟩) ++
          (vs.drop iv).flatMap (valueResults match_)) →
      (rs = [] ∧ ∃ it', dbmPageNext (openedDbm us tables) it = .ok (none, it')) ∨
      ∃ res pp cp iv refs,
        dbmPageNext (openedDbm us tables) it = .ok (some res, .values match_ im pp cp iv) ∧
        MacroAt us tables place vs match_ pp cp iv refs ∧
        rs = res :: (refs.map (fun r => ⟨(r - 20) / 20, 0⟩) ++
          (vs.drop iv).flatMap (valueResults match_)) := by
    rintro it rs ⟨pp, cp, iv, refs, rfl, hmac, rfl⟩
    have hn : (vs.drop iv).length < (fileBytes us tables).length + 1 := by
      rw [List.length_drop]
      omega
    rcases nextMacro_results hsize hvs hplace hat hwf rfl hn hmac with
      ⟨hnil, hdone⟩ | ⟨res, pp', cp', iv', refs', hmore, hmac', hrs⟩
    · exact .inl ⟨hnil, _, hdone⟩
    · exact .inr ⟨res, pp', cp', iv', refs', hmore, hmac', hrs⟩
  refine Yields.of_step (P := fun it rs => ∃ pp cp iv refs, it = .values match_ im pp cp iv ∧
    MacroAt us tables place vs match_ pp cp iv refs ∧
    rs = refs.map (fun r => ⟨(r - 20) / 20, 0⟩) ++
      (vs.drop iv).flatMap (valueResults match_)) ?_ ?_
    ⟨none, cp, 0, [], rfl, hinit, rfl⟩
  · intro it h
    rcases hstep it [] h with ⟨-, hdone⟩ | ⟨_, _, _, _, _, _, _, hrs⟩
    · exact hdone
    · cases hrs
  · intro it res rest h
    rcases hstep it _ h with ⟨hnil, -⟩ | ⟨res', pp, cp, iv, refs, hnext, hmac, hrs⟩
    · cases hnil
    · obtain ⟨rfl, rfl⟩ := List.cons.inj hrs
      exact ⟨_, hnext, pp, cp, iv, refs, rfl, hmac, rfl⟩

end Macros

/-! ## §8 Exact iterations -/

/-- The strings of a page that `page_bytitle` looks at, among what `dbm_page_get` returns. -/
def pageStrings (db : Dbm) (kind : Title) (ip : Nat) : Res (List Str) := do
  let page ← dbmPageGet db ip
  match kind with
  | .name => return (← page.name.strings (db.base.length + 1)).map List.tail
  | .sect => page.sect.strings (db.base.length + 1)
  | .desc => return [← page.desc.str]

/-- The architectures of a page, among what `dbm_page_get` returns. -/
def pageArchs (db : Dbm) (ip : Nat) : Res (List Str) := do
  let page ← dbmPageGet db ip
  match page.arch with
  | none => return []
  | some cp => cp.strings (db.base.length + 1)

/-- Does a list contain a string that matches? -/
def containsMatch (match_ : DbmMatch) : Res (List Str) → Bool
  | .ok ss => ss.any (dbmMatch match_)
  | .error _ => false

/-- Does a macro value match, and is a page among the pages that `dbm_macro_get` returns for it? -/
def valueLists (db : Dbm) (im : Nat) (match_ : DbmMatch) (ip iv : Nat) : Bool :=
  match dbaReadValue db im iv with
  | .ok (value, refs) => dbmMatch match_ value && refs.contains (20 + 20 * ip)
  | .error _ => false

/-- All iterations over a file are exact: they yield the pages whose list contains a string that
    matches, each once and in increasing order, or for a macro, every page once for each value
    that matches and lists the page. -/
structure Dbm.Exact (db : Dbm) : Prop where
  titles : ∀ kind match_, ∃ it rs, startTitle db kind match_ = .ok it ∧ Yields db it rs ∧
    rs.map DbmRes.page =
      (List.range db.npages).filter fun ip => containsMatch match_ (pageStrings db kind ip)
  archs : ∀ match_, ∃ it rs, dbmPageByarch db match_ = .ok it ∧ Yields db it rs ∧
    rs.map DbmRes.page =
      (List.range db.npages).filter fun ip => containsMatch match_ (pageArchs db ip)
  macros : ∀ im < macroMax, ∀ match_, ∃ it rs, dbmPageByMacro db im match_ = .ok it ∧
    Yields db it rs ∧ ∀ ip, (rs.map DbmRes.page).count ip =
      (List.range (db.nvals.getD im 0).toNat).countP fun iv => valueLists db im match_ ip iv

section Exact

variable {us : List DbaPage} {tables : List (List ValueRefs)}
variable (hsize : (fileBytes us tables).length ≤ INT32_MAX)

include hsize

/-- What `dbm_page_get` returns for the lists that `page_bytitle` walks over. -/
theorem pageStrings_eq (kind : Title) {k : Nat} {u : DbaPage} (hu : us[k]? = some u)
    (hproper : u.Proper) :
    pageStrings (openedDbm us tables) kind k = .ok ((kind.stored u).map kind.seen) := by
  obtain ⟨hname, hsect, -, hdesc, -⟩ := at_lists tables hu
  have hbase : (openedDbm us tables).base = fileBytes us tables := rfl
  rw [pageStrings, dbmPageGet_eq hsize hu, Res.ok_bind]
  cases kind with
  | name =>
    have hread := strings_of_at (hproper.name.sortBy compareNames) hname (Nat.lt_succ_self _)
    simp only [hbase, hread, Res.ok_bind]
    rfl
  | sect =>
    have hread := strings_of_at (hproper.sect.sortBy compareStrings) hsect (Nat.lt_succ_self _)
    simp only [hbase, hread, Title.stored]
    exact congrArg Except.ok (List.map_id _).symm
  | desc =>
    simp only [str_of_at hproper.desc hdesc, Res.ok_bind]
    rfl

/-- What `dbm_page_get` returns for the architectures. -/
theorem pageArchs_eq {k : Nat} {u : DbaPage} (hu : us[k]? = some u) (hproper : u.Proper) :
    pageArchs (openedDbm us tables) k = .ok (storedArchs u) := by
  obtain ⟨-, -, harch, -, -⟩ := at_lists tables hu
  have hbase : (openedDbm us tables).base = fileBytes us tables := rfl
  rw [pageArchs, dbmPageGet_eq hsize hu, Res.ok_bind]
  cases hl : u.arch with
  | none => simp [archPlace, storedArchs, hl, pure, Except.pure]
  | some l =>
    have hblock : archBlock u = lstBytes (sortBy compareStrings l) := by simp [archBlock, hl]
    rw [hblock] at harch
    have hstrings := ((hproper.arch l (by rw [hl]; rfl)).2.1).sortBy compareStrings
    have hread := strings_of_at hstrings harch (Nat.lt_succ_self _)
    simp only [archPlace, storedArchs, hl, Option.map_some, Option.getD_some, hbase, hread]

theorem valueLists_eq {im iv ip : Nat} {vs : List ValueRefs} {v : ValueRefs}
    {match_ : DbmMatch} (hvs : tables[im]? = some vs) (hv : vs[iv]? = some v)
    (hwf : TableWF us.length vs) :
    valueLists (openedDbm us tables) im match_ ip iv =
      (dbmMatch match_ v.1 && v.2.contains (20 + 20 * ip)) := by
  rw [valueLists, dbaReadValue_eq hsize hvs hv hwf]

end Exact

/-- How often a page is among the results for a macro. -/
theorem count_valueResults {n ip : Nat} {vs : List ValueRefs} (hwf : TableWF n vs)
    (match_ : DbmMatch) :
    ((vs.flatMap (valueResults match_)).map DbmRes.page).count ip =
      (vs.map fun v => if dbmMatch match_ v.1 then v.2.count (20 + 20 * ip) else 0).sum := by
  -- The offset of a page appears as often as its number.
  have hrefs : ∀ refs : List Nat, (∀ r ∈ refs, ∃ k < n, r = 20 + 20 * k) →
      (refs.map fun r => (r - 20) / 20).count ip = refs.count (20 + 20 * ip) := by
    intro refs hall
    induction refs with
    | nil => rfl
    | cons r refs ih =>
      obtain ⟨k, -, rfl⟩ := hall r (List.mem_cons_self ..)
      have hnum : (20 + 20 * k - 20) / 20 = k := by omega
      have hiff : (20 + 20 * k == 20 + 20 * ip) = (k == ip) := by
        rw [Bool.eq_iff_iff, beq_iff_eq, beq_iff_eq]
        omega
      rw [List.map_cons, List.count_cons, List.count_cons, hnum, hiff,
        ih fun r hr => hall r (List.mem_cons_of_mem _ hr)]
  -- Each value contributes its pages if it matches.
  have hloop : ∀ ws : List ValueRefs, (∀ w ∈ ws, w ∈ vs) →
      ((ws.flatMap (valueResults match_)).map DbmRes.page).count ip =
        (ws.map fun v => if dbmMatch match_ v.1 then v.2.count (20 + 20 * ip) else 0).sum := by
    intro ws hws
    induction ws with
    | nil => rfl
    | cons w ws ih =>
      rw [List.flatMap_cons, List.map_append, List.count_append, List.map_cons, List.sum_cons,
        ih fun v hv => hws v (List.mem_cons_of_mem w hv), valueResults]
      split
      · rw [List.map_map, ← hrefs w.2 (hwf.refs w (hws w (List.mem_cons_self ..)))]
        rfl
      · rfl
  exact hloop vs fun _ hv => hv

/-- Counting the places of a list. -/
theorem countP_range_eq {α : Type} {p : Nat → Bool} {q : α → Bool} {xs : List α}
    (h : ∀ i x, xs[i]? = some x → p i = q x) :
    (List.range xs.length).countP p = (xs.map fun x => if q x then 1 else 0).sum := by
  have hloop : ∀ s, (∀ i x, xs[i]? = some x → p (s + i) = q x) →
      (List.range' s xs.length).countP p = (xs.map fun x => if q x then 1 else 0).sum := by
    clear h
    induction xs with
    | nil => exact fun _ _ => rfl
    | cons x xs ih =>
      intro s hs
      have hrest := ih (s + 1) fun i y hy => by
        have hnext := hs (i + 1) y (by simpa using hy)
        rwa [← Nat.add_assoc, Nat.add_right_comm] at hnext
      have hfirst : p s = q x := hs 0 x rfl
      rw [List.length_cons, List.range'_succ, List.countP_cons, hrest, hfirst, List.map_cons,
        List.sum_cons, Nat.add_comm]
  rw [List.range_eq_range']
  exact hloop 0 fun i x hx => by
    rw [Nat.zero_add]
    exact h i x hx

/-! ## §9 When all iterations are exact -/

/-- Sums of numbers each of which is at least one of the others. -/
theorem sum_map_eq_iff {α : Type} {f g : α → Nat} {xs : List α} (hle : ∀ x ∈ xs, g x ≤ f x) :
    (xs.map f).sum = (xs.map g).sum ↔ ∀ x ∈ xs, f x = g x := by
  induction xs with
  | nil => simp
  | cons x xs ih =>
    have hx := hle x (List.mem_cons_self ..)
    have hrest : ∀ y ∈ xs, g y ≤ f y := fun y hy => hle y (List.mem_cons_of_mem x hy)
    have hsum := List.sum_le_sum hrest
    simp only [List.map_cons, List.sum_cons, List.forall_mem_cons, ← ih hrest]
    constructor
    · intro heq
      exact ⟨by omega, by omega⟩
    · rintro ⟨hfirst, hsame⟩
      rw [hfirst, hsame]

/-- A list is counted once if it has no duplicates. -/
theorem count_eq_contains_iff {refs : List Nat} {n : Nat}
    (hrefs : ∀ r ∈ refs, ∃ k < n, r = 20 + 20 * k) :
    refs.Nodup ↔ ∀ ip, refs.count (20 + 20 * ip) =
      if refs.contains (20 + 20 * ip) then 1 else 0 := by
  constructor
  · intro hnodup ip
    rw [hnodup.count, List.contains_eq_mem]
    simp
  · intro hcount
    rw [List.nodup_iff_count_le_one]
    intro r
    cases Nat.decLt 0 (refs.count r) with
    | isFalse hzero => omega
    | isTrue hpos =>
      obtain ⟨k, -, rfl⟩ := hrefs r (List.count_pos_iff.mp hpos)
      rw [hcount k]
      split <;> omega

section Iff

variable {us : List DbaPage} {tables : List (List ValueRefs)}
variable (hsize : (fileBytes us tables).length ≤ INT32_MAX)
  (htables : tables.length = macroMax) (hproper : ∀ u ∈ us, u.Proper)
  (hwf : ∀ vs ∈ tables, TableWF us.length vs)

include hsize htables hwf

/-- The iteration over a macro is exact if no value lists a page twice. -/
theorem exact_macro_iff {im : Nat} {vs : List ValueRefs} (hvs : tables[im]? = some vs) :
    (∀ match_, ∃ it rs, dbmPageByMacro (openedDbm us tables) im match_ = .ok it ∧
      Yields (openedDbm us tables) it rs ∧ ∀ ip, (rs.map DbmRes.page).count ip =
        (List.range ((openedDbm us tables).nvals.getD im 0).toNat).countP fun iv =>
          valueLists (openedDbm us tables) im match_ ip iv) ↔
      ∀ v ∈ vs, v.2.Nodup := by
  have hvwf := hwf vs (List.mem_of_getElem? hvs)
  have him : im < macroMax := htables ▸ (List.getElem?_eq_some_iff.mp hvs).1
  have hnvals : ((openedDbm us tables).nvals.getD im 0).toNat = vs.length := by
    simp [openedDbm, List.getD_eq_getElem?_getD, hvs]
  -- What has to be counted, for the results that are yielded.
  have hcounts : ∀ match_, (∀ ip, ((vs.flatMap (valueResults match_)).map DbmRes.page).count ip =
        (List.range ((openedDbm us tables).nvals.getD im 0).toNat).countP fun iv =>
          valueLists (openedDbm us tables) im match_ ip iv) ↔
      ∀ ip, ∀ v ∈ vs, (if dbmMatch match_ v.1 then v.2.count (20 + 20 * ip) else 0) =
        if dbmMatch match_ v.1 && v.2.contains (20 + 20 * ip) then 1 else 0 := by
    intro match_
    apply forall_congr'
    intro ip
    rw [hnvals, count_valueResults hvwf, countP_range_eq (q := fun v : ValueRefs =>
      dbmMatch match_ v.1 && v.2.contains (20 + 20 * ip))
      fun iv v hv => valueLists_eq hsize hvs hv hvwf]
    apply sum_map_eq_iff
    intro v _
    cases dbmMatch match_ v.1 with
    | false => exact Nat.le_refl 0
    | true =>
      simp only [Bool.true_and, if_true, List.contains_eq_mem, decide_eq_true_eq]
      split
      · rename_i hmem
        exact List.count_pos_iff.mpr hmem
      · exact Nat.zero_le _
  constructor
  · intro hexact v hv
    obtain ⟨it, rs, hstart, hyields, hcount⟩ := hexact (.sub [])
    obtain ⟨it', hstart', hyields'⟩ := yields_macro hsize hvs hvwf (.sub []) him
    obtain rfl : it' = it := Except.ok.inj (hstart'.symm.trans hstart)
    obtain rfl := hyields.unique hyields'
    rw [count_eq_contains_iff (hvwf.refs v hv)]
    intro ip
    have hone := (hcounts (.sub [])).mp hcount ip v hv
    simpa only [dbmMatch_sub_nil, if_true, Bool.true_and] using hone
  · intro hnodup match_
    obtain ⟨it, hstart, hyields⟩ := yields_macro hsize hvs hvwf match_ him
    refine ⟨it, _, hstart, hyields, (hcounts match_).mpr ?_⟩
    intro ip v hv
    have hone := (count_eq_contains_iff (hvwf.refs v hv)).mp (hnodup v hv) ip
    cases dbmMatch match_ v.1 with
    | false => rfl
    | true => simpa using hone

include hproper

omit hwf in
/-- An iteration over strings is exact if no list is empty. -/
theorem exact_title_iff (kind : Title) :
    (∀ match_, ∃ it rs, startTitle (openedDbm us tables) kind match_ = .ok it ∧
      Yields (openedDbm us tables) it rs ∧ rs.map DbmRes.page =
        (List.range (openedDbm us tables).npages).filter fun ip =>
          containsMatch match_ (pageStrings (openedDbm us tables) kind ip)) ↔
      ∀ u ∈ us, kind.stored u ≠ [] := by
  have hstrings : ∀ {k : Nat} {u : DbaPage}, us[k]? = some u →
      pageStrings (openedDbm us tables) kind k = .ok ((kind.stored u).map kind.seen) :=
    fun hu => pageStrings_eq hsize kind hu (hproper _ (List.mem_of_getElem? hu))
  constructor
  · intro hexact
    -- The first page without a string is a result for the empty pattern, but contains no match.
    have hall : ∀ (e : Nat) (u : DbaPage), us[e]? = some u → kind.stored u ≠ [] := by
      intro e
      induction e using Nat.strong_induction_on with
      | _ e ih =>
        intro u hu hempty
        obtain ⟨it, rs, hstart, hyields, hpages⟩ := hexact (.sub [])
        have hlt : 0 < us.length :=
          Nat.lt_of_le_of_lt (Nat.zero_le e) (List.getElem?_eq_some_iff.mp hu).1
        rw [startTitle_eq hsize (List.getElem?_eq_getElem hlt)] at hstart
        obtain rfl := Except.ok.inj hstart
        have hmem := mem_of_empty hproper hu (fun k v hk hv => ih k hk v hv) (Nat.zero_le e)
          hyields
        rw [hpages, List.mem_filter, hstrings hu, hempty] at hmem
        cases hmem.2
    intro u hu
    obtain ⟨e, he⟩ := List.mem_iff_getElem?.mp hu
    exact hall e u he
  · intro hne match_
    -- If all pages have strings, the results are those of the matching pages.
    obtain ⟨it, hstart, hyields⟩ := yields_title hproper hsize htables hne match_
    refine ⟨it, _, hstart, hyields, ?_⟩
    rw [List.range_eq_range']
    apply pageResults_eq page_titleResult
    intro i u hu
    rw [Nat.zero_add, hstrings hu, Bool.eq_iff_iff, isSome_titleResult]
    rfl

/-- **When all iterations over a file are exact.** -/
theorem exact_iff :
    (openedDbm us tables).Exact ↔
      (∀ u ∈ us, Title.name.stored u ≠ [] ∧ Title.sect.stored u ≠ []) ∧
        ∀ vs ∈ tables, ∀ v ∈ vs, v.2.Nodup := by
  constructor
  · intro h
    -- Names and sections decide about the titles, and the macro values about the rest.
    have hname := (exact_title_iff hsize htables hproper .name).mp (h.titles .name)
    have hsect := (exact_title_iff hsize htables hproper .sect).mp (h.titles .sect)
    refine ⟨fun u hu => ⟨hname u hu, hsect u hu⟩, ?_⟩
    intro vs hvs
    obtain ⟨im, him⟩ := List.mem_iff_getElem?.mp hvs
    have hlt : im < macroMax := htables ▸ (List.getElem?_eq_some_iff.mp him).1
    exact (exact_macro_iff hsize htables hwf him).mp (h.macros im hlt)
  · rintro ⟨hlists, hnodup⟩
    -- Titles, architectures, and macros, one after the other.
    refine ⟨?_, ?_, ?_⟩
    · intro kind
      apply (exact_title_iff hsize htables hproper kind).mpr
      intro u hu
      cases kind with
      | name => exact (hlists u hu).1
      | sect => exact (hlists u hu).2
      | desc => exact List.cons_ne_nil _ _
    · intro match_
      refine ⟨_, _, rfl, yields_arch hproper hsize, ?_⟩
      rw [List.range_eq_range']
      apply pageResults_eq page_archResult
      intro i u hu
      rw [Nat.zero_add, pageArchs_eq hsize hu (hproper u (List.mem_of_getElem? hu)),
        Bool.eq_iff_iff, isSome_archResult]
      rfl
    · intro im him
      have hlt : im < tables.length := htables ▸ him
      exact (exact_macro_iff hsize htables hwf (List.getElem?_eq_getElem hlt)).mpr
        (hnodup _ (List.getElem_mem hlt))

end Iff

/-! ## §10 Files for databases that have been built -/

/-- What the iterations need: in no page that has not been deleted is the list of names or the
    list of sections empty, and no macro value lists such a page twice. -/
structure Dba.Walkable (db : Dba) : Prop where
  names : ∀ page ∈ livePages db.pages, page.name ≠ []
  sects : ∀ page ∈ livePages db.pages, page.sect ≠ []
  pages : ∀ macro_ ∈ db.macros, ∀ entry ∈ macro_, (livePart db.pages entry.pages).Nodup

theorem sortBy_ne_nil {α : Type} {cmp : α → α → Ordering} {l : List α} :
    sortBy cmp l ≠ [] ↔ l ≠ [] := by
  rw [← List.length_pos_iff, ← List.length_pos_iff, (sortBy_perm cmp l).length_eq]

/-- Pages that have not been deleted keep their order. -/
theorem rank_lt_rank {pages : List DbaPage} {ip jp : Nat} {page : DbaPage}
    (hpage : pages[ip]? = some page) (hlive : page.deleted = false) (hlt : ip < jp) :
    rank pages ip < rank pages jp := by
  have htake : (pages.take jp)[ip]? = some page := by
    rw [List.getElem?_take, if_pos hlt, hpage]
  have hrank : rank (pages.take jp) ip = rank pages ip := by
    rw [rank, rank, List.take_take, Nat.min_eq_left (Nat.le_of_lt hlt)]
  rw [← hrank]
  exact rank_lt htake hlive

/-- Different pages have different positions. -/
theorem nodup_refs_iff {pages : List DbaPage} {ips : List Nat} :
    ((livePart pages ips).map fun ip => 20 + 20 * rank pages ip).Nodup ↔
      (livePart pages ips).Nodup := by
  constructor
  · exact fun h => h.of_map _
  · intro h
    apply h.map_on
    intro ip hip jp hjp heq
    have hlive : ∀ kp ∈ livePart pages ips,
        ∃ page, pages[kp]? = some page ∧ page.deleted = false := by
      intro kp hkp
      have hget := (List.mem_filter.mp hkp).2
      cases hpage : pages[kp]? with
      | none => simp [hpage] at hget
      | some page => exact ⟨page, rfl, by simpa [hpage] using hget⟩
    obtain ⟨page, hpage, hpagelive⟩ := hlive ip hip
    obtain ⟨page', hpage', hpagelive'⟩ := hlive jp hjp
    rcases Nat.lt_trichotomy ip jp with hlt | hsame | hgt
    · have hrank := rank_lt_rank hpage hpagelive hlt
      omega
    · exact hsame
    · have hrank := rank_lt_rank hpage' hpagelive' hgt
      omega

/-- What `Walkable` means for the file. -/
theorem Dba.walkable_iff {db : Dba} :
    db.Walkable ↔
      (∀ u ∈ livePages db.pages, Title.name.stored u ≠ [] ∧ Title.sect.stored u ≠ []) ∧
        ∀ vs ∈ db.macros.map (liveTable db.pages), ∀ v ∈ vs, v.2.Nodup := by
  constructor
  · rintro ⟨hnames, hsects, hpages⟩
    refine ⟨fun u hu => ⟨sortBy_ne_nil.mpr (hnames u hu), sortBy_ne_nil.mpr (hsects u hu)⟩, ?_⟩
    intro vs hvs v hv
    obtain ⟨macro_, hmac, rfl⟩ := List.mem_map.mp hvs
    obtain ⟨entry, hentry, rfl⟩ := List.mem_map.mp hv
    have hold := (List.mem_filter.mp (mem_sortBy.mp hentry)).1
    exact nodup_refs_iff.mpr (hpages macro_ hmac entry hold)
  · rintro ⟨hlists, hnodup⟩
    refine ⟨fun u hu => sortBy_ne_nil.mp (hlists u hu).1,
      fun u hu => sortBy_ne_nil.mp (hlists u hu).2, ?_⟩
    intro macro_ hmac entry hentry
    cases decEq (livePart db.pages entry.pages) [] with
    | isTrue hnil =>
      rw [hnil]
      exact List.nodup_nil
    | isFalse hne =>
      have hv : (entry.value, (livePart db.pages entry.pages).map
          fun ip => 20 + 20 * rank db.pages ip) ∈ liveTable db.pages macro_ :=
        List.mem_map.mpr
          ⟨entry, mem_sortBy.mpr (List.mem_filter.mpr ⟨hentry, by simpa using hne⟩), rfl⟩
      exact nodup_refs_iff.mp (hnodup _ (List.mem_map_of_mem hmac) _ hv)

theorem Dba.Sound.dbmOpen_fileOf {db : Dba} (h : db.Sound)
    (hsize : db.fileOf.length ≤ INT32_MAX) :
    dbmOpen db.fileOf =
      .ok (some (openedDbm (livePages db.pages) (db.macros.map (liveTable db.pages)))) :=
  dbmOpen_fileBytes hsize (by rw [List.length_map]; exact h.macros)

/-- A file that has been written and that can be opened is the file of the database, and it is
    not too large. -/
theorem Dba.Sound.file_of_opened {db db₁ : Dba} {file : List UInt8} {opened : Dbm}
    (h : db.Sound) (hw : dbaWrite db = .ok (file, db₁))
    (hopen : dbmOpen file = .ok (some opened)) :
    file = db.fileOf ∧ db.fileOf.length ≤ INT32_MAX := by
  obtain rfl : file = db.fileOf := by
    rcases h.dbaWrite_cases with hok | ⟨⟨e, he⟩, -⟩
    · rw [hw] at hok
      cases hok
      rfl
    · rw [hw] at he
      cases he
  refine ⟨rfl, ?_⟩
  cases Nat.decLe db.fileOf.length INT32_MAX with
  | isTrue hle => exact hle
  | isFalse hlarge =>
    rw [dbmOpen_of_large (Nat.lt_of_not_le hlarge)] at hopen
    cases hopen

/-- **Filtered iterations.**  All iterations over a file written by `dba_write` are exact if and
    only if the lists of names and sections that `page_bytitle` walks over are not empty and no
    macro value lists a page twice. -/
theorem iterations_exact_iff {db db₁ : Dba} {file : List UInt8} {opened : Dbm}
    (built : db.Built) (hw : dbaWrite db = .ok (file, db₁))
    (hopen : dbmOpen file = .ok (some opened)) : opened.Exact ↔ db.Walkable := by
  have h := built.sound
  obtain ⟨rfl, hsize⟩ := h.file_of_opened hw hopen
  rw [h.dbmOpen_fileOf hsize] at hopen
  obtain rfl := Option.some.inj (Except.ok.inj hopen)
  have hproper : ∀ u ∈ livePages db.pages, u.Proper :=
    fun u hu => (h.pages u (List.mem_filter.mp hu).1).toProper
  have hwf : ∀ vs ∈ db.macros.map (liveTable db.pages),
      TableWF (livePages db.pages).length vs := by
    intro vs hvs
    obtain ⟨macro_, hmac, rfl⟩ := List.mem_map.mp hvs
    exact tableWF_liveTable (h.tables macro_ hmac)
  rw [Dba.walkable_iff]
  exact exact_iff hsize (by rw [List.length_map]; exact h.macros) hproper hwf

/-- Two pages with several names and sections, the second one for one architecture.  One macro value
    is in both pages, and another one in the second page. -/
def twoPagesDba : Dba where
  pages := [
    { name := [[4, 0x62]], sect := [[0x31]], arch := none, desc := [0x64], file := [[1, 0x66]] },
    { name := [[4, 0x61], [4, 0x63]], sect := [[0x31], [0x38]], arch := some [[0x78]],
      desc := [0x65], file := [[1, 0x67]] }]
  macros := [⟨[0x76], [1, 0]⟩, ⟨[0x77], [1]⟩] :: List.replicate 35 []

/-- The calls that build it. -/
theorem twoPagesDba_built : twoPagesDba.Built := by
  have h1 := @Dba.Built.pageNew _ none [0x64] [0x66] .src .new (by simp) (by decide) (by decide)
  have h2 := @Dba.Built.pageNew _ (some [0x78]) [0x65] [0x67] .src h1 (by decide) (by decide)
    (by decide)
  have h3 := @Dba.Built.pageAdd _ 0 _ _ .sect (some [0x31]) h2 rfl (by decide) rfl
  have h4 := @Dba.Built.pageAdd _ 1 _ _ .sect (some [0x31]) h3 rfl (by decide) rfl
  have h5 := @Dba.Built.pageAdd _ 1 _ _ .sect (some [0x38]) h4 rfl (by decide) rfl
  have h6 := @Dba.Built.pageAlias _ 0 _ [0x62] 4 h5 rfl (by decide) (by decide)
  have h7 := @Dba.Built.pageAlias _ 1 _ [0x61] 4 h6 rfl (by decide) (by decide)
  have h8 := @Dba.Built.pageAlias _ 1 _ [0x63] 4 h7 rfl (by decide) (by decide)
  have h9 := @Dba.Built.macroAdd _ 0 1 [0x76] h8 (by decide) (by decide) (by decide)
  have h10 := @Dba.Built.macroAdd _ 0 0 [0x76] h9 (by decide) (by decide) (by decide)
  have h11 := @Dba.Built.macroAdd _ 0 1 [0x77] h10 (by decide) (by decide) (by decide)
  exact h11

theorem iterations_exact_iff_sample :
    dbaWrite twoPagesDba = .ok (twoPagesDba.fileOf, twoPagesDba.written) ∧
      ∃ opened, dbmOpen twoPagesDba.fileOf = .ok (some opened) ∧ opened.Exact := by
  have h := twoPagesDba_built.sound
  have hsize : twoPagesDba.fileOf.length ≤ INT32_MAX := by decide +kernel
  have hwrite := h.dbaWrite_eq (Nat.lt_of_le_of_lt hsize (by decide))
  have hopen := h.dbmOpen_fileOf hsize
  have hwalk : twoPagesDba.Walkable :=
    ⟨by decide +kernel, by decide +kernel, by decide +kernel⟩
  exact ⟨hwrite, _, hopen, (iterations_exact_iff twoPagesDba_built hwrite hopen).mpr hwalk⟩

/-- Two pages in the same section, the first of which has no name. -/
def unnamedDba : Dba where
  pages := [
    { name := [], sect := [[0x31]], arch := none, desc := [0x64], file := [[1, 0x66]] },
    { name := [[4, 0x62]], sect := [[0x31]], arch := none, desc := [0x65],
      file := [[1, 0x67]] }]
  macros := List.replicate 36 []

/-- The calls that build it. -/
theorem unnamedDba_built : unnamedDba.Built := by
  have h1 := @Dba.Built.pageNew _ none [0x64] [0x66] .src .new (by simp) (by decide) (by decide)
  have h2 := @Dba.Built.pageNew _ none [0x65] [0x67] .src h1 (by simp) (by decide) (by decide)
  have h3 := @Dba.Built.pageAdd _ 0 _ _ .sect (some [0x31]) h2 rfl (by decide) rfl
  have h4 := @Dba.Built.pageAdd _ 1 _ _ .sect (some [0x31]) h3 rfl (by decide) rfl
  -- The database is written, and opened again.
  have h5 := @Dba.Built.pageAlias _ 1 _ [0x62] 4 h4 rfl (by decide) (by decide)
  exact h5

/-- The second page has the name `b`, but `dbm_page_byname` does not find it: the empty list in
    front of its list shifts the cursor. -/
theorem iterations_not_exact :
    dbaWrite unnamedDba = .ok (unnamedDba.fileOf, unnamedDba.written) ∧
      ∃ opened, dbmOpen unnamedDba.fileOf = .ok (some opened) ∧
        pageStrings opened .name 1 = .ok [[0x62]] ∧
        -- The iteration ends at once, though the second page has the name that is searched for.
        (∃ it it', dbmPageByname opened (.exact [0x62]) = .ok it ∧
          dbmPageNext opened it = .ok (none, it')) ∧
        ¬ opened.Exact := by
  have h := unnamedDba_built.sound
  have hsize : unnamedDba.fileOf.length ≤ INT32_MAX := by decide +kernel
  have hwrite := h.dbaWrite_eq (Nat.lt_of_le_of_lt hsize (by decide))
  have hopen := h.dbmOpen_fileOf hsize
  have hstrings : pageStrings (openedDbm (livePages unnamedDba.pages)
      (unnamedDba.macros.map (liveTable unnamedDba.pages))) .name 1 = .ok [[0x62]] := by
    decide +kernel
  have hstart := @startTitle_eq (livePages unnamedDba.pages)
    (unnamedDba.macros.map (liveTable unnamedDba.pages)) hsize _ rfl .name (.exact [0x62])
  have hnone : (dbmPageNext (openedDbm (livePages unnamedDba.pages)
      (unnamedDba.macros.map (liveTable unnamedDba.pages)))
      (.title .name (.exact [0x62]) ⟨fileBytes (livePages unnamedDba.pages)
        (unnamedDba.macros.map (liveTable unnamedDba.pages)),
        Title.name.place (livePages unnamedDba.pages) 0⟩ 0)).map Prod.fst = .ok none := by
    decide +kernel
  cases hnext : dbmPageNext (openedDbm (livePages unnamedDba.pages)
      -- If the iteration were exact, this page would be among its results.
      (unnamedDba.macros.map (liveTable unnamedDba.pages)))
      (.title .name (.exact [0x62]) ⟨fileBytes (livePages unnamedDba.pages)
        (unnamedDba.macros.map (liveTable unnamedDba.pages)),
        Title.name.place (livePages unnamedDba.pages) 0⟩ 0) with
  | error e =>
    rw [hnext] at hnone
    cases hnone
  | ok p =>
    obtain ⟨res, it'⟩ := p
    rw [hnext] at hnone
    obtain rfl : res = none := Except.ok.inj hnone
    refine ⟨hwrite, _, hopen, hstrings, ⟨_, it', hstart, hnext⟩, ?_⟩
    intro hexact
    obtain ⟨it, rs, hit, hyields, hpages⟩ := hexact.titles .name (.exact [0x62])
    rw [hstart] at hit
    obtain rfl := Except.ok.inj hit
    obtain rfl := hyields.unique (.done hnext)
    have hmem : 1 ∈ ([] : List DbmRes).map DbmRes.page := by
      rw [hpages, List.mem_filter, hstrings]
      decide
    cases hmem

end Mandoc
