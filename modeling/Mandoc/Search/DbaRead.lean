import Mandoc.Search.DbmFile

/-!
# Reading a file that has been written

`dba_read` turns a file with the layout of `dba_write` into the pages and macro tables that have
been written, with the lists sorted as they are in the file.
-/

namespace Mandoc

open BackPatch

/-! ## §1 Pages that can be written and read -/

/-- The entries of a list are strings, and none of them is empty. -/
def ProperStrings (l : List Str) : Prop := ∀ s ∈ l, s ≠ [] ∧ NulFree s

/-- What the functions that build pages guarantee. -/
structure DbaPage.Proper (page : DbaPage) : Prop where
  name : ProperStrings page.name
  sect : ProperStrings page.sect
  sect_nodup : page.sect.Nodup
  arch : ∀ l ∈ page.arch, l ≠ [] ∧ ProperStrings l ∧ l.Nodup
  desc : NulFree page.desc
  file : ProperStrings page.file
  file_ne_nil : page.file ≠ []
  /-- No file name has been present when it was added. -/
  file_fresh : page.file.Pairwise fun s t => comparedPart .file s ≠ t

/-- What `dba_read` needs to restore a page. -/
structure DbaPage.WF (page : DbaPage) : Prop extends page.Proper where
  name_nodup : page.name.Nodup

/-- A page as it comes out of a file. -/
def DbaPage.image (page : DbaPage) : DbaPage where
  name := sortBy compareNames page.name
  sect := sortBy compareStrings page.sect
  arch := page.arch.map (sortBy compareStrings)
  desc := page.desc
  file := page.file

theorem ProperStrings.sortBy {l : List Str} (h : ProperStrings l) (cmp : Str → Str → Ordering) :
    ProperStrings (sortBy cmp l) :=
  fun s hs => h s (mem_sortBy.mp hs)

/-- A list whose entries are all different is added as it is. -/
theorem foldl_addString {ie : Dbp} {strs entries : List Str} (hne : ∀ s ∈ strs, s ≠ [])
    (hfresh : (entries ++ strs).Pairwise fun s t => comparedPart ie s ≠ t) :
    strs.foldl (addString ie) entries = entries ++ strs := by
  induction strs generalizing entries with
  | nil => simp
  | cons s strs ih =>
    have hs : s ≠ [] := hne s (List.mem_cons_self ..)
    have hnew : ∀ entry ∈ entries, comparedPart ie entry ≠ s := by
      intro entry hentry
      exact (List.pairwise_append.mp hfresh).2.2 entry hentry s (List.mem_cons_self ..)
    have hany : (entries.any fun entry => strcmp (comparedPart ie entry) s = .eq) = false := by
      rw [List.any_eq_false]
      intro entry hentry
      simpa [strcmp_eq_iff] using hnew entry hentry
    have hadd : addString ie entries s = entries ++ [s] := by
      rw [addString, if_neg hs, hany, if_neg (by simp)]
    rw [List.foldl_cons, hadd, ih (fun t ht => hne t (List.mem_cons_of_mem s ht)) (by simpa using hfresh)]
    simp

theorem pairwise_compared {ie : Dbp} (hie : ie ≠ .file) {l : List Str} (h : l.Nodup) :
    l.Pairwise fun s t => comparedPart ie s ≠ t := by
  have hid : ∀ s, comparedPart ie s = s := fun s => if_neg fun hc => hie hc.1
  exact h.imp fun hne => by rwa [hid]

theorem addStrings_name {page : DbaPage} {strs : List Str} :
    addStrings .name page strs =
      .ok { page with name := strs.foldl (addString .name) page.name } := by
  unfold addStrings
  induction strs generalizing page with
  | nil => rfl
  | cons s strs ih => exact ih

theorem addStrings_sect {page : DbaPage} {strs : List Str} :
    addStrings .sect page strs =
      .ok { page with sect := strs.foldl (addString .sect) page.sect } := by
  unfold addStrings
  induction strs generalizing page with
  | nil => rfl
  | cons s strs ih => exact ih

theorem addStrings_file {page : DbaPage} {strs : List Str} :
    addStrings .file page strs =
      .ok { page with file := strs.foldl (addString .file) page.file } := by
  unfold addStrings
  induction strs generalizing page with
  | nil => rfl
  | cons s strs ih => exact ih

/-- Architectures are only added to a page that has some, and none of them is empty. -/
theorem addStrings_arch {page : DbaPage} {entries strs : List Str}
    (harch : page.arch = some entries) (hne : ∀ s ∈ strs, s ≠ []) :
    addStrings .arch page strs =
      .ok { page with arch := some (strs.foldl (addString .arch) entries) } := by
  unfold addStrings
  induction strs generalizing page entries with
  | nil =>
    rw [List.foldl_nil, ← harch]
    rfl
  | cons s strs ih =>
    have hs : s ≠ [] := hne s (List.mem_cons_self ..)
    have hadd : dbaPageAdd page .arch (some s) =
        .ok { page with arch := some (addString .arch entries s) } := by
      cases s with
      | nil => exact absurd rfl hs
      | cons c s => simp [dbaPageAdd, harch]
    rw [List.foldlM_cons, hadd, Res.ok_bind,
      ih rfl fun t ht => hne t (List.mem_cons_of_mem s ht)]
    rfl

/-- The first architecture of a page in the file. -/
def firstArch (arch : Option (List Str)) : Option Str := arch.bind List.head?

/-- The other architectures of a page in the file. -/
def otherArchs (arch : Option (List Str)) : List Str := (arch.map List.tail).getD []

theorem DbaPage.WF.nodup_name {page : DbaPage} (h : page.WF) :
    (sortBy compareNames page.name).Nodup :=
  (sortBy_perm _ _).nodup_iff.mpr h.name_nodup

theorem DbaPage.Proper.nodup_sect {page : DbaPage} (h : page.Proper) :
    (sortBy compareStrings page.sect).Nodup :=
  (sortBy_perm _ _).nodup_iff.mpr h.sect_nodup

/-- The architectures of a page that are in the file: none, or a list that starts with a
    proper string. -/
theorem image_arch_cases {u : DbaPage} (hwf : u.Proper) :
    u.image.arch = none ∨
      ∃ c a as, u.image.arch = some ((c :: a) :: as) ∧
        ProperStrings ((c :: a) :: as) ∧ ((c :: a) :: as).Nodup := by
  cases harch : u.arch with
  | none => exact .inl (by simp [DbaPage.image, harch])
  | some l =>
    right
    obtain ⟨hne, hproper, hnodup⟩ := hwf.arch l (by rw [harch]; rfl)
    have hsorted := hproper.sortBy compareStrings
    have hperm := sortBy_perm compareStrings l
    have himage : u.image.arch = some (sortBy compareStrings l) := by
      simp [DbaPage.image, harch]
    have hne' : sortBy compareStrings l ≠ [] := fun hnil => hne (by
      rw [hnil] at hperm
      exact hperm.symm.eq_nil)
    obtain ⟨a, as, heq⟩ := List.exists_cons_of_ne_nil hne'
    rw [heq] at himage hsorted hperm
    obtain ⟨c, a', rfl⟩ := List.exists_cons_of_ne_nil (hsorted a (List.mem_cons_self ..)).1
    exact ⟨c, a', as, himage, hsorted, hperm.nodup_iff.mpr hnodup⟩

/-- Building a page from what is in the file. -/
theorem rebuild_page {u : DbaPage} (hwf : u.WF) {b : UInt8} {f : Str} {fs : List Str}
    (hf : u.file = (b :: f) :: fs) :
    ((dbaPageNew [] (firstArch u.image.arch) u.desc f b).mapM fun page => do
      let page ← addStrings .name page u.image.name
      let page ← addStrings .sect page u.image.sect
      let page ← addStrings .arch page (otherArchs u.image.arch)
      addStrings .file page fs) = .ok [u.image] := by
  -- Adding strings that are all different one by one gives the list of them.
  have hproper : ∀ s ∈ (b :: f) :: fs, s ≠ [] ∧ NulFree s := hf ▸ hwf.file
  have hprepend : prepend f b = b :: f := cstr_eq (hproper _ (List.mem_cons_self ..)).2
  have hnames : u.image.name.foldl (addString .name) [] = u.image.name :=
    foldl_addString (fun s hs => (hwf.name.sortBy _ s hs).1)
      (pairwise_compared (by decide) hwf.nodup_name)
  have hsects : u.image.sect.foldl (addString .sect) [] = u.image.sect :=
    foldl_addString (fun s hs => (hwf.sect.sortBy _ s hs).1)
      (pairwise_compared (by decide) hwf.nodup_sect)
  have hfiles : fs.foldl (addString .file) [b :: f] = (b :: f) :: fs := by
    have hfresh := hwf.file_fresh
    rw [hf] at hfresh
    exact foldl_addString (fun s hs => (hproper s (List.mem_cons_of_mem _ hs)).1) hfresh
  have hbuilt : DbaPage.mk u.image.name u.image.sect u.image.arch u.desc ((b :: f) :: fs)
      ⟨0, 0, 0, 0, 0⟩ 0 false = u.image := by
    rw [← hf]
    rfl
  rcases image_arch_cases hwf.toProper with harch | ⟨c, a, as, harch, haproper, hanodup⟩
  · -- A page for all architectures.
    have hnone : ∀ page : DbaPage, addStrings .arch page (otherArchs none) = .ok page :=
      fun _ => rfl
    rw [harch] at hbuilt ⊢
    simp only [dbaPageNew, firstArch, Option.bind_none, List.nil_append, hprepend,
      List.mapM_cons, List.mapM_nil, addStrings_name, addStrings_sect, addStrings_file, hnone,
      Res.ok_bind, hnames, hsects, hfiles]
    rw [hbuilt]
    rfl
  · -- The first architecture is given when the page is created, the others are added.
    have harchs : as.foldl (addString .arch) [c :: a] = (c :: a) :: as :=
      foldl_addString (fun s hs => (haproper s (List.mem_cons_of_mem _ hs)).1)
        (pairwise_compared (by decide) hanodup)
    have hfirst : firstArch (some ((c :: a) :: as)) = some (c :: a) := rfl
    have hother : otherArchs (some ((c :: a) :: as)) = as := rfl
    have hadd : ∀ page : DbaPage, page.arch = some [c :: a] →
        addStrings .arch page as = .ok { page with arch := some ((c :: a) :: as) } := by
      intro page hpage
      rw [addStrings_arch hpage fun s hs => (haproper s (List.mem_cons_of_mem _ hs)).1, harchs]
    rw [harch] at hbuilt ⊢
    simp only [dbaPageNew, hfirst, hother, List.nil_append, hprepend, List.mapM_cons,
      List.mapM_nil, addStrings_name, addStrings_sect, addStrings_file, Res.ok_bind, hnames,
      hsects, hadd, hfiles]
    rw [hbuilt]
    rfl

/-! ## §2 Reading a page -/

/-- A loop over the places of a list, none of whose iterations fails. -/
theorem mapM_range_eq_ok {α β : Type} {f : Nat → Res β} {g : α → β} {xs : List α}
    (h : ∀ i x, xs[i]? = some x → f i = .ok (g x)) :
    (List.range xs.length).mapM f = .ok (xs.map g) := by
  have hloop : ∀ s, (∀ i x, xs[i]? = some x → f (s + i) = .ok (g x)) →
      (List.range' s xs.length).mapM f = .ok (xs.map g) := by
    clear h
    induction xs with
    | nil => exact fun _ _ => rfl
    | cons x xs ih =>
      intro s hs
      have hfirst := hs 0 x rfl
      have hrest := ih (s + 1) (fun i y hy => by
        rw [Nat.add_assoc, Nat.add_comm 1]
        exact hs (i + 1) y hy)
      rw [List.length_cons, List.range'_succ, List.mapM_cons, ← Nat.add_zero s, hfirst]
      simp only [Nat.add_zero, hrest]
      rfl
  rw [List.range_eq_range']
  exact hloop 0 fun i x hx => by rw [Nat.zero_add]; exact h i x hx

/-- The strings of a list in the file. -/
theorem strings_of_at {file : List UInt8} {off n : Nat} {ss : List Str} (hss : ProperStrings ss)
    (h : At file off (lstBytes ss)) (hn : file.length < n) :
    Ptr.strings n ⟨file, off⟩ = .ok ss := by
  obtain ⟨r, hr⟩ := rest_of_at h
  have hle := at_add_length_le h (lstBytes_ne_nil ss)
  have hlen := length_le_length_lstBytes ss
  exact Ptr.strings_of_rest (fun s hs => (hss s hs).1) (fun s hs => (hss s hs).2) hr (by omega)

/-- The first string of a list in the file, and the rest of the list behind it. -/
theorem first_of_at {file : List UInt8} {off : Nat} {s : Str} {ss : List Str} (hs : NulFree s)
    (h : At file off (lstBytes (s :: ss))) :
    Ptr.str ⟨file, off⟩ = .ok s ∧
      Ptr.skipStr ⟨file, off⟩ = .ok ⟨file, off + (s.length + 1)⟩ ∧
      At file (off + (s.length + 1)) (lstBytes ss) := by
  rw [lstBytes_cons] at h
  obtain ⟨r, hr⟩ := rest_of_at h.left
  have hr' : Ptr.rest ⟨file, off⟩ = s ++ 0 :: r := by rw [hr]; simp [strBytes]
  have hrest := h.right
  rw [strBytes, List.length_append] at hrest
  exact ⟨str_of_at hs h.left, Ptr.skipStr_of_rest hs hr', hrest⟩

section File

variable {us : List DbaPage} {tables : List (List ValueRefs)}
variable (hsize : (fileBytes us tables).length ≤ INT32_MAX)

include hsize

omit hsize in
/-- Reading the architectures of a page: the first one, and the list of the other ones. -/
theorem read_archs (tables : List (List ValueRefs)) {k : Nat} {u : DbaPage} (hu : us[k]? = some u) (hwf : u.WF) :
    readFirstArch (archPlace us tables k u) = .ok (firstArch u.image.arch) ∧
    readOtherArchs ((fileBytes us tables).length + 9) (archPlace us tables k u) =
      .ok (otherArchs u.image.arch) := by
  obtain ⟨-, -, hplace, -, -⟩ := at_lists tables hu
  cases harch : u.arch with
  | none =>
    simp [archPlace, harch, DbaPage.image, firstArch, otherArchs, readFirstArch, readOtherArchs]
  | some l =>
    have himage : u.image.arch = some (sortBy compareStrings l) := by
      simp [DbaPage.image, harch]
    obtain hnone | ⟨c, a, as, hsome, hproper, -⟩ := image_arch_cases hwf.toProper
    · rw [hnone] at himage
      cases himage
    · have heq : sortBy compareStrings l = (c :: a) :: as := by
        rw [hsome] at himage
        exact (Option.some.inj himage).symm
      have hblock : archBlock u = lstBytes ((c :: a) :: as) := by simp [archBlock, harch, heq]
      rw [hblock] at hplace
      obtain ⟨hstr, hskip, hrest⟩ := first_of_at (hproper _ (List.mem_cons_self ..)).2 hplace
      have hothers := strings_of_at (fun s hs => hproper s (List.mem_cons_of_mem _ hs)) hrest
        (Nat.lt_add_of_pos_right (Nat.zero_lt_succ 8))
      rw [hsome]
      simp only [archPlace, harch, Option.map_some, readFirstArch, readOtherArchs, hstr, hskip,
        hothers, Res.ok_bind]
      exact ⟨rfl, rfl⟩

/-- `dba_read` restores a page. -/
theorem dbaReadPage_eq {k : Nat} {u : DbaPage} (hu : us[k]? = some u) (hwf : u.WF) :
    dbaReadPage (openedDbm us tables) k = .ok [u.image] := by
  obtain ⟨hname, hsect, -, hdesc, hfile⟩ := at_lists tables hu
  obtain ⟨f, fs, hf⟩ := List.exists_cons_of_ne_nil hwf.file_ne_nil
  have hproper : ProperStrings (f :: fs) := hf ▸ hwf.file
  have hfirst := hproper f (List.mem_cons_self ..)
  obtain ⟨b, f', rfl⟩ := List.exists_cons_of_ne_nil hfirst.1
  have hf' : NulFree f' := fun hmem => hfirst.2 (List.mem_cons_of_mem b hmem)
  rw [fileBlock, hf] at hfile
  obtain ⟨-, hskip, hothers⟩ := first_of_at hfirst.2 hfile
  obtain ⟨r, hr⟩ := rest_of_at hfile
  have hform : Ptr.get ⟨fileBytes us tables, (pageMap 16 us k u).file⟩ = .ok b :=
    Ptr.get_of_rest hr
  have hfstr : Ptr.str (Ptr.add ⟨fileBytes us tables, (pageMap 16 us k u).file⟩ 1) = .ok f' := by
    apply Ptr.str_of_rest hf' (r := fs.flatMap strBytes ++ [0] ++ r)
    rw [Ptr.rest_add, hr]
    simp [lstBytes, strBytes]
  have hfuel : (fileBytes us tables).length < (fileBytes us tables).length + 9 :=
    Nat.lt_add_of_pos_right (Nat.zero_lt_succ 8)
  have rdesc := str_of_at hwf.desc hdesc
  have rname := strings_of_at (hwf.name.sortBy compareNames) hname hfuel
  have rsect := strings_of_at (hwf.sect.sortBy compareStrings) hsect hfuel
  have rfiles := strings_of_at (fun s hs => hproper s (List.mem_cons_of_mem _ hs)) hothers hfuel
  obtain ⟨rarch, rarchs⟩ := read_archs tables hu hwf
  unfold dbaReadPage
  have hbase : (openedDbm us tables).base = fileBytes us tables := rfl
  simp only [dbmPageGet_eq hsize hu, Res.ok_bind, rarch, rdesc, hform, hfstr, hbase, rname, rsect,
    rarchs, hskip, rfiles]
  exact rebuild_page hwf hf

/-! ## §3 Reading a macro table -/

omit hsize in
/-- The integers of a list of pages. -/
theorem integers_of_at {file : List UInt8} {off n : Nat} {is : List Nat}
    (his : ∀ i ∈ is, i ≠ 0 ∧ i < 4294967296) (h : At file off (is.flatMap be32 ++ be32 0))
    (hn : is.length < n) : integers n ⟨file, off⟩ = .ok is := by
  induction is generalizing off n with
  | nil =>
    cases n with
    | zero => exact absurd hn (Nat.not_lt_zero _)
    | succ n =>
      have hzero : Ptr.uint32 ⟨file, off⟩ = .ok 0 := uint32_of_at (by decide) h
      rw [integers, hzero]
      rfl
  | cons i is ih =>
    cases n with
    | zero => exact absurd hn (Nat.not_lt_zero _)
    | succ n =>
      obtain ⟨hne, hlt⟩ := his i (List.mem_cons_self ..)
      rw [List.flatMap_cons, List.append_assoc] at h
      have hrest := h.right
      rw [length_be32] at hrest
      have hnext := ih (fun j hj => his j (List.mem_cons_of_mem i hj)) hrest
        (Nat.lt_of_succ_lt_succ hn)
      rw [integers, uint32_of_at hlt h.left]
      simp only [Res.ok_bind, hne, if_false, Ptr.add, hnext]
      rfl

/-- What is written of a macro table whose pages are in the file: different values, and for
    each of them the positions of some pages. -/
structure TableWF (npages : Nat) (vs : List ValueRefs) : Prop where
  values : ∀ v ∈ vs, NulFree v.1
  nodup : (vs.map Prod.fst).Nodup
  refs : ∀ v ∈ vs, ∀ r ∈ v.2, ∃ k < npages, r = 20 + 20 * k

/-- A macro table as it comes out of a file. -/
def tableImage (vs : List ValueRefs) : List MacroEntry :=
  vs.map fun v => ⟨v.1, v.2.map fun r => r / 20 - 1⟩

theorem ref_lt {k : Nat} (hk : k < us.length) : 20 + 20 * k < 2147483648 :=
  place_lt hsize (at_record tables (List.getElem?_eq_getElem hk)) (by simp [recordBytes, be32])

/-- `dba_read` gets a macro value and the positions of its pages. -/
theorem dbaReadValue_eq {im iv : Nat} {vs : List ValueRefs} {v : ValueRefs}
    (hvs : tables[im]? = some vs) (hv : vs[iv]? = some v) (hwf : TableWF us.length vs) :
    dbaReadValue (openedDbm us tables) im iv = .ok v := by
  have hmem := List.mem_of_getElem? hv
  obtain ⟨place, hplace, htable⟩ := @at_table us _ _ _ hvs
  obtain ⟨rvalue, rrefs⟩ := macroInt_of_at hsize hplace htable hv
  have hvalue := (at_values htable).element hv
  have hrefs := (at_refs htable).element hv
  have hrange : ∀ r ∈ v.2, r ≠ 0 ∧ r < 4294967296 := by
    intro r hr
    obtain ⟨k, hk, rfl⟩ := hwf.refs v hmem r hr
    have hlt := ref_lt hsize hk
    omega
  have hfuel : v.2.length < (fileBytes us tables).length + 1 := by
    have hle := at_add_length_le hrefs (by simp [refsBytes, be32])
    rw [refsBytes, List.length_append, length_flatMap_be32] at hle
    omega
  have hstr := str_of_at (hwf.values v hmem) hvalue
  have hints := integers_of_at hrange hrefs hfuel
  have hbase : (openedDbm us tables).base = fileBytes us tables := rfl
  unfold dbaReadValue dbmMacroGet
  simp only [rvalue, rrefs, Res.ok_bind, pure_bind, get_place hsize hvalue (strBytes_ne_nil _),
    get_place hsize hrefs (by simp [refsBytes, be32]), nonNull, hstr, hbase, hints]
  rfl

omit hsize in
/-- A new value gets an entry of its own. -/
theorem addToEntry_new {value : Str} {pages : List Nat} {entries : List MacroEntry}
    (h : value ∉ entries.map MacroEntry.value) :
    addToEntry value pages entries = entries ++ [⟨value, pages⟩] := by
  induction entries with
  | nil => rfl
  | cons entry entries ih =>
    have hne : entry.value ≠ value := fun heq => h (by simp [heq])
    have hrest : value ∉ entries.map MacroEntry.value := fun hmem => h (by simp [hmem])
    rw [addToEntry, if_neg hne, ih hrest, List.cons_append]

omit hsize in
theorem pageOfOffset_eq {npages k : Nat} : pageOfOffset npages (20 + 20 * k) = k := by
  have hdiv : (20 + 20 * k) / 5 / 4 = k + 1 := by omega
  rw [pageOfOffset, hdiv, if_neg (Nat.succ_ne_zero k), Nat.add_sub_cancel]

omit hsize in
/-- Different values with pages of the database make up a table. -/
theorem foldl_dbaMacroNew {npages : Nat} {vs : List ValueRefs} (hwf : TableWF npages vs) :
    vs.foldl (fun macro_ (value, pp) => dbaMacroNew npages macro_ value pp) [] =
      tableImage vs := by
  -- The offsets that were written are mapped back to the numbers of the pages.
  have hpages : ∀ v ∈ vs, v.2.map (pageOfOffset npages) = v.2.map fun r => r / 20 - 1 := by
    intro v hv
    apply List.map_congr_left
    intro r hr
    obtain ⟨k, -, rfl⟩ := hwf.refs v hv r hr
    rw [pageOfOffset_eq]
    omega
  -- By induction on the values that remain; none of them has been read before.
  have hloop : ∀ (done todo : List ValueRefs), (∀ v ∈ todo, v ∈ vs) →
      ((done ++ todo).map Prod.fst).Nodup →
      todo.foldl (fun macro_ (value, pp) => dbaMacroNew npages macro_ value pp)
        (tableImage done) = tableImage (done ++ todo) := by
    intro done todo
    induction todo generalizing done with
    | nil => simp
    | cons v todo ih =>
      intro hmem hnodup
      have hnew : v.1 ∉ (tableImage done).map MacroEntry.value := by
        have hdisj := (List.nodup_append.mp (by rw [← List.map_append]; exact hnodup)).2.2
        intro hin
        rw [tableImage, List.map_map] at hin
        exact hdisj v.1 hin v.1 (by simp) rfl
      have hstep : dbaMacroNew npages (tableImage done) v.1 v.2 = tableImage (done ++ [v]) := by
        rw [dbaMacroNew, hpages v (hmem v (List.mem_cons_self ..)), addToEntry_new hnew]
        simp [tableImage]
      rw [List.foldl_cons]
      change todo.foldl _ (dbaMacroNew npages (tableImage done) v.1 v.2) = _
      rw [hstep, ih (done ++ [v]) (fun w hw => hmem w (List.mem_cons_of_mem v hw)) (by simpa using hnodup)]
      simp
  exact hloop [] vs (fun _ hv => hv) (by simpa using hwf.nodup)

/-- `dba_read` restores a macro table. -/
theorem dbaReadMacro_eq {im : Nat} {vs : List ValueRefs} (hvs : tables[im]? = some vs)
    (hwf : TableWF us.length vs) :
    dbaReadMacro (openedDbm us tables) im = .ok (tableImage vs) := by
  have hnvals : (openedDbm us tables).nvals.getD im 0 = vs.length := by
    simp [openedDbm, List.getD_eq_getElem?_getD, hvs]
  have hloop : (List.range vs.length).mapM (dbaReadValue (openedDbm us tables) im) = .ok vs := by
    have hread := mapM_range_eq_ok (g := fun v => v)
      fun iv v hv => dbaReadValue_eq (v := v) hsize hvs hv hwf
    rwa [List.map_id'] at hread
  unfold dbaReadMacro
  simp only [hnvals, Int.toNat_natCast, hloop, Res.ok_bind]
  exact congrArg Except.ok (foldl_dbaMacroNew hwf)

/-! ## §4 Reading a file -/

/-- **The reader restores what the layout describes.** -/
theorem dbaRead_fileBytes (hpages : ∀ u ∈ us, u.WF) (htables : tables.length = macroMax)
    (hwf : ∀ vs ∈ tables, TableWF us.length vs) :
    dbaRead (fileBytes us tables) =
      .ok (some ⟨us.map DbaPage.image, tables.map tableImage⟩) := by
  have rpages := mapM_range_eq_ok (g := fun u => [DbaPage.image u])
    fun k u hu => dbaReadPage_eq (u := u) hsize hu (hpages u (List.mem_of_getElem? hu))
  have rtables := mapM_range_eq_ok (g := tableImage)
    fun im vs hvs => dbaReadMacro_eq hsize hvs (hwf vs (List.mem_of_getElem? hvs))
  rw [htables] at rtables
  have hnpages : (openedDbm us tables).npages = us.length := rfl
  have hflat : ∀ l : List DbaPage, (l.map fun u => [u.image]).flatten = l.map DbaPage.image := by
    intro l
    induction l with
    | nil => rfl
    | cons u l ih => simp [ih]
  unfold dbaRead
  simp only [dbmOpen_fileBytes hsize htables, Res.ok_bind, hnpages, rpages, rtables]
  rw [hflat]
  rfl

end File

end Mandoc
