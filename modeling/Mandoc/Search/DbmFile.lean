import Mandoc.Search.DbaLayout
import Mandoc.Search.Dbm

/-!
# Looking at a file that has been written

Where the parts of a database file are, and what `dbm_open`, the page records, and the macro
tables of such a file yield.  The parts are found by splitting the layout; an integer or a
string is then read at its place.
-/

namespace Mandoc

open BackPatch

/-! ## §1 Reading at a place -/

theorem rest_of_at {file bs : List UInt8} {off : Nat} (h : At file off bs) :
    ∃ r, Ptr.rest ⟨file, off⟩ = bs ++ r := h

theorem uint32_of_at {file : List UInt8} {off i : Nat} (hi : i < 4294967296)
    (h : At file off (be32 i)) : Ptr.uint32 ⟨file, off⟩ = .ok i := by
  obtain ⟨r, hr⟩ := rest_of_at h
  exact Ptr.uint32_of_rest hi hr

theorem str_of_at {file : List UInt8} {off : Nat} {s : Str} (hs : NulFree s)
    (h : At file off (strBytes s)) : Ptr.str ⟨file, off⟩ = .ok s := by
  obtain ⟨r, hr⟩ := rest_of_at h
  exact Ptr.str_of_rest hs (r := r) (by rw [hr]; simp [strBytes])

/-- Bytes that are somewhere in a file end inside it. -/
theorem at_add_length_le {file bs : List UInt8} {off : Nat} (h : At file off bs)
    (hne : bs ≠ []) : off + bs.length ≤ file.length := by
  obtain ⟨r, hr⟩ := h
  have hlen := congrArg List.length hr
  have hpos := List.length_pos_iff.mpr hne
  simp only [List.length_drop, List.length_append] at hlen
  omega

theorem lstBytes_ne_nil (ss : List Str) : lstBytes ss ≠ [] := by simp [lstBytes]

theorem strBytes_ne_nil (s : Str) : strBytes s ≠ [] := by simp [strBytes]

theorem be32_ne_nil (i : Nat) : be32 i ≠ [] := List.cons_ne_nil _ _

section File

variable (us : List DbaPage) (tables : List (List ValueRefs))

/-! ## §2 Opening the file -/

/-- The macros table starts behind the pages table. -/
def macrosStart : Nat := 16 + (pagesBytes 16 us).length

/-- The places of the macro tables. -/
def tableStarts : List Nat :=
  placesOf macroBytes (macrosStart us + 4 + 4 * tables.length) tables

/-- What `dbm_open` finds out about the file. -/
def openedDbm : Dbm where
  base := fileBytes us tables
  maxOffset := (fileBytes us tables).length
  npages := us.length
  nvals := tables.map fun vs => (vs.length : Int)
  macros := (tableStarts us tables).map (· + 4)

theorem at_header :
    At (fileBytes us tables) 0 (be32 mandocdbMagic) ∧
    At (fileBytes us tables) 4 (be32 mandocdbVersion) ∧
    At (fileBytes us tables) 8 (be32 (macrosStart us)) ∧
    At (fileBytes us tables) 12 (be32 ((fileBytes us tables).length - 4)) := by
  have hall := At.self (fileBytes us tables)
  have hend : (fileBytes us tables).length - 4 = macrosStart us +
      (macrosBytes (macrosStart us) tables).length := by
    rw [length_fileBytes]
    rfl
  rw [hend]
  exact ⟨hall.left, hall.right.left, hall.right.right.left, hall.right.right.right.left⟩

theorem at_pages : At (fileBytes us tables) 16 (pagesBytes 16 us) :=
  (At.self (fileBytes us tables)).right.right.right.right.left

theorem at_macros : At (fileBytes us tables) (macrosStart us)
    (macrosBytes (macrosStart us) tables) :=
  (At.self (fileBytes us tables)).right.right.right.right.right.left

theorem at_end : At (fileBytes us tables) ((fileBytes us tables).length - 4)
    (be32 mandocdbMagic) := by
  have hend : (fileBytes us tables).length - 4 = macrosStart us +
      (macrosBytes (macrosStart us) tables).length := by
    rw [length_fileBytes]
    rfl
  rw [hend]
  exact (At.self (fileBytes us tables)).right.right.right.right.right.right

variable {us tables}

theorem at_records : At (fileBytes us tables) 20
    ((mappedPages 16 us).flatMap fun page => recordBytes page.em) :=
  (at_pages us tables).right.left

theorem at_strings : At (fileBytes us tables) (namesStart 16 us) (stringBytes 16 us) := by
  have h := (at_pages us tables).right.right
  rw [length_records, length_mappedPages, length_be32] at h
  exact h

/-- The lists of a page are where its record says. -/
theorem at_lists (tables : List (List ValueRefs)) {k : Nat} {u : DbaPage} (hu : us[k]? = some u) :
    At (fileBytes us tables) (pageMap 16 us k u).name (nameBlock u) ∧
    At (fileBytes us tables) (pageMap 16 us k u).sect (sectBlock u) ∧
    At (fileBytes us tables) (startOf archBlock (archsStart 16 us) us k) (archBlock u) ∧
    At (fileBytes us tables) (pageMap 16 us k u).desc (descBlock u) ∧
    At (fileBytes us tables) (pageMap 16 us k u).file (fileBlock u) := by
  have h : At (fileBytes us tables) (namesStart 16 us) (stringBytes 16 us) := at_strings
  exact ⟨h.left.element hu, h.right.left.element hu, h.right.right.left.element hu,
    h.right.right.right.left.element hu, h.right.right.right.right.left.element hu⟩

/-- The record of a page. -/
theorem at_record (tables : List (List ValueRefs)) {k : Nat} {u : DbaPage} (hu : us[k]? = some u) :
    At (fileBytes us tables) (20 + 20 * k) (recordBytes (pageMap 16 us k u)) := by
  have hmapped : (mappedPages 16 us)[k]? = some { u.sorted with em := pageMap 16 us k u } := by
    simp [mappedPages, hu]
  have hlt : k ≤ us.length := Nat.le_of_lt (List.getElem?_eq_some_iff.mp hu).1
  have hrecords : At (fileBytes us tables) 20
      ((mappedPages 16 us).flatMap fun page => recordBytes page.em) := at_records
  have h := hrecords.element hmapped
  rwa [startOf, length_records, List.length_take, length_mappedPages, Nat.min_eq_left hlt] at h

theorem at_table {im : Nat} {vs : List ValueRefs} (hvs : tables[im]? = some vs) :
    ∃ place, (tableStarts us tables)[im]? = some place ∧
      At (fileBytes us tables) place (macroBytes place vs) := by
  have h := (at_macros us tables).right.right
  rw [length_flatMap_be32, length_placesOf, length_be32] at h
  exact h.placed hvs

/-- The values of a macro table follow each other. -/
theorem at_values {file : List UInt8} {place : Nat} {vs : List ValueRefs}
    (h : At file place (macroBytes place vs)) :
    At file (valuesStart place vs) (vs.flatMap valueBytes) := by
  have hvalues := h.right.right.left
  rw [length_flatMap_pairs, List.length_zip, valuePositions, refsPositions, List.length_mapIdx,
    List.length_mapIdx, Nat.min_self, length_be32] at hvalues
  exact hvalues

/-- The lists of pages of a macro table follow each other. -/
theorem at_refs {file : List UInt8} {place : Nat} {vs : List ValueRefs}
    (h : At file place (macroBytes place vs)) :
    At file (refsStart place vs) (vs.flatMap refsBytes) := by
  have hrefs := h.right.right.right.right
  rw [length_flatMap_pairs, List.length_zip, valuePositions, refsPositions, List.length_mapIdx,
    List.length_mapIdx, Nat.min_self, length_be32, List.length_replicate] at hrefs
  exact hrefs

/-- The numbers of values and the places of the pointer pairs, separately. -/
theorem map_zipWith_placesOf (n : Nat) (ts : List (List ValueRefs)) :
    (List.zipWith (fun vs place => ((vs.length : Int), place + 4)) ts
        (placesOf macroBytes n ts)).map Prod.fst = ts.map (fun vs => (vs.length : Int)) ∧
      (List.zipWith (fun vs place => ((vs.length : Int), place + 4)) ts
        (placesOf macroBytes n ts)).map Prod.snd = (placesOf macroBytes n ts).map (· + 4) := by
  induction ts generalizing n with
  | nil => exact ⟨rfl, rfl⟩
  | cons vs ts ih =>
    obtain ⟨hfst, hsnd⟩ := ih (n + (macroBytes n vs).length)
    simp [placesOf, hfst, hsnd]

variable (hsize : (fileBytes us tables).length ≤ INT32_MAX)

include hsize

theorem place_lt {off : Nat} {bs : List UInt8} (h : At (fileBytes us tables) off bs)
    (hne : bs ≠ []) : off < 2147483648 := by
  have hle := at_add_length_le h hne
  have hpos := List.length_pos_iff.mpr hne
  simp only [INT32_MAX] at hsize
  omega

/-- `dbm_get` yields a pointer to the place that an offset refers to. -/
theorem dbmGet_place {off : Nat} {bs : List UInt8} (h : At (fileBytes us tables) off bs)
    (hne : bs ≠ []) :
    dbmGet (fileBytes us tables) (fileBytes us tables).length off =
      some ⟨fileBytes us tables, off⟩ := by
  have hle := at_add_length_le h hne
  have hpos := List.length_pos_iff.mpr hne
  have hoff := place_lt hsize h hne
  have hint : toInt32 off = off := toInt32_eq hoff
  rw [dbmGet, hint, if_neg (by omega)]
  rfl

theorem uint32_place {off i : Nat} {bs : List UInt8} (hi : At (fileBytes us tables) i bs)
    (hne : bs ≠ []) (h : At (fileBytes us tables) off (be32 i)) :
    Ptr.uint32 ⟨fileBytes us tables, off⟩ = .ok i := by
  have hlt := place_lt hsize hi hne
  exact uint32_of_at (by omega) h

theorem dbmMap_fileBytes :
    dbmMap (fileBytes us tables) = .ok (some (fileBytes us tables).length) := by
  obtain ⟨h0, h1, -, h3⟩ := at_header us tables
  have hend := at_end us tables
  have hlong : ¬ (fileBytes us tables).length < 5 := by
    have hle := at_add_length_le h3 (be32_ne_nil _)
    simp only [length_be32] at hle
    omega
  have hshort : ¬ INT32_MAX < (fileBytes us tables).length := Nat.not_lt_of_le hsize
  have hlen : toInt32 ((fileBytes us tables).length - 4 + 4) = (fileBytes us tables).length := by
    rw [Nat.sub_add_cancel (by omega), toInt32_eq]
    simp only [INT32_MAX] at hsize
    omega
  have r0 : dbmGetint (fileBytes us tables) 0 = .ok mandocdbMagic := uint32_of_at (by decide) h0
  have r1 : dbmGetint (fileBytes us tables) 1 = .ok mandocdbVersion :=
    uint32_of_at (by decide) h1
  have r3 : dbmGetint (fileBytes us tables) 3 = .ok ((fileBytes us tables).length - 4) :=
    uint32_place hsize hend (be32_ne_nil _) h3
  have rend : Ptr.uint32 ⟨fileBytes us tables, (fileBytes us tables).length - 4⟩ =
      .ok mandocdbMagic := uint32_of_at (by decide) hend
  simp only [dbmMap, hlong, hshort, if_false, r0, r1, r3, Res.ok_bind, ne_eq, not_true_eq_false,
    hlen, dbmGet_place hsize hend (be32_ne_nil _), rend]
  rfl

/-- The loop over the pointers to the macro tables, for some of the tables. -/
theorem dbmOpenMacros_of_at {ts : List (List ValueRefs)} {n mp : Nat}
    (hptr : At (fileBytes us tables) mp ((placesOf macroBytes n ts).flatMap be32))
    (hall : At (fileBytes us tables) n (placeAll macroBytes n ts)) :
    dbmOpenMacros (fileBytes us tables) (fileBytes us tables).length ts.length
        ⟨fileBytes us tables, mp⟩ =
      .ok (some (List.zipWith (fun vs place => ((vs.length : Int), place + 4)) ts
        (placesOf macroBytes n ts))) := by
  induction ts generalizing n mp with
  | nil => rfl
  | cons vs ts ih =>
    rw [placesOf, List.flatMap_cons] at hptr
    rw [placeAll] at hall
    have htable : At (fileBytes us tables) n (be32 vs.length) := hall.left.left
    have hpos := place_lt hsize htable (be32_ne_nil _)
    have hcount : vs.length < 2147483648 := by
      have hle := at_add_length_le hall.left (by simp [macroBytes, be32])
      simp only [macroBytes, List.length_append, length_flatMap_pairs, List.length_zip,
        valuePositions, refsPositions, List.length_mapIdx, Nat.min_self] at hle
      simp only [INT32_MAX] at hsize
      omega
    have hrest := ih hptr.right hall.right
    have hcast : toInt32 vs.length = vs.length := toInt32_eq hcount
    rw [List.length_cons, dbmOpenMacros, uint32_place hsize htable (be32_ne_nil _) hptr.left]
    simp only [Res.ok_bind, dbmGet_place hsize htable (be32_ne_nil _),
      uint32_of_at (by omega) htable, Ptr.add]
    rw [length_be32] at hrest
    simp only [hrest, hcast, Res.ok_bind]
    rfl

theorem dbmOpen_fileBytes (htables : tables.length = macroMax) :
    dbmOpen (fileBytes us tables) = .ok (some (openedDbm us tables)) := by
  obtain ⟨-, -, h2, -⟩ := at_header us tables
  have hpages := at_pages us tables
  have hmacs := at_macros us tables
  -- Every page takes up 20 bytes, so the number of pages is small, too.
  have hcount : us.length < 2147483648 := by
    have hle := at_add_length_le hpages (by simp [pagesBytes, be32])
    simp only [pagesBytes, List.length_append, length_records, length_mappedPages] at hle
    simp only [INT32_MAX] at hsize
    omega
  have hne : macrosBytes (macrosStart us) tables ≠ [] := by simp [macrosBytes, be32]
  have r4 : dbmGetint (fileBytes us tables) 4 = .ok us.length :=
    uint32_of_at (by omega) hpages.left
  have r2 : dbmGetint (fileBytes us tables) 2 = .ok (macrosStart us) :=
    uint32_place hsize hmacs hne h2
  have rm : Ptr.uint32 ⟨fileBytes us tables, macrosStart us⟩ = .ok macroMax :=
    htables ▸ uint32_of_at (by rw [htables]; decide) hmacs.left
  -- The places of all tables are inside the file.
  have hopen := dbmOpenMacros_of_at hsize hmacs.right.left (by
    have hplace := hmacs.right.right
    rw [length_flatMap_be32, length_placesOf, length_be32] at hplace
    exact hplace)
  have hcast : toInt32 us.length = us.length := toInt32_eq hcount
  have hneg : ¬ (us.length : Int) < 0 := by omega
  rw [dbmOpen, dbmMap_fileBytes hsize]
  simp only [Res.ok_bind, r4, hcast, hneg, if_false, r2, dbmGet_place hsize hmacs hne, rm,
    ne_eq, not_true_eq_false, Ptr.add]
  rw [length_be32, htables] at hopen
  obtain ⟨hfst, hsnd⟩ := map_zipWith_placesOf (macrosStart us + 4 + 4 * macroMax) tables
  simp only [hopen, Res.ok_bind, hfst, hsnd, openedDbm, tableStarts, htables]
  rfl

/-! ## §3 Page records and pointer pairs -/

/-- The offsets in the record of a page can be read. -/
theorem pageInt_of_at {k : Nat} {u : DbaPage} (hu : us[k]? = some u) :
    (openedDbm us tables).pageInt k 0 = .ok (pageMap 16 us k u).name ∧
    (openedDbm us tables).pageInt k 1 = .ok (pageMap 16 us k u).sect ∧
    (openedDbm us tables).pageInt k 2 = .ok (pageMap 16 us k u).arch ∧
    (openedDbm us tables).pageInt k 3 = .ok (pageMap 16 us k u).desc ∧
    (openedDbm us tables).pageInt k 4 = .ok (pageMap 16 us k u).file := by
  obtain ⟨hname, hsect, harch, hdesc, hfile⟩ := at_lists tables hu
  have hrec := at_record tables hu
  have harch' : (openedDbm us tables).pageInt k 2 = .ok (pageMap 16 us k u).arch := by
    have hint := hrec.right.right.left
    cases ha : u.arch with
    | none =>
      have hzero : (pageMap 16 us k u).arch = 0 := by simp [pageMap, ha]
      exact uint32_of_at (by rw [hzero]; decide) hint
    | some entry =>
      have hplace : (pageMap 16 us k u).arch = startOf archBlock (archsStart 16 us) us k := by
        simp [pageMap, ha]
      rw [hplace] at hint ⊢
      exact uint32_place hsize harch (by simp [archBlock, ha, lstBytes_ne_nil]) hint
  refine ⟨uint32_place hsize hname (lstBytes_ne_nil _) hrec.left,
    uint32_place hsize hsect (lstBytes_ne_nil _) hrec.right.left, harch',
    uint32_place hsize hdesc (strBytes_ne_nil _) hrec.right.right.right.left,
    uint32_place hsize hfile (lstBytes_ne_nil _) hrec.right.right.right.right⟩

theorem get_place {off : Nat} {bs : List UInt8} (h : At (fileBytes us tables) off bs)
    (hne : bs ≠ []) :
    (openedDbm us tables).get off = some ⟨fileBytes us tables, off⟩ :=
  dbmGet_place hsize h hne

omit hsize in
/-- Where the architectures of a page are: nowhere for a machine-independent page. -/
def archPlace (us : List DbaPage) (tables : List (List ValueRefs)) (k : Nat) (u : DbaPage) :
    Option Ptr :=
  u.arch.map fun _ => ⟨fileBytes us tables, startOf archBlock (archsStart 16 us) us k⟩

/-- `dbm_page_get` yields pointers to the lists of the page. -/
theorem dbmPageGet_eq {k : Nat} {u : DbaPage} (hu : us[k]? = some u) :
    dbmPageGet (openedDbm us tables) k = .ok {
      name := ⟨fileBytes us tables, (pageMap 16 us k u).name⟩
      sect := ⟨fileBytes us tables, (pageMap 16 us k u).sect⟩
      arch := archPlace us tables k u
      desc := ⟨fileBytes us tables, (pageMap 16 us k u).desc⟩
      file := ⟨fileBytes us tables, (pageMap 16 us k u).file⟩ } := by
  obtain ⟨hname, hsect, harch, hdesc, hfile⟩ := at_lists tables hu
  obtain ⟨rname, rsect, rarch, rdesc, rfile⟩ := pageInt_of_at hsize hu
  have hlt : ¬ (openedDbm us tables).npages ≤ k :=
    Nat.not_le_of_lt (List.getElem?_eq_some_iff.mp hu).1
  have harch' : (if (pageMap 16 us k u).arch = 0 then none
      else (openedDbm us tables).get (pageMap 16 us k u).arch) = archPlace us tables k u := by
    cases ha : u.arch with
    | none => simp [pageMap, archPlace, ha]
    | some entry =>
      have hplace : (pageMap 16 us k u).arch = startOf archBlock (archsStart 16 us) us k := by
        simp [pageMap, ha]
      have hpos : startOf archBlock (archsStart 16 us) us k ≠ 0 := by
        simp [startOf, archsStart, sectsStart, namesStart]
      rw [hplace, if_neg hpos, get_place hsize harch (by simp [archBlock, ha, lstBytes_ne_nil])]
      simp [archPlace, ha]
  unfold dbmPageGet
  simp only [hlt, if_false, rname, rsect, rarch, rdesc, rfile, Res.ok_bind, harch',
    get_place hsize hname (lstBytes_ne_nil _), get_place hsize hsect (lstBytes_ne_nil _),
    get_place hsize hdesc (strBytes_ne_nil _), get_place hsize hfile (lstBytes_ne_nil _),
    Option.getD_some]
  rfl

/-- The pointer pairs of a macro table can be read. -/
theorem macroInt_of_at {im iv place : Nat} {vs : List ValueRefs} {v : ValueRefs}
    (hplace : (tableStarts us tables)[im]? = some place)
    (htable : At (fileBytes us tables) place (macroBytes place vs)) (hv : vs[iv]? = some v) :
    (openedDbm us tables).macroInt im iv 0 =
        .ok (startOf valueBytes (valuesStart place vs) vs iv) ∧
      (openedDbm us tables).macroInt im iv 1 =
        .ok (startOf refsBytes (refsStart place vs) vs iv) := by
  have hvalue := (at_values htable).element hv
  have hrefs := (at_refs htable).element hv
  have hpair : ((valuePositions place vs).zip (refsPositions place vs))[iv]? =
      some (startOf valueBytes (valuesStart place vs) vs iv,
        startOf refsBytes (refsStart place vs) vs iv) := by
    rw [List.getElem?_zip_eq_some]
    simp [valuePositions, refsPositions, hv]
  have hlt : iv ≤ vs.length := Nat.le_of_lt (List.getElem?_eq_some_iff.mp hv).1
  have hat := htable.right.left.element hpair
  rw [startOf, length_flatMap_pairs, List.length_take, List.length_zip, valuePositions,
    refsPositions, List.length_mapIdx, List.length_mapIdx, Nat.min_self, Nat.min_eq_left hlt,
    length_be32] at hat
  have hmac : (openedDbm us tables).macros[im]? = some (place + 4) := by
    simp [openedDbm, hplace]
  unfold Dbm.macroInt
  simp only [hmac]
  exact ⟨uint32_place hsize hvalue (strBytes_ne_nil _) hat.left,
    uint32_place hsize hrefs (by simp [refsBytes, be32]) hat.right⟩

end File

end Mandoc
