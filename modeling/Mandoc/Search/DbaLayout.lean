import Mandoc.Search.Dba

/-!
# The layout of a database file

What `dba_write` puts into the file, as a function of the pages and of the macro tables, without
positions that are moved back and forth: the layout that the comments in `dba.c` describe.  The
functions that write are shown to put exactly these bytes.
-/

namespace Mandoc

open BackPatch

/-! ## §1 The pages table -/

/-- The pages that have not been deleted. -/
def livePages (pages : List DbaPage) : List DbaPage := pages.filter fun page => !page.deleted

/-- The lists that are written are sorted in place. -/
def DbaPage.sorted (page : DbaPage) : DbaPage :=
  { page with
    name := sortBy compareNames page.name
    sect := sortBy compareStrings page.sect
    arch := page.arch.map (sortBy compareStrings) }

/-- The names of a page in the file. -/
def nameBlock (page : DbaPage) : List UInt8 := lstBytes (sortBy compareNames page.name)

/-- The sections of a page in the file. -/
def sectBlock (page : DbaPage) : List UInt8 := lstBytes (sortBy compareStrings page.sect)

/-- The architectures of a page in the file, nothing for a machine-independent page. -/
def archBlock (page : DbaPage) : List UInt8 :=
  match page.arch with
  | some entry => lstBytes (sortBy compareStrings entry)
  | none => []

/-- The description of a page in the file. -/
def descBlock (page : DbaPage) : List UInt8 := strBytes page.desc

/-- The file names of a page in the file. -/
def fileBlock (page : DbaPage) : List UInt8 := lstBytes page.file

/-- The record of a page in the pages table. -/
def recordBytes (em : PageMap) : List UInt8 :=
  be32 em.name ++ (be32 em.sect ++ (be32 em.arch ++ (be32 em.desc ++ be32 em.file)))

/-- The number of NUL bytes that align a position. -/
def padding (pos : Nat) : Nat := (4 - pos % 4) % 4

section Pages

variable (n : Nat) (us : List DbaPage)

/-- The lists of names start behind the records. -/
def namesStart : Nat := n + 4 + 20 * us.length

def sectsStart : Nat := namesStart n us + (us.flatMap nameBlock).length

def archsStart : Nat := sectsStart n us + (us.flatMap sectBlock).length

def descsStart : Nat := archsStart n us + (us.flatMap archBlock).length

def filesStart : Nat := descsStart n us + (us.flatMap descBlock).length

def filesEnd : Nat := filesStart n us + (us.flatMap fileBlock).length

/-- The record of the page number `k`, for a pages table that starts at the position `n`. -/
def pageMap (k : Nat) (page : DbaPage) : PageMap where
  name := startOf nameBlock (namesStart n us) us k
  sect := startOf sectBlock (sectsStart n us) us k
  arch := if page.arch.isSome then startOf archBlock (archsStart n us) us k else 0
  desc := startOf descBlock (descsStart n us) us k
  file := startOf fileBlock (filesStart n us) us k

/-- The pages as they are in memory after writing, still without their own positions. -/
def mappedPages : List DbaPage :=
  us.mapIdx fun k page => { page.sorted with em := pageMap n us k page }

/-- The pages as they are in memory after writing. -/
def placedPages : List DbaPage :=
  us.mapIdx fun k page => { page.sorted with em := pageMap n us k page, pos := n + 4 + 20 * k }

/-- The lists of strings behind the records. -/
def stringBytes : List UInt8 :=
  us.flatMap nameBlock ++ (us.flatMap sectBlock ++ (us.flatMap archBlock ++
    (us.flatMap descBlock ++ (us.flatMap fileBlock ++
      List.replicate (padding (filesEnd n us)) 0))))

/-- The pages table that starts at the position `n`. -/
def pagesBytes : List UInt8 :=
  be32 us.length ++ ((mappedPages n us).flatMap (fun page => recordBytes page.em) ++
    stringBytes n us)

end Pages

/-! ## §2 The macro tables -/

/-- A macro value with the positions of its pages. -/
abbrev ValueRefs := Str × List Nat

/-- A macro value in the file. -/
def valueBytes (v : ValueRefs) : List UInt8 := strBytes v.1

/-- A list of page positions ends with zero. -/
def refsBytes (v : ValueRefs) : List UInt8 := v.2.flatMap be32 ++ be32 0

section Macros

variable (n : Nat) (vs : List ValueRefs)

/-- The values of a macro start behind the pointer pairs. -/
def valuesStart : Nat := n + 4 + 8 * vs.length

/-- The end of the values. -/
def valuesEnd : Nat := valuesStart n vs + (vs.flatMap valueBytes).length

/-- The lists of pages start behind the padding. -/
def refsStart : Nat := valuesEnd n vs + padding (valuesEnd n vs)

/-- The positions of the values. -/
def valuePositions : List Nat :=
  vs.mapIdx fun k _ => startOf valueBytes (valuesStart n vs) vs k

/-- The positions of the lists of pages. -/
def refsPositions : List Nat := vs.mapIdx fun k _ => startOf refsBytes (refsStart n vs) vs k

/-- A pointer pair. -/
def pairBytes (kd : Nat × Nat) : List UInt8 := be32 kd.1 ++ be32 kd.2

/-- A macro table that starts at the position `n`. -/
def macroBytes : List UInt8 :=
  be32 vs.length ++ (((valuePositions n vs).zip (refsPositions n vs)).flatMap pairBytes ++
    (vs.flatMap valueBytes ++
      (List.replicate (padding (valuesEnd n vs)) 0 ++ vs.flatMap refsBytes)))

/-- The macros table that starts at the position `n`. -/
def macrosBytes (n : Nat) (tables : List (List ValueRefs)) : List UInt8 :=
  be32 tables.length ++
    ((placesOf macroBytes (n + 4 + 4 * tables.length) tables).flatMap be32 ++
      placeAll macroBytes (n + 4 + 4 * tables.length) tables)

end Macros

/-! ## §3 The file -/

/-- The database file with some pages and macro tables. -/
def fileBytes (us : List DbaPage) (tables : List (List ValueRefs)) : List UInt8 :=
  let pages := pagesBytes 16 us
  let macros := macrosBytes (16 + pages.length) tables
  be32 mandocdbMagic ++ (be32 mandocdbVersion ++ (be32 (16 + pages.length) ++
    (be32 (16 + pages.length + macros.length) ++ (pages ++ (macros ++ be32 mandocdbMagic)))))

/-! ## §4 Sequential functions -/

theorem grow {d : List UInt8} {n : Nat} (hd : d.length = n) (bs : List UInt8) :
    (d ++ bs).length = n + bs.length := by
  rw [List.length_append, hd]

theorem puts_dbaTell (n : Nat) : Puts INT32_MAX dbaTell n n [] := Puts.tell n _ _

theorem puts_dbaIntWrite (i n : Nat) : Puts INT32_MAX (dbaIntWrite i) n () (be32 i) :=
  Puts.put n _

theorem puts_dbaStrWrite (s : Str) (n : Nat) :
    Puts INT32_MAX (dbaStrWrite s) n () (strBytes s) :=
  Puts.put n _

theorem puts_dbaAlign (n : Nat) :
    Puts INT32_MAX dbaAlign n (n + padding n) (List.replicate (padding n) 0) := by
  apply Puts.bind_nil (puts_dbaTell n)
  exact Puts.bind_last (Puts.put n _) (Puts.pure _ _)

theorem puts_dbaSkip (nmemb sz n : Nat) :
    Puts INT32_MAX (dbaSkip nmemb sz) n n (List.replicate (sz * (4 * nmemb)) 0) := by
  apply Puts.bind_nil (puts_dbaTell n)
  exact Puts.bind_last (Puts.put n _) (Puts.pure _ _)

theorem puts_dbaArrayWritelen (entries nmemb n : Nat) :
    Puts INT32_MAX (dbaArrayWritelen entries nmemb) n (n + 4)
      (be32 entries ++ List.replicate (entries * (4 * nmemb)) 0) :=
  Puts.bind (puts_dbaIntWrite entries n) (puts_dbaSkip nmemb entries (n + 4))

theorem puts_dbaArrayWritelst (entries : List Str) (n : Nat) :
    Puts INT32_MAX (dbaArrayWritelst entries) n () (lstBytes entries) := by
  apply Puts.bind (Puts.forM (fun n s _ => puts_dbaStrWrite s n) n)
  exact Puts.put _ _

/-- The page after its names have been written. -/
def DbaPage.placeNames (n : Nat) (page : DbaPage) : DbaPage :=
  { page with name := sortBy compareNames page.name, em.name := n }

/-- The page after its sections have been written. -/
def DbaPage.placeSects (n : Nat) (page : DbaPage) : DbaPage :=
  { page with sect := sortBy compareStrings page.sect, em.sect := n }

/-- The page after its architectures have been written. -/
def DbaPage.placeArchs (n : Nat) (page : DbaPage) : DbaPage :=
  { page with
    arch := page.arch.map (sortBy compareStrings)
    em.arch := if page.arch.isSome then n else 0 }

/-- The page after its description has been written. -/
def DbaPage.placeDesc (n : Nat) (page : DbaPage) : DbaPage := { page with em.desc := n }

/-- The page after its files have been written. -/
def DbaPage.placeFiles (n : Nat) (page : DbaPage) : DbaPage := { page with em.file := n }

/-- The page after its record has been written. -/
def DbaPage.placeRecord (n : Nat) (page : DbaPage) : DbaPage := { page with pos := n }

theorem puts_writeNames (page : DbaPage) (n : Nat) :
    Puts INT32_MAX (writeNames page) n (page.placeNames n) (nameBlock page) := by
  apply Puts.bind_nil (puts_dbaTell n)
  exact Puts.bind_last (puts_dbaArrayWritelst _ n) (Puts.pure _ _)

theorem puts_writeSects (page : DbaPage) (n : Nat) :
    Puts INT32_MAX (writeSects page) n (page.placeSects n) (sectBlock page) := by
  apply Puts.bind_nil (puts_dbaTell n)
  exact Puts.bind_last (puts_dbaArrayWritelst _ n) (Puts.pure _ _)

theorem puts_writeArchs (page : DbaPage) (n : Nat) :
    Puts INT32_MAX (writeArchs page) n (page.placeArchs n) (archBlock page) := by
  unfold writeArchs archBlock DbaPage.placeArchs
  cases h : page.arch with
  | none =>
    have hpage : page = { page with arch := none } := by rw [← h]
    rw [hpage]
    exact Puts.pure n _
  | some entry =>
    apply Puts.bind_nil (puts_dbaTell n)
    exact Puts.bind_last (puts_dbaArrayWritelst _ n) (Puts.pure _ _)

theorem puts_writeDesc (page : DbaPage) (n : Nat) :
    Puts INT32_MAX (writeDesc page) n (page.placeDesc n) (descBlock page) := by
  apply Puts.bind_nil (puts_dbaTell n)
  exact Puts.bind_last (puts_dbaStrWrite _ n) (Puts.pure _ _)

theorem puts_writeFiles (page : DbaPage) (n : Nat) :
    Puts INT32_MAX (writeFiles page) n (page.placeFiles n) (fileBlock page) := by
  apply Puts.bind_nil (puts_dbaTell n)
  exact Puts.bind_last (puts_dbaArrayWritelst _ n) (Puts.pure _ _)

theorem puts_dbaPageWritepos (page : DbaPage) (n : Nat) :
    Puts INT32_MAX (dbaPageWritepos page) n (page.placeRecord n) (recordBytes page.em) := by
  apply Puts.bind_nil (puts_dbaTell n)
  apply Puts.bind (puts_dbaIntWrite _ n)
  apply Puts.bind (puts_dbaIntWrite _ _)
  apply Puts.bind (puts_dbaIntWrite _ _)
  apply Puts.bind (puts_dbaIntWrite _ _)
  exact Puts.bind_last (puts_dbaIntWrite _ _) (Puts.pure _ _)

/-! ## §5 Loops over the pages that are not deleted -/

/-- The pages with the live ones replaced, one after the other. -/
def fillIn : List DbaPage → List DbaPage → List DbaPage
  | [], _ => []
  | page :: pages, us =>
    if page.deleted then page :: fillIn pages us
    else match us with
      | [] => page :: fillIn pages []
      | u :: us => u :: fillIn pages us

/-- Skipping the deleted pages is running over the live ones. -/
theorem forPages_eq (pages : List DbaPage) (f : DbaPage → DbaWrite DbaPage) :
    forPages pages f = (do
      let us ← (livePages pages).mapM f
      return fillIn pages us) := by
  unfold forPages
  induction pages with
  | nil => simp [livePages, fillIn]
  | cons page pages ih =>
    rw [List.mapM_cons, ih]
    cases hdel : page.deleted with
    | true => simp [livePages, hdel, fillIn]
    | false => simp [livePages, hdel, fillIn]

/-- The live pages of the result are the replacements. -/
theorem livePages_fillIn {pages us : List DbaPage} (hlen : us.length = (livePages pages).length)
    (hlive : ∀ u ∈ us, u.deleted = false) : livePages (fillIn pages us) = us := by
  induction pages generalizing us with
  | nil =>
    obtain rfl : us = [] := List.eq_nil_of_length_eq_zero hlen
    rfl
  | cons page pages ih =>
    cases hdel : page.deleted with
    | true =>
      have htail : livePages (fillIn pages us) = us :=
        ih (by simpa [livePages, hdel] using hlen) hlive
      simpa [fillIn, livePages, hdel] using htail
    | false =>
      cases us with
      | nil => simp [livePages, hdel] at hlen
      | cons u us =>
        have hu : u.deleted = false := hlive u (List.mem_cons_self ..)
        have htail : livePages (fillIn pages us) = us :=
          ih (by simpa [livePages, hdel] using hlen)
            (fun v hv => hlive v (List.mem_cons_of_mem u hv))
        simp only [livePages] at htail
        simp [fillIn, livePages, hdel, hu, htail]

/-- Replacing twice. -/
theorem fillIn_fillIn {pages us ws : List DbaPage} (hlen : us.length = (livePages pages).length)
    (hlive : ∀ u ∈ us, u.deleted = false) (hws : ws.length = us.length) :
    fillIn (fillIn pages us) ws = fillIn pages ws := by
  induction pages generalizing us ws with
  | nil => rfl
  | cons page pages ih =>
    cases hdel : page.deleted with
    | true =>
      have htail : fillIn (fillIn pages us) ws = fillIn pages ws :=
        ih (by simpa [livePages, hdel] using hlen) hlive hws
      simp [fillIn, hdel, htail]
    | false =>
      cases us with
      | nil => simp [livePages, hdel] at hlen
      | cons u us =>
        cases ws with
        | nil => simp at hws
        | cons w ws =>
          have hu : u.deleted = false := hlive u (List.mem_cons_self ..)
          have htail : fillIn (fillIn pages us) ws = fillIn pages ws :=
            ih (by simpa [livePages, hdel] using hlen)
              (fun v hv => hlive v (List.mem_cons_of_mem u hv)) (by simpa using hws)
          simp [fillIn, hdel, hu, htail]

/-- Replacing the live pages by themselves. -/
theorem fillIn_self {pages us : List DbaPage} (hus : livePages pages = us) :
    fillIn pages (us.mapIdx fun _ u => u) = pages := by
  have hid : us.mapIdx (fun _ u => u) = us := by
    apply List.ext_getElem?
    intro i
    simp
  rw [hid, ← hus]
  clear hid hus
  induction pages with
  | nil => rfl
  | cons page pages ih =>
    simp only [livePages] at ih
    cases hdel : page.deleted with
    | true => simp [fillIn, livePages, hdel, ih]
    | false => simp [fillIn, livePages, hdel, ih]

/-- A loop over the live pages, after they have been replaced.  The replacements are given by
    their places and by the pages `us` at the beginning of `dba_pages_write`. -/
theorem puts_forPages {pages us : List DbaPage} (hus : livePages pages = us)
    {f : DbaPage → DbaWrite DbaPage} (g : Nat → DbaPage → DbaPage)
    (result : Nat → DbaPage → DbaPage) (bytes : DbaPage → List UInt8)
    (hg : ∀ k u, (g k u).deleted = u.deleted)
    (h : ∀ n k u, Puts INT32_MAX (f (g k u)) n (result n (g k u)) (bytes u)) (n : Nat) :
    Puts INT32_MAX (forPages (fillIn pages (us.mapIdx g)) f) n
      (fillIn pages (us.mapIdx fun k u => result (startOf bytes n us k) (g k u)))
      (us.flatMap bytes) := by
  have live : ∀ g : Nat → DbaPage → DbaPage, (∀ k u, (g k u).deleted = u.deleted) →
      ∀ u ∈ us.mapIdx g, u.deleted = false := by
    intro g hg u hu
    obtain ⟨k, hk, rfl⟩ := List.mem_mapIdx.mp hu
    have hmem : us[k] ∈ livePages pages := hus ▸ List.getElem_mem hk
    rw [hg]
    simpa using (List.mem_filter.mp hmem).2
  have hlen : (us.mapIdx g).length = (livePages pages).length := by simp [hus]
  have hall : livePages (fillIn pages (us.mapIdx g)) = us.mapIdx g :=
    livePages_fillIn hlen (live g hg)
  have hagain : fillIn pages (us.mapIdx fun k u => result (startOf bytes n us k) (g k u)) =
      fillIn (fillIn pages (us.mapIdx g))
        (us.mapIdx fun k u => result (startOf bytes n us k) (g k u)) :=
    (fillIn_fillIn hlen (live g hg) (by simp)).symm
  rw [forPages_eq, hall, hagain]
  exact Puts.bind_last (Puts.mapM (fun n k u _ => h n k u) n) (Puts.pure _ _)

/-! ## §6 The pages table is written -/

/-- The number of bytes of the records. -/
theorem length_records (pages : List DbaPage) :
    (pages.flatMap fun page => recordBytes page.em).length = 20 * pages.length := by
  induction pages with
  | nil => rfl
  | cons page pages ih =>
    rw [List.flatMap_cons, List.length_append, ih, List.length_cons]
    simp only [recordBytes, List.length_append, length_be32]
    omega

theorem length_mappedPages (n : Nat) (us : List DbaPage) :
    (mappedPages n us).length = us.length := by
  simp [mappedPages]

theorem length_pagesBytes (n : Nat) (us : List DbaPage) :
    filesEnd n us + padding (filesEnd n us) = n + (pagesBytes n us).length := by
  simp only [pagesBytes, stringBytes, List.length_append, length_records, length_mappedPages,
    length_be32, List.length_replicate, filesEnd, filesStart, descsStart, archsStart, sectsStart,
    namesStart]
  omega

section Loops

variable (n : Nat) (us : List DbaPage)

/-- A page after the loop over the names. -/
def afterNames (k : Nat) (page : DbaPage) : DbaPage :=
  page.placeNames (startOf nameBlock (namesStart n us) us k)

/-- A page after the loop over the sections. -/
def afterSects (k : Nat) (page : DbaPage) : DbaPage :=
  (afterNames n us k page).placeSects (startOf sectBlock (sectsStart n us) us k)

/-- A page after the loop over the architectures. -/
def afterArchs (k : Nat) (page : DbaPage) : DbaPage :=
  (afterSects n us k page).placeArchs (startOf archBlock (archsStart n us) us k)

/-- A page after the loop over the descriptions. -/
def afterDescs (k : Nat) (page : DbaPage) : DbaPage :=
  (afterArchs n us k page).placeDesc (startOf descBlock (descsStart n us) us k)

/-- A page after the loop over the files. -/
def afterFiles (k : Nat) (page : DbaPage) : DbaPage :=
  (afterDescs n us k page).placeFiles (startOf fileBlock (filesStart n us) us k)

variable {pages : List DbaPage} {n us} (hus : livePages pages = us)

include hus

theorem puts_loopNames :
    Puts INT32_MAX (forPages (fillIn pages (us.mapIdx fun _ u => u)) writeNames)
      (namesStart n us) (fillIn pages (us.mapIdx (afterNames n us))) (us.flatMap nameBlock) :=
  puts_forPages hus (fun _ u => u) DbaPage.placeNames nameBlock (fun _ _ => rfl)
    (fun n _ u => puts_writeNames u n) _

theorem puts_loopSects :
    Puts INT32_MAX (forPages (fillIn pages (us.mapIdx (afterNames n us))) writeSects)
      (sectsStart n us) (fillIn pages (us.mapIdx (afterSects n us))) (us.flatMap sectBlock) :=
  puts_forPages hus (afterNames n us) DbaPage.placeSects sectBlock (fun _ _ => rfl)
    (fun m k u => puts_writeSects (afterNames n us k u) m) _

theorem puts_loopArchs :
    Puts INT32_MAX (forPages (fillIn pages (us.mapIdx (afterSects n us))) writeArchs)
      (archsStart n us) (fillIn pages (us.mapIdx (afterArchs n us))) (us.flatMap archBlock) :=
  puts_forPages hus (afterSects n us) DbaPage.placeArchs archBlock (fun _ _ => rfl)
    (fun m k u => puts_writeArchs (afterSects n us k u) m) _

theorem puts_loopDescs :
    Puts INT32_MAX (forPages (fillIn pages (us.mapIdx (afterArchs n us))) writeDesc)
      (descsStart n us) (fillIn pages (us.mapIdx (afterDescs n us))) (us.flatMap descBlock) :=
  puts_forPages hus (afterArchs n us) DbaPage.placeDesc descBlock (fun _ _ => rfl)
    (fun m k u => puts_writeDesc (afterArchs n us k u) m) _

theorem puts_loopFiles :
    Puts INT32_MAX (forPages (fillIn pages (us.mapIdx (afterDescs n us))) writeFiles)
      (filesStart n us) (fillIn pages (us.mapIdx (afterFiles n us))) (us.flatMap fileBlock) :=
  puts_forPages hus (afterDescs n us) DbaPage.placeFiles fileBlock (fun _ _ => rfl)
    (fun m k u => puts_writeFiles (afterDescs n us k u) m) _

/-- The loop that fills in the records. -/
theorem puts_loopRecords :
    Puts INT32_MAX (forPages (fillIn pages (us.mapIdx (afterFiles n us))) dbaPageWritepos)
      (n + 4) (fillIn pages (placedPages n us))
      ((mappedPages n us).flatMap fun page => recordBytes page.em) := by
  -- The loop visits the live pages only, and these are the pages with positions.
  have hmapped : us.mapIdx (afterFiles n us) = mappedPages n us := rfl
  have hdel : ∀ u ∈ mappedPages n us, u.deleted = false := by
    intro u hu
    obtain ⟨k, hk, rfl⟩ := List.mem_mapIdx.mp hu
    have hmem : us[k] ∈ livePages pages := hus ▸ List.getElem_mem hk
    simpa [DbaPage.sorted] using (List.mem_filter.mp hmem).2
  have hlen : (mappedPages n us).length = (livePages pages).length := by
    rw [length_mappedPages, hus]
  have hall := livePages_fillIn hlen hdel
  -- Each record has 20 bytes.
  have hstart : ∀ k, k ≤ us.length →
      startOf (fun page => recordBytes page.em) (n + 4) (mappedPages n us) k = n + 4 + 20 * k := by
    intro k hk
    rw [startOf, length_records, List.length_take, length_mappedPages, Nat.min_eq_left hk]
  have hplaced : (mappedPages n us).mapIdx (fun k u => u.placeRecord
      (startOf (fun page => recordBytes page.em) (n + 4) (mappedPages n us) k)) =
      placedPages n us := by
    apply List.ext_getElem?
    intro k
    simp only [placedPages, mappedPages, List.getElem?_mapIdx]
    cases hk : us[k]? with
    | none => rfl
    | some page =>
      have hlt : k ≤ us.length := Nat.le_of_lt (List.getElem?_eq_some_iff.mp hk).1
      exact congrArg (fun pos => some { page.sorted with em := pageMap n us k page, pos := pos })
        (hstart k hlt)
  have hloop := puts_forPages hall (fun _ u => u) DbaPage.placeRecord
    (fun page => recordBytes page.em) (fun _ _ => rfl) (fun n _ u => puts_dbaPageWritepos u n)
    (n + 4)
  rw [hplaced, fillIn_self hall,
    fillIn_fillIn hlen hdel (by simp [placedPages, length_mappedPages])] at hloop
  rw [hmapped]
  exact hloop

end Loops

/-- `dba_pages_write` appends the pages table. -/
theorem runs_dbaPagesWrite {pages us : List DbaPage} (hus : livePages pages = us)
    {d : List UInt8} {n : Nat} (hd : d.length = n) :
    Runs INT32_MAX (dbaPagesWrite pages) ⟨d, n⟩ (fillIn pages (placedPages n us))
      ⟨d ++ pagesBytes n us, n + (pagesBytes n us).length⟩ := by
  have hcount : (pages.countP fun page => !page.deleted) = us.length := by
    rw [← hus, livePages, List.countP_eq_length_filter]
  have hstart : n + (be32 us.length ++ List.replicate (us.length * (4 * 5)) 0).length =
      namesStart n us := by
    simp only [List.length_append, length_be32, List.length_replicate, namesStart]
    omega
  have h0 : (d ++ (be32 us.length ++ List.replicate (us.length * (4 * 5)) 0)).length =
      namesStart n us := by
    rw [List.length_append, hd, hstart]
  unfold dbaPagesWrite
  rw [hcount]
  apply Runs.bind (Puts.append (puts_dbaArrayWritelen us.length 5 n) hd)
  rw [hstart]
  conv =>
    enter [2, 1, 1]
    rw [← fillIn_self hus]
  have h1 := grow h0 (us.flatMap nameBlock)
  have h2 := grow h1 (us.flatMap sectBlock)
  have h3 := grow h2 (us.flatMap archBlock)
  have h4 := grow h3 (us.flatMap descBlock)
  have h5 := grow h4 (us.flatMap fileBlock)
  apply Runs.bind (Puts.append (puts_loopNames hus) h0)
  apply Runs.bind (Puts.append (puts_loopSects hus) h1)
  apply Runs.bind (Puts.append (puts_loopArchs hus) h2)
  apply Runs.bind (Puts.append (puts_loopDescs hus) h3)
  apply Runs.bind (Puts.append (puts_loopFiles hus) h4)
  apply Runs.bind (Puts.append (puts_dbaAlign (filesEnd n us)) h5)
  -- The records are put over the space that has been left for them.
  apply Runs.bind (Runs.seek _ (n + 4))
  have hdata : d ++ (be32 us.length ++ List.replicate (us.length * (4 * 5)) 0) ++
      us.flatMap nameBlock ++ us.flatMap sectBlock ++ us.flatMap archBlock ++
      us.flatMap descBlock ++ us.flatMap fileBlock ++
      List.replicate (padding (filesEnd n us)) 0 =
      (d ++ be32 us.length) ++ (List.replicate (us.length * (4 * 5)) 0 ++ stringBytes n us) := by
    simp only [stringBytes, List.append_assoc]
  have hrecords : ((mappedPages n us).flatMap fun page => recordBytes page.em).length =
      (List.replicate (us.length * (4 * 5)) (0 : UInt8)).length := by
    rw [length_records, length_mappedPages, List.length_replicate]
    omega
  rw [hdata]
  apply Runs.bind (Puts.fill (puts_loopRecords hus) (grow hd _) hrecords _)
  apply Runs.bind (Runs.seek _ _)
  have hbytes : (d ++ be32 us.length) ++
      ((mappedPages n us).flatMap (fun page => recordBytes page.em) ++ stringBytes n us) =
      d ++ pagesBytes n us := by
    simp only [pagesBytes, List.append_assoc]
  rw [hbytes, length_pagesBytes]
  exact Runs.pure _ _

/-! ## §7 The macro tables are written -/

/-- What is written of a macro table: the sorted values that have pages with positions. -/
def valueRefs (pages : List DbaPage) (macro_ : List MacroEntry) : List ValueRefs :=
  (sortBy compareEntries
    (macro_.filter fun entry => (pagePositions pages entry).any (· ≠ 0))).map fun entry =>
      (entry.value, (pagePositions pages entry).filter (· ≠ 0))

/-- The body of the loop over the values. -/
theorem puts_value (v : ValueRefs) (n : Nat) :
    Puts INT32_MAX (do
      let pos ← dbaTell
      dbaStrWrite v.1
      return pos) n n (valueBytes v) := by
  apply Puts.bind_nil (puts_dbaTell n)
  exact Puts.bind_last (puts_dbaStrWrite v.1 n) (Puts.pure _ _)

/-- The body of the loop over the lists of pages. -/
theorem puts_refs (v : ValueRefs) (n : Nat) :
    Puts INT32_MAX (do
      let pos ← dbaTell
      v.2.forM dbaIntWrite
      dbaIntWrite 0
      return pos) n n (refsBytes v) := by
  apply Puts.bind_nil (puts_dbaTell n)
  apply Puts.bind (Puts.forM (fun n i _ => puts_dbaIntWrite i n) n)
  exact Puts.bind_last (puts_dbaIntWrite 0 _) (Puts.pure _ _)

theorem puts_pairs (kds : List (Nat × Nat)) (n : Nat) :
    Puts INT32_MAX (kds.forM fun (kp, dp) => do
      dbaIntWrite kp
      dbaIntWrite dp) n () (kds.flatMap pairBytes) :=
  Puts.forM (fun n kd _ => Puts.bind (puts_dbaIntWrite kd.1 n) (puts_dbaIntWrite kd.2 _)) n

/-- The number of bytes of the pointer pairs. -/
theorem length_flatMap_pairs (kds : List (Nat × Nat)) :
    (kds.flatMap pairBytes).length = 8 * kds.length := by
  induction kds with
  | nil => rfl
  | cons kd kds ih =>
    rw [List.flatMap_cons, List.length_append, ih, List.length_cons]
    simp only [pairBytes, List.length_append, length_be32]
    omega

theorem length_macroBytes (n : Nat) (vs : List ValueRefs) :
    refsStart n vs + (vs.flatMap refsBytes).length = n + (macroBytes n vs).length := by
  simp only [macroBytes, List.length_append, length_flatMap_pairs, List.length_zip,
    valuePositions, refsPositions, List.length_mapIdx, Nat.min_self, length_be32,
    List.length_replicate, refsStart, valuesEnd, valuesStart]
  omega

/-- `dba_macro_write` with the values and the positions of their pages as data. -/
theorem dbaMacroWrite_eq (pages : List DbaPage) (macro_ : List MacroEntry) :
    dbaMacroWrite pages macro_ = (do
      let vs := valueRefs pages macro_
      dbaIntWrite vs.length
      let posMacro ← dbaSkip 2 vs.length
      let kpos ← vs.mapM fun v => do
        let pos ← dbaTell
        dbaStrWrite v.1
        return pos
      let _ ← dbaAlign
      let dpos ← vs.mapM fun v => do
        let pos ← dbaTell
        v.2.forM dbaIntWrite
        dbaIntWrite 0
        return pos
      let posEnd ← dbaTell
      seek posMacro
      (kpos.zip dpos).forM fun (kp, dp) => do
        dbaIntWrite kp
        dbaIntWrite dp
      seek posEnd) := by
  simp only [dbaMacroWrite, valueRefs, List.mapM_map, List.length_map]
  rfl

/-- `dba_macro_write` appends a macro table. -/
theorem runs_dbaMacroWrite (pages : List DbaPage) (macro_ : List MacroEntry) {d : List UInt8}
    {n : Nat} (hd : d.length = n) :
    Runs INT32_MAX (dbaMacroWrite pages macro_) ⟨d, n⟩ ()
      ⟨d ++ macroBytes n (valueRefs pages macro_),
        n + (macroBytes n (valueRefs pages macro_)).length⟩ := by
  rw [dbaMacroWrite_eq]
  generalize valueRefs pages macro_ = vs
  have hstart : n + (be32 vs.length).length +
      (List.replicate (vs.length * (4 * 2)) (0 : UInt8)).length = valuesStart n vs := by
    simp only [length_be32, List.length_replicate, valuesStart]
    omega
  have hrefs : valuesEnd n vs + (List.replicate (padding (valuesEnd n vs)) (0 : UInt8)).length =
      refsStart n vs := by
    rw [List.length_replicate, refsStart]
  apply Runs.bind (Puts.append (puts_dbaIntWrite vs.length n) hd)
  apply Runs.bind (Puts.append (puts_dbaSkip 2 vs.length _) (grow hd _))
  rw [hstart]
  have h0 := grow (grow hd (be32 vs.length)) (List.replicate (vs.length * (4 * 2)) 0)
  rw [hstart] at h0
  apply Runs.bind (Puts.append (Puts.mapM_self (fun n v _ => puts_value v n) _) h0)
  apply Runs.bind (Puts.append (puts_dbaAlign (valuesEnd n vs)) (grow h0 _))
  rw [hrefs]
  have h1 := grow (grow h0 (vs.flatMap valueBytes)) (List.replicate (padding (valuesEnd n vs)) 0)
  change _ = valuesEnd n vs + _ at h1
  rw [hrefs] at h1
  apply Runs.bind (Puts.append (Puts.mapM_self (fun n v _ => puts_refs v n) _) h1)
  have h2 := grow h1 (vs.flatMap refsBytes)
  apply Runs.bind (Runs.tell (Nat.le_of_eq h2.symm) _ _)
  -- The pointer pairs are put over the space that has been left for them.
  apply Runs.bind (Runs.seek _ _)
  have hdata : d ++ be32 vs.length ++ List.replicate (vs.length * (4 * 2)) 0 ++
      vs.flatMap valueBytes ++ List.replicate (padding (valuesEnd n vs)) 0 ++
      vs.flatMap refsBytes =
      (d ++ be32 vs.length) ++ (List.replicate (vs.length * (4 * 2)) 0 ++
        (vs.flatMap valueBytes ++
          (List.replicate (padding (valuesEnd n vs)) 0 ++ vs.flatMap refsBytes))) := by
    simp only [List.append_assoc]
  have hpairs : (((valuePositions n vs).zip (refsPositions n vs)).flatMap pairBytes).length =
      (List.replicate (vs.length * (4 * 2)) (0 : UInt8)).length := by
    rw [length_flatMap_pairs, List.length_replicate, List.length_zip, valuePositions,
      refsPositions, List.length_mapIdx, List.length_mapIdx, Nat.min_self]
    omega
  rw [hdata]
  apply Runs.bind (Puts.fill (puts_pairs _ _) (grow hd _) hpairs _)
  have hbytes : (d ++ be32 vs.length) ++
      (((valuePositions n vs).zip (refsPositions n vs)).flatMap pairBytes ++
        (vs.flatMap valueBytes ++
          (List.replicate (padding (valuesEnd n vs)) 0 ++ vs.flatMap refsBytes))) =
      d ++ macroBytes n vs := by
    simp only [macroBytes, List.append_assoc]
  rw [← length_macroBytes, ← hbytes]
  exact Runs.seek _ _

theorem length_flatMap_be32 (is : List Nat) : (is.flatMap be32).length = 4 * is.length := by
  induction is with
  | nil => rfl
  | cons i is ih =>
    rw [List.flatMap_cons, List.length_append, ih, List.length_cons, length_be32]
    omega

/-- `dba_macros_write` appends the macros table. -/
theorem runs_dbaMacrosWrite (pages : List DbaPage) (macros : List (List MacroEntry))
    {d : List UInt8} {n : Nat} (hd : d.length = n) :
    Runs INT32_MAX (dbaMacrosWrite pages macros) ⟨d, n⟩ ()
      ⟨d ++ macrosBytes n (macros.map (valueRefs pages)),
        n + (macrosBytes n (macros.map (valueRefs pages))).length⟩ := by
  have htable : ∀ (d : List UInt8) (n : Nat), d.length = n → ∀ vs ∈ macros,
      Runs INT32_MAX (do
        let pos ← dbaTell
        dbaMacroWrite pages vs
        return pos) ⟨d, n⟩ n
        ⟨d ++ (fun n m => macroBytes n (valueRefs pages m)) n vs,
          n + ((fun n m => macroBytes n (valueRefs pages m)) n vs).length⟩ := by
    intro d n hd vs _
    apply Runs.bind (Runs.tell (Nat.le_of_eq hd.symm) _ _)
    exact Runs.bind (runs_dbaMacroWrite pages vs hd) (Runs.pure _ _)
  have hstart : n + (be32 macros.length ++ List.replicate (macros.length * (4 * 1)) 0).length =
      n + 4 + 4 * macros.length := by
    simp only [List.length_append, length_be32, List.length_replicate]
    omega
  have h0 := grow hd (be32 macros.length ++ List.replicate (macros.length * (4 * 1)) 0)
  rw [hstart] at h0
  unfold dbaMacrosWrite
  apply Runs.bind (Puts.append (puts_dbaArrayWritelen macros.length 1 n) hd)
  rw [hstart]
  apply Runs.bind (Runs.mapM_append htable h0)
  rw [List.map_id', ← placesOf_map, ← placeAll_map]
  generalize htables : macros.map (valueRefs pages) = tables
  have hlen : macros.length = tables.length := by rw [← htables, List.length_map]
  rw [hlen] at h0 ⊢
  have h1 := grow h0 (placeAll macroBytes (n + 4 + 4 * tables.length) tables)
  apply Runs.bind (Runs.tell (Nat.le_of_eq h1.symm) _ _)
  -- The pointers to the tables are put over the space that has been left for them.
  apply Runs.bind (Runs.seek _ _)
  have hdata : d ++ (be32 tables.length ++ List.replicate (tables.length * (4 * 1)) 0) ++
      placeAll macroBytes (n + 4 + 4 * tables.length) tables =
      (d ++ be32 tables.length) ++ (List.replicate (tables.length * (4 * 1)) 0 ++
        placeAll macroBytes (n + 4 + 4 * tables.length) tables) := by
    simp only [List.append_assoc]
  have hptrs : ((placesOf macroBytes (n + 4 + 4 * tables.length) tables).flatMap be32).length =
      (List.replicate (tables.length * (4 * 1)) (0 : UInt8)).length := by
    rw [length_flatMap_be32, length_placesOf, List.length_replicate]
    omega
  rw [hdata]
  apply Runs.bind (Runs.tell (by simp only [List.length_append, hd, length_be32]; omega) _ _)
  apply Runs.bind (Puts.fill (Puts.forM (fun n i _ => puts_dbaIntWrite i n) _) (grow hd _) hptrs _)
  have hbytes : (d ++ be32 tables.length) ++
      ((placesOf macroBytes (n + 4 + 4 * tables.length) tables).flatMap be32 ++
        placeAll macroBytes (n + 4 + 4 * tables.length) tables) =
      d ++ macrosBytes n tables := by
    simp only [macrosBytes, List.append_assoc]
  have hend : n + 4 + 4 * tables.length +
      (placeAll macroBytes (n + 4 + 4 * tables.length) tables).length =
      n + (macrosBytes n tables).length := by
    rw [← h1, ← grow hd (macrosBytes n tables), ← hbytes, hdata]
    simp only [List.length_append, hptrs]
  rw [← hend, ← hbytes]
  exact Runs.seek _ _

/-! ## §8 The file is written -/

theorem length_fileBytes (us : List DbaPage) (tables : List (List ValueRefs)) :
    (fileBytes us tables).length = 16 + (pagesBytes 16 us).length +
      (macrosBytes (16 + (pagesBytes 16 us).length) tables).length + 4 := by
  simp only [fileBytes, List.length_append, length_be32]
  omega

/-- The tables of a file, and their positions: what `dba_write` does until it has written all
    macro tables. -/
def dbaWriteTables (dba : Dba) : DbaWrite (Nat × List DbaPage × Nat × Nat) := do
  dbaIntWrite mandocdbMagic
  dbaIntWrite mandocdbVersion
  let posMacrosPtr ← dbaSkip 1 2
  let pages ← dbaPagesWrite dba.pages
  let posMacros ← dbaTell
  dbaMacrosWrite pages dba.macros
  let posEnd ← dbaTell
  return (posMacrosPtr, pages, posMacros, posEnd)

/-- The end of the file, and the two pointers at the beginning. -/
def dbaWritePointers (posMacrosPtr posMacros posEnd : Nat) : DbaWrite Unit := do
  dbaIntWrite mandocdbMagic
  seek posMacrosPtr
  dbaIntWrite posMacros
  dbaIntWrite posEnd

theorem dbaWriteBody_eq (dba : Dba) :
    dbaWriteBody dba = (do
      let (posMacrosPtr, pages, posMacros, posEnd) ← dbaWriteTables dba
      dbaWritePointers posMacrosPtr posMacros posEnd
      return { dba with pages := pages }) := by
  simp only [dbaWriteBody, dbaWriteTables, dbaWritePointers, bind_assoc, pure_bind]

/-- A file in front of its end and without its pointers. -/
def tablesBytes (us : List DbaPage) (tables : List (List ValueRefs)) : List UInt8 :=
  be32 mandocdbMagic ++ be32 mandocdbVersion ++ List.replicate 8 0 ++ pagesBytes 16 us ++
    macrosBytes (16 + (pagesBytes 16 us).length) tables

theorem length_tablesBytes (us : List DbaPage) (tables : List (List ValueRefs)) :
    (tablesBytes us tables).length = 16 + (pagesBytes 16 us).length +
      (macrosBytes (16 + (pagesBytes 16 us).length) tables).length := by
  have hhead : (be32 mandocdbMagic ++ be32 mandocdbVersion ++ List.replicate 8 0).length = 16 :=
    rfl
  rw [tablesBytes, List.length_append, List.length_append, hhead]

/-- All tables are written. -/
theorem runs_dbaWriteTables {dba : Dba} {us : List DbaPage} (hus : livePages dba.pages = us)
    {tables : List (List ValueRefs)}
    (htables : dba.macros.map (valueRefs (fillIn dba.pages (placedPages 16 us))) = tables) :
    Runs INT32_MAX (dbaWriteTables dba) ⟨[], 0⟩
      (8, fillIn dba.pages (placedPages 16 us), 16 + (pagesBytes 16 us).length,
        (tablesBytes us tables).length)
      ⟨tablesBytes us tables, (tablesBytes us tables).length⟩ := by
  have hhead : (be32 mandocdbMagic ++ be32 mandocdbVersion ++ List.replicate 8 0).length = 16 :=
    rfl
  unfold dbaWriteTables
  apply Runs.bind (Puts.append (puts_dbaIntWrite mandocdbMagic 0) rfl)
  apply Runs.bind (Puts.append (puts_dbaIntWrite mandocdbVersion _) rfl)
  apply Runs.bind (Puts.append (puts_dbaSkip 1 2 _) rfl)
  apply Runs.bind (runs_dbaPagesWrite hus hhead)
  have h1 : (be32 mandocdbMagic ++ be32 mandocdbVersion ++ List.replicate 8 0 ++
      pagesBytes 16 us).length = 16 + (pagesBytes 16 us).length := by
    rw [List.length_append, hhead]
  apply Runs.bind (Runs.tell (Nat.le_of_eq h1.symm) _ _)
  apply Runs.bind (runs_dbaMacrosWrite _ dba.macros h1)
  rw [htables, ← length_tablesBytes]
  exact Runs.bind (Runs.tell (Nat.le_refl _) _ _) (Runs.pure _ _)

/-- The pointers are put over the space that has been left for them. -/
theorem runs_dbaWritePointers (limit : Nat) (us : List DbaPage)
    (tables : List (List ValueRefs)) :
    Runs limit
      (dbaWritePointers 8 (16 + (pagesBytes 16 us).length) (tablesBytes us tables).length)
      ⟨tablesBytes us tables, (tablesBytes us tables).length⟩ ()
      ⟨fileBytes us tables, 16⟩ := by
  unfold dbaWritePointers
  have hput : ∀ i n, Puts limit (dbaIntWrite i) n () (be32 i) := fun i n => Puts.put n _
  apply Runs.bind (Puts.append (hput mandocdbMagic _) rfl)
  apply Runs.bind (Runs.seek _ _)
  -- The data that has been written, with the holes for the two pointers.
  have hdata : tablesBytes us tables ++ be32 mandocdbMagic =
      (be32 mandocdbMagic ++ be32 mandocdbVersion) ++ (List.replicate 4 0 ++
        (List.replicate 4 0 ++ (pagesBytes 16 us ++
          (macrosBytes (16 + (pagesBytes 16 us).length) tables ++ be32 mandocdbMagic)))) := by
    simp only [tablesBytes, List.append_assoc]
    rfl
  have hhole : ∀ i, (be32 i).length = (List.replicate 4 (0 : UInt8)).length := fun _ => rfl
  have h8 : (be32 mandocdbMagic ++ be32 mandocdbVersion).length = 8 := rfl
  have h12 : ∀ i, (be32 mandocdbMagic ++ be32 mandocdbVersion ++ be32 i).length = 12 :=
    fun _ => rfl
  rw [hdata]
  apply Runs.bind (Puts.fill (hput _ 8) h8 (hhole _) _)
  -- The first pointer is filled in, and now the second one.
  rw [← List.append_assoc (be32 mandocdbMagic ++ be32 mandocdbVersion)]
  have hbytes : (be32 mandocdbMagic ++ be32 mandocdbVersion ++
      be32 (16 + (pagesBytes 16 us).length)) ++
        (be32 (tablesBytes us tables).length ++ (pagesBytes 16 us ++
          (macrosBytes (16 + (pagesBytes 16 us).length) tables ++ be32 mandocdbMagic))) =
      fileBytes us tables := by
    rw [length_tablesBytes]
    simp only [fileBytes, List.append_assoc]
  exact hbytes ▸ Puts.fill (hput _ 12) (h12 _) (hhole _) _

/-- **The writer puts the layout.**  `dba_write` creates the file with the pages that are not
    deleted and with the macro values that have such pages.  It fails only if the tables have
    grown to the limit. -/
theorem dbaWriteBody_cases {dba : Dba} {us : List DbaPage} (hus : livePages dba.pages = us)
    {tables : List (List ValueRefs)}
    (htables : dba.macros.map (valueRefs (fillIn dba.pages (placedPages 16 us))) = tables) :
    dbaWriteBody dba ⟨[], 0⟩ = .ok ({ dba with pages := fillIn dba.pages (placedPages 16 us) },
        ⟨fileBytes us tables, 16⟩) ∨
      (∃ e, dbaWriteBody dba ⟨[], 0⟩ = .error e) ∧
        INT32_MAX ≤ (tablesBytes us tables).length := by
  have hsplit : ∀ s, dbaWriteBody dba s = (dbaWriteTables dba s >>= fun p =>
      (do dbaWritePointers p.1.1 p.1.2.2.1 p.1.2.2.2
          return { dba with pages := p.1.2.1 }) p.2) := by
    rw [dbaWriteBody_eq]
    exact fun _ => rfl
  rw [hsplit]
  rcases (runs_dbaWriteTables hus htables).2 with hok | ⟨⟨e, he⟩, hlimit⟩
  · -- Nothing that is left to do can fail, so any limit is as good as another.
    rw [hok]
    have hrun : Runs ((fileBytes us tables).length + 1)
        (do dbaWritePointers 8 (16 + (pagesBytes 16 us).length) (tablesBytes us tables).length
            return { dba with pages := fillIn dba.pages (placedPages 16 us) })
        ⟨tablesBytes us tables, (tablesBytes us tables).length⟩
        { dba with pages := fillIn dba.pages (placedPages 16 us) } ⟨fileBytes us tables, 16⟩ :=
      Runs.bind (runs_dbaWritePointers _ us tables) (Runs.pure _ _)
    exact .inl (hrun.eq_ok (Nat.lt_succ_self _))
  · rw [he]
    exact .inr ⟨⟨e, rfl⟩, hlimit⟩

end Mandoc
