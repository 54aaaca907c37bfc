import Mandoc.Search.DbaRead

/-!
# Databases that have been built

Every database that the functions of `dba.c` can build survives being written and read: the file
is the same when it is written again, the pages that have not been deleted keep their contents,
and the macro values keep the pages that have not been deleted.
-/

namespace Mandoc

open BackPatch

/-! ## §1 Building a database -/

/-- The databases that the functions of `dba.c` can build, for strings without NUL bytes. -/
inductive Dba.Built : Dba → Prop where
  | new : Built dbaNew
  /-- `dba_page_new`. -/
  | pageNew {db : Dba} {arch : Option Str} {desc file : Str} (form : Form) (h : Built db)
      (harch : ∀ a ∈ arch, NulFree a) (hdesc : NulFree desc) (hfile : NulFree file) :
      Built { db with pages := dbaPageNew db.pages arch desc file form.byte }
  /-- `dba_page_add`.  The strings for names have their mask byte in front. -/
  | pageAdd {db : Dba} {ip : Nat} {page page' : DbaPage} {ie : Dbp} {str : Option Str}
      (h : Built db) (hpage : db.pages[ip]? = some page) (hstr : ∀ s ∈ str, NulFree s)
      (hadd : dbaPageAdd page ie str = .ok page') :
      Built { db with pages := db.pages.set ip page' }
  /-- `dba_page_alias` with at least one bit of `NAME_MASK`. -/
  | pageAlias {db : Dba} {ip : Nat} {page : DbaPage} {name : Str} {mask : BitVec 64}
      (h : Built db) (hpage : db.pages[ip]? = some page) (hname : NulFree name)
      (hmask : mask &&& 0x1f ≠ 0) :
      Built { db with pages := db.pages.set ip (dbaPageAlias page name mask) }
  /-- `dba_macro_add` for a page of the database. -/
  | macroAdd {db : Dba} {im ip : Nat} {value : Str} (h : Built db) (him : im < macroMax)
      (hvalue : NulFree value) (hip : ip < db.pages.length) :
      Built { db with macros := dbaMacroAdd db.macros im value ip }
  /-- `dba_array_del` on the pages table. -/
  | pageDel {db : Dba} (ip : Nat) (h : Built db) :
      Built { db with pages := dbaPageDel db.pages ip }

/-! ## §2 Invariants of a page -/

/-- What holds of every page of a database that has been built. -/
structure DbaPage.Sound (page : DbaPage) : Prop extends page.Proper where
  /-- The page has not been written yet. -/
  pos : page.pos = 0

theorem Form.byte_ne_zero (form : Form) : form.byte ≠ 0 := by
  cases form <;> decide

/-- New pages are sound. -/
theorem sound_new {arch : Option Str} {desc file : Str} (form : Form)
    (harch : ∀ a ∈ arch, NulFree a) (hdesc : NulFree desc) (hfile : NulFree file) :
    ∀ page ∈ dbaPageNew [] arch desc file form.byte, page.Sound := by
  intro page hpage
  have hfirst : NulFree (form.byte :: file) := nulFree_cons form.byte_ne_zero hfile
  have hprepend : prepend file form.byte = form.byte :: file := cstr_eq hfirst
  obtain rfl : page = _ := List.mem_singleton.mp hpage
  refine ⟨⟨by simp [ProperStrings], by simp [ProperStrings], by simp, ?_, hdesc, ?_,
    by simp, by simp⟩, rfl⟩
  · intro l hl
    cases arch with
    | none => simp at hl
    | some a =>
      cases a with
      | nil => simp at hl
      | cons c a =>
        obtain rfl : [c :: a] = l := by simpa using hl
        have ha : NulFree (c :: a) := harch (c :: a) rfl
        exact ⟨by simp, by simp [ProperStrings, ha], by simp⟩
  · intro s hs
    simp only [List.mem_singleton, hprepend] at hs
    subst hs
    exact ⟨by simp, hfirst⟩

/-- `dba_page_add` adds a string at the end, or not at all. -/
theorem addString_cases (ie : Dbp) (l : List Str) (s : Str) :
    addString ie l s = l ∨
      s ≠ [] ∧ (∀ entry ∈ l, comparedPart ie entry ≠ s) ∧ addString ie l s = l ++ [s] := by
  unfold addString
  split
  · exact .inl rfl
  · rename_i hne
    split
    · exact .inl rfl
    · rename_i hany
      refine .inr ⟨hne, fun entry hentry heq => hany ?_, rfl⟩
      rw [List.any_eq_true]
      exact ⟨entry, hentry, by simp [heq]⟩

/-- The entries stay proper strings. -/
theorem addString_proper {ie : Dbp} {l : List Str} {s : Str} (hs : NulFree s)
    (hl : ProperStrings l) : ProperStrings (addString ie l s) := by
  rcases addString_cases ie l s with heq | ⟨hne, -, heq⟩
  · rwa [heq]
  · rw [heq]
    intro t ht
    rcases List.mem_append.mp ht with hold | hnew
    · exact hl t hold
    · obtain rfl := List.mem_singleton.mp hnew
      exact ⟨hne, hs⟩

/-- Every entry stays different from what has been in front of it when it was added. -/
theorem addString_fresh {ie : Dbp} {l : List Str} {s : Str}
    (hfresh : l.Pairwise fun s t => comparedPart ie s ≠ t) :
    (addString ie l s).Pairwise fun s t => comparedPart ie s ≠ t := by
  rcases addString_cases ie l s with heq | ⟨-, hnew, heq⟩
  · rwa [heq]
  · rw [heq, List.pairwise_append]
    refine ⟨hfresh, List.pairwise_singleton _ _, ?_⟩
    intro entry hentry t ht
    obtain rfl := List.mem_singleton.mp ht
    exact hnew entry hentry

theorem addString_ne_nil {ie : Dbp} {l : List Str} {s : Str} (hl : l ≠ []) :
    addString ie l s ≠ [] := by
  rcases addString_cases ie l s with heq | ⟨-, -, heq⟩
  · rwa [heq]
  · rw [heq]
    simp

theorem nodup_of_fresh {ie : Dbp} (hie : ie ≠ .file) {l : List Str}
    (h : l.Pairwise fun s t => comparedPart ie s ≠ t) : l.Nodup := by
  have hid : ∀ s, comparedPart ie s = s := fun s => if_neg fun hc => hie hc.1
  exact h.imp fun {s t} hne => by rwa [hid] at hne

/-- `dba_page_add` keeps a page sound. -/
theorem sound_pageAdd {page page' : DbaPage} {ie : Dbp} {str : Option Str} (h : page.Sound)
    (hstr : ∀ s ∈ str, NulFree s)
    (hadd : dbaPageAdd page ie str = .ok page') : page'.Sound := by
  -- A string is added to one of the lists, and the other lists are kept.
  cases ie with
  | name =>
    cases str with
    | none => cases hadd
    | some s =>
      obtain rfl : _ = page' := Except.ok.inj hadd
      exact { h with name := addString_proper (hstr s rfl) h.name }
  | sect =>
    cases str with
    | none => cases hadd
    | some s =>
      obtain rfl : _ = page' := Except.ok.inj hadd
      have hfresh := pairwise_compared (show Dbp.sect ≠ .file by decide) h.sect_nodup
      exact { h with
        sect := addString_proper (hstr s rfl) h.sect
        sect_nodup := nodup_of_fresh (show Dbp.sect ≠ .file by decide) (addString_fresh hfresh) }
  | file =>
    cases str with
    | none => cases hadd
    | some s =>
      obtain rfl : _ = page' := Except.ok.inj hadd
      exact { h with
        file := addString_proper (hstr s rfl) h.file
        file_ne_nil := addString_ne_nil h.file_ne_nil
        file_fresh := addString_fresh h.file_fresh }
  | arch =>
    -- Once a page is for all architectures, this does not change.
    cases harch : page.arch with
    | none =>
      simp only [dbaPageAdd, harch] at hadd
      exact Except.ok.inj hadd ▸ h
    | some l =>
      obtain ⟨hne, hproper, hnodup⟩ := h.arch l (by rw [harch]; rfl)
      have hmi : { page with arch := none }.Sound := { h with arch := by simp }
      -- Without a string, the page becomes one for all architectures.
      rcases str with _ | _ | ⟨c, s⟩
      · simp only [dbaPageAdd, harch] at hadd
        exact Except.ok.inj hadd ▸ hmi
      · simp only [dbaPageAdd, harch] at hadd
        exact Except.ok.inj hadd ▸ hmi
      · simp only [dbaPageAdd, harch] at hadd
        obtain rfl := Except.ok.inj hadd
        have hfresh := pairwise_compared (show Dbp.arch ≠ .file by decide) hnodup
        refine { h with arch := ?_ }
        intro l' hl'
        obtain rfl : addString .arch l (c :: s) = l' := by simpa using hl'
        exact ⟨addString_ne_nil hne, addString_proper (hstr _ rfl) hproper,
          nodup_of_fresh (show Dbp.arch ≠ .file by decide) (addString_fresh hfresh)⟩

/-- A mask byte with at least one bit. -/
theorem maskByte_ne_zero {mask : BitVec 64} (h : mask &&& 0x1f ≠ 0) : maskByte mask ≠ 0 := by
  have hle : (mask &&& 0x1f).toNat ≤ 31 := by
    rw [BitVec.toNat_and]
    exact Nat.and_le_right
  have hpos : (mask &&& 0x1f).toNat ≠ 0 := fun hzero => h (BitVec.eq_of_toNat_eq hzero)
  intro hbyte
  have hnat := congrArg UInt8.toNat hbyte
  rw [maskByte, UInt8.toNat_ofNat', Nat.mod_eq_of_lt (by omega)] at hnat
  exact hpos hnat

theorem or_ne_zero {b c : UInt8} (hb : b ≠ 0) : b ||| c ≠ 0 :=
  fun hzero => hb (UInt8.or_eq_zero_iff.mp hzero).1

/-- The names stay proper strings when a name is added, or gets another mask. -/
theorem aliasName_proper {name : Str} {b : UInt8} (hname : NulFree name) (hb : b ≠ 0)
    {l : List Str} (hl : ProperStrings l) : ProperStrings (aliasName name b l) := by
  have hfirst : NulFree (b :: name) := nulFree_cons hb hname
  induction l with
  | nil =>
    have hprepend : prepend name b = b :: name := cstr_eq hfirst
    intro s hs
    simp only [aliasName, hprepend, List.mem_singleton] at hs
    subst hs
    exact ⟨by simp, hfirst⟩
  -- Either the name is found, and its mask changes, or the search goes on.
  | cons entry l ih =>
    have hentry := hl entry (List.mem_cons_self ..)
    have hrest : ProperStrings l := fun s hs => hl s (List.mem_cons_of_mem _ hs)
    obtain ⟨c, tail, rfl⟩ := List.exists_cons_of_ne_nil hentry.1
    have hc : c ≠ 0 := fun heq => hentry.2 (heq ▸ List.mem_cons_self ..)
    have htail : NulFree tail := fun hmem => hentry.2 (List.mem_cons_of_mem _ hmem)
    intro s hs
    cases decEq tail name with
    | isTrue heq =>
      subst heq
      simp only [aliasName, List.tail_cons, if_true, strcmp_eq_iff, List.mem_cons] at hs
      rcases hs with rfl | hs
      · exact ⟨by simp, nulFree_cons (or_ne_zero hc) htail⟩
      · exact hrest s hs
    | isFalse hne =>
      have hstep : aliasName name b ((c :: tail) :: l) = (c :: tail) :: aliasName name b l := by
        simp [aliasName, hne]
      rw [hstep] at hs
      rcases List.mem_cons.mp hs with rfl | hs
      · exact hentry
      · exact ih hrest s hs

theorem sound_pageAlias {page : DbaPage} {name : Str} {mask : BitVec 64} (h : page.Sound)
    (hname : NulFree name) (hmask : mask &&& 0x1f ≠ 0) : (dbaPageAlias page name mask).Sound := by
  unfold dbaPageAlias
  split
  · exact h
  · exact { h with name := aliasName_proper hname (maskByte_ne_zero hmask) h.name }

/-! ## §3 Invariants of a database -/

/-- What holds of every macro table of a database that has been built. -/
structure TableSound (npages : Nat) (macro_ : List MacroEntry) : Prop where
  values : ∀ entry ∈ macro_, NulFree entry.value
  nodup : (macro_.map MacroEntry.value).Nodup
  pages : ∀ entry ∈ macro_, ∀ ip ∈ entry.pages, ip < npages

/-- What holds of every database that has been built. -/
structure Dba.Sound (db : Dba) : Prop where
  pages : ∀ page ∈ db.pages, page.Sound
  macros : db.macros.length = macroMax
  tables : ∀ macro_ ∈ db.macros, TableSound db.pages.length macro_

theorem TableSound.mono {m n : Nat} {macro_ : List MacroEntry} (h : TableSound m macro_)
    (hmn : m ≤ n) : TableSound n macro_ where
  values := h.values
  nodup := h.nodup
  pages := fun entry hentry ip hip => Nat.lt_of_lt_of_le (h.pages entry hentry ip hip) hmn

/-- The values after adding pages to an entry. -/
theorem map_value_addToEntry (value : Str) (pages : List Nat) (entries : List MacroEntry) :
    (addToEntry value pages entries).map MacroEntry.value = entries.map MacroEntry.value ∨
      value ∉ entries.map MacroEntry.value ∧
        (addToEntry value pages entries).map MacroEntry.value =
          entries.map MacroEntry.value ++ [value] := by
  induction entries with
  | nil => exact .inr ⟨by simp, rfl⟩
  | cons entry entries ih =>
    rw [addToEntry]
    split
    · exact .inl rfl
    · rename_i hne
      rcases ih with heq | ⟨hnew, heq⟩
      · exact .inl (by simp [heq])
      · exact .inr ⟨by simpa [Ne.symm hne] using hnew, by simp [heq]⟩

/-- The entries after adding pages to an entry. -/
theorem mem_addToEntry {value : Str} {pages : List Nat} {entries : List MacroEntry}
    {entry : MacroEntry} (h : entry ∈ addToEntry value pages entries) :
    entry ∈ entries ∨ entry.value = value ∧
      ∀ ip ∈ entry.pages, ip ∈ pages ∨ ∃ old ∈ entries, ip ∈ old.pages := by
  induction entries with
  | nil =>
    obtain rfl := List.mem_singleton.mp h
    exact .inr ⟨rfl, fun ip hip => .inl hip⟩
  | cons old entries ih =>
    rw [addToEntry] at h
    split at h
    · rename_i heq
      rcases List.mem_cons.mp h with rfl | hrest
      · refine .inr ⟨heq, fun ip hip => ?_⟩
        rcases List.mem_append.mp hip with hin | hin
        · exact .inr ⟨old, List.mem_cons_self .., hin⟩
        · exact .inl hin
      · exact .inl (List.mem_cons_of_mem _ hrest)
    · rcases List.mem_cons.mp h with rfl | hrest
      · exact .inl (List.mem_cons_self ..)
      · rcases ih hrest with hold | ⟨hvalue, hpages⟩
        · exact .inl (List.mem_cons_of_mem _ hold)
        · refine .inr ⟨hvalue, fun ip hip => ?_⟩
          rcases hpages ip hip with hin | ⟨other, hother, hin⟩
          · exact .inl hin
          · exact .inr ⟨other, List.mem_cons_of_mem _ hother, hin⟩

/-- `dba_macro_add` keeps a macro table sound. -/
theorem TableSound.addToEntry {npages ip : Nat} {value : Str} {macro_ : List MacroEntry}
    (h : TableSound npages macro_) (hvalue : NulFree value) (hip : ip < npages) :
    TableSound npages (addToEntry value [ip] macro_) where
  values := by
    intro entry hentry
    rcases mem_addToEntry hentry with hold | ⟨heq, -⟩
    · exact h.values entry hold
    · rwa [heq]
  nodup := by
    rcases map_value_addToEntry value [ip] macro_ with heq | ⟨hnew, heq⟩
    · rw [heq]
      exact h.nodup
    · rw [heq]
      exact h.nodup.append (List.nodup_singleton _) (by simpa using hnew)
  pages := by
    intro entry hentry jp hjp
    rcases mem_addToEntry hentry with hold | ⟨-, hpages⟩
    · exact h.pages entry hold jp hjp
    · rcases hpages jp hjp with hin | ⟨old, hold, hin⟩
      · rwa [List.mem_singleton.mp hin]
      · exact h.pages old hold jp hin

/-- Replacing one page by a sound one keeps a database sound. -/
theorem Dba.Sound.setPage {db : Dba} (h : db.Sound) (ip : Nat) {page : DbaPage}
    (hpage : page.Sound) : Dba.Sound { db with pages := db.pages.set ip page } where
  pages := by
    intro p hp
    rcases List.mem_or_eq_of_mem_set hp with hold | rfl
    · exact h.pages p hold
    · exact hpage
  macros := h.macros
  tables := by
    intro macro_ hmac
    rw [List.length_set]
    exact h.tables macro_ hmac

/-- The elements of a list after one of them has been changed. -/
theorem mem_of_mem_modify {α : Type} {f : α → α} {l : List α} {i : Nat} {x : α}
    (h : x ∈ l.modify i f) : x ∈ l ∨ ∃ y ∈ l, x = f y := by
  obtain ⟨j, hj⟩ := List.mem_iff_getElem?.mp h
  rw [List.getElem?_modify] at hj
  cases hy : l[j]? with
  | none => simp [hy] at hj
  | some y =>
    have hmem := List.mem_of_getElem? hy
    rw [hy] at hj
    simp only [Option.map_eq_map, Option.map_some, Option.some.injEq] at hj
    split at hj
    · exact .inr ⟨y, hmem, hj.symm⟩
    · exact .inl (by rw [← hj]; exact hmem)

/-- **Every database that has been built is sound.** -/
theorem Dba.Built.sound {db : Dba} (h : db.Built) : db.Sound := by
  -- By induction on the calls that have built the database.
  induction h with
  | new =>
    refine ⟨by simp [dbaNew], by simp [dbaNew], ?_⟩
    intro macro_ hmac
    obtain rfl := List.eq_of_mem_replicate hmac
    exact ⟨by simp, by simp, by simp⟩
  | @pageNew db arch desc file form _ harch hdesc hfile ih =>
    have hsplit : dbaPageNew db.pages arch desc file form.byte =
        db.pages ++ dbaPageNew [] arch desc file form.byte := rfl
    refine ⟨?_, ih.macros, ?_⟩
    · intro page hpage
      rcases List.mem_append.mp (hsplit ▸ hpage) with hold | hnew
      · exact ih.pages page hold
      · exact sound_new form harch hdesc hfile page hnew
    · -- Entries of the macro tables stay valid because pages are added at the end only.
      intro macro_ hmac
      apply (ih.tables macro_ hmac).mono
      rw [hsplit, List.length_append]
      exact Nat.le_add_right _ _
  | @pageAdd db ip page page' ie str _ hpage hstr hadd ih =>
    exact ih.setPage ip (sound_pageAdd (ih.pages page (List.mem_of_getElem? hpage)) hstr hadd)
  | @pageAlias db ip page name mask _ hpage hname hmask ih =>
    exact ih.setPage ip
      (sound_pageAlias (ih.pages page (List.mem_of_getElem? hpage)) hname hmask)
  | @macroAdd db im ip value _ him hvalue hip ih =>
    unfold dbaMacroAdd
    split
    · exact ih
    · refine ⟨ih.pages, by rw [List.length_modify]; exact ih.macros, ?_⟩
      intro macro_ hmac
      rcases mem_of_mem_modify hmac with hold | ⟨old, hold, rfl⟩
      · exact ih.tables macro_ hold
      · exact (ih.tables old hold).addToEntry hvalue hip
  | @pageDel db ip _ ih =>
    refine ⟨?_, ih.macros, ?_⟩
    · intro page hpage
      rcases mem_of_mem_modify hpage with hold | ⟨old, hold, rfl⟩
      · exact ih.pages page hold
      · exact { ih.pages old hold with }
    · intro macro_ hmac
      rw [dbaPageDel, List.length_modify]
      exact ih.tables macro_ hmac

/-! ## §4 The positions of the pages -/

/-- The number of a page in the file: how many live pages stand before it. -/
def rank (pages : List DbaPage) (ip : Nat) : Nat := (livePages (pages.take ip)).length

/-- The pages of an entry that have not been deleted. -/
def livePart (pages : List DbaPage) (ips : List Nat) : List Nat :=
  ips.filter fun ip => (pages[ip]?.map fun page => !page.deleted).getD false

/-- The live pages are replaced in order. -/
theorem getElem?_fillIn {pages us : List DbaPage} (hlen : us.length = (livePages pages).length)
    {ip : Nat} {page : DbaPage} (hpage : pages[ip]? = some page) :
    (fillIn pages us)[ip]? =
      if page.deleted then some page else us[rank pages ip]? := by
  induction pages generalizing us ip with
  | nil => simp at hpage
  | cons first pages ih =>
    cases hdel : first.deleted with
    | true =>
      cases ip with
      | zero =>
        obtain rfl : first = page := by simpa using hpage
        simp [fillIn, hdel]
      | succ ip =>
        have hrest := @ih us (by simpa [livePages, hdel] using hlen) ip (by simpa using hpage)
        simpa [fillIn, hdel, rank, livePages] using hrest
    | false =>
      cases us with
      | nil => simp [livePages, hdel] at hlen
      | cons u us =>
        cases ip with
        | zero =>
          obtain rfl : first = page := by simpa using hpage
          simp [fillIn, hdel, rank, livePages]
        | succ ip =>
          have hrest := @ih us (by simpa [livePages, hdel] using hlen) ip
            (by simpa using hpage)
          simpa [fillIn, hdel, rank, livePages] using hrest

/-- A live page is in front of fewer live pages than there are. -/
theorem rank_lt {pages : List DbaPage} {ip : Nat} {page : DbaPage}
    (hpage : pages[ip]? = some page) (hlive : page.deleted = false) :
    rank pages ip < (livePages pages).length := by
  induction pages generalizing ip with
  | nil => simp at hpage
  | cons first pages ih =>
    cases ip with
    | zero =>
      obtain rfl : first = page := by simpa using hpage
      simp [rank, livePages, hlive]
    | succ ip =>
      have hrest := ih (by simpa using hpage)
      cases hdel : first.deleted with
      | true => simpa [rank, livePages, hdel] using hrest
      | false => simpa [rank, livePages, hdel] using hrest

theorem length_fillIn (pages us : List DbaPage) : (fillIn pages us).length = pages.length := by
  induction pages generalizing us with
  | nil => rfl
  | cons page pages ih =>
    cases hdel : page.deleted with
    | true => simp [fillIn, hdel, ih]
    | false => cases us <;> simp [fillIn, hdel, ih]

/-- The position of a page, after the pages table has been written. -/
theorem pos_fillIn {pages : List DbaPage} (hpos : ∀ page ∈ pages, page.pos = 0) {ip : Nat}
    {page : DbaPage} (hpage : pages[ip]? = some page) :
    ((fillIn pages (placedPages 16 (livePages pages)))[ip]?.map DbaPage.pos).getD 0 =
      if page.deleted then 0 else 20 + 20 * rank pages ip := by
  rw [getElem?_fillIn (by simp [placedPages]) hpage]
  cases hdel : page.deleted with
  | true => simp [hpos page (List.mem_of_getElem? hpage)]
  | false =>
    have hlt := rank_lt hpage hdel
    simp [placedPages, List.getElem?_eq_getElem hlt]

/-- The positions of the pages of an entry, after the pages table has been written: a position
    for every page that has not been deleted. -/
theorem pagePositions_fillIn {pages : List DbaPage} (hpos : ∀ page ∈ pages, page.pos = 0)
    {entry : MacroEntry} (hips : ∀ ip ∈ entry.pages, ip < pages.length) :
    (pagePositions (fillIn pages (placedPages 16 (livePages pages))) entry).filter (· ≠ 0) =
      (livePart pages entry.pages).map fun ip => 20 + 20 * rank pages ip := by
  have hall : entry.pages.takeWhile
      (· < (fillIn pages (placedPages 16 (livePages pages))).length) = entry.pages := by
    rw [List.takeWhile_eq_self_iff, length_fillIn]
    intro ip hip
    simpa using hips ip hip
  rw [pagePositions, hall]
  generalize entry.pages = ips at hips ⊢
  induction ips with
  | nil => rfl
  | cons ip ips ih =>
    have hrest := ih fun jp hjp => hips jp (List.mem_cons_of_mem ip hjp)
    obtain ⟨page, hpage⟩ : ∃ page, pages[ip]? = some page :=
      ⟨_, List.getElem?_eq_getElem (hips ip (List.mem_cons_self ..))⟩
    have hfirst := pos_fillIn hpos hpage
    rw [List.map_cons, hfirst]
    cases hdel : page.deleted with
    | true =>
      have hpart : livePart pages (ip :: ips) = livePart pages ips := by
        simp [livePart, hpage, hdel]
      rw [if_pos rfl, List.filter_cons_of_neg (by simp), hrest, hpart]
    | false =>
      have hpart : livePart pages (ip :: ips) = ip :: livePart pages ips := by
        simp [livePart, hpage, hdel]
      rw [if_neg (by simp), List.filter_cons_of_pos (by simp), hrest, hpart, List.map_cons]

/-- What is written of a macro table: the values that have pages which are not deleted. -/
def liveTable (pages : List DbaPage) (macro_ : List MacroEntry) : List ValueRefs :=
  (sortBy compareEntries (macro_.filter fun entry => livePart pages entry.pages ≠ [])).map
    fun entry => (entry.value, (livePart pages entry.pages).map fun ip => 20 + 20 * rank pages ip)

theorem valueRefs_fillIn {pages : List DbaPage} (hpos : ∀ page ∈ pages, page.pos = 0)
    {macro_ : List MacroEntry} (hsound : TableSound pages.length macro_) :
    valueRefs (fillIn pages (placedPages 16 (livePages pages))) macro_ =
      liveTable pages macro_ := by
  have hrefs := fun entry hentry => pagePositions_fillIn hpos (hsound.pages entry hentry)
  have hfilter : macro_.filter (fun entry =>
      (pagePositions (fillIn pages (placedPages 16 (livePages pages))) entry).any (· ≠ 0)) =
      macro_.filter fun entry => livePart pages entry.pages ≠ [] := by
    apply List.filter_congr
    intro entry hentry
    rw [Bool.eq_iff_iff, decide_eq_true_eq, List.any_eq_true]
    have hne : livePart pages entry.pages ≠ [] ↔
        (pagePositions (fillIn pages (placedPages 16 (livePages pages))) entry).filter
          (· ≠ 0) ≠ [] := by
      rw [hrefs entry hentry]
      simp
    rw [hne, ne_eq, List.filter_eq_nil_iff]
    simp
  rw [valueRefs, hfilter, liveTable]
  apply List.map_congr_left
  intro entry hentry
  have hmem := (List.mem_filter.mp (mem_sortBy.mp hentry)).1
  rw [hrefs entry hmem]

theorem rank_lt_of_mem {pages : List DbaPage} {ips : List Nat} {ip : Nat}
    (h : ip ∈ livePart pages ips) : rank pages ip < (livePages pages).length := by
  have hlive := (List.mem_filter.mp h).2
  cases hpage : pages[ip]? with
  | none => simp [hpage] at hlive
  | some page => exact rank_lt hpage (by simpa [hpage] using hlive)

/-- What is written of a sound macro table can be read. -/
theorem tableWF_liveTable {pages : List DbaPage} {macro_ : List MacroEntry}
    (hsound : TableSound pages.length macro_) :
    TableWF (livePages pages).length (liveTable pages macro_) where
  values := by
    intro v hv
    obtain ⟨entry, hentry, rfl⟩ := List.mem_map.mp hv
    exact hsound.values entry (List.mem_filter.mp (mem_sortBy.mp hentry)).1
  nodup := by
    have hmap : (liveTable pages macro_).map Prod.fst =
        (sortBy compareEntries (macro_.filter fun entry => livePart pages entry.pages ≠ [])).map
          MacroEntry.value := by
      rw [liveTable, List.map_map]
      rfl
    rw [hmap, ((sortBy_perm compareEntries _).map MacroEntry.value).nodup_iff]
    exact hsound.nodup.sublist (List.filter_sublist.map _)
  refs := by
    intro v hv r hr
    obtain ⟨entry, -, rfl⟩ := List.mem_map.mp hv
    obtain ⟨ip, hip, rfl⟩ := List.mem_map.mp hr
    exact ⟨rank pages ip, rank_lt_of_mem hip, rfl⟩

/-- The macro table that comes out of the file. -/
theorem tableImage_liveTable (pages : List DbaPage) (macro_ : List MacroEntry) :
    tableImage (liveTable pages macro_) =
      (sortBy compareEntries
        (macro_.filter fun entry => livePart pages entry.pages ≠ [])).map fun entry =>
          ⟨entry.value, (livePart pages entry.pages).map (rank pages)⟩ := by
  rw [tableImage, liveTable, List.map_map]
  apply List.map_congr_left
  intro entry _
  simp only [Function.comp_apply, List.map_map]
  congr 1
  apply List.map_congr_left
  intro ip _
  simp only [Function.comp_apply]
  omega

/-! ## §5 Writing the file again -/

@[simp] theorem DbaPage.image_image (page : DbaPage) : page.image.image = page.image := by
  cases harch : page.arch <;> simp [DbaPage.image, harch]

theorem nameBlock_image (page : DbaPage) : nameBlock page.image = nameBlock page := by
  simp [nameBlock, DbaPage.image]

theorem sectBlock_image (page : DbaPage) : sectBlock page.image = sectBlock page := by
  simp [sectBlock, DbaPage.image]

theorem archBlock_image (page : DbaPage) : archBlock page.image = archBlock page := by
  cases harch : page.arch <;> simp [archBlock, DbaPage.image, harch]

theorem descBlock_image (page : DbaPage) : descBlock page.image = descBlock page := rfl

theorem fileBlock_image (page : DbaPage) : fileBlock page.image = fileBlock page := rfl

theorem flatMap_image {block : DbaPage → List UInt8} (h : ∀ page, block page.image = block page)
    (us : List DbaPage) : (us.map DbaPage.image).flatMap block = us.flatMap block := by
  rw [List.flatMap_map]
  apply List.flatMap_congr
  intro u _
  exact h u

theorem startOf_image {block : DbaPage → List UInt8} (h : ∀ page, block page.image = block page)
    (n : Nat) (us : List DbaPage) (k : Nat) :
    startOf block n (us.map DbaPage.image) k = startOf block n us k := by
  rw [startOf, ← List.map_take, flatMap_image h, startOf]

/-- The records by the places of the pages. -/
theorem records_eq (n : Nat) (us : List DbaPage) :
    (mappedPages n us).flatMap (fun page => recordBytes page.em) =
      (us.mapIdx (pageMap n us)).flatMap recordBytes := by
  have hmap : us.mapIdx (pageMap n us) = (mappedPages n us).map DbaPage.em := by
    apply List.ext_getElem?
    intro k
    simp only [mappedPages, List.getElem?_mapIdx, List.getElem?_map, Option.map_map]
    rfl
  rw [hmap, List.flatMap_map]

/-- The pages table is the same for the pages that have been read. -/
theorem pagesBytes_image (n : Nat) (us : List DbaPage) :
    pagesBytes n (us.map DbaPage.image) = pagesBytes n us := by
  have hnames := flatMap_image nameBlock_image us
  have hsects := flatMap_image sectBlock_image us
  have harchs := flatMap_image archBlock_image us
  have hdescs := flatMap_image descBlock_image us
  have hfiles := flatMap_image fileBlock_image us
  -- The strings have the same lengths, so every block starts at the same place.
  have h0 : namesStart n (us.map DbaPage.image) = namesStart n us := by
    rw [namesStart, List.length_map, namesStart]
  have h1 : sectsStart n (us.map DbaPage.image) = sectsStart n us := by
    rw [sectsStart, h0, hnames, sectsStart]
  have h2 : archsStart n (us.map DbaPage.image) = archsStart n us := by
    rw [archsStart, h1, hsects, archsStart]
  have h3 : descsStart n (us.map DbaPage.image) = descsStart n us := by
    rw [descsStart, h2, harchs, descsStart]
  have h4 : filesStart n (us.map DbaPage.image) = filesStart n us := by
    rw [filesStart, h3, hdescs, filesStart]
  have h5 : filesEnd n (us.map DbaPage.image) = filesEnd n us := by
    rw [filesEnd, h4, hfiles, filesEnd]
  -- The records of the pages are the same, too.
  have hmap : ∀ k u, pageMap n (us.map DbaPage.image) k u.image = pageMap n us k u := by
    intro k u
    have hsome : u.image.arch.isSome = u.arch.isSome := by simp [DbaPage.image]
    simp only [pageMap, h0, h1, h2, h3, h4, startOf_image nameBlock_image,
      startOf_image sectBlock_image, startOf_image archBlock_image,
      startOf_image descBlock_image, startOf_image fileBlock_image, hsome]
  have hmaps : (us.map DbaPage.image).mapIdx (pageMap n (us.map DbaPage.image)) =
      us.mapIdx (pageMap n us) := by
    apply List.ext_getElem?
    intro k
    simp only [List.getElem?_mapIdx, List.getElem?_map, Option.map_map]
    congr 1
    funext u
    exact hmap k u
  have hrecords : (mappedPages n (us.map DbaPage.image)).flatMap
        (fun page => recordBytes page.em) =
      (mappedPages n us).flatMap fun page => recordBytes page.em := by
    rw [records_eq, records_eq, hmaps]
  rw [pagesBytes, pagesBytes, hrecords, stringBytes, stringBytes, hnames, hsects, harchs, hdescs,
    hfiles, h5, List.length_map]

theorem livePages_image (us : List DbaPage) :
    livePages (us.map DbaPage.image) = us.map DbaPage.image := by
  rw [livePages, List.filter_eq_self]
  intro page hpage
  obtain ⟨u, -, rfl⟩ := List.mem_map.mp hpage
  rfl

theorem rank_image {us : List DbaPage} {k : Nat} (hk : k ≤ us.length) :
    rank (us.map DbaPage.image) k = k := by
  rw [rank, ← List.map_take, livePages_image, List.length_map, List.length_take,
    Nat.min_eq_left hk]

theorem livePart_image {us : List DbaPage} {ips : List Nat} (hips : ∀ ip ∈ ips, ip < us.length) :
    livePart (us.map DbaPage.image) ips = ips := by
  rw [livePart, List.filter_eq_self]
  intro ip hip
  simp [List.getElem?_eq_getElem (hips ip hip), DbaPage.image]

/-- A macro table that has been read is written as it was. -/
theorem liveTable_tableImage {us : List DbaPage} {vs : List ValueRefs}
    (hwf : TableWF us.length vs) (hne : ∀ v ∈ vs, v.2 ≠ [])
    (hsorted : (tableImage vs).Pairwise fun e f => (compareEntries e f).isLE) :
    liveTable (us.map DbaPage.image) (tableImage vs) = vs := by
  have hips : ∀ v ∈ vs, ∀ ip ∈ v.2.map fun r => r / 20 - 1, ip < us.length := by
    intro v hv ip hip
    obtain ⟨r, hr, rfl⟩ := List.mem_map.mp hip
    obtain ⟨k, hk, rfl⟩ := hwf.refs v hv r hr
    omega
  have hpart : ∀ v ∈ vs, livePart (us.map DbaPage.image) (v.2.map fun r => r / 20 - 1) =
      v.2.map fun r => r / 20 - 1 := fun v hv => livePart_image (hips v hv)
  have hall : (tableImage vs).filter
      (fun entry => livePart (us.map DbaPage.image) entry.pages ≠ []) = tableImage vs := by
    rw [List.filter_eq_self]
    intro entry hentry
    obtain ⟨v, hv, rfl⟩ := List.mem_map.mp hentry
    simp [hpart v hv, hne v hv]
  rw [liveTable, hall, sortBy_of_pairwise hsorted, tableImage, List.map_map]
  conv_rhs => rw [← List.map_id vs]
  apply List.map_congr_left
  intro v hv
  have hrefs : v.2.map ((fun ip => 20 + 20 * rank (us.map DbaPage.image) ip) ∘
      fun r => r / 20 - 1) = v.2.map id := by
    apply List.map_congr_left
    intro r hr
    obtain ⟨k, hk, rfl⟩ := hwf.refs v hv r hr
    have hnum : (20 + 20 * k) / 20 - 1 = k := by omega
    simp only [Function.comp_apply, hnum, rank_image (Nat.le_of_lt hk), id]
  simp only [Function.comp_apply, hpart v hv, List.map_map, hrefs, List.map_id, id]

theorem refs_ne_nil {pages : List DbaPage} {macro_ : List MacroEntry} :
    ∀ v ∈ liveTable pages macro_, v.2 ≠ [] := by
  intro v hv
  obtain ⟨entry, hentry, rfl⟩ := List.mem_map.mp hv
  have hne := (List.mem_filter.mp (mem_sortBy.mp hentry)).2
  simpa using hne

theorem sorted_tableImage (pages : List DbaPage) (macro_ : List MacroEntry) :
    (tableImage (liveTable pages macro_)).Pairwise fun e f => (compareEntries e f).isLE := by
  rw [tableImage_liveTable, List.pairwise_map]
  exact sortBy_pairwise compareEntries _

/-! ## §6 The round trip -/

/-- The contents of a database file for the database. -/
def Dba.fileOf (db : Dba) : List UInt8 :=
  fileBytes (livePages db.pages) (db.macros.map (liveTable db.pages))

/-- The database that is read from the file. -/
def Dba.readBack (db : Dba) : Dba where
  pages := (livePages db.pages).map DbaPage.image
  macros := db.macros.map fun macro_ => tableImage (liveTable db.pages macro_)

/-- The database after it has been written: the lists are sorted, and the pages have positions. -/
def Dba.written (db : Dba) : Dba :=
  { db with pages := fillIn db.pages (placedPages 16 (livePages db.pages)) }

theorem length_fileOf (db : Dba) :
    db.fileOf.length =
      (tablesBytes (livePages db.pages) (db.macros.map (liveTable db.pages))).length + 4 := by
  rw [Dba.fileOf, length_fileBytes, length_tablesBytes]

/-- `dba_write` writes this file and nothing else, or the file is too large. -/
theorem Dba.Sound.dbaWrite_cases {db : Dba} (h : db.Sound) :
    dbaWrite db = .ok (db.fileOf, db.written) ∨
      (∃ e, dbaWrite db = .error e) ∧ INT32_MAX + 4 ≤ db.fileOf.length := by
  have htables : db.macros.map
      (valueRefs (fillIn db.pages (placedPages 16 (livePages db.pages)))) =
      db.macros.map (liveTable db.pages) := by
    apply List.map_congr_left
    intro macro_ hmac
    exact valueRefs_fillIn (fun page hpage => (h.pages page hpage).pos) (h.tables macro_ hmac)
  have hbody : dbaWrite db = (dbaWriteBody db ⟨[], 0⟩ >>= fun p => .ok (p.2.data, p.1)) := rfl
  rw [hbody, length_fileOf]
  rcases dbaWriteBody_cases rfl htables with hok | ⟨⟨e, he⟩, hlimit⟩
  · rw [hok]
    exact .inl rfl
  · rw [he]
    exact .inr ⟨⟨e, rfl⟩, Nat.add_le_add_right hlimit 4⟩

theorem Dba.Sound.dbaWrite_eq {db : Dba} (h : db.Sound)
    (hsize : db.fileOf.length < INT32_MAX + 4) : dbaWrite db = .ok (db.fileOf, db.written) := by
  rcases h.dbaWrite_cases with hok | ⟨-, hlarge⟩
  · exact hok
  · exact absurd hlarge (Nat.not_le_of_lt hsize)

/-- `dba_read` reads the file. -/
theorem Dba.Sound.dbaRead_eq {db : Dba} (h : db.Sound)
    (hnames : ∀ page ∈ livePages db.pages, page.name.Nodup)
    (hsize : db.fileOf.length ≤ INT32_MAX) :
    dbaRead db.fileOf = .ok (some db.readBack) := by
  have hpages : ∀ u ∈ livePages db.pages, u.WF :=
    fun u hu => ⟨(h.pages u (List.mem_filter.mp hu).1).toProper, hnames u hu⟩
  have htables : ∀ vs ∈ db.macros.map (liveTable db.pages),
      TableWF (livePages db.pages).length vs := by
    intro vs hvs
    obtain ⟨macro_, hmac, rfl⟩ := List.mem_map.mp hvs
    exact tableWF_liveTable (h.tables macro_ hmac)
  have hread := dbaRead_fileBytes hsize hpages (by rw [List.length_map]; exact h.macros) htables
  rw [List.map_map] at hread
  exact hread

/-- A page that has been read is sound. -/
theorem DbaPage.Sound.image {page : DbaPage} (h : page.Sound) : page.image.Sound where
  name := h.name.sortBy compareNames
  sect := h.sect.sortBy compareStrings
  sect_nodup := h.toProper.nodup_sect
  arch := by
    intro l hl
    rcases image_arch_cases h.toProper with hnone | ⟨c, a, as, hsome, hproper, hnodup⟩
    · rw [hnone] at hl
      cases hl
    · rw [hsome] at hl
      obtain rfl := Option.some.inj hl
      exact ⟨by simp, hproper, hnodup⟩
  desc := h.desc
  file := h.file
  file_ne_nil := h.file_ne_nil
  file_fresh := h.file_fresh
  pos := rfl

/-- What has been read is sound. -/
theorem Dba.Sound.readBack {db : Dba} (h : db.Sound) : db.readBack.Sound where
  pages := by
    intro page hpage
    obtain ⟨u, hu, rfl⟩ := List.mem_map.mp hpage
    exact (h.pages u (List.mem_filter.mp hu).1).image
  macros := by
    rw [Dba.readBack, List.length_map]
    exact h.macros
  tables := by
    intro table htable
    obtain ⟨macro_, hmac, rfl⟩ := List.mem_map.mp htable
    have hwf := tableWF_liveTable (h.tables macro_ hmac)
    refine ⟨?_, ?_, ?_⟩
    · intro entry hentry
      obtain ⟨v, hv, rfl⟩ := List.mem_map.mp hentry
      exact hwf.values v hv
    · rw [tableImage, List.map_map]
      exact hwf.nodup
    · intro entry hentry ip hip
      obtain ⟨v, hv, rfl⟩ := List.mem_map.mp hentry
      obtain ⟨r, hr, rfl⟩ := List.mem_map.mp hip
      obtain ⟨k, hk, rfl⟩ := hwf.refs v hv r hr
      have hnum : (20 + 20 * k) / 20 - 1 = k := by omega
      rw [hnum, Dba.readBack, List.length_map]
      exact hk

/-- The file for what has been read is the same file. -/
theorem Dba.Sound.fileOf_readBack {db : Dba} (h : db.Sound) :
    db.readBack.fileOf = db.fileOf := by
  have htables : (db.macros.map fun macro_ => tableImage (liveTable db.pages macro_)).map
      (liveTable ((livePages db.pages).map DbaPage.image)) =
      db.macros.map (liveTable db.pages) := by
    rw [List.map_map]
    apply List.map_congr_left
    intro macro_ hmac
    exact liveTable_tableImage (tableWF_liveTable (h.tables macro_ hmac)) refs_ne_nil
      (sorted_tableImage db.pages macro_)
  simp only [Dba.fileOf, Dba.readBack, livePages_image, htables]
  simp only [fileBytes, pagesBytes_image]

/-! ## §7 What the macro tables say -/

/-- The pages listed for a macro value, if the macro table has an entry for it. -/
def Dba.macroPages (db : Dba) (im : Nat) (value : Str) : Option (List Nat) :=
  ((db.macros.getD im []).find? fun entry => entry.value = value).map MacroEntry.pages

/-- The entry for a value is the only one with that value. -/
theorem find?_value_eq_some {l : List MacroEntry} (h : (l.map MacroEntry.value).Nodup)
    {value : Str} {entry : MacroEntry} :
    l.find? (fun entry => entry.value = value) = some entry ↔
      entry ∈ l ∧ entry.value = value := by
  constructor
  · intro hfind
    exact ⟨List.mem_of_find?_eq_some hfind, by simpa using List.find?_some hfind⟩
  · rintro ⟨hmem, hvalue⟩
    cases hfind : l.find? (fun entry => entry.value = value) with
    | none =>
      have hne := List.find?_eq_none.mp hfind entry hmem
      simp [hvalue] at hne
    | some other =>
      have hother : other.value = value := by simpa using List.find?_some hfind
      have heq : other = entry :=
        List.inj_on_of_nodup_map h (List.mem_of_find?_eq_some hfind) hmem
          (hother.trans hvalue.symm)
      rw [heq]

/-- Every macro value keeps the pages that have not been deleted, and disappears when there are
    none. -/
theorem Dba.Sound.macroPages_readBack {db : Dba} (h : db.Sound) (im : Nat) (value : Str) :
    db.readBack.macroPages im value =
      ((db.macroPages im value).map fun ips =>
        (livePart db.pages ips).map (rank db.pages)).filter (· ≠ []) := by
  have hgetD : db.readBack.macros.getD im [] =
      tableImage (liveTable db.pages (db.macros.getD im [])) := by
    simp only [Dba.readBack, List.getD_eq_getElem?_getD, List.getElem?_map]
    cases db.macros[im]? <;> rfl
  have hsound : TableSound db.pages.length (db.macros.getD im []) := by
    rw [List.getD_eq_getElem?_getD]
    cases him : db.macros[im]? with
    | none => exact ⟨by simp, by simp, by simp⟩
    | some macro_ => exact h.tables macro_ (List.mem_of_getElem? him)
  -- The table of macro values that was read back and the table before differ in the dead pages
  -- only.
  rw [Dba.macroPages, Dba.macroPages, hgetD]
  generalize db.macros.getD im [] = macro_ at hsound ⊢
  have hnodup : ((tableImage (liveTable db.pages macro_)).map MacroEntry.value).Nodup := by
    rw [tableImage, List.map_map]
    exact (tableWF_liveTable hsound).nodup
  have hmem : ∀ entry, entry ∈ tableImage (liveTable db.pages macro_) ↔
      ∃ old ∈ macro_, livePart db.pages old.pages ≠ [] ∧
        ⟨old.value, (livePart db.pages old.pages).map (rank db.pages)⟩ = entry := by
    intro entry
    rw [tableImage_liveTable]
    simp only [List.mem_map, mem_sortBy, List.mem_filter, decide_eq_true_eq, and_assoc]
  cases hold : macro_.find? (fun entry => entry.value = value) with
  | none =>
    -- A value that was not stored is not read back.
    have hnone : (tableImage (liveTable db.pages macro_)).find?
        (fun entry => entry.value = value) = none := by
      rw [List.find?_eq_none] at hold ⊢
      intro entry hentry
      obtain ⟨old, holdmem, -, rfl⟩ := (hmem entry).mp hentry
      exact hold old holdmem
    rw [hnone]
    rfl
  | some old =>
    obtain ⟨holdmem, hvalue⟩ := (find?_value_eq_some hsound.nodup).mp hold
    cases decEq (livePart db.pages old.pages) [] with
    | isTrue hnil =>
      -- A value of dead pages is not written, and no other entry has this value.
      have hnone : (tableImage (liveTable db.pages macro_)).find?
          (fun entry => entry.value = value) = none := by
        rw [List.find?_eq_none]
        intro entry hentry
        obtain ⟨other, hother, hne, rfl⟩ := (hmem entry).mp hentry
        intro heq
        have hsame : other = old := List.inj_on_of_nodup_map hsound.nodup hother holdmem
          ((by simpa using heq : other.value = value).trans hvalue.symm)
        exact hne (hsame ▸ hnil)
      rw [hnone]
      simp [hnil, Option.filter]
    | isFalse hne =>
      -- Otherwise, the entry read back is the only one with this value.
      have hfind := (find?_value_eq_some hnodup).mpr
        ⟨(hmem _).mpr ⟨old, holdmem, hne, rfl⟩, hvalue⟩
      rw [hfind]
      simp [hne, Option.filter]

/-! ## §8 Writing, reading, and writing again -/

/-- The five lists of a page. -/
def DbaPage.contents (page : DbaPage) :
    List Str × List Str × Option (List Str) × Str × List Str :=
  (page.name, page.sect, page.arch, page.desc, page.file)

/-- **Round trip.**  For a database that has been built, `dba_write` creates the file `fileOf`.
    If that file is not larger than `INT32_MAX` bytes and no page has the same name with the same
    mask twice, `dba_read` can read it, and what has been read is written to the same file.  The
    pages that have not been deleted keep their contents, in the order into which `dba_write`
    sorts the lists; every macro value keeps its pages that have not been deleted, and disappears
    when there are none; and all pages listed for the macro values are in the file. -/
theorem dbaWrite_dbaRead_dbaWrite {db : Dba} (built : db.Built)
    (hnames : ∀ page ∈ livePages db.pages, page.name.Nodup)
    (hsize : db.fileOf.length ≤ INT32_MAX) :
    ∃ db₁ db₂ db₃, dbaWrite db = .ok (db.fileOf, db₁) ∧
      dbaRead db.fileOf = .ok (some db₂) ∧
      dbaWrite db₂ = .ok (db.fileOf, db₃) ∧
      db₂.pages.map DbaPage.contents = (livePages db₁.pages).map DbaPage.contents ∧
      (livePages db₁.pages).map DbaPage.contents =
        (livePages db.pages).map (fun page => page.sorted.contents) ∧
      (∀ im value, db₂.macroPages im value =
        ((db.macroPages im value).map fun ips =>
          (livePart db.pages ips).map (rank db.pages)).filter (· ≠ [])) ∧
      ∀ macro_ ∈ db₂.macros, ∀ entry ∈ macro_, ∀ ip ∈ entry.pages, ip < db₂.pages.length := by
  have h := built.sound
  have hlt : db.fileOf.length < INT32_MAX + 4 := by omega
  -- What was read back can be written again, and gives the same bytes.
  have hagain : dbaWrite db.readBack = .ok (db.fileOf, db.readBack.written) := by
    rw [← h.fileOf_readBack] at hlt ⊢
    exact h.readBack.dbaWrite_eq hlt
  -- Writing stores positions in the pages, and sorts their lists.
  have hplaced : livePages db.written.pages = placedPages 16 (livePages db.pages) := by
    apply livePages_fillIn (by simp [placedPages])
    intro u hu
    obtain ⟨k, hk, rfl⟩ := List.mem_mapIdx.mp hu
    simpa [DbaPage.sorted] using
      (List.mem_filter.mp (List.getElem_mem hk : (livePages db.pages)[k] ∈ _)).2
  have hsorted : (placedPages 16 (livePages db.pages)).map DbaPage.contents =
      (livePages db.pages).map (fun page => page.sorted.contents) := by
    apply List.ext_getElem?
    intro k
    simp only [placedPages, List.getElem?_map, List.getElem?_mapIdx, Option.map_map]
    rfl
  -- Reading back gives the sorted lists.
  have hread : db.readBack.pages.map DbaPage.contents =
      (livePages db.pages).map (fun page => page.sorted.contents) := by
    rw [Dba.readBack, List.map_map]
    rfl
  refine ⟨db.written, db.readBack, db.readBack.written, h.dbaWrite_eq hlt,
    h.dbaRead_eq hnames hsize, hagain, ?_, ?_, h.macroPages_readBack, ?_⟩
  · rw [hplaced, hsorted, hread]
  · rw [hplaced, hsorted]
  · exact fun macro_ hmac => (h.readBack.tables macro_ hmac).pages

/-- A page with two names, and another page that has been deleted.  A macro value is in both. -/
def sampleDba : Dba where
  pages := [
    { name := [[4, 0x62], [4, 0x61]], sect := [], arch := none, desc := [0x64],
      file := [[1, 0x66]] },
    { name := [], sect := [], arch := none, desc := [0x65], file := [[1, 0x67]],
      deleted := true }]
  macros := [⟨[0x76], [1, 0]⟩] :: List.replicate 35 []

/-- The calls that build it. -/
theorem sampleDba_built : sampleDba.Built := by
  have h1 := @Dba.Built.pageNew _ none [0x64] [0x66] .src .new (by simp) (by decide) (by decide)
  have h2 := @Dba.Built.pageNew _ none [0x65] [0x67] .src h1 (by simp) (by decide) (by decide)
  have h3 := @Dba.Built.pageAlias _ 0 _ [0x62] 4 h2 rfl (by decide) (by decide)
  have h4 := @Dba.Built.pageAlias _ 0 _ [0x61] 4 h3 rfl (by decide) (by decide)
  have h5 := @Dba.Built.macroAdd _ 0 1 [0x76] h4 (by decide) (by decide) (by decide)
  have h6 := @Dba.Built.macroAdd _ 0 0 [0x76] h5 (by decide) (by decide) (by decide)
  have h7 := h6.pageDel 1
  exact h7

theorem dbaWrite_dbaRead_dbaWrite_sample :
    (∀ page ∈ livePages sampleDba.pages, page.name.Nodup) ∧
      sampleDba.fileOf.length ≤ INT32_MAX ∧
      ∃ db₁ db₂ db₃, dbaWrite sampleDba = .ok (sampleDba.fileOf, db₁) ∧
        dbaRead sampleDba.fileOf = .ok (some db₂) ∧
        dbaWrite db₂ = .ok (sampleDba.fileOf, db₃) := by
  have hnames : ∀ page ∈ livePages sampleDba.pages, page.name.Nodup := by decide +kernel
  have hsize : sampleDba.fileOf.length ≤ INT32_MAX := by decide +kernel
  obtain ⟨db₁, db₂, db₃, hwrite, hread, hagain, -⟩ :=
    dbaWrite_dbaRead_dbaWrite sampleDba_built hnames hsize
  exact ⟨hnames, hsize, db₁, db₂, db₃, hwrite, hread, hagain⟩

/-- A page that has the same name twice, because another mask was added to the first one. -/
def twiceDba : Dba where
  pages := [
    { name := [[3, 0x78], [3, 0x78]], sect := [], arch := none, desc := [0x64],
      file := [[1, 0x66]] }]
  macros := List.replicate 36 []

theorem twiceDba_built : twiceDba.Built := by
  have h1 := @Dba.Built.pageNew _ none [0x64] [0x66] .src .new (by simp) (by decide) (by decide)
  have h2 := @Dba.Built.pageAdd _ 0 _ _ .name (some [1, 0x78]) h1 rfl (by decide) rfl
  have h3 := @Dba.Built.pageAdd _ 0 _ _ .name (some [3, 0x78]) h2 rfl (by decide) rfl
  have h4 := @Dba.Built.pageAlias _ 0 _ [0x78] 2 h3 rfl (by decide) (by decide)
  exact h4

/-- The same page with the name once. -/
def onceDba : Dba where
  pages := [
    { name := [[3, 0x78]], sect := [], arch := none, desc := [0x64], file := [[1, 0x66]] }]
  macros := List.replicate 36 []

theorem onceDba_built : onceDba.Built := by
  have h1 := @Dba.Built.pageNew _ none [0x64] [0x66] .src .new (by simp) (by decide) (by decide)
  have h2 := @Dba.Built.pageAlias _ 0 _ [0x78] 3 h1 rfl (by decide) (by decide)
  exact h2

/-- A page with a long description. -/
def longDba (n : Nat) : Dba where
  pages := [
    { name := [], sect := [], arch := none, desc := List.replicate n 0x64,
      file := [[1, 0x66]] }]
  macros := List.replicate 36 []

theorem longDba_built (n : Nat) : (longDba n).Built := by
  have hdesc : NulFree (List.replicate n 0x64) := fun hmem =>
    absurd (List.eq_of_mem_replicate hmem) (by decide)
  exact @Dba.Built.pageNew _ none (List.replicate n 0x64) [0x66] .src .new (by simp) hdesc
    (by decide)

/-- Empty macro tables only have their numbers of values. -/
theorem length_placeAll_nil (m : Nat) {n : Nat} (hn : n % 4 = 0) :
    (placeAll macroBytes n (List.replicate m [])).length = 4 * m := by
  induction m generalizing n with
  | zero => rfl
  | succ m ih =>
    have hpad : padding (n + 4) = 0 := by
      unfold padding
      omega
    have hfirst : (macroBytes n []).length = 4 := by
      simp [macroBytes, valuesEnd, valuesStart, valuePositions, refsPositions, hpad,
        length_be32]
    rw [List.replicate_succ, placeAll, List.length_append, hfirst, ih (by omega)]
    omega

/-- The size of its file. -/
theorem length_fileOf_longDba (k : Nat) : (longDba (4 * k + 1)).fileOf.length = 4 * k + 344 := by
  have hlive : livePages (longDba (4 * k + 1)).pages = (longDba (4 * k + 1)).pages := rfl
  have htables : (longDba (4 * k + 1)).macros.map (liveTable (longDba (4 * k + 1)).pages) =
      List.replicate 36 [] := rfl
  have hpages : (pagesBytes 16 (longDba (4 * k + 1)).pages).length = 4 * k + 32 := by
    have hend : filesEnd 16 (longDba (4 * k + 1)).pages = 4 * k + 48 := by
      simp [filesEnd, filesStart, descsStart, archsStart, sectsStart, namesStart, longDba,
        nameBlock, sectBlock, archBlock, descBlock, fileBlock, lstBytes, strBytes, sortBy]
      omega
    have hlen := length_pagesBytes 16 (longDba (4 * k + 1)).pages
    have hpad : padding (4 * k + 48) = 0 := by
      unfold padding
      omega
    rw [hend, hpad] at hlen
    omega
  have hmacs : (macrosBytes (16 + (4 * k + 32)) (List.replicate 36 [])).length = 292 := by
    rw [macrosBytes, List.length_append, List.length_append, length_flatMap_be32,
      length_placesOf, length_placeAll_nil 36 (by simp only [List.length_replicate]; omega),
      List.length_replicate, length_be32]
  rw [Dba.fileOf, hlive, htables, length_fileBytes, hpages, hmacs]
  omega

/-- A file that is too large is not opened. -/
theorem dbmOpen_of_large {file : List UInt8} (h : INT32_MAX < file.length) :
    dbmOpen file = .ok none := by
  have hshort : ¬ file.length < 5 := by
    simp only [INT32_MAX] at h
    omega
  have hmap : dbmMap file = .ok none := by
    simp only [dbmMap, if_neg hshort, if_pos h]
    rfl
  rw [dbmOpen, hmap]
  rfl

/-- What the round trip does not keep.  The names of a page come back in the order into which
    they have been sorted.  A name that a page has twice with the same mask comes back once.
    And a file of `INT32_MAX + 1` bytes can be written but not read. -/
theorem dbaWrite_dbaRead_dbaWrite_fails :
    (∃ db₁ db₂, dbaWrite sampleDba = .ok (sampleDba.fileOf, db₁) ∧
      dbaRead sampleDba.fileOf = .ok (some db₂) ∧
      db₂.pages.map DbaPage.name ≠ (livePages sampleDba.pages).map DbaPage.name) ∧
    (∃ file db₁ db₂ file' db₃, dbaWrite twiceDba = .ok (file, db₁) ∧
      dbaRead file = .ok (some db₂) ∧ dbaWrite db₂ = .ok (file', db₃) ∧ file' ≠ file) ∧
    ∃ file db₁, dbaWrite (longDba 2147483305) = .ok (file, db₁) ∧ dbaRead file = .ok none := by
  refine ⟨?_, ?_, ?_⟩
  · exact ⟨_, _, sampleDba_built.sound.dbaWrite_eq (by decide +kernel),
      sampleDba_built.sound.dbaRead_eq (by decide +kernel) (by decide +kernel), by decide +kernel⟩
  · exact ⟨_, _, onceDba, _, _, twiceDba_built.sound.dbaWrite_eq (by decide +kernel),
      by decide +kernel, onceDba_built.sound.dbaWrite_eq (by decide +kernel), by decide +kernel⟩
  · have hlen := length_fileOf_longDba 536870826
    exact ⟨_, _, (longDba_built _).sound.dbaWrite_eq (by rw [hlen]; decide),
      by rw [dbaRead, dbmOpen_of_large (by rw [hlen]; decide)]; rfl⟩

end Mandoc
