import Mandoc.Search.Dba

/-!
# The File Names of a Page

The list of the file names of a page contains a byte for the format in front of the first name. The
functions that look for a name in the list skip the first byte of each entry if it is less than a
blank, whatever the place of the entry. That affects all names that begin with a control character
or, where `char` is signed, with a byte that is not ASCII.

- `runFileCalls` is a sequence of calls of `dba_page_new()` and of `dba_page_add()` for file names,
  and `dbprune` is the function of `mandocdb.c`.
- `asked` says which names the calls are about, page by page; `runFileCalls_eq` connects the two.
- `exactNames_iff` says when a list contains the names, and `prunes_iff` when a page is deleted for
  one of them.
- `fileNames_exact_iff` puts them together for all sequences of calls.
-/

namespace Mandoc

/-! ## §1 Calls -/

/-- A call of `dba_page_new()`, or a call of `dba_page_add()` for a file name. -/
inductive FileCall where
  | new (arch : Option Str) (desc file : Str) (form : Form)
  | add (ip : Nat) (str : Str)
deriving DecidableEq, Repr

/-- Execute a sequence of calls. -/
def runFileCalls (pages : List DbaPage) : List FileCall → Res (List DbaPage)
  | [] => .ok pages
  | .new arch desc file form :: calls =>
    runFileCalls (dbaPageNew pages arch desc file form.byte) calls
  | .add ip str :: calls =>
    match pages[ip]? with
    | none => .error .null
    | some page => do
      let page ← dbaPageAdd page .file (some str)
      runFileCalls (pages.set ip page) calls

/-- `dbprune()`: delete the pages that have one of the current file names. -/
def dbprune (mlinks : Str → Bool) (pages : List DbaPage) : List DbaPage :=
  pages.map fun page =>
    if page.deleted = false ∧ page.file.any fun file => mlinks (comparedPart .file file) then
      { page with deleted := true }
    else page

/-- The names that the calls are about: the first one, and the added ones in their order. -/
structure FileNames where
  form : Form
  first : Str
  added : List Str
deriving DecidableEq, Repr

/-- The names that were asked for, for each page. -/
def asked (acc : List FileNames) : List FileCall → List FileNames
  | [] => acc
  | .new _ _ file form :: calls => asked (acc ++ [⟨form, file, []⟩]) calls
  | .add ip str :: calls =>
    asked (acc.modify ip fun names => { names with added := names.added ++ [str] }) calls

/-- The name belongs to a page that exists, and all names can be represented. -/
def FileCall.Valid (npages : Nat) : FileCall → Prop
  | .new _ _ file _ => file ≠ [] ∧ NulFree file
  | .add ip str => ip < npages ∧ str ≠ [] ∧ NulFree str

/-- All calls are valid. -/
def ValidCalls (npages : Nat) : List FileCall → Prop
  | [] => True
  | call :: calls =>
    call.Valid npages ∧
      ValidCalls (match call with | .new .. => npages + 1 | .add .. => npages) calls

/-! ## §2 The list of one page -/

/-- The name begins with a byte that is mistaken for the one in front of the first name. -/
def IsPrefixed (name : Str) : Prop := charValue (name.headD 0) < 0x20

instance (name : Str) : Decidable (IsPrefixed name) :=
  inferInstanceAs (Decidable (charValue (name.headD 0) < 0x20))

/-- The list that the calls make of the names. -/
def FileNames.list (names : FileNames) : List Str :=
  names.added.foldl (addString .file) [prepend names.first names.form.byte]

theorem FileNames.list_add (names : FileNames) (str : Str) :
    FileNames.list { names with added := names.added ++ [str] } =
      addString .file names.list str := by
  unfold FileNames.list
  rw [List.foldl_append]
  rfl

/-- The calls build the list of each page from the names that were asked for. -/
theorem runFileCalls_eq {calls : List FileCall} {pages : List DbaPage} {acc : List FileNames}
    (hvalid : ValidCalls pages.length calls) (hpages : pages.map DbaPage.file = acc.map FileNames.list)
    (hlive : ∀ page ∈ pages, page.deleted = false) :
    ∃ pages', runFileCalls pages calls = .ok pages' ∧
      pages'.map DbaPage.file = (asked acc calls).map FileNames.list ∧
      ∀ page ∈ pages', page.deleted = false := by
  induction calls generalizing pages acc with
  | nil => exact ⟨pages, rfl, hpages, hlive⟩
  | cons call calls ih =>
    cases call with
    -- A new page has the first name of its file.
    | new arch desc file form =>
      obtain ⟨page, hnew, hfile, hdeleted⟩ : ∃ page, dbaPageNew pages arch desc file form.byte =
          pages ++ [page] ∧ page.file = [prepend file form.byte] ∧ page.deleted = false :=
        ⟨_, rfl, rfl, rfl⟩
      unfold runFileCalls asked
      rw [hnew]
      refine ih ?_ ?_ ?_
      · rw [List.length_append]
        exact hvalid.2
      · rw [List.map_append, hpages, List.map_append, List.map_singleton, hfile]
        rfl
      · intro page' hpage
        obtain h | h := List.mem_append.mp hpage
        · exact hlive page' h
        · rw [List.mem_singleton.mp h, hdeleted]
    -- A name is added to the page, and the other pages are kept.
    | add ip str =>
      obtain ⟨⟨hip, -⟩, hrest⟩ := hvalid
      unfold runFileCalls asked
      rw [List.getElem?_eq_getElem hip]
      refine ih ?_ ?_ ?_
      · rw [List.length_set]
        exact hrest
      · refine List.ext_getElem? fun k => ?_
        have hk := congrArg (fun l => l[k]?) hpages
        rw [List.getElem?_map, List.getElem?_map] at hk
        rw [List.getElem?_map, List.getElem?_map, List.getElem?_set]
        by_cases heq : ip = k
        · subst heq
          rw [List.getElem?_eq_getElem hip, Option.map_some] at hk
          obtain ⟨names, hnames, hlist⟩ := Option.map_eq_some_iff.mp hk.symm
          rw [if_pos rfl, if_pos hip, List.getElem?_modify_eq, hnames, Option.map_some,
            Option.map_eq_map, Option.map_some, Option.map_some, FileNames.list_add, hlist]
        · rw [if_neg heq, hk, List.getElem?_modify_ne _ _ heq]
      · intro page hpage
        obtain h | rfl := List.mem_or_eq_of_mem_set hpage
        · exact hlive page h
        · exact hlive pages[ip] (List.getElem_mem hip)

/-! ## §3 The names in the list -/

/-- What is compared with a name that is looked for. -/
def compared (name : Str) : Str := if IsPrefixed name then name.tail else name

/-- The list behind the first name. -/
def addName (first : Str) (rest : List Str) (str : Str) : List Str :=
  if str = first ∨ ∃ name ∈ rest, compared name = str then rest else rest ++ [str]

/-- The list contains every name, apart from the first one, exactly once. -/
structure ExactNames (first : Str) (added rest : List Str) : Prop where
  nodup : rest.Nodup
  mem_iff : ∀ name, name ∈ rest ↔ name ∈ added ∧ name ≠ first

/-- A name is recognized if and only if it was given before: a new name is not the end of a name
    before it that seems to be prefixed, and a name that seems to be prefixed is not given again,
    except where it happens to be the end of another such name. -/
structure Recognizable (first : Str) (before : List Str) (name : Str) : Prop where
  new : name ≠ first → name ∉ before →
    ∀ other ∈ before, other ≠ first → IsPrefixed other → other.tail ≠ name
  again : name ≠ first → name ∈ before → IsPrefixed name →
    ∃ other ∈ before, other ≠ first ∧ IsPrefixed other ∧ other.tail = name

section

variable {first name : Str} {before rest : List Str}

theorem form_byte_lt (form : Form) : charValue form.byte < 0x20 := by
  cases form <;> decide

theorem form_byte_ne (form : Form) : form.byte ≠ 0 := by
  cases form <;> decide

theorem comparedPart_eq (name : Str) : comparedPart .file name = compared name := by
  unfold comparedPart compared
  by_cases h : IsPrefixed name
  · rw [if_pos h, if_pos ⟨rfl, h⟩]
  · rw [if_neg h, if_neg fun h' => h h'.2]

theorem compared_first (form : Form) : compared (form.byte :: first) = first :=
  if_pos (form_byte_lt form)

theorem addString_cons (form : Form) {str : Str} (hne : str ≠ []) :
    addString .file ((form.byte :: first) :: rest) str =
      (form.byte :: first) :: addName first rest str := by
  have hiff : (((form.byte :: first) :: rest).any fun entry =>
      strcmp (comparedPart .file entry) str = .eq) = true ↔
        str = first ∨ ∃ name ∈ rest, compared name = str := by
    simp only [List.any_eq_true, decide_eq_true_eq, strcmp_eq_iff, List.exists_mem_cons_iff,
      comparedPart_eq, compared_first]
    rw [eq_comm]
  unfold addString addName
  rw [if_neg hne]
  by_cases h : str = first ∨ ∃ name ∈ rest, compared name = str
  · rw [if_pos h, if_pos (hiff.mpr h)]
  · rw [if_neg h, if_neg fun h' => h (hiff.mp h')]
    rfl

/-- The list of a page: the format and the first name, and the others. -/
theorem FileNames.list_eq (names : FileNames) (hfirst : NulFree names.first)
    (hadded : ∀ name ∈ names.added, name ≠ []) :
    names.list = (names.form.byte :: names.first) :: names.added.foldl (addName names.first) [] := by
  have hprepend : prepend names.first names.form.byte = names.form.byte :: names.first :=
    cstr_eq (nulFree_cons (form_byte_ne names.form) hfirst)
  unfold FileNames.list
  rw [hprepend]
  generalize names.added = added at hadded
  generalize ([] : List Str) = rest
  induction added generalizing rest with
  | nil => rfl
  | cons name added ih =>
    rw [List.foldl_cons, List.foldl_cons, addString_cons _ (hadded name (List.mem_cons_self ..))]
    exact ih (fun name' h => hadded name' (List.mem_cons_of_mem _ h)) _

theorem compared_eq_iff {other : Str} :
    compared other = name ↔ IsPrefixed other ∧ other.tail = name ∨ ¬ IsPrefixed other ∧ other = name := by
  unfold compared
  split
  · next h => exact ⟨fun heq => .inl ⟨h, heq⟩, fun hor => hor.elim And.right fun h' => absurd h h'.1⟩
  · next h => exact ⟨fun heq => .inr ⟨h, heq⟩, fun hor => hor.elim (fun h' => absurd h'.1 h) And.right⟩

/-- **One more name.** -/
theorem ExactNames.add_iff (h : ExactNames first before rest) :
    ExactNames first (before ++ [name]) (addName first rest name) ↔
      Recognizable first before name := by
  have hmem : ∀ {other}, other ∈ rest ↔ other ∈ before ∧ other ≠ first := h.mem_iff _
  by_cases hfirst : name = first
  · -- The first name of the file is not added to the list.
    refine iff_of_true ?_ ⟨fun hne => absurd hfirst hne, fun hne => absurd hfirst hne⟩
    rw [addName, if_pos (.inl hfirst)]
    refine ⟨h.nodup, fun other => ?_⟩
    rw [hmem, List.mem_append, List.mem_singleton, hfirst]
    exact ⟨fun h' => ⟨.inl h'.1, h'.2⟩, fun h' => ⟨h'.1.resolve_right h'.2, h'.2⟩⟩
  by_cases hold : name ∈ before
  · -- The name is old, and it is found unless a prefix hides it.
    have hin : name ∈ rest := hmem.mpr ⟨hold, hfirst⟩
    by_cases hrec : ∃ other ∈ rest, compared other = name
    · refine iff_of_true ?_ ⟨fun _ hnew => absurd hold hnew, fun _ _ hpre => ?_⟩
      · rw [addName, if_pos (.inr hrec)]
        refine ⟨h.nodup, fun other => ?_⟩
        rw [hmem, List.mem_append, List.mem_singleton]
        refine and_congr_left fun _ => ⟨.inl, fun h' => h'.elim id fun heq => heq ▸ hold⟩
      · obtain ⟨other, hother, heq⟩ := hrec
        obtain ⟨hpre', htail⟩ | ⟨hpre', rfl⟩ := compared_eq_iff.mp heq
        · exact ⟨other, (hmem.mp hother).1, (hmem.mp hother).2, hpre', htail⟩
        · exact absurd hpre hpre'
    · refine iff_of_false (fun hexact => ?_) fun hcond => hrec ?_
      · have hnodup := hexact.nodup
        rw [addName, if_neg (not_or.mpr ⟨hfirst, hrec⟩)] at hnodup
        exact (List.nodup_append.mp hnodup).2.2 name hin name (List.mem_singleton_self name) rfl
      · by_cases hpre : IsPrefixed name
        · obtain ⟨other, hother, hne, hpre', htail⟩ := hcond.again hfirst hold hpre
          exact ⟨other, hmem.mpr ⟨hother, hne⟩, compared_eq_iff.mpr (.inl ⟨hpre', htail⟩)⟩
        · exact ⟨name, hin, compared_eq_iff.mpr (.inr ⟨hpre, rfl⟩)⟩
  · -- The name is new, and it must not be taken for an old one.
    have hout : name ∉ rest := fun hin => hold (hmem.mp hin).1
    by_cases hrec : ∃ other ∈ rest, compared other = name
    · refine iff_of_false (fun hexact => ?_) fun hcond => ?_
      · have hiff := hexact.mem_iff name
        rw [addName, if_pos (.inr hrec)] at hiff
        exact hout (hiff.mpr ⟨List.mem_append_right _ (List.mem_singleton_self name), hfirst⟩)
      · obtain ⟨other, hother, heq⟩ := hrec
        obtain ⟨hpre, htail⟩ | ⟨-, rfl⟩ := compared_eq_iff.mp heq
        · exact hcond.new hfirst hold other (hmem.mp hother).1 (hmem.mp hother).2 hpre htail
        · exact hout hother
    · refine iff_of_true ?_ ⟨fun _ _ other hother hne hpre htail => hrec ?_, fun _ hin => absurd hin hold⟩
      · rw [addName, if_neg (not_or.mpr ⟨hfirst, hrec⟩)]
        refine ⟨?_, fun other => ?_⟩
        · rw [List.nodup_append]
          refine ⟨h.nodup, List.nodup_singleton name, fun other hother name' hname => ?_⟩
          rw [List.mem_singleton.mp hname]
          exact fun heq => hout (heq ▸ hother)
        · rw [List.mem_append, List.mem_append, List.mem_singleton, hmem]
          constructor
          · rintro (⟨hother, hne⟩ | rfl)
            · exact ⟨.inl hother, hne⟩
            · exact ⟨.inr rfl, hfirst⟩
          · rintro ⟨hother | rfl, hne⟩
            · exact .inl ⟨hother, hne⟩
            · exact .inr rfl
      · exact ⟨other, hmem.mpr ⟨hother, hne⟩, compared_eq_iff.mpr (.inl ⟨hpre, htail⟩)⟩

/-- What holds of the list in any case: a name that is not in it is recognized nevertheless. -/
structure Covers (first : Str) (before rest : List Str) : Prop where
  covered : ∀ name ∈ before, name ≠ first → name ∈ rest ∨ ∃ other ∈ rest, compared other = name
  given : ∀ name ∈ rest, name ∈ before ∧ name ≠ first

theorem Covers.addName (h : Covers first before rest) (name : Str) :
    Covers first (before ++ [name]) (addName first rest name) := by
  unfold Mandoc.addName
  split
  · next hrec =>
    refine ⟨fun other hother hne => ?_, fun other hother => ?_⟩
    · obtain hother | hother := List.mem_append.mp hother
      · exact h.covered other hother hne
      · rw [List.mem_singleton.mp hother] at hne ⊢
        exact .inr (hrec.resolve_left hne)
    · exact ⟨List.mem_append_left _ (h.given other hother).1, (h.given other hother).2⟩
  · next hrec =>
    refine ⟨fun other hother hne => ?_, fun other hother => ?_⟩
    · obtain hother | hother := List.mem_append.mp hother
      · obtain hin | ⟨e, he, heq⟩ := h.covered other hother hne
        · exact .inl (List.mem_append_left _ hin)
        · exact .inr ⟨e, List.mem_append_left _ he, heq⟩
      · exact .inl (List.mem_append_right _ hother)
    · obtain hother | hother := List.mem_append.mp hother
      · exact ⟨List.mem_append_left _ (h.given other hother).1, (h.given other hother).2⟩
      · rw [List.mem_singleton.mp hother]
        exact ⟨List.mem_append_right _ (List.mem_singleton_self name), fun heq => hrec (.inl heq)⟩

/-- What is lost or duplicated remains so. -/
theorem ExactNames.of_add (hcovers : Covers first before rest)
    (h : ExactNames first (before ++ [name]) (addName first rest name)) :
    ExactNames first before rest := by
  unfold addName at h
  split at h
  · refine ⟨h.nodup, fun other => ⟨hcovers.given other, fun hother => ?_⟩⟩
    exact (h.mem_iff other).mpr ⟨List.mem_append_left _ hother.1, hother.2⟩
  · next hrec =>
    refine ⟨(List.nodup_append.mp h.nodup).1, fun other => ⟨hcovers.given other, fun hother => ?_⟩⟩
    have hin := (h.mem_iff other).mpr ⟨List.mem_append_left _ hother.1, hother.2⟩
    obtain hin | heq := List.mem_append.mp hin
    · exact hin
    · obtain rfl := List.mem_singleton.mp heq
      exact (hcovers.covered other hother.1 hother.2).resolve_right fun h => hrec (.inr h)

/-- Every name is recognized when it is added if and only if it was given before. -/
def AllRecognizable (first : Str) (added : List Str) : Prop :=
  ∀ before name after, added = before ++ name :: after → Recognizable first before name

theorem allRecognizable_append :
    AllRecognizable first (before ++ [name]) ↔
      AllRecognizable first before ∧ Recognizable first before name := by
  constructor
  · intro h
    refine ⟨fun b n a heq => h b n (a ++ [name]) ?_, h before name [] rfl⟩
    rw [heq, List.append_assoc, List.cons_append]
  · rintro ⟨h, hname⟩ b n a heq
    obtain rfl | ⟨a', last, rfl⟩ := List.eq_nil_or_concat a
    · obtain ⟨rfl, hlast⟩ := List.append_inj' heq rfl
      cases hlast
      exact hname
    · rw [List.concat_eq_append, ← List.cons_append, ← List.append_assoc] at heq
      exact h b n a' (List.append_inj' heq rfl).1

/-- The list after all calls. -/
theorem exactNames_iff (first : Str) (added : List Str) :
    ExactNames first added (added.foldl (addName first) []) ↔ AllRecognizable first added := by
  have hcovers : ∀ l : List Str, Covers first l (l.foldl (addName first) []) := by
    intro l
    induction l using List.reverseRecOn with
    | nil => exact ⟨nofun, nofun⟩
    | append_singleton before name ih =>
      rw [List.foldl_append]
      exact ih.addName name
  induction added using List.reverseRecOn with
  | nil =>
    refine iff_of_true ⟨List.nodup_nil, fun name => ?_⟩ fun b n a heq => ?_
    · exact iff_of_false List.not_mem_nil fun h => List.not_mem_nil h.1
    · cases b <;> cases heq
  | append_singleton before name ih =>
    rw [List.foldl_append, allRecognizable_append]
    constructor
    · intro h
      have hbefore := h.of_add (hcovers before)
      exact ⟨ih.mp hbefore, hbefore.add_iff.mp h⟩
    · rintro ⟨hbefore, hname⟩
      exact (ih.mpr hbefore).add_iff.mpr hname

/-! ## §4 Deleting pages -/

/-- Where only names that seem to be prefixed matter, what is left of one of them is a current name
    if and only if one of these names is. -/
def PruneExact (mlinks : Str → Bool) (first : Str) (added : List Str) : Prop :=
  mlinks first = true ∨ (∃ name ∈ added, ¬ IsPrefixed name ∧ mlinks name = true) ∨
    ((∃ name ∈ added, name ≠ first ∧ IsPrefixed name ∧ mlinks name.tail = true) ↔
      ∃ name ∈ added, name ≠ first ∧ IsPrefixed name ∧ mlinks name = true)

/-- A page with the right list is deleted for one of its names. -/
theorem prunes_iff {added : List Str} {mlinks : Str → Bool} (h : ExactNames first added rest) :
    ((mlinks first = true ∨ ∃ name ∈ rest, mlinks (compared name) = true) ↔
        mlinks first = true ∨ ∃ name ∈ added, mlinks name = true) ↔
      PruneExact mlinks first added := by
  unfold PruneExact
  cases hfirst : mlinks first with
  | true => simp only [true_or]
  | false =>
    have hne : ∀ {name}, mlinks name = true → name ≠ first := fun hname heq => by
      rw [heq, hfirst] at hname
      cases hname
    -- The first name is not in the tree, so both sides are about the other names.
    simp only [Bool.false_eq_true, false_or]
    have hleft : (∃ name ∈ rest, mlinks (compared name) = true) ↔
        (∃ name ∈ added, ¬ IsPrefixed name ∧ mlinks name = true) ∨
          ∃ name ∈ added, name ≠ first ∧ IsPrefixed name ∧ mlinks name.tail = true := by
      constructor
      · rintro ⟨name, hmem, hname⟩
        obtain ⟨hadded, hnefirst⟩ := (h.mem_iff name).mp hmem
        unfold compared at hname
        split at hname
        · next hpre => exact .inr ⟨name, hadded, hnefirst, hpre, hname⟩
        · next hpre => exact .inl ⟨name, hadded, hpre, hname⟩
      · rintro (⟨name, hadded, hpre, hname⟩ | ⟨name, hadded, hnefirst, hpre, hname⟩)
        · refine ⟨name, (h.mem_iff name).mpr ⟨hadded, hne hname⟩, ?_⟩
          rwa [compared, if_neg hpre]
        · refine ⟨name, (h.mem_iff name).mpr ⟨hadded, hnefirst⟩, ?_⟩
          rwa [compared, if_pos hpre]
    have hright : (∃ name ∈ added, mlinks name = true) ↔
        (∃ name ∈ added, ¬ IsPrefixed name ∧ mlinks name = true) ∨
          ∃ name ∈ added, name ≠ first ∧ IsPrefixed name ∧ mlinks name = true := by
      constructor
      · rintro ⟨name, hadded, hname⟩
        by_cases hpre : IsPrefixed name
        · exact .inr ⟨name, hadded, hne hname, hpre, hname⟩
        · exact .inl ⟨name, hadded, hpre, hname⟩
      · rintro (⟨name, hadded, -, hname⟩ | ⟨name, hadded, -, -, hname⟩)
        · exact ⟨name, hadded, hname⟩
        · exact ⟨name, hadded, hname⟩
    -- Names without a prefix are compared in the same way on both sides.
    have hlogic : ∀ {A B C : Prop}, ((A ∨ B ↔ A ∨ C) ↔ A ∨ (B ↔ C)) := by
      intro A B C
      by_cases hA : A
      · simp only [hA, true_or]
      · simp only [hA, false_or]
    rw [hleft, hright]
    exact hlogic

/-- The names that are asked for are those in the calls. -/
theorem asked_valid {calls : List FileCall} {npages : Nat} {acc : List FileNames}
    (hvalid : ValidCalls npages calls)
    (hacc : ∀ names ∈ acc, NulFree names.first ∧ ∀ name ∈ names.added, name ≠ []) :
    ∀ names ∈ asked acc calls, NulFree names.first ∧ ∀ name ∈ names.added, name ≠ [] := by
  induction calls generalizing npages acc with
  | nil => exact hacc
  | cons call calls ih =>
    cases call with
    | new arch desc file form =>
      refine ih hvalid.2 fun names hnames => ?_
      obtain h | h := List.mem_append.mp hnames
      · exact hacc names h
      · rw [List.mem_singleton.mp h]
        exact ⟨hvalid.1.2, nofun⟩
    | add ip str =>
      refine ih hvalid.2 fun names hnames => ?_
      obtain ⟨k, hk⟩ := List.mem_iff_getElem?.mp hnames
      rw [List.getElem?_modify] at hk
      obtain ⟨names', hnames', heq⟩ := Option.map_eq_some_iff.mp hk
      have hold := hacc names' (List.mem_of_getElem? hnames')
      split at heq
      · subst heq
        refine ⟨hold.1, fun name hname => ?_⟩
        obtain h | h := List.mem_append.mp hname
        · exact hold.2 name h
        · rw [List.mem_singleton.mp h]
          exact hvalid.1.2.1
      · exact heq ▸ hold

/-- What `dbprune()` does with one page. -/
theorem dbprune_deleted {mlinks : Str → Bool} {pages : List DbaPage} {ip : Nat} {page : DbaPage}
    {form : Form} (hpage : pages[ip]? = some page) (hlive : page.deleted = false)
    (hfile : page.file = (form.byte :: first) :: rest) :
    (dbprune mlinks pages)[ip]?.map DbaPage.deleted = some true ↔
      mlinks first = true ∨ ∃ name ∈ rest, mlinks (compared name) = true := by
  have hany : (page.file.any fun file => mlinks (comparedPart .file file)) = true ↔
      mlinks first = true ∨ ∃ name ∈ rest, mlinks (compared name) = true := by
    rw [hfile]
    simp only [List.any_eq_true, List.exists_mem_cons_iff, comparedPart_eq, compared_first]
  rw [dbprune, List.getElem?_map, hpage, Option.map_some, Option.map_some, Option.some_inj, ← hany]
  constructor
  · intro h
    by_contra hno
    rw [if_neg fun h' => hno h'.2, hlive] at h
    cases h
  · intro h
    rw [if_pos ⟨hlive, h⟩]

/-- For every page, the list contains all names exactly once, the first one behind the byte for the
    format, and `dbprune()` deletes the page if and only if one of its names is a current one, if and
    only if all names are recognized when they are added, and no mistaken name decides about the
    deletion. -/
theorem fileNames_exact_iff (mlinks : Str → Bool) {calls : List FileCall}
    (hvalid : ValidCalls 0 calls) :
    ∃ pages, runFileCalls [] calls = .ok pages ∧ pages.length = (asked [] calls).length ∧
      ∀ (ip : Nat) (page : DbaPage) (names : FileNames), pages[ip]? = some page →
        (asked [] calls)[ip]? = some names →
        (((∃ rest, page.file = (names.form.byte :: names.first) :: rest ∧
              ExactNames names.first names.added rest) ∧
            ((dbprune mlinks pages)[ip]?.map DbaPage.deleted = some true ↔
              mlinks names.first = true ∨ ∃ name ∈ names.added, mlinks name = true)) ↔
          AllRecognizable names.first names.added ∧
            PruneExact mlinks names.first names.added) := by
  obtain ⟨pages, hrun, hlists, hlive⟩ := @runFileCalls_eq calls [] [] hvalid rfl nofun
  refine ⟨pages, hrun, ?_, fun ip page names hpage hnames => ?_⟩
  · have hlen := congrArg List.length hlists
    rwa [List.length_map, List.length_map] at hlen
  have hlist : page.file = names.list := by
    have h := congrArg (fun l => l[ip]?) hlists
    simp only [List.getElem?_map, hpage, hnames, Option.map_some, Option.some_inj] at h
    exact h
  obtain ⟨hfirst, hadded⟩ := asked_valid hvalid (fun _ h => absurd h List.not_mem_nil) names
    (List.mem_of_getElem? hnames)
  rw [FileNames.list_eq names hfirst hadded] at hlist
  have hpruned := @dbprune_deleted _ _ mlinks _ _ _ _ hpage
    (hlive page (List.mem_of_getElem? hpage)) hlist
  rw [← exactNames_iff, hpruned]
  constructor
  · rintro ⟨⟨rest, hrest, hexact⟩, hiff⟩
    rw [hlist] at hrest
    obtain rfl := (List.cons.inj hrest).2
    exact ⟨hexact, (prunes_iff hexact).mp hiff⟩
  · rintro ⟨hexact, hprune⟩
    exact ⟨⟨_, hlist, hexact⟩, (prunes_iff hexact).mpr hprune⟩

end

/-- Names that do not begin with one of the bytes in question cause no problems. -/
theorem recognizable_of_plain {first : Str} {added : List Str} (mlinks : Str → Bool)
    (h : ∀ name ∈ added, name ≠ first → ¬ IsPrefixed name) :
    AllRecognizable first added ∧ PruneExact mlinks first added := by
  refine ⟨fun before name after heq => ⟨fun _ _ other hother hne hpre => ?_, fun hne _ hpre => ?_⟩,
    .inr (.inr (iff_of_false ?_ ?_))⟩
  · exact absurd hpre (h other (heq ▸ List.mem_append_left _ hother) hne)
  · exact absurd hpre (h name (heq ▸ List.mem_append_right _ (List.mem_cons_self ..)) hne)
  · rintro ⟨name, hmem, hne, hpre, -⟩
    exact h name hmem hne hpre
  · rintro ⟨name, hmem, hne, hpre, -⟩
    exact h name hmem hne hpre

/-- Two names in ASCII, one of them given twice. -/
def asciiCalls : List FileCall :=
  [.new none [0x64] [0x61] .src, .add 0 [0x62], .add 0 [0x62]]

/-- Their list, and what happens if the second one is a current name. -/
theorem fileNames_exact_ascii :
    ∃ pages, runFileCalls [] asciiCalls = .ok pages ∧
      ∀ page, pages[0]? = some page →
        (∃ rest, page.file = [1, 0x61] :: rest ∧ ExactNames [0x61] [[0x62], [0x62]] rest) ∧
          (dbprune (fun name => name = [0x62]) pages)[0]?.map DbaPage.deleted = some true := by
  have hvalid : ValidCalls 0 asciiCalls := by
    refine ⟨⟨by decide, by decide⟩, ⟨by decide, by decide, by decide⟩, ?_, trivial⟩
    exact ⟨by decide, by decide, by decide⟩
  obtain ⟨pages, hrun, -, hall⟩ := fileNames_exact_iff (fun name => name = [0x62]) hvalid
  refine ⟨pages, hrun, fun page hpage => ?_⟩
  have hplain : ∀ name ∈ ([[0x62], [0x62]] : List Str), name ≠ [0x61] → ¬ IsPrefixed name := by
    decide
  obtain ⟨hlist, hprune⟩ := (hall 0 page ⟨.src, [0x61], [[0x62], [0x62]]⟩ hpage rfl).mpr
    (recognizable_of_plain _ hplain)
  exact ⟨hlist, hprune.mpr (.inr ⟨[0x62], List.mem_cons_self .., rfl⟩)⟩

/-- A name that begins with a byte that is not ASCII. -/
def latinCalls : List FileCall :=
  [.new none [0x64] [0x61] .src, .add 0 [0xe4], .add 0 [0xe4]]

/-- The second time, it is not recognized. -/
theorem fileNames_exact_false :
    ¬ ∀ (mlinks : Str → Bool) (calls : List FileCall), ValidCalls 0 calls →
      ∃ pages, runFileCalls [] calls = .ok pages ∧ pages.length = (asked [] calls).length ∧
        ∀ (ip : Nat) (page : DbaPage) (names : FileNames), pages[ip]? = some page →
          (asked [] calls)[ip]? = some names →
          (∃ rest, page.file = (names.form.byte :: names.first) :: rest ∧
              ExactNames names.first names.added rest) ∧
            ((dbprune mlinks pages)[ip]?.map DbaPage.deleted = some true ↔
              mlinks names.first = true ∨ ∃ name ∈ names.added, mlinks name = true) := by
  intro h
  have hvalid : ValidCalls 0 latinCalls := by
    refine ⟨⟨by decide, by decide⟩, ⟨by decide, by decide, by decide⟩, ?_, trivial⟩
    exact ⟨by decide, by decide, by decide⟩
  obtain ⟨pages, hrun, -, hall⟩ := h (fun _ => false) latinCalls hvalid
  have hfiles : (runFileCalls [] latinCalls).map (fun pages => pages.map DbaPage.file) =
      .ok [[[1, 0x61], [0xe4], [0xe4]]] := by decide +kernel
  rw [hrun] at hfiles
  have hmap : pages.map DbaPage.file = [[[1, 0x61], [0xe4], [0xe4]]] := Except.ok.inj hfiles
  have hpage : (pages.map DbaPage.file)[0]? = some [[1, 0x61], [0xe4], [0xe4]] := by
    rw [hmap]
    rfl
  rw [List.getElem?_map] at hpage
  obtain ⟨page, hpage, hfile⟩ := Option.map_eq_some_iff.mp hpage
  obtain ⟨⟨rest, hrest, hexact⟩, -⟩ := hall 0 page ⟨.src, [0x61], [[0xe4], [0xe4]]⟩ hpage rfl
  rw [hfile] at hrest
  have hnodup := hexact.nodup
  rw [← (List.cons.inj hrest).2] at hnodup
  exact absurd hnodup (by decide)

end Mandoc
