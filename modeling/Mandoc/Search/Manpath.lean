import Mandoc.CString

/-!
# The Manual Path

Model of `manpath_add()` in `manpath.c`, which builds the list of the directories containing
manual pages. The list contains canonical paths. A directory is skipped if
the list contains the name by which it is passed in.

`manpath_distinct_iff` says when the list is what it is meant to be, the existing directories
without duplicates in the order of their first occurrence: a directory must not be passed in again
by a name different from its canonical path.
-/

namespace Mandoc

/-! ## §1 The functions -/

/-- The file system, as far as it is used: `realpath()` returns the canonical path, and `stat()`
    succeeds. -/
structure PathLookup where
  realpath : CStr → Option CStr
  stat : CStr → Bool
  realpath_idem : ∀ dir p, realpath dir = some p → realpath p = some p

/-- `struct manpaths`, and the warnings about bad directories: the option and the argument. -/
structure Manpaths where
  paths : List CStr
  bad : List (Char × CStr)

/-- The label `fail` of `manpath_add()`. -/
def manpathFail (dirs : Manpaths) (dir : CStr) (option : Char) : Manpaths :=
  if option = NUL then dirs
  else if option = 'm' ∧ (dir = "andoc".toList ∨ dir = "an".toList ∨ dir = "doc".toList) then dirs
  else { dirs with bad := dirs.bad ++ [(option, dir)] }

/-- `manpath_add()` -/
def manpathAdd (fs : PathLookup) (dirs : Manpaths) (dir : CStr) (option : Char) : Manpaths :=
  match fs.realpath dir with
  | none => manpathFail dirs dir option
  | some cp =>
    if dir ∈ dirs.paths then dirs
    else if fs.stat cp then { dirs with paths := dirs.paths ++ [cp] }
    else manpathFail dirs dir option

/-- A sequence of calls of `manpath_add()`. -/
def manpathAddAll (fs : PathLookup) (calls : List (CStr × Char)) (dirs : Manpaths) : Manpaths :=
  calls.foldl (fun dirs call => manpathAdd fs dirs call.1 call.2) dirs

/-! ## §2 The list -/

section

variable {fs : PathLookup} {dirs : Manpaths} {calls : List (CStr × Char)} {dir p : CStr}
  {option : Char}

/-- The canonical path of an existing directory. -/
def PathLookup.resolve (fs : PathLookup) (dir : CStr) : Option CStr :=
  (fs.realpath dir).filter fs.stat

/-- The canonical paths of the existing directories that are passed in. -/
def PathLookup.resolveAll (fs : PathLookup) (calls : List (CStr × Char)) : List CStr :=
  calls.filterMap fun call => fs.resolve call.1

/-- All paths are canonical paths of existing directories. -/
def Manpaths.Canonical (fs : PathLookup) (dirs : Manpaths) : Prop :=
  ∀ p ∈ dirs.paths, fs.resolve p = some p

theorem PathLookup.resolve_idem (h : fs.resolve dir = some p) : fs.resolve p = some p := by
  obtain ⟨hp, hstat⟩ := Option.filter_eq_some_iff.mp h
  exact Option.filter_eq_some_iff.mpr ⟨fs.realpath_idem dir p hp, hstat⟩

@[simp] theorem manpathFail_paths : (manpathFail dirs dir option).paths = dirs.paths := by
  unfold manpathFail
  split
  · rfl
  split <;> rfl

/-- What one call does to the list. -/
theorem manpathAdd_paths (hdirs : dirs.Canonical fs) :
    (manpathAdd fs dirs dir option).paths =
      match fs.resolve dir with
      | none => dirs.paths
      | some p => if dir ∈ dirs.paths then dirs.paths else dirs.paths ++ [p] := by
  unfold manpathAdd PathLookup.resolve
  cases hp : fs.realpath dir with
  | none => exact manpathFail_paths
  | some p =>
    by_cases hstat : fs.stat p
    · simp only [Option.filter, hstat, if_true]
      split <;> rfl
    · -- A path in the list is the canonical path of an existing directory.
      have hmem : dir ∉ dirs.paths := by
        intro hmem
        obtain ⟨hdir, hs⟩ := Option.filter_eq_some_iff.mp (hdirs dir hmem)
        rw [hp, Option.some.injEq] at hdir
        exact hstat (hdir ▸ hs)
      simp [Option.filter, hstat, hmem]

theorem manpathAdd_canonical (hdirs : dirs.Canonical fs) :
    (manpathAdd fs dirs dir option).Canonical fs := by
  unfold Manpaths.Canonical
  rw [manpathAdd_paths hdirs]
  cases hp : fs.resolve dir with
  | none => exact hdirs
  | some p =>
    dsimp only
    split
    · exact hdirs
    · intro q hq
      obtain hq | hq := List.mem_append.mp hq
      · exact hdirs q hq
      · rw [List.mem_singleton.mp hq]
        exact fs.resolve_idem hp

/-- Nothing is ever removed from the list. -/
theorem manpathAdd_prefixed (hdirs : dirs.Canonical fs) :
    dirs.paths <+: (manpathAdd fs dirs dir option).paths := by
  rw [manpathAdd_paths hdirs]
  cases fs.resolve dir with
  | none => exact List.prefix_rfl
  | some p =>
    dsimp only
    split
    · exact List.prefix_rfl
    · exact List.prefix_append _ _

theorem manpathAddAll_append (calls calls' : List (CStr × Char)) (dirs : Manpaths) :
    manpathAddAll fs (calls ++ calls') dirs =
      manpathAddAll fs calls' (manpathAddAll fs calls dirs) :=
  List.foldl_append

theorem manpathAddAll_concat (calls : List (CStr × Char)) (dir : CStr) (option : Char)
    (dirs : Manpaths) :
    manpathAddAll fs (calls ++ [(dir, option)]) dirs =
      manpathAdd fs (manpathAddAll fs calls dirs) dir option :=
  manpathAddAll_append calls [(dir, option)] dirs

theorem resolveAll_concat (calls : List (CStr × Char)) (dir : CStr) (option : Char) :
    fs.resolveAll (calls ++ [(dir, option)]) =
      fs.resolveAll calls ++ (fs.resolve dir).toList := by
  unfold PathLookup.resolveAll
  rw [List.filterMap_append]
  cases h : fs.resolve dir <;> simp [h]

theorem manpathAddAll_canonical (hdirs : dirs.Canonical fs) :
    (manpathAddAll fs calls dirs).Canonical fs := by
  induction calls generalizing dirs with
  | nil => exact hdirs
  | cons call calls ih => exact ih (manpathAdd_canonical hdirs)

theorem manpathAddAll_prefixed (hdirs : dirs.Canonical fs) :
    dirs.paths <+: (manpathAddAll fs calls dirs).paths := by
  induction calls generalizing dirs with
  | nil => exact List.prefix_rfl
  | cons call calls ih =>
    exact (manpathAdd_prefixed hdirs).trans (ih (manpathAdd_canonical hdirs))

/-! ## §3 Duplicates -/

/-- The empty list at the beginning. -/
def Manpaths.init : Manpaths := ⟨[], []⟩

/-- The list after a sequence of calls. -/
def manpathOf (fs : PathLookup) (calls : List (CStr × Char)) : List CStr :=
  (manpathAddAll fs calls Manpaths.init).paths

theorem init_canonical : Manpaths.init.Canonical fs := by
  intro p hp
  exact absurd hp List.not_mem_nil

/-- Every call appends a path, or does nothing. -/
theorem manpathOf_concat (calls : List (CStr × Char)) (dir : CStr) (option : Char) :
    manpathOf fs (calls ++ [(dir, option)]) =
      match fs.resolve dir with
      | none => manpathOf fs calls
      | some p => if dir ∈ manpathOf fs calls then manpathOf fs calls
        else manpathOf fs calls ++ [p] := by
  unfold manpathOf
  rw [manpathAddAll_concat, manpathAdd_paths (manpathAddAll_canonical init_canonical)]

theorem resolve_of_mem (h : dir ∈ manpathOf fs calls) : fs.resolve dir = some dir :=
  manpathAddAll_canonical init_canonical dir h

/-- The list contains exactly the existing directories that have been passed in. -/
theorem mem_manpathOf : p ∈ manpathOf fs calls ↔ p ∈ fs.resolveAll calls := by
  induction calls using List.reverseRecOn with
  | nil => rfl
  | append_singleton calls call ih =>
    obtain ⟨dir, option⟩ := call
    rw [manpathOf_concat, resolveAll_concat, List.mem_append, ← ih]
    cases hp : fs.resolve dir with
    | none => simp
    | some q =>
      dsimp only
      split
      case isTrue hmem =>
        rw [resolve_of_mem hmem, Option.some.injEq] at hp
        refine ⟨.inl, fun h => h.elim id fun hp' => ?_⟩
        rw [List.mem_singleton.mp hp', ← hp]
        exact hmem
      case isFalse => simp

/-- The list of the paths `occ`, without duplicates and in the order of first occurrence. -/
structure Distinct (paths occ : List CStr) : Prop where
  nodup : paths.Nodup
  complete : ∀ p ∈ occ, p ∈ paths
  ordered : paths.Pairwise fun p q => occ.idxOf p < occ.idxOf q

/-- Every directory that has been passed in before is passed in by its canonical path. -/
def Respelled (fs : PathLookup) (calls : List (CStr × Char)) : Prop :=
  ∃ pre dir option post p, calls = pre ++ (dir, option) :: post ∧ fs.resolve dir = some p ∧
    p ∈ fs.resolveAll pre ∧ dir ≠ p

/-- A directory that is new keeps the list in order. -/
theorem Distinct.concat {paths occ : List CStr} (h : Distinct paths occ)
    (hmem : ∀ q ∈ paths, q ∈ occ) (hp : p ∉ occ) : Distinct (paths ++ [p]) (occ ++ [p]) where
  nodup := by
    rw [← List.concat_eq_append]
    exact h.nodup.concat fun hmem' => hp (hmem p hmem')
  complete := by
    intro q hq
    obtain hq | hq := List.mem_append.mp hq
    · exact List.mem_append_left _ (h.complete q hq)
    · exact List.mem_append_right _ hq
  ordered := by
    rw [List.pairwise_append]
    refine ⟨h.ordered.imp_of_mem fun ha hb hlt => ?_, List.pairwise_singleton _ _, ?_⟩
    · rwa [List.idxOf_append_of_mem (hmem _ ha), List.idxOf_append_of_mem (hmem _ hb)]
    · intro q hq r hr
      rw [List.mem_singleton.mp hr, List.idxOf_append_of_mem (hmem q hq),
        List.idxOf_append_of_notMem hp]
      exact Nat.lt_add_right _ (List.idxOf_lt_length_of_mem (hmem q hq))

/-- A directory that is in the list already changes nothing. -/
theorem Distinct.repeated {paths occ : List CStr} (h : Distinct paths occ)
    (hmem : ∀ q ∈ paths, q ∈ occ) (hp : p ∈ paths) : Distinct paths (occ ++ [p]) where
  nodup := h.nodup
  complete := by
    intro q hq
    obtain hq | hq := List.mem_append.mp hq
    · exact h.complete q hq
    · rwa [List.mem_singleton.mp hq]
  ordered := h.ordered.imp_of_mem fun ha hb hlt => by
    rwa [List.idxOf_append_of_mem (hmem _ ha), List.idxOf_append_of_mem (hmem _ hb)]

/-- As long as no directory is respelled, the list is in order. -/
theorem distinct_of_not_respelled (h : ¬ Respelled fs calls) :
    Distinct (manpathOf fs calls) (fs.resolveAll calls) := by
  induction calls using List.reverseRecOn with
  | nil => exact ⟨List.nodup_nil, fun p hp => hp, List.Pairwise.nil⟩
  | append_singleton calls call ih =>
    obtain ⟨dir, option⟩ := call
    have hcalls : ¬ Respelled fs calls := by
      rintro ⟨pre, d, o, post, p, rfl, hrest⟩
      exact h ⟨pre, d, o, post ++ [(dir, option)], p, by simp, hrest⟩
    have hdistinct := ih hcalls
    have hmem : ∀ q ∈ manpathOf fs calls, q ∈ fs.resolveAll calls := fun q => mem_manpathOf.mp
    rw [manpathOf_concat, resolveAll_concat]
    cases hp : fs.resolve dir with
    | none => simpa using hdistinct
    | some p =>
      dsimp only
      split
      case isTrue hdir =>
        rw [resolve_of_mem hdir, Option.some.injEq] at hp
        exact hdistinct.repeated hmem (hp ▸ hdir)
      case isFalse hdir =>
        refine hdistinct.concat hmem fun hocc => ?_
        -- The directory has been passed in before by another name.
        have hne : dir ≠ p := fun heq => hdir (mem_manpathOf.mpr (heq ▸ hocc))
        exact h ⟨calls, dir, option, [], p, rfl, hp, hocc, hne⟩

/-- A directory that is respelled is added again. -/
theorem not_nodup_of_respelled (h : Respelled fs calls) : ¬ (manpathOf fs calls).Nodup := by
  obtain ⟨pre, dir, option, post, p, rfl, hp, hocc, hne⟩ := h
  intro hnodup
  have hdir : dir ∉ manpathOf fs pre := by
    intro hdir
    rw [resolve_of_mem hdir, Option.some.injEq] at hp
    exact hne hp
  have hstep : manpathOf fs (pre ++ [(dir, option)]) = manpathOf fs pre ++ [p] := by
    rw [manpathOf_concat, hp]
    exact if_neg hdir
  have hpre : manpathOf fs pre ++ [p] <+: manpathOf fs (pre ++ (dir, option) :: post) := by
    rw [← hstep, List.append_cons pre (dir, option) post, manpathOf, manpathOf,
      manpathAddAll_append _ post]
    exact manpathAddAll_prefixed (manpathAddAll_canonical init_canonical)
  have hdup := hnodup.sublist hpre.sublist
  exact (List.nodup_append.mp hdup).2.2 p (mem_manpathOf.mpr hocc) p (List.mem_singleton_self p) rfl

/-- The list contains the existing directories without duplicates and in the order of first
    occurrence if and only if no directory is passed in again by a name that is not its canonical
    path. -/
theorem manpath_distinct_iff (fs : PathLookup) (calls : List (CStr × Char)) :
    Distinct (manpathOf fs calls) (fs.resolveAll calls) ↔ ¬ Respelled fs calls :=
  ⟨fun h hrespelled => not_nodup_of_respelled hrespelled h.nodup, distinct_of_not_respelled⟩

end

/-- A file system with one directory, which is also found with a trailing slash. -/
def oneDirectory : PathLookup where
  realpath dir := if dir = ['/', 'm'] ∨ dir = ['/', 'm', '/'] then some ['/', 'm'] else none
  stat _ := true
  realpath_idem dir p h := by
    split at h
    · cases h
      rfl
    · cases h

/-- The directory is passed in twice, and the second time with a trailing slash. -/
theorem manpath_not_distinct :
    ¬ ∀ (fs : PathLookup) (calls : List (CStr × Char)), (manpathOf fs calls).Nodup := by
  intro h
  have hnodup := h oneDirectory [(['/', 'm'], NUL), (['/', 'm', '/'], NUL)]
  revert hnodup
  decide

end Mandoc
