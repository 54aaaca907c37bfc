import Mandoc.Roff.TableSpecs

/-!
# Renaming Strings and Macros

What `.rn` does to a user-defined string or macro. The value is copied by `roff_setstrn()`,
which applies copy mode to it, and after that the old name is deleted. When the old and the
new name are the same, the source copies from a value that it has just freed. The model
copies the value as it was; either way, the name is not defined any more in the end.

The main result, `roffRn_renamed_iff`, says for which names and values the request does what
it is meant to do.
-/

namespace Mandoc

variable {X : Type}

/-- The request line contains the old and the new name. -/
def RnNames (a : Args X) (oldn newn : CStr) : Prop :=
  charAt a.buf.buf a.pos ≠ NUL ∧
    ∃ o n, roffGetname a.buf.buf a.pos = .ok o ∧ o.name a.pos = oldn ∧
      (endsName (charAt o.buf (a.pos + o.namesz)) || charAt o.buf o.cp = NUL) = false ∧
      roffGetname o.buf o.cp = .ok n ∧ n.namesz ≠ 0 ∧ n.name o.cp = newn

/-- The definition `v` of the old name has become the definition of the new name, and the
    definitions of all other names are as before. -/
structure Renamed (r r' : Roff X) (oldn newn v : CStr) : Prop where
  value : (roffGetstrn r' newn DefType.any).res = some v
  user : (roffGetstrn r' newn DefType.any).deftype = .USER
  removed : oldn ≠ newn → lookup r'.strtab oldn = none
  others : ∀ name, name ≠ oldn → name ≠ newn → ∀ want,
    (roffGetstrn r' name want).res = (roffGetstrn r name want).res ∧
      (roffGetstrn r' name want).deftype = (roffGetstrn r name want).deftype

/-- What a name is defined as only depends on its own entries in the tables. -/
theorem roffGetstrn_congr {r r' : Roff X} {name : CStr}
    (huser : lookup r'.strtab name = lookup r.strtab name)
    (hren : lookup r'.rentab name = lookup r.rentab name)
    (hstd : r'.man.macroset = r.man.macroset) (want : List DefType) :
    (roffGetstrn r' name want).res = (roffGetstrn r name want).res ∧
      (roffGetstrn r' name want).deftype = (roffGetstrn r name want).deftype := by
  unfold roffGetstrn
  rw [huser, hren, hstd]
  dsimp only
  split_ifs <;> exact ⟨rfl, rfl⟩

theorem roffGetstrn_user {r : Roff X} {name v : CStr} (h : lookup r.strtab name = some v) :
    roffGetstrn r name DefType.any = ⟨some v, .USER, r⟩ := by
  simp [roffGetstrn, h, DefType.any]

theorem lookup_of_getstrn_user {r : Roff X} {name : CStr}
    (h : (roffGetstrn r name DefType.any).deftype = .USER) :
    lookup r.strtab name = (roffGetstrn r name DefType.any).res := by
  unfold roffGetstrn at h ⊢
  dsimp only at h ⊢
  split_ifs at h ⊢
  rfl

theorem roffRn_eq {a : Args X} {oldn newn : CStr} (h : RnNames a oldn newn) :
    roffRn a =
      .ok (a.out ROFF_IGN (renameTo (roffGetstrn a.r oldn DefType.any) oldn newn)) := by
  obtain ⟨hne, o, n, ho, rfl, hend, hn, hsz, rfl⟩ := h
  rw [roffRn, if_neg hne, ho, Res.ok_bind, hend, if_neg (by simp), hn, Res.ok_bind, if_neg hsz]
  rfl

/-- **Renaming.** Renaming a user-defined string or macro preserves all definitions if and only
    if the two names differ and the definition does not contain two consecutive backslashes. -/
theorem roffRn_renamed_iff {a : Args X} {oldn newn v : CStr} (hstr : StrTable a.r.strtab)
    (hnames : RnNames a oldn newn) (hv : lookup a.r.strtab oldn = some v) :
    (∃ out, roffRn a = .ok out ∧ Renamed a.r out.r oldn newn v) ↔
      oldn ≠ newn ∧ ¬ ['\\', '\\'] <:+: v := by
  rw [roffRn_eq hnames, roffGetstrn_user hv, ← copyMode_eq_self_iff]
  set r' := renameTo ⟨some v, .USER, a.r⟩ oldn newn with hr'
  have hstr' := hstr.set newn (some v) 0
  have htab : r'.strtab = roffSetstrn (roffSetstrn a.r.strtab newn (some v) 0) oldn none 0 := rfl
  -- The old name is gone, and the new one has the value read in copy mode once more.
  have hold : lookup r'.strtab oldn = none := by
    rw [htab, lookup_setstrn_self hstr']
    rfl
  have hnew : oldn ≠ newn → lookup r'.strtab newn = some (copyMode v) := by
    intro hne
    rw [htab, lookup_setstrn_of_ne hne.symm, lookup_setstrn_self hstr]
    simp [setVal]
  constructor
  · rintro ⟨out, hout, hren⟩
    cases hout
    have hlook := (lookup_of_getstrn_user hren.user).trans hren.value
    have hne : oldn ≠ newn := by
      rintro rfl
      exact absurd (hold.symm.trans hlook) (by simp)
    exact ⟨hne, Option.some.inj ((hnew hne).symm.trans hlook)⟩
  · rintro ⟨hne, hcopy⟩
    have hlook : lookup r'.strtab newn = some v := (hnew hne).trans (congrArg some hcopy)
    refine ⟨_, rfl, ?_, ?_, fun _ => hold, fun name hno hnn want => ?_⟩
    · exact congrArg GetStr.res (roffGetstrn_user hlook)
    · exact congrArg GetStr.deftype (roffGetstrn_user hlook)
    · -- Other names are looked up in tables where nothing of theirs was changed.
      have huser : lookup r'.strtab name = lookup a.r.strtab name :=
        (lookup_setstrn_of_ne hno).trans (lookup_setstrn_of_ne hnn)
      have hren : lookup r'.rentab name = lookup a.r.rentab name := lookup_setstrn_of_ne hnn
      exact roffGetstrn_congr huser hren rfl want

/-- The line `.rn x y` in a state where `x` has got the given definition. -/
def rnLine (v line : CStr) : Args Unit :=
  { r := { roffAlloc () with strtab := roffSetstrn [] ['x'] (some v) 0 }
    tok := .ROFF_rn, buf := Buf.ofStr line, ln := 1, ppos := 0, pos := 0, offs := 0 }

/-- Renaming a string that contains an escape sequence. -/
theorem roffRn_renamed_font : ∃ out, roffRn (rnLine "\\fBfoo".toList "x y".toList) = .ok out ∧
    Renamed (rnLine "\\fBfoo".toList "x y".toList).r out.r ['x'] ['y'] "\\fBfoo".toList :=
  (roffRn_renamed_iff (.set _ _ _ .nil)
    ⟨by decide, ⟨"x y".toList, 1, 2⟩, ⟨"x y".toList, 1, 3⟩, by decide +kernel, by decide,
      by decide, by decide +kernel, by decide, by decide⟩ (by decide)).mpr ⟨by decide, by decide⟩

/-- The value of a macro that defines another macro using its argument contains two
    backslashes, one of which is lost. -/
theorem roffRn_not_renamed :
    ¬ ∀ (a : Args Unit) (oldn newn v : CStr), StrTable a.r.strtab → RnNames a oldn newn →
      lookup a.r.strtab oldn = some v →
      ∃ out, roffRn a = .ok out ∧ Renamed a.r out.r oldn newn v := by
  intro h
  set a := rnLine "\\\\\\\\$1".toList "x y".toList
  obtain ⟨out, hout, hren⟩ := h a ['x'] ['y'] "\\\\$1".toList (.set _ _ _ .nil)
    ⟨by decide, ⟨"x y".toList, 1, 2⟩, ⟨"x y".toList, 1, 3⟩, by decide +kernel, by decide,
      by decide, by decide +kernel, by decide, by decide⟩ (by decide)
  have hval : (roffRn a).map (fun out => (roffGetstrn out.r ['y'] DefType.any).res) =
      .ok (some "\\$1".toList) := by decide +kernel
  rw [hout] at hval
  exact absurd (hren.value.symm.trans (Except.ok.inj hval)) (by decide)

end Mandoc
