import Mandoc.Lib.FreshNames
import Mandoc.Roff.Deroff
import Mandoc.Roff.NumExpr

/-!
# Identifiers of HTML Elements

The function `html_make_id()` turns the text of a node into the value of an `id` attribute.
Bytes that may not occur in the fragment of a URL are replaced, and so is the tilde, which is
reserved for an ordinal suffix: the table `id_unique` counts how often each text occurred.

The main result, `htmlMakeId_unique`, says that the identifiers made for different places
differ. The table is a supply of names in the sense of `Mandoc.Lib.FreshNames`, with the
texts without a tilde as the base names.
-/

namespace Mandoc

open FreshNames

/-! ## §1 The text of an identifier -/

/-- `isalnum()` in the C locale. -/
def isalnum (c : Char) : Bool := isalpha c || isdigit c

/-- In `id` attributes, only use the bytes permitted in URL-fragment strings. In addition,
    reserve the tilde for ordinal suffixes. -/
def idChar (c : Char) : Char :=
  if c = ASCII_HYPH then '-'
  else if isalnum c = false ∧ strchr "!$&'()*+,-./:;=?@_" c = false then '_'
  else c

/-- The macros whose identifier is made from the text of all children. -/
def Tok.isSection (tok : Tok) : Bool :=
  tok = .MDOC "Sh" || tok = .MDOC "Ss" || tok = .MDOC "Sx" || tok = .MAN "SH" || tok = .MAN "SS"

/-- The string that an identifier is made from. The function fails if the node lacks text data
    to create the attribute from. -/
def idText (n : SynTree) : Option CStr :=
  match n.tag with
  | some tag => some tag
  | none =>
    if n.root.tok.isSection then
      if n.children.any (·.root.type ≠ .TEXT) then none else deroff none n
    else
      match n.children with
      | [] => none
      | child :: _ => if child.root.type ≠ .TEXT then none else child.root.string

/-- The identifier without an ordinal suffix. -/
def idBase (n : SynTree) : Option CStr := (idText n).map (·.map idChar)

/-! ## §2 The table of identifiers -/

/-- `struct id_entry` -/
structure IdEntry where
  /-- Ordinal number of the latest occurrence. -/
  ord : Int
  /-- The `id` attribute without any ordinal suffix. -/
  id : CStr
deriving DecidableEq, Repr

/-- `ohash_find()`: the ordinal number of an entry. -/
def findId (tab : List IdEntry) (id : CStr) : Option Int := (tab.find? (·.id = id)).map (·.ord)

/-- Change the ordinal number of an entry, or insert an entry. -/
def setId (tab : List IdEntry) (id : CStr) (ord : Int) : List IdEntry :=
  if (findId tab id).isSome then tab.map fun e => if e.id = id then { e with ord := ord } else e
  else ⟨ord, id⟩ :: tab

/-- The conversion `%d`. -/
def formatInt (n : Int) : CStr :=
  if n < 0 then '-' :: Nat.toDigits 10 n.natAbs else Nat.toDigits 10 n.natAbs

/-- The ordinal number of an identifier, for the ordinal number found in the table: a new entry
    starts with 1, and the first call for a tag and location increments it. -/
def nextOrd (unique : Int) : Option Int → Int
  | none => 1
  | some ord => if unique = 1 then wrapInt (ord + 1) else ord

/-- `html_make_id()`: the identifier, and the new value of `id_unique`. -/
def htmlMakeId (tab : List IdEntry) (n : SynTree) (unique : Int) :
    Option CStr × List IdEntry :=
  match idBase n with
  | none => (none, tab)
  | some buf =>
    if unique = 0 then (some buf, tab)
    else
      -- Avoid duplicate HTML id= attributes.
      let ord := nextOrd unique (findId tab buf)
      (some (if 1 < ord then buf ++ '~' :: formatInt ord else buf), setId tab buf ord)

/-- The results of a sequence of calls. -/
def makeIds : List IdEntry → List (SynTree × Int) → List (Option CStr)
  | _, [] => []
  | tab, (n, unique) :: calls =>
    (htmlMakeId tab n unique).1 :: makeIds (htmlMakeId tab n unique).2 calls

/-- The strings returned by the calls with the value 1 of `unique`, which are those made for the
    first time for a tag and location. -/
def firstIds : List IdEntry → List (SynTree × Int) → List CStr
  | _, [] => []
  | tab, (n, unique) :: calls =>
    (if unique = 1 then (htmlMakeId tab n unique).1.toList else []) ++
      firstIds (htmlMakeId tab n unique).2 calls

/-! ## §3 Bases without a tilde -/

/-- The base of an identifier: a string without a tilde. -/
abbrev IdBase := { id : CStr // '~' ∉ id }

/-- The filter maps every tilde away. -/
theorem idChar_ne_tilde (c : Char) : idChar c ≠ '~' := by
  unfold idChar
  split
  · decide
  split
  · decide
  · next h =>
    rintro rfl
    exact h (by decide)

theorem tilde_notMem_idBase {n : SynTree} {buf : CStr} (h : idBase n = some buf) : '~' ∉ buf := by
  obtain ⟨text, -, rfl⟩ := Option.map_eq_some_iff.mp h
  intro hmem
  obtain ⟨c, -, hc⟩ := List.mem_map.mp hmem
  exact idChar_ne_tilde c hc

/-- The identifier with a base and an ordinal number. -/
def idName (b : IdBase) (k : Nat) : CStr :=
  if 1 < k then b.val ++ '~' :: Nat.toDigits 10 k else b.val

/-- The part of an identifier before the tilde. -/
theorem takeWhile_idName (b : IdBase) (k : Nat) : (idName b k).takeWhile (· ≠ '~') = b.val := by
  have hall : ∀ c ∈ b.val, decide (c ≠ '~') = true := fun c hc => by
    simpa using fun heq : c = '~' => b.property (heq ▸ hc)
  unfold idName
  split
  · rw [List.takeWhile_append_of_pos hall]
    simp
  · exact List.takeWhile_eq_self_iff.mpr hall

/-- The base and the ordinal number can be recovered from the identifier. -/
theorem idName_inj (b : IdBase) (k : Nat) (b' : IdBase) (k' : Nat) (hk : 1 ≤ k) (hk' : 1 ≤ k')
    (h : idName b k = idName b' k') : b = b' ∧ k = k' := by
  have hbase : b = b' := by
    apply Subtype.ext
    rw [← takeWhile_idName b k, h, takeWhile_idName]
  subst hbase
  refine ⟨rfl, ?_⟩
  unfold idName at h
  split at h
  · split at h
    · have hdigits := (List.cons.inj (List.append_cancel_left h)).2
      rw [← Nat.ofDigitChars_ten_toDigits (n := k), hdigits, Nat.ofDigitChars_ten_toDigits]
    · exact absurd (congrArg List.length h) (by simp)
  · split at h
    · exact absurd (congrArg List.length h) (by simp)
    · omega

/-! ## §4 The table as a supply of names -/

/-- The table holds the bases with the ordinal numbers handed out. -/
def Supplies (tab : List IdEntry) (c : IdBase → Nat) : Prop :=
  ∀ b, findId tab b.val = if c b = 0 then none else some (c b : Int)

/-- Setting an ordinal number changes one entry. -/
theorem findId_setId (tab : List IdEntry) (id id' : CStr) (ord : Int) :
    findId (setId tab id ord) id' = if id' = id then some ord else findId tab id' := by
  by_cases hsome : (findId tab id).isSome
  · rw [setId, if_pos hsome, findId, List.find?_map]
    have hid : ((fun e : IdEntry => decide (e.id = id')) ∘
        fun e => if e.id = id then { e with ord := ord } else e) = fun e => decide (e.id = id') := by
      funext e
      simp only [Function.comp_apply]
      split <;> rfl
    rw [hid]
    cases hfind : tab.find? (·.id = id') with
    | none =>
      rw [if_neg, findId, hfind]
      · rfl
      · rintro rfl
        rw [findId, hfind] at hsome
        exact absurd hsome (by simp)
    | some e =>
      have he : e.id = id' := by simpa using List.find?_some hfind
      rw [Option.map_some, Option.map_some, he, findId, hfind]
      split <;> rfl
  · rw [setId, if_neg hsome, findId, List.find?_cons]
    by_cases heq : id' = id
    · rw [if_pos heq]
      simp [heq]
    · rw [if_neg heq]
      simp [Ne.symm heq, findId]

theorem wrapInt_succ {k : Nat} (hk : k + 1 < 2 ^ 31) : wrapInt ((k : Int) + 1) = (k + 1 : Nat) := by
  rw [wrapInt_eq_iff.mpr]
  · rfl
  · constructor <;> omega

/-- One call hands out one name. -/
theorem htmlMakeId_request {tab : List IdEntry} {c : IdBase → Nat} (htab : Supplies tab c)
    {n : SynTree} {buf : CStr} (hbuf : idBase n = some buf) (unique : Int) (hunique : unique ≠ 0)
    (hsmall : ∀ b, c b + 1 < 2 ^ 31) :
    let r : Request IdBase := ⟨⟨buf, tilde_notMem_idBase hbuf⟩, decide (unique = 1)⟩
    (htmlMakeId tab n unique).1 = some (idName r.base (ordinal c r)) ∧
      Supplies (htmlMakeId tab n unique).2 (next c r) := by
  intro r
  have hbase : r.base.val = buf := rfl
  have hfind : findId tab buf = if c r.base = 0 then none else some (c r.base : Int) := htab r.base
  -- The ordinal number computed by the function.
  have hord : nextOrd unique (findId tab buf) = (ordinal c r : Int) := by
    have hsmall' := hsmall r.base
    have hr : r.fresh = decide (unique = 1) := rfl
    rw [hfind, ordinal, hr]
    generalize c r.base = k at hsmall' ⊢
    by_cases hk : k = 0
    · rw [if_pos hk, nextOrd, hk]
      split <;> rfl
    · rw [if_neg hk, nextOrd, wrapInt_succ hsmall']
      by_cases hone : unique = 1
      · rw [if_pos hone, if_pos (by simpa using hone)]
      · rw [if_neg hone, if_neg (by simpa using hone), Nat.max_eq_left (by omega)]
  have hid : (if (1 : Int) < (ordinal c r : Int) then buf ++ '~' :: formatInt (ordinal c r : Int)
      else buf) = idName r.base (ordinal c r) := by
    have hformat : formatInt (ordinal c r : Int) = Nat.toDigits 10 (ordinal c r) := by
      rw [formatInt, if_neg (by omega), Int.natAbs_natCast]
    rw [hformat, idName, hbase]
    by_cases hlt : 1 < ordinal c r
    · rw [if_pos (by omega), if_pos hlt]
    · rw [if_neg (by omega), if_neg hlt]
  have heval : htmlMakeId tab n unique =
      (some (idName r.base (ordinal c r)), setId tab buf (ordinal c r)) := by
    rw [← hid, ← hord, htmlMakeId, hbuf]
    simp only [if_neg hunique]
  rw [heval]
  refine ⟨rfl, fun b => ?_⟩
  rw [findId_setId]
  by_cases hb : b = r.base
  · have hpos := ordinal_pos c r
    rw [if_pos (by rw [hb]), hb, next, Function.update_self, if_neg (by omega)]
  · rw [if_neg (fun heq => hb (Subtype.ext heq)), next, Function.update_of_ne hb]
    exact htab b

/-! ## §5 Runs -/

/-- The request for a name made by a call, if it makes one. -/
def request (call : SynTree × Int) : Option (Request IdBase) :=
  match h : idBase call.1 with
  | none => none
  | some buf =>
    if call.2 = 0 then none else some ⟨⟨buf, tilde_notMem_idBase h⟩, decide (call.2 = 1)⟩

/-- The table after a sequence of calls. -/
def idTable (tab : List IdEntry) (calls : List (SynTree × Int)) : List IdEntry :=
  calls.foldl (fun tab call => (htmlMakeId tab call.1 call.2).2) tab

/-- What one call does: without a request, it leaves the table alone, and with a request, it hands
    out the name. -/
theorem htmlMakeId_step {tab : List IdEntry} {c : IdBase → Nat} (htab : Supplies tab c)
    (n : SynTree) (unique : Int) (hsmall : ∀ b, c b + 1 < 2 ^ 31) :
    (request (n, unique) = none ∧ (htmlMakeId tab n unique).2 = tab ∧
        (unique = 1 → (htmlMakeId tab n unique).1 = none)) ∨
      ∃ r, request (n, unique) = some r ∧ r.fresh = decide (unique = 1) ∧
        (htmlMakeId tab n unique).1 = some (idName r.base (ordinal c r)) ∧
        Supplies (htmlMakeId tab n unique).2 (next c r) := by
  cases hbuf : idBase n with
  | none =>
    refine Or.inl ⟨?_, ?_, fun _ => ?_⟩
    · unfold request
      split
      · rfl
      · next buf h => exact absurd (hbuf.symm.trans h) (by simp)
    · rw [htmlMakeId, hbuf]
    · rw [htmlMakeId, hbuf]
  | some buf =>
    have hrequest : request (n, unique) = if unique = 0 then none
        else some ⟨⟨buf, tilde_notMem_idBase hbuf⟩, decide (unique = 1)⟩ := by
      unfold request
      split
      · next h => exact absurd (hbuf.symm.trans h) (by simp)
      · next buf' h =>
        obtain rfl := Option.some.inj (hbuf.symm.trans h)
        rfl
    by_cases hzero : unique = 0
    · refine Or.inl ⟨by rw [hrequest, if_pos hzero], ?_, fun hone => ?_⟩
      · rw [htmlMakeId, hbuf]
        simp [hzero]
      · omega
    · rw [if_neg hzero] at hrequest
      obtain ⟨hres, hnext⟩ := htmlMakeId_request htab hbuf unique hzero hsmall
      exact Or.inr ⟨_, hrequest, rfl, hres, hnext⟩

/-- After some calls, the table still represents a supply of names. -/
theorem idTable_supplies {tab : List IdEntry} {c : IdBase → Nat} (htab : Supplies tab c)
    (calls : List (SynTree × Int)) (hsmall : ∀ b, c b + calls.length < 2 ^ 31) :
    ∃ c', Supplies (idTable tab calls) c' ∧ ∀ b, c' b ≤ c b + calls.length := by
  induction calls generalizing tab c with
  | nil => exact ⟨c, htab, fun b => Nat.le_refl _⟩
  | cons call calls ih =>
    simp only [List.length_cons] at hsmall ⊢
    have hstep := htmlMakeId_step htab call.1 call.2 fun b => by have := hsmall b; omega
    rw [idTable, List.foldl_cons]
    cases hstep with
    | inl hnone =>
      obtain ⟨c', hc', hle⟩ := ih htab fun b => by have := hsmall b; omega
      refine ⟨c', ?_, fun b => by have := hle b; omega⟩
      rw [hnone.2.1]
      exact hc'
    | inr hsome =>
      obtain ⟨r, -, -, -, hnext⟩ := hsome
      have hle' := next_le c r
      obtain ⟨c', hc', hle⟩ := ih hnext fun b => by have := hsmall b; have := hle' b; omega
      exact ⟨c', hc', fun b => by have := hle b; have := hle' b; omega⟩

/-- The strings returned by the first calls are the fresh names of the supply. -/
theorem firstIds_eq_freshNames {tab : List IdEntry} {c : IdBase → Nat} (htab : Supplies tab c)
    (calls : List (SynTree × Int)) (hsmall : ∀ b, c b + calls.length < 2 ^ 31) :
    firstIds tab calls = freshNames idName c (calls.filterMap request) := by
  induction calls generalizing tab c with
  | nil => rfl
  | cons call calls ih =>
    obtain ⟨n, unique⟩ := call
    simp only [List.length_cons] at hsmall
    have hstep := htmlMakeId_step htab n unique fun b => by have := hsmall b; omega
    rw [firstIds]
    -- Either the node gets no identifier, or it gets the next one for its text.
    cases hstep with
    | inl hnone =>
      obtain ⟨hreq, htab', hres⟩ := hnone
      rw [List.filterMap_cons_none hreq, htab',
        ih htab fun b => by have := hsmall b; omega]
      by_cases hone : unique = 1
      · rw [if_pos hone, hres hone]
        rfl
      · rw [if_neg hone]
        rfl
    | inr hsome =>
      obtain ⟨r, hreq, hfresh, hres, hnext⟩ := hsome
      have hle := next_le c r
      rw [List.filterMap_cons_some hreq, freshNames, hfresh,
        ih hnext fun b => by have := hsmall b; have := hle b; omega]
      by_cases hone : unique = 1
      · rw [if_pos hone, if_pos (by simpa using hone), hres]
        rfl
      · rw [if_neg hone, if_neg (by simpa using hone)]
        rfl

theorem makeIds_append (tab : List IdEntry) (calls calls' : List (SynTree × Int)) :
    makeIds tab (calls ++ calls') = makeIds tab calls ++ makeIds (idTable tab calls) calls' := by
  induction calls generalizing tab with
  | nil => rfl
  | cons call calls ih =>
    rw [List.cons_append, makeIds, makeIds, ih]
    rfl

theorem makeIds_length (tab : List IdEntry) (calls : List (SynTree × Int)) :
    (makeIds tab calls).length = calls.length := by
  induction calls generalizing tab with
  | nil => rfl
  | cons call calls ih => rw [makeIds, List.length_cons, ih, List.length_cons]

/-- A second call for the same node right after the first one returns the same string. -/
theorem htmlMakeId_again {tab : List IdEntry} {c : IdBase → Nat} (htab : Supplies tab c)
    (n : SynTree) (hsmall : ∀ b, c b + 2 < 2 ^ 31) :
    (htmlMakeId (htmlMakeId tab n 1).2 n 2).1 = (htmlMakeId tab n 1).1 := by
  cases hbuf : idBase n with
  | none => rw [htmlMakeId, htmlMakeId, hbuf]
  | some buf =>
    obtain ⟨hres, hnext⟩ := htmlMakeId_request htab hbuf 1 (by decide) fun b => by
      have := hsmall b
      omega
    have hle := next_le c ⟨⟨buf, tilde_notMem_idBase hbuf⟩, true⟩
    obtain ⟨hres', -⟩ := htmlMakeId_request hnext hbuf 2 (by decide) fun b => by
      have := hsmall b
      have := hle b
      simp only [decide_true]
      omega
    rw [hres, hres']
    congr 2
    exact ordinal_again c _

/-- **Unique identifiers.** In a sequence of fewer than `INT_MAX` calls, the strings returned by
    the calls with the value 1 of `unique` differ, and a call with the value 2 for the same node
    right after such a call returns the same string. -/
theorem htmlMakeId_unique (calls : List (SynTree × Int)) (hcalls : calls.length < 2 ^ 31 - 1) :
    (firstIds [] calls).Nodup ∧
      ∀ pre n post, calls = pre ++ (n, 1) :: (n, 2) :: post →
        ∃ ids id ids', makeIds [] calls = ids ++ id :: id :: ids' ∧ ids.length = pre.length := by
  have hempty : Supplies [] fun _ => 0 := fun b => rfl
  constructor
  · rw [firstIds_eq_freshNames hempty calls fun b => by omega]
    exact freshNames_nodup idName_inj _ _
  · rintro pre n post rfl
    rw [List.length_append, List.length_cons, List.length_cons] at hcalls
    obtain ⟨c, hc, hle⟩ := idTable_supplies hempty pre fun b => by omega
    have hagain := htmlMakeId_again hc n fun b => by have := hle b; omega
    rw [makeIds_append, makeIds, makeIds, hagain]
    exact ⟨_, _, _, rfl, makeIds_length [] pre⟩

/-- Two sections with the same title. -/
theorem htmlMakeId_unique_sections :
    (firstIds [] [(.node { type := .HEAD, tok := .MDOC "Sh" } none [textNode "BUGS"], 1),
      (.node { type := .HEAD, tok := .MDOC "Sh" } none [textNode "BUGS"], 1)]).Nodup ∧
    firstIds [] [(.node { type := .HEAD, tok := .MDOC "Sh" } none [textNode "BUGS"], 1),
      (.node { type := .HEAD, tok := .MDOC "Sh" } none [textNode "BUGS"], 1)] =
        ["BUGS".toList, "BUGS~2".toList] :=
  ⟨(htmlMakeId_unique _ (by decide)).1, by decide +kernel⟩

end Mandoc
