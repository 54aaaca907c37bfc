import Mandoc.Lib.Ensures
import Mandoc.Lib.NumberedParts
import Mandoc.Term.PsLetters

/-!
# The Objects of a PDF File

A PDF file consists of numbered objects, a cross-reference table with their offsets, and a trailer.
The numbers are computed from the number of pages, at four different places in `term_ps.c`.

- `PdfObject` are the objects, and `documentObjects` are the ones of a document with given pages.
- `PdfFile` says that a file contains these objects, and that all the references are right.
- `psDocument_pdfFile` shows this for each document that is printed.
-/

namespace Mandoc

open NumberedParts

/-! ## §1 Objects -/

/-- The objects of a PDF file. -/
inductive PdfObject where
  | info
  | font (f : TermFont)
  /-- The content of a page, with a reference to its length. -/
  | content (len : Nat) (text : CStr)
  | length (len : Nat)
  | resource
  /-- A page node, with a reference to its content. -/
  | node (contents : Nat)
  /-- The list of the page nodes. -/
  | pages (kids : List Nat)
  | catalog

/-- What is printed before the content of a page. -/
def contentHead (len : Nat) : CStr :=
  "<<\n/Length ".toList ++ dec len ++ " 0 R\n>>\nstream\n".toList

/-- What is printed behind the content of a page. -/
def contentTail : CStr := "endstream\nendobj\n".toList

/-- The list of the page nodes, as a text. -/
def kidsObject (d : PsDevice) (kids : List Nat) : CStr :=
  "<<\n/Type /Pages\n/MediaBox [0 0 ".toList ++ dec d.width ++ " ".toList ++ dec d.height ++
  "]\n/Count ".toList ++ dec kids.length ++ "\n/Kids [".toList ++
  kids.flatMap (fun n => " ".toList ++ dec n ++ " 0 R".toList) ++ "]\n>>\nendobj\n".toList

/-- An object as a text. -/
def PdfObject.text (d : PsDevice) : PdfObject → CStr
  | .info => "<<\n>>\nendobj\n".toList
  | .font f => fontObject d f
  | .content len text => contentHead len ++ text ++ contentTail
  | .length len => lengthObject len
  | .resource => resourceObject
  | .node contents => pageObject contents
  | .pages kids => kidsObject d kids
  | .catalog => catalogObject

/-- An object with its number. -/
abbrev NumberedObject : Type := Nat × PdfObject

/-- A numbered object as a part of the file. -/
def part (d : PsDevice) (o : NumberedObject) : Nat × CStr := (o.1, objHeader o.1 ++ o.2.text d)

/-- The objects that come first. -/
def prologueObjects : List NumberedObject :=
  (1, .info) :: allFonts.map fun f => (f.num + 3, .font f)

/-- The objects of a page. -/
def pageObjects (k : Nat) (text : CStr) : List NumberedObject :=
  [(k * 4 + 7, .content (k * 4 + 8) text), (k * 4 + 8, .length text.length), (k * 4 + 9, .resource),
    (k * 4 + 10, .node (k * 4 + 7))]

/-- The objects of all the pages. -/
def bodyObjects (contents : List CStr) : List NumberedObject :=
  contents.zipIdx.flatMap fun c => pageObjects c.2 c.1

/-- The objects that come last. -/
def finalObjects (n : Nat) : List NumberedObject :=
  [(2, .pages ((List.range n).map fun k => k * 4 + 10)), (n * 4 + 7, .catalog)]

/-- All the objects. -/
def documentObjects (contents : List CStr) : List NumberedObject :=
  prologueObjects ++ bodyObjects contents ++ finalObjects contents.length

/-- The number of a page node. -/
def nodeNumber : NumberedObject → Option Nat
  | (n, .node _) => some n
  | _ => none

theorem bodyObjects_snoc (contents : List CStr) (text : CStr) :
    bodyObjects (contents ++ [text]) = bodyObjects contents ++ pageObjects contents.length text := by
  unfold bodyObjects
  rw [List.zipIdx_append, List.flatMap_append, Nat.zero_add]
  exact congrArg _ (List.flatMap_singleton _ _)

/-- The pages have consecutive numbers. -/
theorem bodyObjects_numbers (contents : List CStr) :
    (bodyObjects contents).map Prod.fst = List.range' 7 (contents.length * 4) := by
  induction contents using List.reverseRecOn with
  | nil => rfl
  | append_singleton contents text ih =>
    rw [bodyObjects_snoc, List.map_append, ih, List.length_append, List.length_singleton,
      Nat.add_mul, ← List.range'_append_1]
    refine congrArg _ ?_
    simp only [pageObjects, List.map_cons, List.map_nil, List.range'_succ, List.range'_zero, Nat.one_mul]
    rw [Nat.add_comm 7]

/-- Each number up to the one of the catalog is used exactly once. -/
theorem documentObjects_numbers (contents : List CStr) :
    ((documentObjects contents).map Prod.fst).Perm (List.range' 1 (contents.length * 4 + 7)) := by
  have hrange : List.range' 1 (contents.length * 4 + 7) = List.range' 1 6 ++
      (List.range' 7 (contents.length * 4) ++ List.range' (7 + contents.length * 4) 1) := by
    have hfirst : List.range' 1 6 ++ List.range' (1 + 6) (contents.length * 4 + 1) =
        List.range' 1 (6 + (contents.length * 4 + 1)) := List.range'_append_1
    rw [List.range'_append_1, hfirst]
    exact congrArg (fun m => List.range' 1 m) (by omega)
  rw [hrange, documentObjects, List.map_append, List.map_append, bodyObjects_numbers,
    Nat.add_comm 7]
  -- Only the list of the pages is in another place.
  have hmoved : ([3, 4, 5, 6] ++ List.range' 7 (contents.length * 4) ++
      2 :: [contents.length * 4 + 7]).Perm _ := List.perm_middle
  exact List.Perm.cons 1 hmoved

/-! ## §2 References between objects -/

theorem mem_bodyObjects {contents : List CStr} {o : NumberedObject} :
    o ∈ bodyObjects contents ↔ ∃ k text, contents[k]? = some text ∧ o ∈ pageObjects k text := by
  unfold bodyObjects
  rw [List.mem_flatMap]
  constructor
  · intro ⟨⟨text, k⟩, hmem, ho⟩
    exact ⟨k, text, List.mem_zipIdx_iff_getElem?.mp hmem, ho⟩
  · intro ⟨k, text, hget, ho⟩
    exact ⟨(text, k), List.mem_zipIdx_iff_getElem?.mpr hget, ho⟩

theorem mem_body_of_mem {contents : List CStr} {o : NumberedObject} (h : o ∈ documentObjects contents)
    (hpro : o ∉ prologueObjects) (hfinal : o ∉ finalObjects contents.length) :
    o ∈ bodyObjects contents := by
  obtain h | h := List.mem_append.mp h
  · exact (List.mem_append.mp h).resolve_left hpro
  · exact absurd h hfinal

theorem mem_document_of_mem_body {contents : List CStr} {o : NumberedObject}
    (h : o ∈ bodyObjects contents) : o ∈ documentObjects contents :=
  List.mem_append_left _ (List.mem_append_right _ h)

/-- The object that a content refers to has its length. -/
theorem documentObjects_lengths {contents : List CStr} {n len : Nat} {text : CStr}
    (h : (n, .content len text) ∈ documentObjects contents) :
    (len, .length text.length) ∈ documentObjects contents := by
  have hbody := mem_body_of_mem h (by simp [prologueObjects]) (by simp [finalObjects])
  obtain ⟨k, text', hget, ho⟩ := mem_bodyObjects.mp hbody
  obtain ⟨rfl, rfl, rfl⟩ : n = k * 4 + 7 ∧ len = k * 4 + 8 ∧ text = text' := by
    simpa [pageObjects] using ho
  exact mem_document_of_mem_body (mem_bodyObjects.mpr ⟨k, text, hget, by simp [pageObjects]⟩)

/-- The object that a page node refers to is a content. -/
theorem documentObjects_nodes {contents : List CStr} {n c : Nat}
    (h : (n, .node c) ∈ documentObjects contents) :
    ∃ len text, (c, .content len text) ∈ documentObjects contents := by
  have hbody := mem_body_of_mem h (by simp [prologueObjects]) (by simp [finalObjects])
  obtain ⟨k, text, hget, ho⟩ := mem_bodyObjects.mp hbody
  obtain ⟨-, rfl⟩ : n = k * 4 + 10 ∧ c = k * 4 + 7 := by simpa [pageObjects] using ho
  exact ⟨k * 4 + 8, text,
    mem_document_of_mem_body (mem_bodyObjects.mpr ⟨k, text, hget, by simp [pageObjects]⟩)⟩

theorem bodyObjects_nodes (contents : List CStr) :
    (bodyObjects contents).filterMap nodeNumber =
      (List.range contents.length).map fun k => k * 4 + 10 := by
  induction contents using List.reverseRecOn with
  | nil => rfl
  | append_singleton contents text ih =>
    rw [bodyObjects_snoc, List.filterMap_append, ih, List.length_append, List.length_singleton,
      List.range_succ, List.map_append]
    rfl

/-- The list of the page nodes has all of them. -/
theorem documentObjects_kids {contents : List CStr} {n : Nat} {kids : List Nat}
    (h : (n, .pages kids) ∈ documentObjects contents) :
    kids = (documentObjects contents).filterMap nodeNumber := by
  have hno : ∀ {k text}, (n, PdfObject.pages kids) ∉ pageObjects k text := by simp [pageObjects]
  have hnodes : (documentObjects contents).filterMap nodeNumber =
      (List.range contents.length).map fun k => k * 4 + 10 := by
    rw [documentObjects, List.filterMap_append, List.filterMap_append, bodyObjects_nodes]
    exact List.append_nil _
  rw [hnodes]
  obtain h | h := List.mem_append.mp h
  · obtain h | h := List.mem_append.mp h
    · exact absurd h (by simp [prologueObjects])
    · obtain ⟨k, text, -, ho⟩ := mem_bodyObjects.mp h
      exact absurd ho hno
  · have hfinal : n = 2 ∧ kids = (List.range contents.length).map fun k => k * 4 + 10 := by
      simpa [finalObjects] using h
    exact hfinal.2

/-! ## §3 What was written -/

variable {d : PsDevice} {st st' : PsState}

/-- The first line of a PDF file. -/
def pdfHead : CStr := "%PDF-1.1\n".toList

/-- The file that was written so far. -/
structure PdfWritten (st : PsState) (parts : List (Nat × CStr)) : Prop where
  out : st.out = pdfHead ++ render parts
  bytes : st.pdfbytes = st.out.length
  table : Points pdfHead.length parts fun n => st.pdfobjs (n - 1)
  objs : st.objs = parts.map Prod.fst
  pos : ∀ n ∈ parts.map Prod.fst, 0 < n

/-- The bookkeeping about pages is not changed. -/
structure SamePage (st st' : PsState) : Prop where
  margins : st'.margins = st.margins
  newpage : st'.newpage = st.newpage
  inline : st'.inline = st.inline
  pages : st'.pages = st.pages
  pdfbody : st'.pdfbody = st.pdfbody

theorem SamePage.refl (st : PsState) : SamePage st st := ⟨rfl, rfl, rfl, rfl, rfl⟩

theorem SamePage.trans {st'' : PsState} (h : SamePage st st') (h' : SamePage st' st'') :
    SamePage st st'' :=
  ⟨h'.margins.trans h.margins, h'.newpage.trans h.newpage, h'.inline.trans h.inline,
    h'.pages.trans h.pages, h'.pdfbody.trans h.pdfbody⟩

/-- The last part of the file is extended. -/
theorem PdfWritten.extend {parts : List (Nat × CStr)} {n : Nat} {text s : CStr}
    (h : PdfWritten st (parts ++ [(n, text)])) (hout : st'.out = st.out ++ s)
    (hbytes : st'.pdfbytes = st.pdfbytes + s.length) (htable : st'.pdfobjs = st.pdfobjs)
    (hobjs : st'.objs = st.objs) : PdfWritten st' (parts ++ [(n, text ++ s)]) where
  out := by rw [hout, h.out, render_extend, List.append_assoc]
  bytes := by rw [hbytes, hout, h.bytes, List.length_append]
  table := by
    rw [htable]
    exact h.table.grow
  objs := by
    rw [hobjs, h.objs, List.map_append, List.map_append]
    rfl
  pos := by
    have hpos := h.pos
    rw [List.map_append] at hpos ⊢
    exact hpos

theorem PdfWritten.print {parts : List (Nat × CStr)} {n : Nat} {text : CStr}
    (h : PdfWritten st (parts ++ [(n, text)])) (hmargins : st.margins = false) (s : CStr) :
    PdfWritten (psPrintf s st) (parts ++ [(n, text ++ s)]) ∧ SamePage st (psPrintf s st) := by
  unfold psPrintf
  rw [if_neg (by rw [hmargins]; exact Bool.false_ne_true)]
  exact ⟨h.extend rfl rfl rfl rfl, ⟨rfl, rfl, rfl, rfl, rfl⟩⟩

/-- A new part begins. -/
theorem PdfWritten.obj {parts : List (Nat × CStr)} {n : Nat} (h : PdfWritten st parts)
    (hmargins : st.margins = false) (hnew : n ∉ parts.map Prod.fst) :
    Ensures (pdfObj n st) fun st' =>
      PdfWritten st' (parts ++ [(n, objHeader n)]) ∧ SamePage st st' := by
  unfold pdfObj
  refine Ensures.ite (fun _ => Ensures.error_iff.mpr trivial) fun hpos => Ensures.ok_iff.mpr ?_
  unfold psPrintf
  rw [if_neg (by rw [hmargins]; exact Bool.false_ne_true)]
  refine ⟨⟨?_, ?_, ?_, ?_, ?_⟩, ⟨rfl, rfl, rfl, rfl, rfl⟩⟩
  · rw [render_append, render_singleton, ← List.append_assoc, ← h.out]
  · rw [h.bytes]
    exact List.length_append.symm
  · apply h.table.snoc
    · show Function.update st.pdfobjs (n - 1) st.pdfbytes (n - 1) = _
      rw [Function.update_self, h.bytes, h.out, List.length_append]
    · intro m hm
      have hne : m - 1 ≠ n - 1 := by
        have hmpos := h.pos m hm
        have hmn : m ≠ n := fun heq => hnew (heq ▸ hm)
        omega
      exact Function.update_of_ne hne _ _
  · rw [h.objs, List.map_append]
    rfl
  · intro m hm
    rw [List.map_append] at hm
    obtain hm | hm := List.mem_append.mp hm
    · exact h.pos m hm
    · rw [List.mem_singleton.mp hm]
      exact Nat.pos_of_ne_zero hpos

/-- A new part begins, and text follows. -/
theorem PdfWritten.object {parts : List (Nat × CStr)} {n : Nat} (h : PdfWritten st parts)
    (hmargins : st.margins = false) (hnew : n ∉ parts.map Prod.fst) (s : CStr) :
    Ensures (pdfObject n s st) fun st' =>
      PdfWritten st' (parts ++ [(n, objHeader n ++ s)]) ∧ SamePage st st' := by
  unfold pdfObject
  apply Ensures.of_imp
  intro st' hst'
  obtain ⟨st₁, hst₁, rfl⟩ := Res.map_eq_ok.mp hst'
  obtain ⟨hwritten, hsame⟩ := (h.obj hmargins hnew).of_eq_ok hst₁
  obtain ⟨hwritten', hsame'⟩ := hwritten.print (hsame.margins.trans hmargins) s
  exact ⟨hwritten', hsame.trans hsame'⟩

/-! ## §4 What printing letters does to the file -/

/-- Some text was printed, if a page is open, and nothing else happened to the file. -/
structure Typed (st st' : PsState) : Prop where
  text : ∃ s, st'.out = st.out ++ s ∧ st'.pdfbytes = st.pdfbytes + s.length ∧
    (s ≠ [] → st.margins = false ∧ st.newpage = false)
  inline : st'.inline = true → st.inline = true ∨ st.newpage = false
  margins : st'.margins = st.margins
  newpage : st'.newpage = st.newpage
  pages : st'.pages = st.pages
  pdfbody : st'.pdfbody = st.pdfbody
  pdflastpg : st'.pdflastpg = st.pdflastpg
  pdfobjs : st'.pdfobjs = st.pdfobjs
  objs : st'.objs = st.objs

/-- We're in a word only if a page is open. -/
def WordOnPage (st : PsState) : Prop := st.inline = true → st.newpage = false

/-- Nothing about the file was changed. -/
theorem Typed.of_same (hout : st'.out = st.out) (hbytes : st'.pdfbytes = st.pdfbytes)
    (hinline : st'.inline = st.inline) (hmargins : st'.margins = st.margins)
    (hnew : st'.newpage = st.newpage) (hpages : st'.pages = st.pages)
    (hbody : st'.pdfbody = st.pdfbody) (hlast : st'.pdflastpg = st.pdflastpg)
    (hpdfobjs : st'.pdfobjs = st.pdfobjs) (hobjs : st'.objs = st.objs) : Typed st st' where
  text := ⟨[], hout.trans (List.append_nil _).symm, hbytes, fun h => absurd rfl h⟩
  inline h := Or.inl (hinline ▸ h)
  margins := hmargins
  newpage := hnew
  pages := hpages
  pdfbody := hbody
  pdflastpg := hlast
  pdfobjs := hpdfobjs
  objs := hobjs

theorem Typed.refl (st : PsState) : Typed st st :=
  .of_same rfl rfl rfl rfl rfl rfl rfl rfl rfl rfl

theorem Typed.trans {st'' : PsState} (h : Typed st st') (h' : Typed st' st'') : Typed st st'' where
  text := by
    obtain ⟨s, hout, hbytes, hs⟩ := h.text
    obtain ⟨s', hout', hbytes', hs'⟩ := h'.text
    refine ⟨s ++ s', ?_, ?_, fun hne => ?_⟩
    · rw [hout', hout, List.append_assoc]
    · rw [hbytes', hbytes, List.length_append, Nat.add_assoc]
    · by_cases hnil : s = []
      · rw [← h.margins, ← h.newpage]
        exact hs' fun hnil' => hne (by rw [hnil, hnil']; rfl)
      · exact hs hnil
  inline hinline := by
    obtain hinline | hnew := h'.inline hinline
    · exact h.inline hinline
    · exact Or.inr (h.newpage ▸ hnew)
  margins := h'.margins.trans h.margins
  newpage := h'.newpage.trans h.newpage
  pages := h'.pages.trans h.pages
  pdfbody := h'.pdfbody.trans h.pdfbody
  pdflastpg := h'.pdflastpg.trans h.pdflastpg
  pdfobjs := h'.pdfobjs.trans h.pdfobjs
  objs := h'.objs.trans h.objs

theorem Typed.wordOnPage (h : Typed st st') (hst : WordOnPage st) : WordOnPage st' := by
  intro hinline
  rw [h.newpage]
  obtain hinline | hnew := h.inline hinline
  · exact hst hinline
  · exact hnew

theorem psPrintf_typed (hnew : st.newpage = false) (s : CStr) : Typed st (psPrintf s st) := by
  unfold psPrintf
  split_ifs with hmargins
  · exact .of_same rfl rfl rfl rfl rfl rfl rfl rfl rfl rfl
  · exact ⟨⟨s, rfl, rfl, fun _ => ⟨Bool.eq_false_iff.mpr hmargins, hnew⟩⟩, Or.inl, rfl, rfl, rfl,
      rfl, rfl, rfl, rfl⟩

theorem psPutchar_typed (hnew : st.newpage = false) (c : Char) : Typed st (psPutchar c st) := by
  unfold psPutchar
  split_ifs with hmargins
  · exact .of_same rfl rfl rfl rfl rfl rfl rfl rfl rfl rfl
  · exact ⟨⟨[c], rfl, rfl, fun _ => ⟨Bool.eq_false_iff.mpr hmargins, hnew⟩⟩, Or.inl, rfl, rfl, rfl,
      rfl, rfl, rfl, rfl⟩

theorem psSetfont_typed (f : TermFont) (st : PsState) : Typed st (psSetfont d f st) := by
  have hset : Typed st { st with lastf := f } := .of_same rfl rfl rfl rfl rfl rfl rfl rfl rfl rfl
  unfold psSetfont
  simp only
  split_ifs with hnew
  · exact hset
  · exact hset.trans (psPrintf_typed (hset.newpage.trans (Bool.eq_false_iff.mpr hnew)) _)
  · exact hset.trans (psPrintf_typed (hset.newpage.trans (Bool.eq_false_iff.mpr hnew)) _)

theorem typed_close (hnew : st.newpage = false) (s : CStr) (lastrow : Nat) :
    Typed st { psPrintf s st with inline := false, lastrow := lastrow } := by
  have h := psPrintf_typed hnew s
  exact ⟨h.text, Bool.noConfusion, h.margins, h.newpage, h.pages, h.pdfbody, h.pdflastpg, h.pdfobjs,
    h.objs⟩

theorem psPclose_typed (hst : WordOnPage st) : Typed st (psPclose d st) := by
  unfold psPclose
  split_ifs with hinline
  · exact typed_close (hst hinline) _ _
  · exact typed_close (hst hinline) _ _
  · exact typed_close (hst hinline) _ _
  · exact Typed.refl st

theorem psOpenWord_typed (hnew : st.newpage = false) : Typed st (psOpenWord d st) := by
  have hopen : ∀ s, Typed st { psPrintf s st with inline := true } := by
    intro s
    have h := psPrintf_typed hnew s
    exact ⟨h.text, fun _ => Or.inr hnew, h.margins, h.newpage, h.pages, h.pdfbody, h.pdflastpg,
      h.pdfobjs, h.objs⟩
  unfold psOpenWord
  split_ifs
  · exact Typed.refl st
  · exact hopen _
  · exact hopen _
  · exact hopen _

theorem psShow_typed (hnew : st.newpage = false) (c : Char) : Typed st (psShow d c st) := by
  have hescape : Typed st (if c = '(' ∨ c = ')' ∨ c = '\\' then psPutchar '\\' st else st) := by
    split_ifs
    · exact psPutchar_typed hnew _
    · exact Typed.refl st
  have hglyph := hescape.trans (psPutchar_typed (hescape.newpage.trans hnew) (psGlyph c))
  exact hglyph.trans (.of_same rfl rfl rfl rfl rfl rfl rfl rfl rfl rfl)

theorem psSetNextfont_typed (hst : WordOnPage st) : Typed st (psSetNextfont d st) := by
  have hnext : ∀ st : PsState, Typed st { st with nextf := .NONE } := fun _ =>
    .of_same rfl rfl rfl rfl rfl rfl rfl rfl rfl rfl
  unfold psSetNextfont
  simp only
  split_ifs
  · exact ((psPclose_typed hst).trans (psSetfont_typed _ _)).trans (hnext _)
  · exact hnext st

theorem psCenter_typed (c : Char) (st : PsState) : Ensures (psCenter d c st) (Typed st) := by
  unfold psCenter
  refine Ensures.ite (fun _ => Ensures.ok_iff.mpr (Typed.refl st)) fun _ => Ensures.of_imp ?_
  intro st' hst'
  obtain ⟨i, -, rfl⟩ := Res.map_eq_ok.mp hst'
  simp only
  split_ifs
  · exact .of_same rfl rfl rfl rfl rfl rfl rfl rfl rfl rfl
  · exact Typed.refl st

/-- Between two ends of lines, text is printed and pages are opened. -/
inductive PsMoves (d : PsDevice) : PsState → PsState → Prop
  | typed {st st' : PsState} (h : Typed st st') : PsMoves d st st'
  | opened {st st' : PsState} (h : psOpenPage d st = .ok st') : PsMoves d st st'
  | trans {st st' st'' : PsState} (h : PsMoves d st st') (h' : PsMoves d st' st'') : PsMoves d st st''

theorem psOpenPage_newpage : Ensures (psOpenPage d st) fun st' => st'.newpage = false := by
  unfold psOpenPage
  refine Ensures.ite (fun _ => Ensures.of_imp ?_) fun hnew =>
    Ensures.ok_iff.mpr (Bool.eq_false_iff.mpr hnew)
  intro st' hst'
  obtain ⟨st₁, -, rfl⟩ := Res.map_eq_ok.mp hst'
  rfl

theorem PsMoves.wordOnPage (h : PsMoves d st st') (hst : WordOnPage st) : WordOnPage st' := by
  induction h with
  | typed h => exact h.wordOnPage hst
  | opened h => exact fun _ => psOpenPage_newpage.of_eq_ok h
  | trans _ _ ih ih' => exact ih' (ih hst)

theorem psPletter_moves (c : Char) (st : PsState) : Ensures (psPletter d c st) (PsMoves d st) := by
  unfold psPletter
  refine Ensures.call_eq fun st₁ hst₁ => ?_
  have hnew := psOpenPage_newpage.of_eq_ok hst₁
  have hword := psOpenWord_typed (d := d) hnew
  refine Ensures.ite (fun _ => Ensures.error_iff.mpr trivial) fun _ => Ensures.ok_iff.mpr ?_
  exact .trans (.opened hst₁)
    (.typed (hword.trans (psShow_typed (hword.newpage.trans hnew) c)))

theorem psPlast_moves (hst : WordOnPage st) : Ensures (psPlast d st) (PsMoves d st) := by
  unfold psPlast
  cases st.last with
  | none => exact Ensures.ok_iff.mpr (.typed (Typed.refl st))
  | some c =>
    have hfont := psSetNextfont_typed (d := d) hst
    refine (psCenter_typed c _).bind fun st₁ h₁ => (psPletter_moves c st₁).bind fun st₂ h₂ => ?_
    have hmoves : PsMoves d st { st₂ with last := none } :=
      ((PsMoves.typed (hfont.trans h₁)).trans h₂).trans
        (.typed (.of_same rfl rfl rfl rfl rfl rfl rfl rfl rfl rfl))
    refine Ensures.ite (fun _ => ?_) fun _ => Ensures.pure_iff.mpr hmoves
    have hclose := psPclose_typed (d := d) (hmoves.wordOnPage hst)
    exact Ensures.pure_iff.mpr (hmoves.trans (.typed (hclose.trans
      (.of_same rfl rfl rfl rfl rfl rfl rfl rfl rfl rfl))))

theorem psRemember_moves (hst : WordOnPage st) (c : Char) (savecol : Option Nat) :
    Ensures (psRemember d c savecol st) (PsMoves d st) := by
  unfold psRemember
  refine (psPlast_moves hst).bind fun st₁ h₁ => ?_
  cases savecol with
  | none =>
    exact Ensures.pure_iff.mpr (h₁.trans (.typed (.of_same rfl rfl rfl rfl rfl rfl rfl rfl rfl rfl)))
  | some savecol =>
    have hlast : Typed st₁ { st₁ with last := some c, pscolnext := max st₁.pscolnext st₁.pscol } :=
      .of_same rfl rfl rfl rfl rfl rfl rfl rfl rfl rfl
    have hclose := psPclose_typed (d := d) (hlast.wordOnPage (h₁.wordOnPage hst))
    exact Ensures.pure_iff.mpr (h₁.trans (.typed ((hlast.trans hclose).trans
      (.of_same rfl rfl rfl rfl rfl rfl rfl rfl rfl rfl))))

theorem psLetter_moves (hst : WordOnPage st) (arg : Char) : Ensures (psLetter d arg st) (PsMoves d st) := by
  have hsame : ∀ (backsp : Bool) (nextf : TermFont) (last : Option Char),
      PsMoves d st { st with backsp := backsp, nextf := nextf, last := last } := fun _ _ _ =>
    .typed (.of_same rfl rfl rfl rfl rfl rfl rfl rfl rfl rfl)
  unfold psLetter
  refine Ensures.ite (fun _ => Ensures.ite (fun _ => Ensures.error_iff.mpr trivial) fun _ =>
    Ensures.ok_iff.mpr (hsame _ _ _)) fun _ => Ensures.ite (fun _ => Ensures.ite
      (fun _ => Ensures.ok_iff.mpr (hsame _ _ _)) fun _ => Ensures.ite
        (fun _ => Ensures.ok_iff.mpr (hsame _ _ _)) fun _ => ?_) fun _ => ?_
  · exact psRemember_moves hst _ _
  · exact psRemember_moves hst _ _

theorem psAdvance_moves (hst : WordOnPage st) (len : Nat) :
    Ensures (psAdvance d len st) (PsMoves d st) := by
  unfold psAdvance
  refine (psPlast_moves hst).bind fun st₁ h₁ => Ensures.pure_iff.mpr ?_
  have hclose := psPclose_typed (d := d) (h₁.wordOnPage hst)
  exact h₁.trans (.typed (hclose.trans (.of_same rfl rfl rfl rfl rfl rfl rfl rfl rfl rfl)))

/-- A page that can be closed. -/
structure Closable (st : PsState) : Prop where
  inline : st.inline = false
  margins : st.margins = false
  newpage : st.newpage = false

/-- At the end of a line, a page may be closed. -/
theorem psEndline_moves (hst : WordOnPage st) : Ensures (psEndline d st) fun st' =>
    PsMoves d st st' ∨ ∃ st₁, PsMoves d st st₁ ∧ Closable st₁ ∧ psClosepage d st₁ = .ok st' := by
  unfold psEndline
  refine (psPlast_moves hst).bind fun st₁ h₁ => ?_
  have hclose := psPclose_typed (d := d) (h₁.wordOnPage hst)
  have hmoves : PsMoves d st (psPclose d st₁) := h₁.trans (.typed hclose)
  have hleft : PsMoves d st { psPclose d st₁ with pscol := d.left } :=
    hmoves.trans (.typed (.of_same rfl rfl rfl rfl rfl rfl rfl rfl rfl rfl))
  refine Ensures.ite (fun _ => Ensures.ok_iff.mpr (Or.inl hmoves)) fun hmargins =>
    Ensures.ite (fun _ => Ensures.ok_iff.mpr (Or.inl hleft)) fun hnew =>
      Ensures.ite (fun _ => Ensures.ok_iff.mpr (Or.inl ?_)) fun _ => Ensures.of_imp fun st' hst' => ?_
  · exact hleft.trans (.typed (.of_same rfl rfl rfl rfl rfl rfl rfl rfl rfl rfl))
  · exact Or.inr ⟨_, hleft, ⟨psPclose_inline st₁, Bool.eq_false_iff.mpr hmargins,
      Bool.eq_false_iff.mpr hnew⟩, hst'⟩

/-! ## §5 The pages -/

/-- The object of the page that is open. -/
def openPart (k : Nat) : Option CStr → List (Nat × CStr)
  | none => []
  | some text => [(k * 4 + 7, objHeader (k * 4 + 7) ++ (contentHead (k * 4 + 8) ++ text))]

/-- The parts of the file, when some pages were closed, and one may be open. -/
def bodyParts (d : PsDevice) (contents : List CStr) (cur : Option CStr) : List (Nat × CStr) :=
  (prologueObjects ++ bodyObjects contents).map (part d) ++ openPart contents.length cur

/-- What holds between two requests. -/
structure PdfBody (d : PsDevice) (contents : List CStr) (cur : Option CStr) (st : PsState) : Prop where
  written : PdfWritten st (bodyParts d contents cur)
  margins : st.margins = false
  newpage : st.newpage = cur.isNone
  pages : st.pages = contents.length
  pdfbody : st.pdfbody = TERMFONT_MAX + 3
  lastpg : ∀ text ∈ cur, st.pdflastpg + text.length = st.pdfbytes

theorem map_part_fst (d : PsDevice) (l : List NumberedObject) :
    (l.map (part d)).map Prod.fst = l.map Prod.fst := by
  rw [List.map_map]
  rfl

/-- The numbers of the closed pages are small. -/
theorem numbers_lt (d : PsDevice) (contents : List CStr) :
    ∀ m ∈ (bodyParts d contents none).map Prod.fst, m < contents.length * 4 + 7 := by
  intro m hm
  rw [bodyParts, openPart, List.append_nil, map_part_fst, List.map_append, bodyObjects_numbers] at hm
  obtain hm | hm := List.mem_append.mp hm
  · have hsmall : ∀ n ∈ prologueObjects.map Prod.fst, n < 7 := by decide
    exact Nat.lt_of_lt_of_le (hsmall m hm) (Nat.le_add_left _ _)
  · rw [Nat.add_comm]
    exact (List.mem_range'_1.mp hm).2

theorem not_mem_of_lt {l : List Nat} {n : Nat} (h : ∀ m ∈ l, m < n) : n ∉ l :=
  fun hn => absurd (h n hn) (lt_irrefl n)

/-- All numbers are smaller than the next one. -/
theorem lt_snoc {parts : List (Nat × CStr)} {n : Nat} {s : CStr}
    (h : ∀ m ∈ parts.map Prod.fst, m < n) :
    ∀ m ∈ (parts ++ [(n, s)]).map Prod.fst, m < n + 1 := by
  intro m hm
  rw [List.map_append] at hm
  obtain hm | hm := List.mem_append.mp hm
  · exact Nat.lt_succ_of_lt (h m hm)
  · rw [List.mem_singleton.mp hm]
    exact Nat.lt_succ_self n

theorem PdfBody.typed {contents : List CStr} {cur : Option CStr} (h : PdfBody d contents cur st)
    (ht : Typed st st') : ∃ cur', PdfBody d contents cur' st' := by
  obtain ⟨s, hout, hbytes, hs⟩ := ht.text
  cases cur with
  | none =>
    have hnil : s = [] := by
      by_contra hne
      exact Bool.noConfusion (h.newpage.symm.trans (hs hne).2)
    rw [hnil, List.append_nil] at hout
    have hwritten : PdfWritten st' (bodyParts d contents none) :=
      ⟨hout ▸ h.written.out, by rw [hbytes, hout, hnil]; exact h.written.bytes,
        ht.pdfobjs ▸ h.written.table, ht.objs ▸ h.written.objs, h.written.pos⟩
    exact ⟨none, hwritten, ht.margins.trans h.margins, ht.newpage.trans h.newpage,
      ht.pages.trans h.pages, ht.pdfbody.trans h.pdfbody, fun _ htext => by cases htext⟩
  | some text =>
    have hwritten := h.written.extend hout hbytes ht.pdfobjs ht.objs
    rw [List.append_assoc, List.append_assoc] at hwritten
    refine ⟨some (text ++ s), hwritten, ht.margins.trans h.margins, ht.newpage.trans h.newpage,
      ht.pages.trans h.pages, ht.pdfbody.trans h.pdfbody, fun _ htext => ?_⟩
    rw [← Option.mem_some.mp htext, List.length_append, ht.pdflastpg, hbytes, ← h.lastpg text rfl,
      Nat.add_assoc]

theorem PdfBody.opened {contents : List CStr} {cur : Option CStr} (hd : d.type ≠ .PS)
    (h : PdfBody d contents cur st) :
    Ensures (psOpenPage d st) fun st' => ∃ cur', PdfBody d contents cur' st' := by
  unfold psOpenPage
  refine Ensures.ite (fun hnew => Ensures.of_imp ?_) fun _ => Ensures.ok_iff.mpr ⟨cur, h⟩
  intro st' hst'
  obtain ⟨st₁, hst₁, rfl⟩ := Res.map_eq_ok.mp hst'
  have hcur : cur = none := by
    rw [h.newpage] at hnew
    exact Option.isNone_iff_eq_none.mp hnew
  subst hcur
  have hnum : st.pdfbody + st.pages * 4 = contents.length * 4 + 7 := by
    rw [h.pdfbody, h.pages]
    exact Nat.add_comm _ _
  have hlen : st.pdfbody + 1 + st.pages * 4 = contents.length * 4 + 8 := by
    rw [Nat.add_right_comm, hnum]
  rw [psPageHead, if_neg hd, hnum, hlen] at hst₁
  obtain ⟨hwritten, hsame⟩ :=
    (h.written.object h.margins (not_mem_of_lt (numbers_lt d contents)) _).of_eq_ok hst₁
  have hparts : bodyParts d contents none ++ [(contents.length * 4 + 7,
      objHeader (contents.length * 4 + 7) ++ contentHead (contents.length * 4 + 8))] =
      bodyParts d contents (some []) := by
    rw [bodyParts, bodyParts, openPart, openPart, List.append_nil, List.append_nil]
  exact ⟨some [], ⟨hparts ▸ hwritten.out, hwritten.bytes, hparts ▸ hwritten.table,
      hparts ▸ hwritten.objs, hparts ▸ hwritten.pos⟩,
    hsame.margins.trans h.margins, rfl, hsame.pages.trans h.pages, hsame.pdfbody.trans h.pdfbody,
    fun text htext => by rw [← Option.mem_some.mp htext]; rfl⟩

theorem PdfBody.moves {contents : List CStr} {cur : Option CStr} (hd : d.type ≠ .PS)
    (hmoves : PsMoves d st st') (h : PdfBody d contents cur st) : ∃ cur', PdfBody d contents cur' st' := by
  induction hmoves generalizing cur with
  | typed ht => exact h.typed ht
  | opened ho => exact (h.opened hd).of_eq_ok ho
  | trans _ _ ih ih' =>
    obtain ⟨cur₁, h₁⟩ := ih h
    exact ih' h₁

theorem bodyParts_snoc (d : PsDevice) (contents : List CStr) (text : CStr) :
    bodyParts d (contents ++ [text]) none =
      bodyParts d contents none ++ (pageObjects contents.length text).map (part d) := by
  rw [bodyParts, bodyParts, bodyObjects_snoc, openPart, openPart, List.append_nil, List.append_nil,
    ← List.append_assoc, List.map_append]

theorem append_four {α : Type} (l : List α) (w x y z : α) :
    l ++ [w] ++ [x] ++ [y] ++ [z] = l ++ [w, x, y, z] := by
  simp only [List.append_assoc, List.cons_append, List.nil_append]

theorem psPageTail_written {contents : List CStr} {text : CStr} (hd : d.type ≠ .PS)
    (h : PdfBody d contents (some text) st) :
    Ensures (psPageTail d st) fun st' =>
      PdfWritten st' (bodyParts d (contents ++ [text]) none) ∧ SamePage st st' := by
  have hlen : st.pdfbytes - st.pdflastpg = text.length := by
    rw [← h.lastpg text rfl, Nat.add_sub_cancel_left]
  have hbase : st.pages * 4 + st.pdfbody = contents.length * 4 + 7 := by rw [h.pages, h.pdfbody]; rfl
  rw [psPageTail, if_neg hd, hlen, hbase, psClosing, bodyParts_snoc]
  have hparts : bodyParts d contents (some text) = bodyParts d contents none ++
      [(contents.length * 4 + 7, objHeader (contents.length * 4 + 7) ++
        (contentHead (contents.length * 4 + 8) ++ text))] := by
    rw [bodyParts, bodyParts, openPart, openPart, List.append_nil]
  have hwritten := h.written
  rw [hparts] at hwritten
  obtain ⟨hw, hsame⟩ := hwritten.print h.margins contentTail
  rw [List.append_assoc (objHeader _)] at hw
  have hlt := lt_snoc (s := objHeader (contents.length * 4 + 7) ++
    (contentHead (contents.length * 4 + 8) ++ text ++ contentTail)) (numbers_lt d contents)
  have hm := hsame.margins.trans h.margins
  rw [bind_assoc]
  refine (hw.object hm (not_mem_of_lt hlt) (lengthObject text.length)).bind fun st₁ h₁ => ?_
  obtain ⟨hw₁, hsame₁⟩ := h₁
  have hlt₁ := lt_snoc (s := objHeader (contents.length * 4 + 8) ++ lengthObject text.length) hlt
  refine (hw₁.object (hsame₁.margins.trans hm) (not_mem_of_lt hlt₁) resourceObject).bind
    fun st₂ h₂ => ?_
  obtain ⟨hw₂, hsame₂⟩ := h₂
  have hlt₂ := lt_snoc (s := objHeader (contents.length * 4 + 9) ++ resourceObject) hlt₁
  have hm₂ := hsame₂.margins.trans (hsame₁.margins.trans hm)
  refine (hw₂.object hm₂ (not_mem_of_lt hlt₂) (pageObject (contents.length * 4 + 7))).mono
    fun st₃ h₃ => ?_
  rw [append_four] at h₃
  exact ⟨h₃.1, ((hsame.trans hsame₁).trans hsame₂).trans h₃.2⟩

/-- The text on the page is followed by the margins, and the four objects of the page are
    completed. -/
theorem PdfBody.closed {contents : List CStr} {cur : Option CStr} (hd : d.type ≠ .PS)
    (h : PdfBody d contents cur st) (hnew : st.newpage = false) :
    Ensures (psClosepage d st) fun st' =>
      st'.inline = st.inline ∧ ∃ text, PdfBody d (contents ++ [text]) none st' := by
  obtain ⟨cur', h'⟩ := h.typed (psPrintf_typed hnew st.psmarg)
  obtain ⟨text, rfl⟩ : ∃ text, cur' = some text := by
    have hnew' := (psPrintf_typed hnew st.psmarg).newpage.trans hnew
    rw [h'.newpage] at hnew'
    exact Option.isSome_iff_exists.mp (Option.isNone_eq_false_iff.mp hnew')
  unfold psClosepage
  refine Ensures.ite (fun _ => Ensures.error_iff.mpr trivial) fun _ => ?_
  refine (psPageTail_written hd h').bind fun st₁ ⟨hwritten, hsame⟩ => ?_
  refine Ensures.ite (fun _ => Ensures.error_iff.mpr trivial) fun _ => Ensures.ok_iff.mpr ?_
  have hpages : st₁.pages + 1 = (contents ++ [text]).length := by
    rw [hsame.pages, h'.pages, List.length_append, List.length_singleton]
  have hinline : (psPrintf st.psmarg st).inline = st.inline := by
    unfold psPrintf
    split_ifs <;> rfl
  exact ⟨hsame.inline.trans hinline, text,
    ⟨hwritten.out, hwritten.bytes, hwritten.table, hwritten.objs, hwritten.pos⟩,
    hsame.margins.trans h'.margins, rfl, hpages, hsame.pdfbody.trans h'.pdfbody,
    fun _ htext => by cases htext⟩

/-! ## §6 Requests -/

/-- What a request does: text is printed and pages are opened, and then a page may be closed. -/
def Requested (d : PsDevice) (st st' : PsState) : Prop :=
  PsMoves d st st' ∨ ∃ st₁, PsMoves d st st₁ ∧ Closable st₁ ∧ psClosepage d st₁ = .ok st'

theorem psCall_requested (hst : WordOnPage st) (c : PsCall) :
    Ensures (psCall d c st) (Requested d st) := by
  cases c with
  | letter c => exact (psLetter_moves hst c).mono fun _ => Or.inl
  | advance len => exact (psAdvance_moves hst len).mono fun _ => Or.inl
  | endline => exact psEndline_moves hst

/-- An invariant of the requests is an invariant of lists of requests. -/
theorem psCalls_invariant {I : PsState → Prop} (hword : ∀ st, I st → WordOnPage st)
    (hstep : ∀ st st', I st → Requested d st st' → I st') (l : List PsCall) (hst : I st) :
    Ensures (psCalls d l st) I := by
  induction l generalizing st with
  | nil => exact Ensures.ok_iff.mpr hst
  | cons c l ih =>
    exact (psCall_requested (hword st hst) c).bind fun st₁ h₁ => ih (hstep st st₁ hst h₁)

/-- While the margins are printed, the file remains empty. -/
structure Quiet (st : PsState) : Prop where
  margins : st.margins = true
  newpage : st.newpage = false
  out : st.out = []
  bytes : st.pdfbytes = 0
  objs : st.objs = []
  pages : st.pages = 0

theorem Quiet.typed (h : Quiet st) (ht : Typed st st') : Quiet st' := by
  obtain ⟨s, hout, hbytes, hs⟩ := ht.text
  have hnil : s = [] := by
    by_contra hne
    exact Bool.noConfusion (h.margins.symm.trans (hs hne).1)
  rw [hnil] at hout hbytes
  exact ⟨ht.margins.trans h.margins, ht.newpage.trans h.newpage,
    hout.trans ((List.append_nil _).trans h.out), hbytes.trans h.bytes, ht.objs.trans h.objs,
    ht.pages.trans h.pages⟩

theorem Quiet.moves (hmoves : PsMoves d st st') (h : Quiet st) : Quiet st' := by
  induction hmoves with
  | typed ht => exact h.typed ht
  | opened ho =>
    rw [psOpenPage, if_neg (by rw [h.newpage]; exact Bool.false_ne_true)] at ho
    exact Except.ok.inj ho ▸ h
  | trans _ _ ih ih' => exact ih' (ih h)

theorem Quiet.calls (h : Quiet st) (l : List PsCall) : Ensures (psCalls d l st) Quiet := by
  refine psCalls_invariant (fun st h _ => h.newpage) (fun st st' h hreq => ?_) l h
  obtain hmoves | ⟨st₁, hmoves, hclosable, -⟩ := hreq
  · exact h.moves hmoves
  · exact Bool.noConfusion (hclosable.margins.symm.trans (h.moves hmoves).margins)

/-- The margins are not printed yet. -/
theorem psMargins_quiet (d : PsDevice) (head foot : List PsCall) :
    Ensures (psMargins d head foot .alloc) Quiet := by
  unfold psMargins
  have hquiet : Quiet { PsState.alloc with
      psmarg := [], inline := false, margins := true, newpage := false, backsp := false
      pscol := d.left, psrow := d.header, lastrow := 0 } := ⟨rfl, rfl, rfl, rfl, rfl, rfl⟩
  refine ((hquiet.typed (psSetfont_typed _ _)).calls _).bind fun st h => ?_
  have hfoot : Quiet { st with pscol := d.left, psrow := d.footer } :=
    ⟨h.margins, h.newpage, h.out, h.bytes, h.objs, h.pages⟩
  exact hfoot.calls _

/-- The pages, with the invariant about words. -/
def InPdfBody (d : PsDevice) (st : PsState) : Prop :=
  WordOnPage st ∧ ∃ contents cur, PdfBody d contents cur st

theorem InPdfBody.requested (hd : d.type ≠ .PS) (h : InPdfBody d st) (hreq : Requested d st st') :
    InPdfBody d st' := by
  obtain ⟨hword, contents, cur, hbody⟩ := h
  obtain hmoves | ⟨st₁, hmoves, hclosable, hst'⟩ := hreq
  · exact ⟨hmoves.wordOnPage hword, contents, hbody.moves hd hmoves⟩
  · obtain ⟨cur₁, hbody₁⟩ := hbody.moves hd hmoves
    obtain ⟨hinline, text, hbody'⟩ := (hbody₁.closed hd hclosable.newpage).of_eq_ok hst'
    refine ⟨fun htrue => ?_, _, _, hbody'⟩
    rw [hinline, hclosable.inline] at htrue
    exact Bool.noConfusion htrue

theorem InPdfBody.calls (hd : d.type ≠ .PS) (h : InPdfBody d st) (l : List PsCall) :
    Ensures (psCalls d l st) (InPdfBody d) :=
  psCalls_invariant (fun _ h => h.1) (fun _ _ h hreq => h.requested hd hreq) l h

/-! ## §7 The beginning and the end of the file -/

theorem pdfFonts_written {parts : List (Nat × CStr)} (l : List TermFont) (h : PdfWritten st parts)
    (hmargins : st.margins = false)
    (hnew : (parts.map Prod.fst ++ l.map fun f : TermFont => f.num + 3).Nodup) :
    Ensures (pdfFonts d l st) fun st' =>
      PdfWritten st' (parts ++ l.map fun f => part d (f.num + 3, .font f)) ∧ SamePage st st' := by
  induction l generalizing st parts with
  | nil =>
    rw [List.map_nil, List.append_nil]
    exact Ensures.ok_iff.mpr ⟨h, SamePage.refl st⟩
  | cons f l ih =>
    rw [List.map_cons] at hnew ⊢
    have hfresh : f.num + 3 ∉ parts.map Prod.fst := fun hmem =>
      (List.nodup_append.mp hnew).2.2 _ hmem _ List.mem_cons_self rfl
    refine (h.object hmargins hfresh (fontObject d f)).bind fun st₁ h₁ => ?_
    obtain ⟨hw₁, hsame₁⟩ := h₁
    have hnew' : ((parts ++ [part d (f.num + 3, .font f)]).map Prod.fst ++
        l.map fun f : TermFont => f.num + 3).Nodup := by
      rw [List.map_append, List.append_assoc]
      exact hnew
    refine (ih hw₁ (hsame₁.margins.trans hmargins) hnew').mono fun st₂ h₂ => ?_
    rw [List.append_assoc] at h₂
    exact ⟨h₂.1, hsame₁.trans h₂.2⟩

/-- The beginning of the file. -/
theorem pdfPrologue_written (h : Quiet st) :
    Ensures (pdfPrologue d { st with margins := false }) fun st' =>
      PdfWritten st' (prologueObjects.map (part d)) ∧ st'.margins = false ∧ st'.pages = 0 ∧
        st'.inline = st.inline := by
  unfold pdfPrologue
  have hhead : psPrintf "%PDF-1.1\n".toList { st with margins := false } =
      { st with
        margins := false, out := st.out ++ pdfHead, pdfbytes := st.pdfbytes + pdfHead.length } := rfl
  rw [hhead]
  have hwritten : PdfWritten
      { st with
        margins := false, out := st.out ++ pdfHead, pdfbytes := st.pdfbytes + pdfHead.length } [] :=
    ⟨by rw [h.out]; exact (List.append_nil _).symm,
      by rw [h.out, h.bytes, Nat.zero_add]; rfl, Points.nil, h.objs,
      fun n hn => absurd hn List.not_mem_nil⟩
  refine (hwritten.object rfl List.not_mem_nil _).bind fun st₁ h₁ => ?_
  obtain ⟨hw₁, hsame₁⟩ := h₁
  refine (pdfFonts_written allFonts hw₁ hsame₁.margins (by decide)).mono fun st₂ h₂ => ?_
  exact ⟨h₂.1, (h₂.2.margins.trans hsame₁.margins), (h₂.2.pages.trans (hsame₁.pages.trans h.pages)),
    h₂.2.inline.trans hsame₁.inline⟩

/-- When the first page begins, no page was closed yet. -/
theorem psBegin_inBody (hd : d.type ≠ .PS) (head foot : List PsCall) :
    Ensures (psBegin d head foot .alloc) (InPdfBody d) := by
  unfold psBegin
  refine (psMargins_quiet d head foot).bind fun st hquiet => ?_
  refine Ensures.ite (fun _ => Ensures.error_iff.mpr trivial) fun hnot => ?_
  rw [psPrologues, if_neg hd]
  refine (pdfPrologue_written hquiet).bind fun st₁ h₁ => Ensures.pure_iff.mpr ?_
  obtain ⟨hw₁, hmargins, hpages, hinline⟩ := h₁
  have hbody : PdfBody d [] none { st₁ with
      pdfbody := TERMFONT_MAX + 3, pscol := d.left, psrow := d.top, newpage := true } :=
    ⟨⟨hw₁.out, hw₁.bytes, hw₁.table, hw₁.objs, hw₁.pos⟩, hmargins, rfl, hpages, rfl,
      fun _ htext => by cases htext⟩
  have hset := psSetfont_typed (d := d) .NONE { st₁ with
      pdfbody := TERMFONT_MAX + 3, pscol := d.left, psrow := d.top, newpage := true }
  refine ⟨hset.wordOnPage fun htrue => ?_, [], hbody.typed hset⟩
  exact absurd (Or.inl (hinline ▸ htrue)) hnot

/-- The file up to the cross-reference table. -/
def fileBody (d : PsDevice) (objects : List NumberedObject) : CStr :=
  pdfHead ++ render (objects.map (part d))

/-- A PDF file with these objects. -/
structure PdfFile (d : PsDevice) (objects : List NumberedObject) (base : Nat) (st : PsState) :
    Prop where
  /-- The calls of `pdf_obj()` define the objects, in this order. -/
  objs : st.objs = objects.map Prod.fst
  /-- Each number is defined by exactly one call. -/
  numbers : st.objs.Perm (List.range' 1 base)
  /-- Behind the objects, there is the cross-reference table, and `startxref` is its offset. -/
  out : st.out = fileBody d objects ++ pdfTrailer st base (fileBody d objects).length
  /-- The entries of the table are the offsets of the objects. -/
  table : Points pdfHead.length (objects.map (part d)) fun n => st.pdfobjs (n - 1)
  /-- That is, each object begins there. -/
  starts : ∀ o ∈ objects, objHeader o.1 ++ o.2.text d <+: st.out.drop (st.pdfobjs (o.1 - 1))
  /-- Each object that is a length has the length of its page. -/
  lengths : ∀ n len text, (n, .content len text) ∈ objects → (len, .length text.length) ∈ objects
  /-- Each page node refers to a content. -/
  nodes : ∀ n c, (n, .node c) ∈ objects → ∃ len text, (c, .content len text) ∈ objects
  /-- The list of the page nodes has exactly all of them. -/
  kids : ∀ n kids, (n, .pages kids) ∈ objects → kids = objects.filterMap nodeNumber

/-- The number of the catalog is computed in unsigned arithmetic, which makes no difference: there is
    no overflow, except for the one that is undone when the number of pages is 0. -/
theorem catalogObj_unsigned (st : PsState) (h : st.pages * 4 + st.pdfbody < 2 ^ 64) :
    ((BitVec.ofNat 64 st.pages - 1) * 4 + BitVec.ofNat 64 st.pdfbody + 4).toNat = catalogObj st := by
  have hadd : (BitVec.ofNat 64 st.pages - 1) * 4 + BitVec.ofNat 64 st.pdfbody + 4 =
      BitVec.ofNat 64 (st.pages * 4 + st.pdfbody) := by
    have hfour : BitVec.ofNat 64 4 = 4 := rfl
    rw [BitVec.ofNat_add, BitVec.ofNat_mul, hfour]
    ring
  rw [hadd, BitVec.toNat_ofNat, Nat.mod_eq_of_lt h, catalogObj]
  omega

/-- The objects that come last, and the table. -/
theorem psFinish_pdfFile {contents : List CStr} (hd : d.type ≠ .PS) (h : PdfBody d contents none st) :
    Ensures (psFinish d st) (PdfFile d (documentObjects contents) (contents.length * 4 + 7)) := by
  -- The numbers that are computed from the number of pages.
  have hcatalog : catalogObj st = contents.length * 4 + 7 := by
    rw [catalogObj, h.pages, h.pdfbody]
    show (((contents.length : Int) - 1) * 4 + 7 + 4).toNat = _
    omega
  have hkids : pagesObject d st =
      kidsObject d ((List.range contents.length).map fun k => k * 4 + 10) := by
    have hnum : ∀ k, k * 4 + st.pdfbody + 3 = k * 4 + 10 := by
      intro k
      rw [h.pdfbody]
      rfl
    have hflat : ((List.range contents.length).flatMap fun k =>
        " ".toList ++ dec (k * 4 + st.pdfbody + 3) ++ " 0 R".toList) =
        (List.range contents.length).flatMap fun k =>
          " ".toList ++ dec (k * 4 + 10) ++ " 0 R".toList :=
      congrArg (List.flatMap · (List.range contents.length)) (funext fun k => by rw [hnum k])
    unfold pagesObject kidsObject
    rw [List.length_map, List.length_range, List.flatMap_map, h.pages, hflat]
  have hparts : bodyParts d contents none =
      (prologueObjects ++ bodyObjects contents).map (part d) := List.append_nil _
  have hwritten := h.written
  rw [hparts] at hwritten
  -- Neither of the two final objects has been defined before.
  have htwo : 2 ∉ ((prologueObjects ++ bodyObjects contents).map (part d)).map Prod.fst := by
    rw [map_part_fst, List.map_append, bodyObjects_numbers]
    intro hmem
    obtain hmem | hmem := List.mem_append.mp hmem
    · exact absurd hmem (by decide)
    · exact absurd (List.mem_range'_1.mp hmem).1 (by decide)
  have hlast : contents.length * 4 + 7 ∉
      ((prologueObjects ++ bodyObjects contents).map (part d) ++
        [(2, objHeader 2 ++ pagesObject d st)]).map Prod.fst := by
    rw [← hparts, List.map_append]
    intro hmem
    obtain hmem | hmem := List.mem_append.mp hmem
    · exact not_mem_of_lt (numbers_lt d contents) hmem
    · have hle : 7 ≤ contents.length * 4 + 7 := Nat.le_add_left 7 _
      rw [List.mem_singleton.mp hmem] at hle
      exact absurd hle (by decide : ¬ 7 ≤ 2)
  unfold psFinish
  rw [if_neg hd, hcatalog]
  -- First the list of the pages is written, and then the catalog.
  refine (hwritten.object h.margins htwo (pagesObject d st)).bind fun st₁ h₁ => ?_
  obtain ⟨hw₁, hsame₁⟩ := h₁
  have hm₁ := hsame₁.margins.trans h.margins
  refine (hw₁.object hm₁ hlast catalogObject).bind fun st₂ h₂ => Ensures.pure_iff.mpr ?_
  obtain ⟨hw₂, hsame₂⟩ := h₂
  have hm₂ : ¬ st₂.margins = true := by
    rw [hsame₂.margins, hm₁]
    exact Bool.false_ne_true
  have hall : (prologueObjects ++ bodyObjects contents).map (part d) ++
      [(2, objHeader 2 ++ pagesObject d st)] ++
        [(contents.length * 4 + 7, objHeader (contents.length * 4 + 7) ++ catalogObject)] =
      (documentObjects contents).map (part d) := by
    have hdocument : (documentObjects contents).map (part d) =
        (prologueObjects ++ bodyObjects contents).map (part d) ++
          (finalObjects contents.length).map (part d) := List.map_append
    rw [hdocument, hkids, List.append_assoc]
    rfl
  rw [hall] at hw₂
  -- The cross-reference table follows, and its offset is the number of bytes written so far.
  have hout : psPrintf (pdfTrailer st₂ (contents.length * 4 + 7) st₂.pdfbytes) st₂ =
      { st₂ with
        out := st₂.out ++ pdfTrailer st₂ (contents.length * 4 + 7) st₂.pdfbytes
        pdfbytes := st₂.pdfbytes +
          (pdfTrailer st₂ (contents.length * 4 + 7) st₂.pdfbytes).length } := if_neg hm₂
  have hobjs : st₂.objs = (documentObjects contents).map Prod.fst :=
    hw₂.objs.trans (map_part_fst d _)
  rw [hout, hw₂.bytes, hw₂.out]
  refine ⟨hobjs, ?_, rfl, hw₂.table, fun o ho => ?_, fun _ _ _ => documentObjects_lengths,
    fun _ _ => documentObjects_nodes, fun _ _ => documentObjects_kids⟩
  · show st₂.objs.Perm _
    rw [hobjs]
    exact documentObjects_numbers contents
  · exact hw₂.table.starts (List.mem_map.mpr ⟨o, ho, rfl⟩)

/-- The last page is closed, if it is open. -/
theorem psEnd_pdfFile (hd : d.type ≠ .PS) (h : InPdfBody d st) :
    Ensures (psEnd d st) fun st' => ∃ contents,
      PdfFile d (documentObjects contents) (contents.length * 4 + 7) st' := by
  obtain ⟨hword, contents, cur, hbody⟩ := h
  unfold psEnd
  refine (psPlast_moves hword).bind fun st₁ hmoves => ?_
  have hclose := psPclose_typed (d := d) (hmoves.wordOnPage hword)
  obtain ⟨cur₁, hbody₁⟩ := hbody.moves hd (hmoves.trans (.typed hclose))
  refine Ensures.ite (fun hnew => ?_) fun hnew => Ensures.ite
    (fun _ => Ensures.error_iff.mpr trivial) fun _ => ?_
  · have hcur : cur₁ = none := by
      rw [hbody₁.newpage] at hnew
      exact Option.isNone_iff_eq_none.mp hnew
    subst hcur
    exact (psFinish_pdfFile hd hbody₁).mono fun st' h' => ⟨contents, h'⟩
  · refine (hbody₁.closed hd (Bool.eq_false_iff.mpr hnew)).bind fun st₂ h₂ => ?_
    obtain ⟨-, text, hbody₂⟩ := h₂
    exact (psFinish_pdfFile hd hbody₂).mono fun st' h' => ⟨contents ++ [text], h'⟩

/-- For all requests that can be decoded, a PDF file is printed with right numbers and offsets. -/
theorem psDocument_pdfFile (d : PsDevice) (head foot calls : List PsCall) (hd : d.type = .PDF)
    (hfits : Decodable (marginCalls head foot ++ calls).reverse)
    (hmargins : pending (marginCalls head foot).reverse = false)
    (hend : pending (marginCalls head foot ++ calls).reverse →
      (calls.foldl d.ink (false, d.top)).1 = false) :
    ∃ st contents, psDocument d head foot calls = .ok st ∧
      PdfFile d (documentObjects contents) (contents.length * 4 + 7) st := by
  obtain ⟨st, hst⟩ := (psDocument_ok_iff_decodable d head foot calls).mpr ⟨hfits, hmargins, hend⟩
  have hps : d.type ≠ .PS := by
    rw [hd]
    exact TermType.noConfusion
  have hfile : Ensures (psDocument d head foot calls) fun st' => ∃ contents,
      PdfFile d (documentObjects contents) (contents.length * 4 + 7) st' :=
    (psBegin_inBody hps head foot).bind fun st₁ h₁ => (h₁.calls hps calls).bind fun st₂ h₂ =>
      psEnd_pdfFile hps h₂
  obtain ⟨contents, h⟩ := hfile.of_eq_ok hst
  exact ⟨st, contents, hst, h⟩

/-- Two pages, the first of which has an underlined letter and forty lines. -/
theorem underlined_pdfFile :
    ∃ st contents, psDocument { letterDevice with type := .PDF } [.letter 'F'] [.letter 'D']
        ([.letter '_', .letter BS, .letter 'x'] ++ List.replicate 41 .endline ++
          [.letter 'y', .endline]) = .ok st ∧ st.pages = 2 ∧
      PdfFile { letterDevice with type := .PDF } (documentObjects contents)
        (contents.length * 4 + 7) st := by
  have hpages : (psDocument { letterDevice with type := .PDF } [.letter 'F'] [.letter 'D']
      ([.letter '_', .letter BS, .letter 'x'] ++ List.replicate 41 .endline ++
        [.letter 'y', .endline])).map PsState.pages = .ok 2 := by
    decide +kernel
  obtain ⟨st, contents, hst, hfile⟩ := psDocument_pdfFile { letterDevice with type := .PDF }
    [.letter 'F'] [.letter 'D']
    ([.letter '_', .letter BS, .letter 'x'] ++ List.replicate 41 .endline ++ [.letter 'y', .endline])
    rfl ((calls_isSome_iff _).mp ⟨⟨none, false, false⟩, by decide, rfl⟩) (by decide) (by decide)
  rw [hst] at hpages
  exact ⟨st, contents, hst, Except.ok.inj hpages, hfile⟩

end Mandoc
