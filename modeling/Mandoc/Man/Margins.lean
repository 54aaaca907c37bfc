import Mandoc.CString

/-!
# Margins of man(7) Pages

Model of the indentation bookkeeping in `man_term.c`. The formatter walks the syntax tree and
keeps the current offset, and the width used last for each open `RS` block, in `struct mtermp`.

The array of widths has `MAXMARGINS` slots. Deeper levels use the last slot together.

- `printManNode_frame` says that formatting a node does not touch the enclosing levels as long
  as there are enough slots.
- `printRS_kept_iff` is the consequence for `RS` blocks, with the exact number of levels.
- `deepRS_stale` shows what happens when slots are shared.
-/

namespace Mandoc

/-! ## §1 The state of the formatter -/

/-- Maximum number of indented scopes. -/
def MAXMARGINS : Nat := 64

/-- `SHRT_MAX`, compared with widths. -/
def SHRT_MAX_len : Int := 32767

/-- What the terminal makes of scaled and of plain widths, in basic units. -/
structure ManTerm where
  /-- `a2roffsu(s, &su, SCALE_EN)`, and `term_hspan(p, &su)` if that succeeds. -/
  hspan : CStr → Option Int
  /-- `term_len()` -/
  len : Nat → Nat
  len_lt : ∀ n, len n < 2 ^ 64
  /-- `term_strlen()` -/
  strlen : CStr → Nat
  /-- `p->defindent` -/
  defindent : Nat

/-- `struct mtermp`, without the vertical space before paragraphs. -/
structure Mtermp where
  /-- Margins in basic units. -/
  lmargin : Nat → Int
  /-- Index of current margin. -/
  lmargincur : Nat
  /-- Actual number of nested margins. -/
  lmarginsz : Nat
  /-- Default offset in basic units. -/
  offset : Nat
  /-- The sums `mt->offset + len` that have become an offset or a right margin, before they are
      converted to `size_t`. -/
  used : List Int

/-- Conversion to `size_t` -/
def sizeT (x : Int) : Nat := (x % 2 ^ 64).toNat

/-- A width is limited such that the sum with the offset is neither negative nor too large. -/
def limitWidth (p : ManTerm) (mt : Mtermp) (len : Int) : Int :=
  if len < 0 ∧ (-len).toNat > mt.offset then -mt.offset
  else if len > SHRT_MAX_len then p.len p.defindent
  else len

/-- The width given by an argument, which remains in force, or else the one in force. -/
def argWidth (p : ManTerm) (arg : Option CStr) (mt : Mtermp) : Int × Mtermp :=
  match arg.bind p.hspan with
  | some len =>
    let len := limitWidth p mt len
    (len, { mt with lmargin := Function.update mt.lmargin mt.lmargincur len })
  | none => (mt.lmargin mt.lmargincur, mt)

/-- Use the sum of the offset and a width. -/
def Mtermp.use (mt : Mtermp) (len : Int) : Mtermp :=
  { mt with used := mt.used ++ [mt.offset + len] }

/-! ## §2 The syntax tree -/

/-- A child of the head of a paragraph, with the flag `NODE_LINE`. -/
structure HeadNode where
  string : Option CStr
  line : Bool

/-- Nodes of a man(7) syntax tree below a section. -/
inductive ManNode where
  /-- Text, requests, and macros that are not blocks. -/
  | leaf
  /-- `LP`, `PP`, or `P` -/
  | PP (body : List ManNode)
  | IP (head : List CStr) (body : List ManNode)
  /-- `TP` or `TQ` -/
  | TP (head : List HeadNode) (body : List ManNode)
  | HP (head : Option CStr) (body : List ManNode)
  | RS (head : Option CStr) (body : List ManNode)
  | SY (head : Option CStr) (body : List ManNode)
  /-- `UR` or `MT` -/
  | UR (body : List ManNode)

/-! ## §3 Formatting -/

/-- `terminal_man()`: the initial state. -/
def Mtermp.init (p : ManTerm) : Mtermp where
  lmargin := Function.update (fun _ => 0) 0 (p.len 7)
  lmargincur := 0
  lmarginsz := 0
  offset := p.len p.defindent
  used := []

/-- `pre_SH()` and `pre_SS()` for a block. -/
def preSH (p : ManTerm) (mt : Mtermp) : Mtermp :=
  { mt with
    lmargin := Function.update mt.lmargin mt.lmargincur (p.len 7)
    offset := p.len p.defindent }

/-- `pre_PP()` for a block. -/
def prePP (p : ManTerm) (mt : Mtermp) : Mtermp :=
  { mt with lmargin := Function.update mt.lmargin mt.lmargincur (p.len 7) }

/-- `pre_IP()` for a head or a body. The width is the optional second argument. -/
def preIP (p : ManTerm) (head : List CStr) (mt : Mtermp) : Mtermp :=
  let (len, mt) := argWidth p (head.drop 1).head? mt
  mt.use len

/-- `pre_TP()` for a head or a body. The width must be on the line of the macro. -/
def preTP (p : ManTerm) (head : List HeadNode) (mt : Mtermp) : Mtermp :=
  let (len, mt) := argWidth p (head.head?.bind fun nn => if nn.line then none else nn.string) mt
  mt.use len

/-- `pre_HP()` for a body. -/
def preHP (p : ManTerm) (head : Option CStr) (mt : Mtermp) : Mtermp :=
  let (len, mt) := argWidth p head mt
  mt.use len

/-- `pre_RS()` for a body: the amount of indentation, which is saved in `aux`. -/
def rsAux (p : ManTerm) (head : Option CStr) (mt : Mtermp) : Int :=
  limitWidth p mt
    (match head with
    | none => mt.lmargin mt.lmargincur
    | some s => (p.hspan s).getD (SHRT_MAX_len + 1))

/-- `pre_RS()` for a body. -/
def preRS (p : ManTerm) (aux : Int) (mt : Mtermp) : Mtermp :=
  let lmarginsz := mt.lmarginsz + 1
  let lmargincur := if lmarginsz < MAXMARGINS then lmarginsz else mt.lmargincur
  { mt with
    offset := sizeT (mt.offset + aux)
    lmarginsz := lmarginsz
    lmargincur := lmargincur
    lmargin := Function.update mt.lmargin lmargincur (p.len 7) }

/-- `post_RS()` for a body. -/
def postRS (aux : Int) (mt : Mtermp) : Mtermp :=
  let lmarginsz := mt.lmarginsz - 1
  { mt with
    offset := sizeT (mt.offset - aux)
    lmarginsz := lmarginsz
    lmargincur := if lmarginsz < MAXMARGINS then lmarginsz else mt.lmargincur }

/-- `pre_SY()` for a body. -/
def preSY (p : ManTerm) (head : Option CStr) (mt : Mtermp) : Mtermp :=
  let len := p.len 1 + (head.map p.strlen).getD 0
  { mt with lmargin := Function.update mt.lmargin mt.lmargincur len }

mutual

/-- `print_man_node()` -/
def printManNode (p : ManTerm) : ManNode → Mtermp → Mtermp
  | .leaf, mt => mt
  | .PP body, mt => printManNodelist p body (prePP p mt)
  -- The width is determined for the head and once again for the body.
  | .IP head body, mt => printManNodelist p body (preIP p head (preIP p head mt))
  | .TP head body, mt => printManNodelist p body (preTP p head (preTP p head mt))
  | .HP head body, mt => if body.isEmpty then mt else printManNodelist p body (preHP p head mt)
  | .RS head body, mt =>
    let aux := rsAux p head mt
    postRS aux (printManNodelist p body (preRS p aux mt))
  | .SY head body, mt => printManNodelist p body (preSY p head mt)
  | .UR body, mt => printManNodelist p body mt

/-- `print_man_nodelist()` -/
def printManNodelist (p : ManTerm) : List ManNode → Mtermp → Mtermp
  | [], mt => mt
  | n :: l, mt => printManNodelist p l (printManNode p n mt)

end

/-! ## §4 Nesting -/

mutual

/-- How deep `RS` blocks are nested in a node. -/
def ManNode.rsDepth : ManNode → Nat
  | .leaf => 0
  | .PP body | .IP _ body | .TP _ body | .HP _ body | .SY _ body | .UR body => rsDepthList body
  | .RS _ body => rsDepthList body + 1

/-- How deep `RS` blocks are nested in a list of nodes. -/
def rsDepthList : List ManNode → Nat
  | [] => 0
  | n :: l => max n.rsDepth (rsDepthList l)

end

/-- The slot for the widths of a level. -/
def marginSlot (level : Nat) : Nat := min level (MAXMARGINS - 1)

/-- The current slot belongs to the current level, and the width in force can be used. -/
structure Mtermp.Valid (mt : Mtermp) : Prop where
  cur : mt.lmargincur = marginSlot mt.lmarginsz
  width : 0 ≤ mt.offset + mt.lmargin mt.lmargincur
  offset : mt.offset < 2 ^ 64

theorem valid_init (p : ManTerm) : (Mtermp.init p).Valid where
  cur := rfl
  width := Int.add_nonneg (Int.natCast_nonneg _) (by simp [Mtermp.init])
  offset := p.len_lt _

/-! ## §5 Frames -/

section

variable {p : ManTerm} {mt mt' mt'' : Mtermp}

/-- The enclosing levels are left alone, the current one is still valid, and the offsets used
    are not negative. -/
structure Framed (mt mt' : Mtermp) : Prop where
  offset : mt'.offset = mt.offset
  lmarginsz : mt'.lmarginsz = mt.lmarginsz
  lmargincur : mt'.lmargincur = mt.lmargincur
  margins : ∀ i < mt.lmarginsz, mt'.lmargin i = mt.lmargin i
  valid : mt'.Valid
  used : ∃ l, mt'.used = mt.used ++ l ∧ ∀ x ∈ l, 0 ≤ x

theorem Framed.refl (h : mt.Valid) : Framed mt mt :=
  ⟨rfl, rfl, rfl, fun _ _ => rfl, h, [], (List.append_nil _).symm, by simp⟩

theorem Framed.trans (h : Framed mt mt') (h' : Framed mt' mt'') : Framed mt mt'' where
  offset := h'.offset.trans h.offset
  lmarginsz := h'.lmarginsz.trans h.lmarginsz
  lmargincur := h'.lmargincur.trans h.lmargincur
  margins i hi := (h'.margins i (h.lmarginsz ▸ hi)).trans (h.margins i hi)
  valid := h'.valid
  used := by
    obtain ⟨l, hl, hpos⟩ := h.used
    obtain ⟨l', hl', hpos'⟩ := h'.used
    refine ⟨l ++ l', by rw [hl', hl, List.append_assoc], fun x hx => ?_⟩
    exact (List.mem_append.mp hx).elim (hpos x) (hpos' x)

theorem Mtermp.Valid.cur_eq (h : mt.Valid) (hlt : mt.lmarginsz < MAXMARGINS) :
    mt.lmargincur = mt.lmarginsz :=
  h.cur.trans (min_eq_left (Nat.le_sub_one_of_lt hlt))

/-- Setting the current width to one that can be used. -/
theorem Mtermp.Valid.setWidth (h : mt.Valid) (hlt : mt.lmarginsz < MAXMARGINS) {len : Int}
    (hlen : 0 ≤ mt.offset + len) :
    Framed mt { mt with lmargin := Function.update mt.lmargin mt.lmargincur len } where
  offset := rfl
  lmarginsz := rfl
  lmargincur := rfl
  margins i hi := Function.update_of_ne (h.cur_eq hlt ▸ hi.ne) _ _
  valid := ⟨h.cur, by simpa using hlen, h.offset⟩
  used := ⟨[], (List.append_nil _).symm, by simp⟩

/-- A limited width can be used. -/
theorem limitWidth_nonneg (len : Int) : 0 ≤ mt.offset + limitWidth p mt len := by
  unfold limitWidth
  split
  · exact (Int.add_right_neg _).ge
  · rename_i hfits
    split
    · exact Int.add_nonneg (Int.natCast_nonneg _) (Int.natCast_nonneg _)
    · omega

theorem Mtermp.Valid.use (h : mt.Valid) {len : Int} (hlen : 0 ≤ mt.offset + len) :
    Framed mt (mt.use len) :=
  ⟨rfl, rfl, rfl, fun _ _ => rfl, ⟨h.cur, h.width, h.offset⟩, [mt.offset + len], rfl,
    by simpa using hlen⟩

/-- What the paragraphs with indentation have in common. -/
theorem argWidth_framed (p : ManTerm) (h : mt.Valid) (hlt : mt.lmarginsz < MAXMARGINS) (arg : Option CStr) :
    Framed mt ((argWidth p arg mt).2.use (argWidth p arg mt).1) := by
  unfold argWidth
  cases arg.bind p.hspan with
  | none => exact h.use h.width
  | some len =>
    have hset := h.setWidth hlt (limitWidth_nonneg (p := p) len)
    exact hset.trans (hset.valid.use (limitWidth_nonneg len))

/-- The head and the body use the same argument. -/
theorem argWidth_framed_twice (p : ManTerm) (h : mt.Valid) (hlt : mt.lmarginsz < MAXMARGINS)
    {step : Mtermp → Mtermp} {arg : Option CStr}
    (hstep : ∀ mt, step mt = (argWidth p arg mt).2.use (argWidth p arg mt).1) :
    Framed mt (step (step mt)) := by
  have hhead := argWidth_framed p h hlt arg
  rw [← hstep] at hhead
  have hbody := argWidth_framed p hhead.valid (hhead.lmarginsz ▸ hlt) arg
  rw [← hstep] at hbody
  exact hhead.trans hbody

/-! ## §6 Formatting RS blocks -/

theorem sizeT_sub_add {offset : Nat} (h : offset < 2 ^ 64) (aux : Int) :
    sizeT (sizeT (offset + aux) - aux) = offset := by
  unfold sizeT
  omega

/-- Formatting an `RS` block leaves everything as it was before, apart from the record. -/
structure RSKept (mt mt' : Mtermp) : Prop where
  offset : mt'.offset = mt.offset
  lmarginsz : mt'.lmarginsz = mt.lmarginsz
  lmargincur : mt'.lmargincur = mt.lmargincur
  margins : ∀ i ≤ mt.lmarginsz, mt'.lmargin (marginSlot i) = mt.lmargin (marginSlot i)
  used : ∃ l, mt'.used = mt.used ++ l ∧ ∀ x ∈ l, 0 ≤ x

/-- The current margin while an `RS` block is formatted. -/
theorem valid_preRS (hlt : mt.lmarginsz + 1 < MAXMARGINS) (aux : Int) :
    (preRS p aux mt).Valid := by
  have hcur : (Mandoc.preRS p aux mt).lmargincur = mt.lmarginsz + 1 := if_pos hlt
  refine ⟨?_, ?_, ?_⟩
  · exact hcur.trans (min_eq_left (Nat.le_sub_one_of_lt hlt)).symm
  · refine Int.add_nonneg (Int.natCast_nonneg _) ?_
    simp [Mandoc.preRS]
  · show sizeT (mt.offset + aux) < 2 ^ 64
    unfold sizeT
    omega

/-- If the body respects the enclosing levels, the block does. -/
theorem rs_kept (h : mt.Valid) (hlt : mt.lmarginsz + 1 < MAXMARGINS) {aux : Int}
    (hbody : Framed (preRS p aux mt) mt') : RSKept mt (postRS aux mt') := by
  have hsz : mt'.lmarginsz = mt.lmarginsz + 1 := hbody.lmarginsz
  have hsub : mt'.lmarginsz - 1 = mt.lmarginsz := by rw [hsz, Nat.add_sub_cancel]
  have hmax := Nat.lt_of_succ_lt hlt
  refine ⟨?_, hsub, ?_, fun i hi => ?_, hbody.used⟩
  · show sizeT (mt'.offset - aux) = mt.offset
    rw [hbody.offset]
    exact sizeT_sub_add h.offset aux
  · show (if mt'.lmarginsz - 1 < MAXMARGINS then mt'.lmarginsz - 1 else mt'.lmargincur) = _
    rw [hsub, if_pos hmax, h.cur_eq hmax]
  · have hslot : marginSlot i = i := min_eq_left (Nat.le_sub_one_of_lt (lt_of_le_of_lt hi hmax))
    have hne : i ≠ mt.lmarginsz + 1 := (Nat.lt_succ_of_le hi).ne
    show mt'.lmargin (marginSlot i) = _
    rw [hslot, hbody.margins i (Nat.lt_succ_of_le hi)]
    -- Only the slot of the new level has been initialized.
    simp [Mandoc.preRS, hlt, hne]

theorem RSKept.framed (h : RSKept mt mt') (hv : mt.Valid) (hlt : mt.lmarginsz < MAXMARGINS) :
    Framed mt mt' := by
  have hslot : ∀ i ≤ mt.lmarginsz, marginSlot i = i := fun i hi =>
    min_eq_left (Nat.le_sub_one_of_lt (lt_of_le_of_lt hi hlt))
  have hmargins : ∀ i ≤ mt.lmarginsz, mt'.lmargin i = mt.lmargin i := fun i hi => by
    have hi' := h.margins i hi
    rwa [hslot i hi] at hi'
  refine ⟨h.offset, h.lmarginsz, h.lmargincur, fun i hi => hmargins i hi.le, ⟨?_, ?_, ?_⟩, h.used⟩
  · rw [h.lmargincur, h.lmarginsz, hv.cur]
  · rw [h.offset, h.lmargincur, hmargins _ (hv.cur_eq hlt).le]
    exact hv.width
  · rw [h.offset]
    exact hv.offset

mutual

/-- Formatting a node does not touch the enclosing levels if there are enough slots. -/
theorem printManNode_frame (p : ManTerm) (n : ManNode) {mt : Mtermp} (h : mt.Valid)
    (hlt : mt.lmarginsz + n.rsDepth < MAXMARGINS) : Framed mt (printManNode p n mt) := by
  have hmax := lt_of_le_of_lt (Nat.le_add_right _ _) hlt
  -- A step before the body, and then the body.
  have hbody : ∀ {mt₁ : Mtermp} {body : List ManNode}, Framed mt mt₁ →
      (∀ {mt₂ : Mtermp}, mt₂.Valid → mt₂.lmarginsz + rsDepthList body < MAXMARGINS →
        Framed mt₂ (printManNodelist p body mt₂)) →
      mt.lmarginsz + rsDepthList body < MAXMARGINS → Framed mt (printManNodelist p body mt₁) :=
    fun hstep hlist hdepth => hstep.trans (hlist hstep.valid (hstep.lmarginsz ▸ hdepth))
  cases n with
  | leaf => exact Framed.refl h
  | PP body =>
    exact hbody (h.setWidth hmax (Int.add_nonneg (Int.natCast_nonneg _) (Int.natCast_nonneg _)))
      (printManNodelist_frame p body) hlt
  | IP head body =>
    exact hbody (argWidth_framed_twice p h hmax fun _ => rfl) (printManNodelist_frame p body) hlt
  | TP head body =>
    exact hbody (argWidth_framed_twice p h hmax fun _ => rfl) (printManNodelist_frame p body) hlt
  | HP head body =>
    rw [printManNode]
    split
    · exact Framed.refl h
    · exact hbody (argWidth_framed p h hmax head) (printManNodelist_frame p body) hlt
  | RS head body =>
    have hlt' : (mt.lmarginsz + 1) + rsDepthList body < MAXMARGINS := by
      rw [Nat.add_assoc, Nat.add_comm 1]
      exact hlt
    have hlt₁ := lt_of_le_of_lt (Nat.le_add_right _ _) hlt'
    exact (rs_kept h hlt₁ (printManNodelist_frame p body (valid_preRS hlt₁ (rsAux p head mt)) hlt')).framed
      h hmax
  | SY head body =>
    exact hbody (h.setWidth hmax (Int.add_nonneg (Int.natCast_nonneg _) (Int.natCast_nonneg _)))
      (printManNodelist_frame p body) hlt
  | UR body => exact hbody (Framed.refl h) (printManNodelist_frame p body) hlt

/-- The same for a list of nodes. -/
theorem printManNodelist_frame (p : ManTerm) (l : List ManNode) {mt : Mtermp} (h : mt.Valid)
    (hlt : mt.lmarginsz + rsDepthList l < MAXMARGINS) : Framed mt (printManNodelist p l mt) := by
  cases l with
  | nil => exact Framed.refl h
  | cons n l =>
    have hn := printManNode_frame p n h
      (lt_of_le_of_lt (Nat.add_le_add_left (le_max_left _ _) _) hlt)
    have hl := printManNodelist_frame p l hn.valid
      (lt_of_le_of_lt (Nat.add_le_add (hn.lmarginsz.le) (le_max_right _ _)) hlt)
    exact hn.trans hl

end

/-! ## §7 Sharing a slot -/

/-- Nested `RS` blocks. In the innermost one, a paragraph sticks out to the left, and behind it
    comes a paragraph without a width. -/
def deepRS : Nat → List ManNode
  | 0 => [.RS (some ['8']) [.IP [['x'], ['-', '9', '9', '9']] []], .IP [['x']] []]
  | k + 1 => [.RS none (deepRS k)]

theorem rsDepthList_deepRS (k : Nat) : rsDepthList (deepRS k) = k + 1 := by
  induction k with
  | zero => rfl
  | succ k ih =>
    show max (rsDepthList (deepRS k) + 1) 0 = k + 1 + 1
    rw [ih, Nat.max_zero]

/-- A terminal with 24 basic units for each character. -/
def asciiTerm : ManTerm where
  hspan s := if s = ['8'] then some 192 else some (-23976)
  len n := min (24 * n) (2 ^ 32)
  len_lt n := lt_of_le_of_lt (min_le_right _ _) (by decide)
  strlen s := 24 * s.length
  defindent := 5

theorem sizeT_natCast {n : Nat} (h : n < 2 ^ 64) : sizeT n = n := by
  unfold sizeT
  omega

/-- The paragraph at the end uses the width of a deeper level, which has got another offset. The
    levels outside are indented by seven characters each. -/
theorem deepRS_stale (mt : Mtermp) (k : Nat) (hcur : mt.lmargincur = mt.lmarginsz)
    (hsz : mt.lmarginsz + k = MAXMARGINS - 1) (hoffset : mt.offset + 168 * k ≤ 20000)
    (hwidth : mt.lmargin mt.lmargincur = 168) :
    ∃ x ∈ (printManNodelist asciiTerm (deepRS k) mt).used, x < 0 := by
  induction k generalizing mt with
  | zero =>
    have hcur' : mt.lmargincur = 63 := hcur.trans hsz
    have hsz' : mt.lmarginsz = 63 := hsz
    have hinner : sizeT ((mt.offset : Int) + 192) = mt.offset + 192 :=
      sizeT_natCast (n := mt.offset + 192) (by omega)
    have houter : sizeT (mt.offset : Int) = mt.offset := sizeT_natCast (by omega)
    have hleft : mt.offset + 192 < 23976 := by omega
    refine ⟨-192, ?_, by decide⟩
    simp [deepRS, printManNodelist, printManNode, rsAux, preRS, postRS, preIP, argWidth, Mtermp.use,
      asciiTerm, limitWidth, SHRT_MAX_len, MAXMARGINS, hcur', hsz', hinner, houter, hleft]
  | succ k ih =>
    have haux : rsAux asciiTerm none mt = 168 := by
      simp [rsAux, limitWidth, hwidth, SHRT_MAX_len]
    have hlt : mt.lmarginsz + 1 < MAXMARGINS := by
      have hmax : MAXMARGINS - 1 < MAXMARGINS := by decide
      omega
    have hcur' : (preRS asciiTerm 168 mt).lmargincur = mt.lmarginsz + 1 := if_pos hlt
    have hoffset' : (preRS asciiTerm 168 mt).offset = mt.offset + 168 :=
      sizeT_natCast (n := mt.offset + 168) (by omega)
    have hstep := ih (preRS asciiTerm 168 mt) hcur' (by
      rw [← hsz]
      exact Nat.succ_add_eq_add_succ _ _) (by rw [hoffset']; omega) (by simp [preRS, asciiTerm])
    simpa [deepRS, printManNodelist, printManNode, haux, postRS] using hstep

/-- `RS` blocks with up to `d` levels of other `RS` blocks inside are formatted properly at the
    level `s` if there are slots for all of these levels. -/
theorem printRS_kept_iff (s d : Nat) :
    (∀ (p : ManTerm) (mt : Mtermp) (head : Option CStr) (body : List ManNode), mt.Valid →
      mt.lmarginsz = s → rsDepthList body ≤ d → RSKept mt (printManNode p (.RS head body) mt)) ↔
      s + d + 1 < MAXMARGINS := by
  constructor
  · intro hall
    by_contra hmax
    have hmax : MAXMARGINS - 1 ≤ s + d := by omega
    have hvalid : ∀ w : Nat, Mtermp.Valid ⟨fun _ => w, marginSlot s, s, 0, []⟩ := fun w =>
      ⟨rfl, Int.add_nonneg (le_refl _) (Int.natCast_nonneg w), Nat.two_pow_pos 64⟩
    rcases lt_or_ge s (MAXMARGINS - 1) with hs | hs
    · -- There are slots for some of the levels inside.
      obtain ⟨k, hk⟩ := Nat.exists_eq_add_of_lt hs
      have hdepth : rsDepthList (deepRS k) ≤ d := by
        rw [rsDepthList_deepRS]
        omega
      obtain ⟨l, hl, hpos⟩ :=
        (hall asciiTerm _ none (deepRS k) (hvalid 168) rfl hdepth).used
      have hk' : k < 63 := by
        have hmax : MAXMARGINS - 1 = 63 := rfl
        omega
      obtain ⟨x, hx, hneg⟩ := deepRS_stale ⟨fun _ => (168 : Nat), marginSlot s, s, 0, []⟩ (k + 1)
        (min_eq_left hs.le) (by
          rw [hk]
          rfl) (by
          show 0 + 168 * (k + 1) ≤ 20000
          omega) rfl
      have hx : x ∈ (printManNode asciiTerm (.RS none (deepRS k)) _).used := hx
      rw [hl, List.nil_append] at hx
      exact absurd (hpos x hx) (not_le.mpr hneg)
    · -- The new level uses the slot of the current one.
      have hkept := hall asciiTerm _ none [] (hvalid 0) rfl (Nat.zero_le d)
      have hslot : marginSlot s = MAXMARGINS - 1 := min_eq_right hs
      have hnot : ¬ s + 1 < MAXMARGINS := by omega
      have hmargin := hkept.margins s (le_refl s)
      simp [printManNode, printManNodelist, preRS, postRS, hnot, hslot, asciiTerm] at hmargin
  · rintro hlt p mt head body h rfl hdepth
    have hlt' : (mt.lmarginsz + 1) + rsDepthList body < MAXMARGINS := by omega
    have hlt₁ := lt_of_le_of_lt (Nat.le_add_right _ _) hlt'
    exact rs_kept h hlt₁ (printManNodelist_frame p body (valid_preRS hlt₁ (rsAux p head mt)) hlt')

/-- There are 64 nested `RS` blocks, the paragraph in the innermost one is moved to the left edge
    of the page, and the next paragraph around that block would begin left of it. -/
theorem deepRS_not_kept : (Mtermp.init asciiTerm).Valid ∧
    ¬ RSKept (Mtermp.init asciiTerm)
      (printManNode asciiTerm (.RS none (deepRS 62)) (Mtermp.init asciiTerm)) := by
  refine ⟨valid_init asciiTerm, fun hkept => ?_⟩
  obtain ⟨l, hl, hpos⟩ := hkept.used
  have hneg : (printManNode asciiTerm (.RS none (deepRS 62)) (Mtermp.init asciiTerm)).used.any
      (· < 0) = true := by
    decide +kernel
  obtain ⟨x, hx, hneg⟩ := List.any_eq_true.mp hneg
  rw [hl] at hx
  exact absurd (hpos x hx) (not_le.mpr (of_decide_eq_true hneg))

end

end Mandoc
