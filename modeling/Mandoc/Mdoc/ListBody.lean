import Mandoc.Roff.NodeMoves

/-!
# Bodies of Lists

Model of `post_bl()` in `mdoc_validate.c`, as far as it is about the body of a `Bl` macro. What
comes before the first item is moved out of the list. In a `Bl -column`, the first rows may be
implicit, and nodes generated on the roff level may follow them. These are wrapped into an
implicit item.
-/

namespace Mandoc

open OrderedForest

/-! ## §1 Transparent nodes -/

/-- `roff_tok_transparent()` -/
def roffTokTransparent : Tok → Bool
  | .ROFF_ft | .ROFF_ll | .ROFF_mc | .ROFF_po | .ROFF_ta => true
  | .MDOC name => name ∈ ["Db", "Es", "Sm", "Tg"]
  | .MAN name => name ∈ ["DT", "UC", "PD", "AT"]
  | _ => false

/-- `roff_node_transparent()`, for a node that is not `NULL`. -/
def RoffNode.transparent (n : RoffNode) : Bool :=
  n.type = .COMMENT || n.flags.noprt || roffTokTransparent n.tok

/-- The first node that is not transparent, from the given one on. -/
def skipTransparent : Nat → RoffMan → Option Nat → Res (Option Nat)
  | _, _, none => .ok none
  | 0, _, some _ => .error .fuel
  | steps + 1, man, some n =>
    if (man.node n).transparent then skipTransparent steps man (man.links n).next
    else .ok (some n)

/-- `roff_node_child()` -/
def roffNodeChild (man : RoffMan) (n : Nat) : Res (Option Nat) :=
  skipTransparent man.count man (man.links n).child

/-- `roff_node_next()` -/
def roffNodeNext (man : RoffMan) (n : Nat) : Res (Option Nat) :=
  skipTransparent man.count man (man.links n).next

/-! ## §2 Before the first item -/

/-- The macro `It` -/
def Tok.isIt (tok : Tok) : Bool := tok = .MDOC "It"

/-- Set the parse point before the list: behind the previous sibling of the block, or else to the
    beginning of what contains the block. -/
def pointBefore (man : RoffMan) (blk : Nat) : RoffMan :=
  match (man.links blk).prev with
  | none => { man with last := (man.links blk).parent, next := .CHILD }
  | some s => { man with last := some s, next := .SIBLING }

/-- The next non-transparent child, which is updated after such a node was moved out, and when no
    node at all was moved yet. -/
def keptChild (man : RoffMan) (nbody nchild : Nat) : Res (Option Nat) :=
  if man.last = some nchild then roffNodeChild man nbody else .ok (some nchild)

/-- The first loop of `post_bl()`: up to the first item, move nodes before the list. The result
    includes the first item, if there is one. -/
def moveOutLoop : Nat → RoffMan → Nat → Nat → Res (RoffMan × Option Nat)
  | 0, _, _, _ => .error .fuel
  | steps + 1, man, nbody, nchild => do
    match ← keptChild man nbody nchild with
    | none => .ok ({ man with last := some nbody }, none)
    | some nchild =>
      if (man.node nchild).tok.isIt then .ok ({ man with last := some nbody }, some nchild)
      else
        match (man.links nbody).parent, (man.links nbody).child with
        | some blk, some c => do
          let man ← roffNodeRelink (pointBefore man blk) c
          moveOutLoop steps man nbody nchild
        | _, _ => .error .null

/-! ## §3 Behind an implicit row -/

/-- Open an implicit item at the parse point: `roff_block_alloc()`, `roff_head_alloc()`, and
    `roff_body_alloc()`. -/
def openItem (man : RoffMan) (line pos : Nat) : Res RoffMan := do
  let man ← roffNodeAppend (roffNodeAlloc man line pos .BLOCK (.MDOC "It")) man.count
  let man := { man with next := .CHILD }
  let man ← roffNodeAppend (roffNodeAlloc man line pos .HEAD (.MDOC "It")) man.count
  let man := { man with next := .SIBLING }
  let man ← roffNodeAppend (roffNodeAlloc man line pos .BODY (.MDOC "It")) man.count
  return { man with next := .CHILD }

/-- The inner loop: move everything up to the next item. The result includes the node that
    ended the loop. -/
def wrapRun : Nat → RoffMan → Nat → Option Nat → Res (RoffMan × Nat)
  | 0, _, _, _ => .error .fuel
  | steps + 1, man, nchild, nnext =>
    if (man.node nchild).tok.isIt then .ok (man, nchild)
    else do
      let man ← roffNodeRelink man nchild
      match nnext with
      | none => .ok (man, nchild)
      | some next => wrapRun steps { man with next := .SIBLING } next (man.links next).next

/-- One round of the second loop, for a node that is not an item: wrap it and what follows. -/
def wrapRound (steps : Nat) (man : RoffMan) (nchild : Nat) : Res (RoffMan × Nat) := do
  let nnext := (man.links nchild).next
  let n := man.node nchild
  let man ← openItem { man with last := (man.links nchild).prev, next := .SIBLING } n.line n.pos
  wrapRun steps man nchild nnext

/-- The second loop of `post_bl()` -/
def wrapLoop : Nat → RoffMan → Nat → Option Nat → Res RoffMan
  | _, man, _, none => .ok man
  | 0, _, _, some _ => .error .fuel
  | steps + 1, man, nbody, some nchild =>
    if (man.node nchild).tok.isIt then do
      let next ← roffNodeNext man nchild
      wrapLoop steps man nbody next
    else do
      let (man, nchild) ← wrapRound man.count man nchild
      wrapLoop steps { man with last := some nbody } nbody (some nchild)

/-! ## §4 Error numbers -/

/-- The `Er` macro at the beginning of the head of an item, possibly inside another block. -/
def itemEr (man : RoffMan) (nchild : Nat) : Res (Option Nat) :=
  match (man.node nchild).head with
  | none => .error .null
  | some head =>
    match (man.links head).child with
    | none => .ok none
    | some nnext =>
      if (man.node nnext).type = .BLOCK then
        match (man.node nnext).body with
        | none => .error .null
        | some body => .ok ((man.links body).child.filter fun n => (man.node n).tok = .MDOC "Er")
      else .ok ((some nnext).filter fun n => (man.node n).tok = .MDOC "Er")

/-- The loop at the end of `post_bl()`, which compares each error number to the previous one,
    and only reports what it finds. -/
def erOrderLoop : Nat → RoffMan → Option Nat → Option CStr → Res Unit
  | _, _, none, _ => .ok ()
  | 0, _, some _, _ => .error .fuel
  | steps + 1, man, some nchild, prevEr => do
    let next := (man.links nchild).next
    if (man.node nchild).tok.isIt then
      match ← itemEr man nchild with
      | none => erOrderLoop steps man next prevEr
      | some er =>
        match (man.links er).child with
        | none => .error .null
        | some name =>
          -- strcmp(prev_Er, nnext->string)
          if prevEr ≠ none ∧ (man.node name).string = none then .error .null
          else erOrderLoop steps man next (man.node name).string
    else erOrderLoop steps man next prevEr

/-- The part of `post_bl()` behind the first loop; `netbsd` means that the operating system is
    NetBSD. -/
def postBlItems (netbsd : Bool) (man : RoffMan) (nbody nchild : Nat) : Res RoffMan := do
  let man ← wrapLoop (man.count + 1) man nbody (some nchild)
  if netbsd then
    (erOrderLoop man.count man (man.links nbody).child none).map fun _ => man
  else .ok man

/-- `post_bl()` for a body. The messages are left out. -/
def postBl (netbsd : Bool) (man : RoffMan) : Res RoffMan :=
  match man.last with
  | none => .error .null
  | some nbody =>
    if (man.node nbody).endb ≠ .NOT then .ok man
    else do
      let (man, nchild) ← moveOutLoop (man.count + 1) man nbody nbody
      match nchild with
      | none => .ok man
      | some nchild => postBlItems netbsd man nbody nchild

end Mandoc
