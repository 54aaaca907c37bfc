import Mandoc.Roff.Token
import Mandoc.Lib.SiblingLinks

/-!
# Syntax Tree Handling

Model of the section "syntax tree handling" of `roff.c`. A node of the syntax tree is
identified by the number of nodes allocated before it. The pointers between the nodes
(`parent`, `child`, `last`, `next`, and `prev`) are kept in one map, the other data of
the nodes in another one, so that the operations on the pointers are those of
doubly linked siblings in general.

The functions are called for their effect on the tree and on the parse point, which
consists of `man->last` and `man->next`. A null `man` pointer, which
`roff_node_unlink()` and `roff_node_delete()` accept, leaves the parse point alone;
this is the argument `adjust := false`.
-/

namespace Mandoc

open OrderedForest

/-! ## §1 Nodes and the parse point -/

/-- `enum roff_type` -/
inductive RoffType where
  | ROOT | BLOCK | HEAD | BODY | TAIL | ELEM | TEXT | COMMENT | TBL | EQN
deriving DecidableEq, Repr

/-- `enum mdoc_endbody` -/
inductive EndBody where
  | NOT | SPACE
deriving DecidableEq, Repr

/-- `enum roff_next` -/
inductive RoffNext where
  | SIBLING | CHILD
deriving DecidableEq, Repr

/-- `enum roff_macroset` -/
inductive MacroSet where
  | NONE | MDOC | MAN
deriving DecidableEq, Repr

/-- Bits of `flags` in `struct roff_node`. -/
structure NodeFlags where
  /-- Has been validated. -/
  valid : Bool := false
  /-- Gone past body end mark. -/
  ended : Bool := false
  /-- First macro or text on line. -/
  line : Bool := false
  /-- SYNOPSIS-style formatting. -/
  synpretty : Bool := false
  /-- Fill mode switched off. -/
  nofill : Bool := false
  /-- Generated node, not in input file. -/
  nosrc : Bool := false
  /-- Shall not print anything. -/
  noprt : Bool := false
deriving DecidableEq, Repr

/-- The data of a node, apart from the pointers forming the tree: `struct roff_node`. -/
structure RoffNode where
  line : Nat := 0
  pos : Nat := 0
  tok : Tok := .ROFF_br
  type : RoffType := .ROOT
  /-- Current named section. -/
  sec : Nat := 0
  endb : EndBody := .NOT
  head : Option Nat := none
  body : Option Nat := none
  tail : Option Nat := none
  /-- Normalized arguments. -/
  norm : Option Nat := none
  string : Option CStr := none
  /-- The row of a table. -/
  span : Option Nat := none
  flags : NodeFlags := {}
deriving DecidableEq, Repr

/-- Bits of `flags` in `struct roff_man`. -/
structure ManFlags where
  /-- SYNOPSIS-style formatting. -/
  synopsis : Bool := false
  /-- First macro or text in a line. -/
  newline : Bool := false
  /-- Fill mode switched off. -/
  nofill : Bool := false
  /-- Temporarily suspend no-fill mode. -/
  nonofill : Bool := false
  /-- Next-line element scope. -/
  eline : Bool := false
  /-- Next-line block scope. -/
  bline : Bool := false
deriving DecidableEq, Repr

/-- `struct roff_man`: the tree, the parse point, and what the roff parser knows about the
    high-level parsers. -/
structure RoffMan where
  links : Nat → Links Nat := fun _ => {}
  node : Nat → RoffNode := fun _ => {}
  /-- How many nodes have been allocated. -/
  count : Nat := 0
  /-- `meta.first`: the first node parsed. -/
  first : Option Nat := none
  /-- The last node parsed. -/
  last : Option Nat := none
  /-- Where to put the next node. -/
  next : RoffNext := .CHILD
  flags : ManFlags := {}
  /-- Last section seen. -/
  lastsec : Nat := 0
  /-- `meta.macroset`: kind of high-level macros used. -/
  macroset : MacroSet := .NONE
  /-- `meta.rcsids`: the RCS ids seen, by operating system. -/
  rcsids : List String := []

/-- `roff_man_alloc1()`: a root node. -/
def roffManAlloc1 : RoffMan := { count := 1, first := some 0, last := some 0 }

/-! ## §2 Allocation -/

/-- `roff_node_alloc()`: the state after the allocation; the new node is the one
    numbered by the old value of `count`. -/
def roffNodeAlloc (man : RoffMan) (line pos : Nat) (type : RoffType) (tok : Tok) : RoffMan :=
  let n : RoffNode := {
    line := line, pos := pos, tok := tok, type := type, sec := man.lastsec,
    flags := {
      synpretty := man.flags.synopsis
      nofill := man.flags.nofill && !man.flags.nonofill
      line := man.flags.newline } }
  { man with
    links := Function.update man.links man.count {}
    node := Function.update man.node man.count n
    count := man.count + 1
    flags := { man.flags with newline := false } }

/-! ## §3 Appending -/

/-- `switch (n->type)` at the end of `roff_node_append()`: the parent gets to know its
    head, body, or tail, and passes on its normalised-data pointer. -/
def roffNodeRole (man : RoffMan) (n : Nat) : Res RoffMan :=
  let copy (set : RoffNode → RoffNode) : Res RoffMan :=
    match (man.links n).parent with
    | none => .error .null
    | some p =>
      let node := Function.update man.node p (set (man.node p))
      let node := Function.update node n { node n with norm := (node p).norm }
      -- assert(n->parent->type == ROFFT_BLOCK)
      if (node p).type = .BLOCK then .ok { man with node := node } else .error .abort
  match (man.node n).type with
  | .HEAD => copy ({ · with head := some n })
  | .BODY => if (man.node n).endb ≠ .NOT then .ok man else copy ({ · with body := some n })
  | .TAIL => copy ({ · with tail := some n })
  | _ => .ok man

/-- `roff_node_append()` -/
def roffNodeAppend (man : RoffMan) (n : Nat) : Res RoffMan :=
  match man.last with
  | none => .error .null
  | some last =>
    match man.next with
    | .SIBLING =>
      if (man.links last).next = none ∧ (man.links last).parent = none then .error .null
      else roffNodeRole { man with links := linkAfter man.links last n, last := some n } n
    | .CHILD => roffNodeRole { man with links := linkFirst man.links last n, last := some n } n

/-- Change the data of a node. -/
def RoffMan.modify (man : RoffMan) (n : Nat) (f : RoffNode → RoffNode) : RoffMan :=
  { man with node := Function.update man.node n (f (man.node n)) }

/-- The bits `NODE_VALID | NODE_ENDED` are set. -/
def RoffNode.complete (n : RoffNode) : RoffNode :=
  { n with flags := { n.flags with valid := true, ended := true } }

/-- Append a node without children: what the functions that add a comment, a word, or the
    row of a table have in common. -/
def addLeaf (man : RoffMan) (line pos : Nat) (type : RoffType) (data : RoffNode → RoffNode) :
    Res RoffMan := do
  let n := man.count
  let man := (roffNodeAlloc man line pos type .TOKEN_NONE).modify n data
  let man ← roffNodeAppend man n
  return { man.modify n RoffNode.complete with next := .SIBLING }

/-! ## §4 Unlinking and deleting -/

/-- `roff_node_unlink()` -/
def roffNodeUnlink (man : RoffMan) (adjust : Bool) (n : Nat) : RoffMan :=
  let man := { man with links := unlink man.links n }
  -- Adjust parse point.
  if adjust then
    let man :=
      if man.last = some n then
        match (man.links n).prev with
        | none => { man with last := (man.links n).parent, next := .CHILD }
        | some s => { man with last := some s, next := .SIBLING }
      else man
    if man.first = some n then { man with first := none } else man
  else man

/-- `roff_node_relink()` -/
def roffNodeRelink (man : RoffMan) (n : Nat) : Res RoffMan :=
  let man := roffNodeUnlink man true n
  let links := setNext man.links (some n) none
  let links := setPrev links (some n) none
  roffNodeAppend { man with links := links } n

/-- `roff_node_free()` -/
def roffNodeFree (man : RoffMan) (n : Nat) : RoffMan :=
  { man with
    links := Function.update man.links n {}
    node := Function.update man.node n {} }

/-- `roff_node_delete()`, with a bound on the number of calls and iterations. -/
def roffNodeDelete : Nat → RoffMan → Bool → Nat → Res RoffMan
  | 0, _, _, _ => .error .fuel
  | steps + 1, man, adjust, n =>
    match (man.links n).child with
    | some c => do
      let man ← roffNodeDelete steps man adjust c
      roffNodeDelete steps man adjust n
    | none => .ok (roffNodeFree (roffNodeUnlink man adjust n) n)

/-! ## §5 Sequences of operations -/

/-- The operations on a syntax tree. -/
inductive TreeOp where
  /-- The parser chooses where to put the next node. -/
  | next (v : RoffNext)
  /-- `roff_node_alloc()`, then `roff_node_append()`. -/
  | add (line pos : Nat) (type : RoffType) (tok : Tok) (endb : EndBody)
  | unlink (adjust : Bool) (n : Nat)
  | relink (n : Nat)
  | delete (adjust : Bool) (n : Nat)
deriving DecidableEq, Repr

/-- The effect of one operation. -/
def TreeOp.apply (man : RoffMan) : TreeOp → Res RoffMan
  | .next v => .ok { man with next := v }
  | .add line pos type tok endb =>
    let n := man.count
    let man := roffNodeAlloc man line pos type tok
    let man := { man with node := Function.update man.node n { man.node n with endb := endb } }
    roffNodeAppend man n
  | .unlink adjust n => .ok (roffNodeUnlink man adjust n)
  | .relink n => roffNodeRelink man n
  | .delete adjust n => roffNodeDelete (man.count + 1) man adjust n

end Mandoc
