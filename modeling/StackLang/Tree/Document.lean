/-
**Documents.**

A document is a tree whose nodes have identities.  Identities are handed out in increasing order and
never twice, so the nodes that were ever made are counted by the next identity that is free.  A
node's identity is less than those of the nodes below it.

Which node a node stands below is recorded separately, and only when asked for: the record is made
for the whole tree at once and is not brought up to date by later changes.

Main definitions:

* `Mark` — the note of a node with an identity;
* `Document` — a tree of marked nodes;
* `Document.ofTree` — the document of a parsed tree;
* `Document.link`, `Document.ancestors` — the record of parents, and the nodes above a node in it;
* `Document.clone`, `Document.graft` — copying a subtree, and putting a copy in another place.
-/

import StackLang.Tree.Node

set_option relaxedAutoImplicit false
set_option autoImplicit false

namespace StackLang

/-- The note of a node in a document. -/
structure Mark where
  /-- The identity of the node. -/
  id : Nat
  /-- The stretch of the text that the node stands for. -/
  span : Span
deriving DecidableEq, Repr, Inhabited

/-- A tree whose nodes have identities. -/
structure Document where
  root : Node Mark
  /-- The next identity that is free. -/
  fresh : Nat
  /-- The record of parents: a node and the node directly above it. -/
  parents : List (Nat × Nat)

namespace Node

/-- The identity of the root. -/
def identity (x : Node Mark) : Nat := x.note.id

/-- The pairs of a node and the node directly above it. -/
def links (x : Node Mark) : List (Nat × Nat) :=
  x.subtrees.flatMap fun y => y.children.map fun z => (z.identity, y.identity)

/-- A copy whose nodes take fresh identities from `k` on, and the next free one. -/
def copy (k : Nat) (x : Node Mark) : Node Mark × Nat :=
  x.number (fun i m => { m with id := i }) k

mutual

/-- The tree with what stands at the node `k` replaced by `y`; the mark of that node stays. -/
def replaceAt (k : Nat) (y : Node Mark) : Node Mark → Node Mark
  | literal n v => if n.id = k then y.withNote n else literal n v
  | identifier n x => if n.id = k then y.withNote n else identifier n x
  | binary n op l r =>
    if n.id = k then y.withNote n else binary n op (replaceAt k y l) (replaceAt k y r)
  | unary n op x => if n.id = k then y.withNote n else unary n op (replaceAt k y x)
  | call n f as =>
    if n.id = k then y.withNote n else call n (replaceAt k y f) (replaceAtList k y as)
  | cond n c t e =>
    if n.id = k then y.withNote n
    else cond n (replaceAt k y c) (replaceAt k y t) (replaceAtOption k y e)
  | loop n c b => if n.id = k then y.withNote n else loop n (replaceAt k y c) (replaceAt k y b)
  | breakLoop n => if n.id = k then y.withNote n else breakLoop n
  | continueLoop n => if n.id = k then y.withNote n else continueLoop n
  | returnValue n v => if n.id = k then y.withNote n else returnValue n (replaceAt k y v)
  | define n p b => if n.id = k then y.withNote n else define n (replaceAt k y p) (replaceAt k y b)
  | prototype n f ps => if n.id = k then y.withNote n else prototype n f ps
  | block n is => if n.id = k then y.withNote n else block n (replaceAtList k y is)
  | assembly n t => if n.id = k then y.withNote n else assembly n t
  | unit n is => if n.id = k then y.withNote n else unit n (replaceAtList k y is)
  | nop n => if n.id = k then y.withNote n else nop n

/-- `Node.replaceAt` in every tree of a list. -/
def replaceAtList (k : Nat) (y : Node Mark) : List (Node Mark) → List (Node Mark)
  | [] => []
  | x :: xs => replaceAt k y x :: replaceAtList k y xs

/-- `Node.replaceAt` in a tree that may be missing. -/
def replaceAtOption (k : Nat) (y : Node Mark) : Option (Node Mark) → Option (Node Mark)
  | none => none
  | some x => some (replaceAt k y x)

end

end Node

namespace Document

/-- The document of a parsed tree: its nodes are numbered from zero, and no parent is recorded. -/
def ofTree (x : Node Span) : Document :=
  let (root, fresh) := x.number (fun i s => (⟨i, s⟩ : Mark)) 0
  ⟨root, fresh, []⟩

/-- The nodes, a node before what is below it. -/
def nodes (d : Document) : List (Node Mark) := d.root.subtrees

/-- The node with an identity. -/
def find? (d : Document) (k : Nat) : Option (Node Mark) := d.nodes.find? fun x => x.identity = k

/-- The document with the parents of its present nodes recorded. -/
def link (d : Document) : Document := { d with parents := d.root.links }

/-- The recorded parent of a node. -/
def parent? (d : Document) (k : Nat) : Option Nat := d.parents.lookup k

/-- The nodes above a node in the record, nearest first. -/
def ancestors (d : Document) (k : Nat) : List Nat :=
  match d.parent? k with
  | none => []
  | some p => if p < k then p :: ancestors d p else []
termination_by k

/-- A copy of a subtree, made of fresh nodes. -/
def clone (d : Document) (x : Node Mark) : Node Mark × Document :=
  let (y, fresh) := x.copy d.fresh
  (y, { d with fresh })

/-- Puts a copy of the subtree `x` in the place of what stands at the node `k`.  The node `k` keeps
its mark and its recorded parent, and the root of the copy is left aside.  The copy is returned. -/
def graft (d : Document) (k : Nat) (x : Node Mark) : Node Mark × Document :=
  let (y, d) := d.clone x
  (y, { d with root := Node.replaceAt k y d.root })

end Document

end StackLang
