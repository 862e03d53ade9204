/-
**Nodes in an arena.**

A syntax tree can be laid out in an arena, a row of cells in which a node refers to the nodes below
it by their places.  A place is never given up: a node that is replaced stays behind, and nothing
but the references tells which cells are a part of the tree.  So a cell could be referred to twice
or from below itself, and a pass over such an arena would not end.  A pass is therefore a step that
may have no result: it is cut off when it goes deeper than there are nodes, which it never does in
a tree.

Main definitions:

* `Cell`, `Arena` — the node at a place, and all of them;
* `Arena.clone`, `Arena.fold`, `Arena.link`, `Arena.ancestors` — copying a subtree, folding
  constants, recording which node is above which, and reading that record.
-/

import StackLang.Tree.Fold
import StackLang.Proofs.Tree.Kind

set_option relaxedAutoImplicit false
set_option autoImplicit false

namespace StackLang

/-! ### Arenas -/

/-- What passes record at a node. -/
structure Annotations where
  type : Option Scalar
  /-- The symbol that a name stands for. -/
  symbol : Option Nat
  /-- The place of the node directly above. -/
  enclosing : Option Nat
deriving DecidableEq, Repr

/-- Nothing is recorded. -/
def Annotations.empty : Annotations := ⟨none, none, none⟩

/-- The node at a place. -/
structure Cell where
  kind : Kind Nat
  span : Span
  annotations : Annotations

namespace Cell

def withKind (kind : Kind Nat) (c : Cell) : Cell := { c with kind }

/-- The node with the one above it recorded. -/
def withEnclosing (p : Option Nat) (c : Cell) : Cell :=
  { c with annotations := { c.annotations with enclosing := p } }

end Cell

/-- Nodes that refer to each other by their places. -/
structure Arena where
  cells : List Cell
  root : Option Nat

/-- A step on an arena, which has no result when it refers to a place that is not there or does not
end. -/
abbrev Pass := StateT Arena Option

namespace Arena

/-- Nothing was made. -/
def empty : Arena := ⟨[], none⟩

/-- The number of nodes that were ever made. -/
def size (A : Arena) : Nat := A.cells.length

/-- The arena with one more node. -/
def push (A : Arena) (c : Cell) : Arena := { A with cells := A.cells ++ [c] }

/-- The arena with another node at a place. -/
def set (A : Arena) (k : Nat) (c : Cell) : Arena := { A with cells := A.cells.set k c }

/-! ### Single cells -/

/-- The node at a place. -/
def cell (k : Nat) : Pass Cell := fun A => A.cells[k]?.map fun c => (c, A)

/-- Changes the node at a place. -/
def modifyCell (k : Nat) (f : Cell → Cell) : Pass Unit := fun A =>
  A.cells[k]?.map fun c => ((), A.set k (f c))

/-- Makes a node, at which nothing is recorded. -/
def alloc (kind : Kind Nat) (span : Span) : Pass Nat := fun A =>
  some (A.size, A.push ⟨kind, span, .empty⟩)

def setRoot (k : Nat) : Pass Unit := fun A => some ((), { A with root := some k })

/-! ### Copying -/

/-- Copies what is below a place, a node after those below it, at most `n` nodes deep. -/
def cloneWithin : Nat → Nat → Pass Nat
  | 0, _ => failure
  | n + 1, k => do
    let kind := (← cell k).kind
    let copies ← kind.children.mapM (cloneWithin n)
    alloc (kind.refill copies) (← cell k).span

/-- **Copies what is below a place.** -/
def clone (k : Nat) : Pass Nat := fun A => cloneWithin A.size k A

/-- Copies what is below the place `k` and stores the kind of the copy's root at the place `j`. -/
def graft (k j : Nat) : Pass Nat := do
  let copy ← clone k
  let kind := (← cell copy).kind
  modifyCell j (.withKind kind)
  return copy

/-! ### Folding

Every function gives the place that takes the place of `k`, and the number of replacements. -/

/-- A new node with the span of the one that it replaces. -/
def replace (k : Nat) (kind : Kind Nat) : Pass (Nat × Nat) := do
  return (← alloc kind (← cell k).span, 1)

def foldBinary (k : Nat) (op : BinaryOp) : Pass (Nat × Nat) := do
  match (← cell k).kind with
  | .binary _ l r =>
    match (← cell l).kind, (← cell r).kind with
    | .literal a, .literal b =>
      match op.eval? a b with
      | some v => replace k (.literal v)
      | none => return (k, 0)
    | _, _ => return (k, 0)
  | _ => return (k, 0)

def foldUnary (k : Nat) (op : UnaryOp) : Pass (Nat × Nat) := do
  match (← cell k).kind with
  | .unary _ x =>
    match (← cell x).kind with
    | .literal v => replace k (.literal (op.eval v))
    | _ => return (k, 0)
  | _ => return (k, 0)

def foldCond (k : Nat) : Pass (Nat × Nat) := do
  match (← cell k).kind with
  | .cond c t e =>
    match (← cell c).kind with
    | .literal v =>
      if v.isTrue then return (t, 1)
      else match e with
        | some e => return (e, 1)
        | none => replace k .nop
    | _ => return (k, 0)
  | _ => return (k, 0)

/-- The kind of a block with another last statement. -/
def withLast (j : Nat) : Kind Nat → Kind Nat
  | .block is => .block (is.set (is.length - 1) j)
  | kind => kind

/-- The kind of a condition with other branches. -/
def withBranches (j : Nat) (e : Option Nat) : Kind Nat → Kind Nat
  | .cond c _ _ => .cond c j e
  | kind => kind

/-- The kind of a definition with another body. -/
def withBody (j : Nat) : Kind Nat → Kind Nat
  | .define p _ => .define p j
  | kind => kind

/-- Takes the `return` at the end of a body away, which is at most `n` nodes deep. -/
def unwrapTailWithin : Nat → Nat → Pass (Nat × Nat)
  | 0, _ => failure
  | n + 1, k => do
    match (← cell k).kind with
    | .returnValue v => return (v, 1)
    | .block is =>
      match is.getLast? with
      | some last =>
        let (last, m) ← unwrapTailWithin n last
        modifyCell k fun c => c.withKind (withLast last c.kind)
        return (k, m)
      | none => return (k, 0)
    | .cond _ t e =>
      let (t, m) ← unwrapTailWithin n t
      match e with
      | some e =>
        let (e, m') ← unwrapTailWithin n e
        modifyCell k fun c => c.withKind (withBranches t (some e) c.kind)
        return (k, m + m')
      | none =>
        modifyCell k fun c => c.withKind (withBranches t none c.kind)
        return (k, m)
    | _ => return (k, 0)

/-- Takes the `return` at the end of a body away. -/
def unwrapTail (k : Nat) : Pass (Nat × Nat) := fun A => unwrapTailWithin A.size k A

def foldBody (k : Nat) : Pass (Nat × Nat) := do
  match (← cell k).kind with
  | .define _ b =>
    let (b, n) ← unwrapTail b
    modifyCell k fun c => c.withKind (withBody b c.kind)
    return (k, n)
  | _ => return (k, 0)

/-- Folds the node at `k`, which was of the given kind before what is below it was folded. -/
def foldRoot (kind : Kind Nat) (k : Nat) : Pass (Nat × Nat) :=
  match kind with
  | .binary op _ _ => if op = .assign then return (k, 0) else foldBinary k op
  | .unary op _ => foldUnary k op
  | .cond _ _ _ => foldCond k
  | .define _ _ => foldBody k
  | _ => return (k, 0)

/-- Stores what takes the place of the nodes below `k`; a node without any is not touched. -/
def storeChildren (k : Nat) (js : List Nat) : Pass Unit :=
  if js = [] then return () else modifyCell k fun c => c.withKind (c.kind.refill js)

/-- Folds what is below a place, at most `n` nodes deep, and then the node at it. -/
def rewriteWithin : Nat → Nat → Pass (Nat × Nat)
  | 0, _ => failure
  | n + 1, k => do
    let kind := (← cell k).kind
    let folded ← kind.children.mapM (rewriteWithin n)
    storeChildren k (folded.map Prod.fst)
    let (j, m) ← foldRoot kind k
    return (j, (folded.map Prod.snd).sum + m)

/-- **Folds what is below a place**, and then the node at it. -/
def rewrite (k : Nat) : Pass (Nat × Nat) := fun A => rewriteWithin A.size k A

/-- **Folds the tree below the root** and gives the number of replacements. -/
def fold : Pass Nat := do
  match (← get).root with
  | some k =>
    let (j, n) ← rewrite k
    setRoot j
    return n
  | none => return 0

/-! ### What is above a node -/

/-- Records what is above the nodes on a stack, and what is above the nodes below these; at most `n`
nodes are taken from the stack. -/
def linkWithin : Nat → List (Nat × Option Nat) → Pass Unit
  | _, [] => return ()
  | 0, _ :: _ => failure
  | n + 1, (k, p) :: stack => do
    modifyCell k (.withEnclosing p)
    let below := (← cell k).kind.children.map fun j => (j, some k)
    linkWithin n (below.reverse ++ stack)

/-- **Records which node is above which**, from `k` on, which is below `p`. -/
def link (k : Nat) (p : Option Nat) : Pass Unit := fun A => linkWithin A.size [(k, p)] A

/-- A place and those recorded above it, nearest first, when there are at most `n`. -/
def climbWithin (A : Arena) : Nat → Option Nat → Option (List Nat)
  | _, none => some []
  | 0, some _ => none
  | n + 1, some k => do
    let c ← A.cells[k]?
    return k :: (← climbWithin A n c.annotations.enclosing)

/-- **The places recorded above a place**, nearest first. -/
def ancestors (A : Arena) (k : Nat) : Option (List Nat) := do
  let c ← A.cells[k]?
  climbWithin A A.size c.annotations.enclosing

end Arena

end StackLang
