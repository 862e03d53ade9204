/-
**Constant folding.**

An operator whose operands are literals is replaced by its value, a condition on a literal by the
branch that is taken, and a `return` at the end of a function body by its value.  What is below a
node is folded before the node, and the count of replacements is kept.

A replacement keeps the note of the node whose place it takes, except that a branch or a returned
value keeps its own.

Main definitions:

* `Node.unwrapTail` — a body without the `return` at its end;
* `Node.fold` — the folded tree and the number of replacements.
-/

import StackLang.Tree.Node

set_option relaxedAutoImplicit false
set_option autoImplicit false

namespace StackLang

namespace Node

variable {α : Type}

/-! ### The end of a function body -/

mutual

/-- A body with the `return` at its end replaced by the value: the body itself, the last statement
of a block, and both branches of a condition are at the end. -/
def unwrapTail : Node α → Node α × Nat
  | returnValue _ v => (v, 1)
  | block n is =>
    let (is, k) := unwrapLast is
    (block n is, k)
  | cond n c t e =>
    let (t, i) := unwrapTail t
    let (e, j) := unwrapOption e
    (cond n c t e, i + j)
  | x => (x, 0)

/-- `Node.unwrapTail` on the last tree of a list. -/
def unwrapLast : List (Node α) → List (Node α) × Nat
  | [] => ([], 0)
  | [x] =>
    let (x, k) := unwrapTail x
    ([x], k)
  | x :: y :: xs =>
    let (ys, k) := unwrapLast (y :: xs)
    (x :: ys, k)

/-- `Node.unwrapTail` on a tree that may be missing. -/
def unwrapOption : Option (Node α) → Option (Node α) × Nat
  | none => (none, 0)
  | some x =>
    let (x, k) := unwrapTail x
    (some x, k)

end

/-! ### Single nodes -/

/-- A binary operator, folded when it has a value. -/
def foldBinary (n : α) (op : BinaryOp) (l r : Node α) : Node α × Nat :=
  match l, r with
  | literal _ a, literal _ b =>
    match op.eval? a b with
    | some v => (literal n v, 1)
    | none => (binary n op l r, 0)
  | _, _ => (binary n op l r, 0)

/-- A unary operator, folded when its operand is a literal. -/
def foldUnary (n : α) (op : UnaryOp) (x : Node α) : Node α × Nat :=
  match x with
  | literal _ v => (literal n (op.eval v), 1)
  | _ => (unary n op x, 0)

/-- A condition, folded when what it tests is a literal. -/
def foldCond (n : α) (c t : Node α) (e : Option (Node α)) : Node α × Nat :=
  match c with
  | literal _ v => (if v.isTrue then t else e.getD (nop n), 1)
  | _ => (cond n c t e, 0)

/-! ### Trees -/

mutual

/-- **The folded tree** and the number of replacements made. -/
def fold : Node α → Node α × Nat
  | literal n v => (literal n v, 0)
  | identifier n x => (identifier n x, 0)
  | binary n op l r =>
    let (l, i) := fold l
    let (r, j) := fold r
    let (x, k) := foldBinary n op l r
    (x, i + j + k)
  | unary n op x =>
    let (x, i) := fold x
    let (x, k) := foldUnary n op x
    (x, i + k)
  | call n f as =>
    let (f, i) := fold f
    let (as, j) := foldList as
    (call n f as, i + j)
  | cond n c t e =>
    let (c, h) := fold c
    let (t, i) := fold t
    let (e, j) := foldOption e
    let (x, k) := foldCond n c t e
    (x, h + i + j + k)
  | loop n c b =>
    let (c, i) := fold c
    let (b, j) := fold b
    (loop n c b, i + j)
  | breakLoop n => (breakLoop n, 0)
  | continueLoop n => (continueLoop n, 0)
  | returnValue n v =>
    let (v, i) := fold v
    (returnValue n v, i)
  | define n p b =>
    let (p, i) := fold p
    let (b, j) := fold b
    let (b, k) := unwrapTail b
    (define n p b, i + j + k)
  | prototype n f ps => (prototype n f ps, 0)
  | block n is =>
    let (is, i) := foldList is
    (block n is, i)
  | assembly n t => (assembly n t, 0)
  | unit n is =>
    let (is, i) := foldList is
    (unit n is, i)
  | nop n => (nop n, 0)

/-- `Node.fold` along a list. -/
def foldList : List (Node α) → List (Node α) × Nat
  | [] => ([], 0)
  | x :: xs =>
    let (x, i) := fold x
    let (xs, j) := foldList xs
    (x :: xs, i + j)

/-- `Node.fold` on a tree that may be missing. -/
def foldOption : Option (Node α) → Option (Node α) × Nat
  | none => (none, 0)
  | some x =>
    let (x, i) := fold x
    (some x, i)

end

end Node

end StackLang
