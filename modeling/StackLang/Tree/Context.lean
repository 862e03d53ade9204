/-
**Open constructs.**

A parser that has read part of a text holds the constructs that are open there, innermost first,
with the parts of them that are complete.  A construct is open either inside a list of statements or
at a place that awaits an expression; the two kinds of place contain each other.

A complete part is held as the tree that it is, or as the place where that tree was put.

An expression of operators is read as a chain: signs that await their operand, and binary operators
that await their right side.  The operators of a chain form levels; each level has a floor, the
loosest binding that an operator of it may have.

Main definitions:

* `Pending`, `Chain` — operators that await an operand;
* `Body`, `Hole` — a list of statements and a place for an expression, inside what is around them;
* `Awaiting` — what the parser can read next.
-/

import StackLang.Tree.Node

set_option relaxedAutoImplicit false
set_option autoImplicit false

namespace StackLang

/-! ### Operators that await an operand -/

/-- A binary operator with its left side, awaiting its right side.  Here and below, `τ` is what
stands for a tree that is complete. -/
structure Pending (τ : Type := Node Span) where
  left : τ
  op : BinaryOp
  /-- The loosest binding of an operator on this level. -/
  floor : Nat

namespace Pending

/-- The operator with both sides. -/
def close (x : Node Span) (p : Pending) : Node Span :=
  .binary (p.left.note.merge x.note) p.op p.left x

end Pending

/-- The operators that await an operand, innermost first. -/
structure Chain (τ : Type := Node Span) where
  /-- The signs directly before the operand, with their places. -/
  signs : List (Span × UnaryOp)
  /-- The binary operators before the signs. -/
  pending : List (Pending τ)

namespace Chain

/-- No operator awaits an operand. -/
def empty : Chain := ⟨[], []⟩

/-- An operand with the signs before it. -/
def closeSigns (x : Node Span) (signs : List (Span × UnaryOp)) : Node Span :=
  signs.foldl (fun x (start, op) => .unary (start.merge x.note) op x) x

/-- An operand with every binary operator before it, the innermost first. -/
def closeAll (x : Node Span) (pending : List Pending) : Node Span :=
  pending.foldl Pending.close x

/-- The operators after `op` was read behind `x`, which is complete on its level: where the level
does not admit `op`, the level ends and `x` becomes the right side of the operator before it. -/
def settle (op : BinaryOp) (x : Node Span) (floor : Nat) : List Pending → List Pending
  | [] => [⟨x, op, floor⟩]
  | p :: ps =>
    if floor ≤ op.binding then ⟨x, op, floor⟩ :: p :: ps
    else settle op (p.close x) p.floor ps

/-- The operators after `op` was read behind the operand `x`.  An operator that binds tighter than
the one before `x`, or as tightly while that one groups to the right, opens a new level; otherwise
`x` is the right side of the operator before it. -/
def push (op : BinaryOp) (x : Node Span) : List Pending → List Pending
  | [] => [⟨x, op, BinaryOp.loosest⟩]
  | p :: ps =>
    if p.op.binding < op.binding then ⟨x, op, p.op.binding + 1⟩ :: p :: ps
    else if p.op.binding = op.binding ∧ p.op.groupsRight then ⟨x, op, p.op.binding⟩ :: p :: ps
    else settle op (p.close x) p.floor ps

end Chain

/-! ### Statements and expressions inside what is around them -/

mutual

/-- An open list of statements.  The complete statements are kept last first. -/
inductive Body (τ : Type := Node Span) where
  /-- The items of the whole text. -/
  | unit (done : List τ)
  /-- Statements in braces. -/
  | block (start : Span) (done : List τ) (outer : Hole τ)

/-- A place that awaits an expression. -/
inductive Hole (τ : Type := Node Span) where
  /-- A statement of its own. -/
  | statement (body : Body τ)
  | returned (start : Span) (body : Body τ)
  /-- In parentheses. -/
  | group (chain : Chain τ) (outer : Hole τ)
  /-- An argument; those before it are kept last first. -/
  | argument (callee : τ) (done : List τ) (chain : Chain τ) (outer : Hole τ)
  | condition (start : Span) (outer : Hole τ)
  | yes (start : Span) (condition : τ) (outer : Hole τ)
  | no (start : Span) (condition yes : τ) (outer : Hole τ)
  | loopCondition (start : Span) (outer : Hole τ)
  | loopBody (start : Span) (condition : τ) (outer : Hole τ)
  /-- The body of a function, which is an item of the text. -/
  | functionBody (start : Span) (prototype : τ) (done : List τ)

end

namespace Body

variable {τ : Type}

/-- The list with one more statement at its end. -/
def add (x : τ) : Body τ → Body τ
  | unit done => unit (x :: done)
  | block start done outer => block start (x :: done) outer

end Body

/-- The part of a function's heading that is complete. -/
structure Heading (τ : Type := Node Span) where
  /-- The place of the keyword. -/
  start : Span
  /-- The place of the name. -/
  nameSpan : Span
  name : String
  /-- The parameters, last first. -/
  params : List String
  /-- The items before the function, last first. -/
  done : List τ

namespace Heading

variable {τ : Type}

/-- The heading with one more parameter. -/
def addParam (p : String) (h : Heading τ) : Heading τ := { h with params := p :: h.params }

/-- The prototype of a heading that ends at `stop`. -/
def prototype (stop : Span) (h : Heading) : Node Span :=
  .prototype (h.nameSpan.merge stop) h.name h.params.reverse

end Heading

/-- What can be read next. -/
inductive Awaiting (τ : Type := Node Span) where
  /-- A statement, or the end of the list. -/
  | statement (body : Body τ)
  /-- An expression. -/
  | expression (hole : Hole τ)
  /-- An operand of a chain. -/
  | operand (chain : Chain τ) (hole : Hole τ)
  /-- What may follow an operand; only a name and an expression in parentheses can be called. -/
  | afterOperand (x : τ) (callable : Bool) (chain : Chain τ) (hole : Hole τ)
  /-- What may follow a complete expression. -/
  | afterExpression (x : τ) (hole : Hole τ)
  /-- The first argument, or the end of the arguments. -/
  | firstArgument (callee : τ) (chain : Chain τ) (hole : Hole τ)
  /-- The text of target code. -/
  | assemblyText (start : Span) (body : Body τ)
  /-- The name of a function. -/
  | functionName (start : Span) (done : List τ)
  /-- The parenthesis before the parameters. -/
  | params (h : Heading τ)
  /-- The first parameter, or the end of the parameters. -/
  | firstParam (h : Heading τ)
  /-- The parameter after a comma. -/
  | param (h : Heading τ)
  /-- A comma or the end of the parameters. -/
  | afterParam (h : Heading τ)

namespace Awaiting

/-- Nothing has been read. -/
def start : Awaiting := statement (.unit [])

/-- The items of a text whose end was read. -/
def items {τ : Type} : Awaiting τ → List τ
  | statement (.unit done) => done.reverse
  | _ => []

end Awaiting

end StackLang
