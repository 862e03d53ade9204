/-
**Literals and their arithmetic.**

A literal is an integer or a float, and an operator applied to literals has a literal as its value.
Integers wrap at thirty-two bits and divide toward zero; as soon as one operand is a float, both are
taken as floats.  A comparison gives the integer one or zero.

Main definitions:

* `Literal` — a value written in the text;
* `BinaryOp.eval?`, `UnaryOp.eval` — the value of an operator on literals.
-/

import StackLang.Tree.Operator

set_option relaxedAutoImplicit false
set_option autoImplicit false

namespace StackLang

/-- A value written in the text. -/
inductive Literal where
  | int (n : Int32)
  | float (x : Binary32)
deriving DecidableEq, Repr, Inhabited

namespace Literal

/-- The type of the value. -/
def scalar : Literal → Scalar
  | int _ => .int
  | float _ => .float

/-- Whether the value counts as true: everything but zero does. -/
def isTrue : Literal → Bool
  | int n => n != 0
  | float x => !x.eq .zero

/-- The value as a float. -/
def toBinary32 : Literal → Binary32
  | int n => .ofInt32 n
  | float x => x

/-- The integer that stands for a truth value. -/
def ofBool (b : Bool) : Literal := int (if b then 1 else 0)

end Literal

namespace BinaryOp

/-- Whether two integers stand in the relation that the operator names. -/
def holdsInt (op : BinaryOp) (a b : Int32) : Bool :=
  match op with
  | equal => a == b
  | notEqual => a != b
  | less => a < b
  | lessEqual => a ≤ b
  | greater => b < a
  | greaterEqual => b ≤ a
  | _ => false

/-- Whether two floats stand in the relation that the operator names. -/
def holdsFloat (op : BinaryOp) (a b : Binary32) : Bool :=
  match op with
  | equal => a.eq b
  | notEqual => !a.eq b
  | less => a.lt b
  | lessEqual => a.le b
  | greater => b.lt a
  | greaterEqual => b.le a
  | _ => false

/-- The value of arithmetic on integers; division by zero has none. -/
def evalInt? (op : BinaryOp) (a b : Int32) : Option Int32 :=
  match op with
  | add => some (a + b)
  | subtract => some (a - b)
  | multiply => some (a * b)
  | divide => if b = 0 then none else some (a / b)
  | _ => none

/-- The value of arithmetic on floats. -/
def evalFloat? (op : BinaryOp) (a b : Binary32) : Option Binary32 :=
  match op with
  | add => some (a.add b)
  | subtract => some (a.sub b)
  | multiply => some (a.mul b)
  | divide => some (a.div b)
  | _ => none

/-- **The value of an operator on two literals.** Assignment and integer division by zero have
none. -/
def eval? (op : BinaryOp) (l r : Literal) : Option Literal :=
  if op.isComparison then
    match l, r with
    | .int a, .int b => some (.ofBool (op.holdsInt a b))
    | _, _ => some (.ofBool (op.holdsFloat l.toBinary32 r.toBinary32))
  else
    match l, r with
    | .int a, .int b => (op.evalInt? a b).map .int
    | _, _ => (op.evalFloat? l.toBinary32 r.toBinary32).map .float

end BinaryOp

namespace UnaryOp

/-- **The value of an operator on a literal.** -/
def eval (op : UnaryOp) (v : Literal) : Literal :=
  match op, v with
  | plus, v => v
  | minus, .int n => .int (-n)
  | minus, .float x => .float x.neg
  | not, v => .ofBool !v.isTrue

end UnaryOp

end StackLang
