/-
**Operators.**

The operators of the language and how tightly the binary ones bind.

Main definitions:

* `BinaryOp`, `UnaryOp` — the operators;
* `BinaryOp.binding` — how tightly a binary operator binds;
* `BinaryOp.ofToken?`, `UnaryOp.ofToken?` — the operator that a word stands for.
-/

import StackLang.Token.Basic

set_option relaxedAutoImplicit false
set_option autoImplicit false

namespace StackLang

/-- A binary operator; assignment is one. -/
inductive BinaryOp where
  | assign
  | add
  | subtract
  | multiply
  | divide
  | equal
  | notEqual
  | less
  | lessEqual
  | greater
  | greaterEqual
deriving DecidableEq, Repr, Inhabited

namespace BinaryOp

/-- Every binary operator. -/
def all : List BinaryOp :=
  [assign, add, subtract, multiply, divide, equal, notEqual, less, lessEqual, greater, greaterEqual]

/-- Whether the operator compares. -/
def isComparison : BinaryOp → Bool
  | equal | notEqual | less | lessEqual | greater | greaterEqual => true
  | _ => false

/-- Whether the operator computes. -/
def isArithmetic : BinaryOp → Bool
  | add | subtract | multiply | divide => true
  | _ => false

/-- The spelling of the operator. -/
def symbol : BinaryOp → String
  | assign => "="
  | add => "+"
  | subtract => "-"
  | multiply => "*"
  | divide => "/"
  | equal => "=="
  | notEqual => "!="
  | less => "<"
  | lessEqual => "<="
  | greater => ">"
  | greaterEqual => ">="

/-- The operator that a word stands for between two operands. -/
def ofToken? : Token → Option BinaryOp
  | .equal => some assign
  | .plus => some add
  | .minus => some subtract
  | .star => some multiply
  | .slash => some divide
  | .equalEqual => some equal
  | .bangEqual => some notEqual
  | .less => some less
  | .lessEqual => some lessEqual
  | .greater => some greater
  | .greaterEqual => some greaterEqual
  | _ => none

/-- How tightly the operator binds: a higher number binds tighter. -/
def binding : BinaryOp → Nat
  | assign => 2
  | equal | notEqual | less | lessEqual | greater | greaterEqual => 10
  | add | subtract => 20
  | multiply | divide => 40

/-- Whether a chain of the operator groups to the right. -/
def groupsRight : BinaryOp → Bool
  | assign => true
  | _ => false

/-- The loosest binding there is. -/
def loosest : Nat := 2

theorem loosest_le_binding (op : BinaryOp) : loosest ≤ op.binding := by
  cases op <;> decide

end BinaryOp

/-- A unary operator, written before its operand. -/
inductive UnaryOp where
  | plus
  | minus
  /-- One for zero and zero for the rest. -/
  | not
deriving DecidableEq, Repr, Inhabited

namespace UnaryOp

/-- The spelling of the operator. -/
def symbol : UnaryOp → String
  | plus => "+"
  | minus => "-"
  | not => "!"

/-- The operator that a word stands for before an operand. -/
def ofToken? : Token → Option UnaryOp
  | .plus => some plus
  | .minus => some minus
  | .bang => some not
  | _ => none

end UnaryOp

end StackLang
