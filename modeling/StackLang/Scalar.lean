/-
**Scalar types.**

The language has two types of value, and a value of either fills one cell of thirty-two bits.

Main definitions:

* `Scalar` — integer or float;
* `Scalar.join` — the type of an arithmetic result.
-/

set_option relaxedAutoImplicit false
set_option autoImplicit false

namespace StackLang

/-- The type of a value. -/
inductive Scalar where
  /-- A signed integer of thirty-two bits. -/
  | int
  /-- A binary32 number. -/
  | float
deriving DecidableEq, Repr, Inhabited

namespace Scalar

/-- The word that stands for the type in the name of a function instance. -/
def tag : Scalar → String
  | int => "i32"
  | float => "f32"

/-- The type of an arithmetic result: a float as soon as one operand is. -/
def join : Scalar → Scalar → Scalar
  | int, int => int
  | _, _ => float

theorem join_comm (a b : Scalar) : a.join b = b.join a := by
  cases a <;> cases b <;> rfl

@[simp] theorem join_self (a : Scalar) : a.join a = a := by
  cases a <;> rfl

end Scalar

end StackLang
