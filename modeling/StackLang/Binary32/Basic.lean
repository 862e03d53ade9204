/-
**Numbers in binary32 format.**

A number is kept as its thirty-two bits, so that equality of numbers is equality of what is stored
and a number that is not a number keeps its sign and payload.  Arithmetic on other numbers is that
of `Float32`: the exact result, rounded to nearest with ties to even.

Two rules settle what `Float32` leaves open.  An operation without a meaningful result, such as
`0 / 0`, gives the negative quiet pattern `0xFFC00000`; an operation on a pattern that is not a
number gives that pattern back, made quiet, and the left operand goes first.

Main definitions:

* `Binary32` — a number by its bits;
* `Binary32.value` — the number as a `Float32`;
* `Binary32.add`, `Binary32.sub`, `Binary32.mul`, `Binary32.div`, `Binary32.neg` — arithmetic;
* `Binary32.ofInt32`, `Binary32.ofDecimal` — the nearest number to an integer or to a decimal.
-/

set_option relaxedAutoImplicit false
set_option autoImplicit false

namespace StackLang

/-- A binary32 number, given by its bits. -/
structure Binary32 where
  /-- Sign, eight bits of exponent, twenty-three bits of fraction, from the top. -/
  bits : UInt32
deriving DecidableEq, Repr, Inhabited

namespace Binary32

/-- The bits without the sign, which order the non-negative numbers as they are ordered. -/
def magnitude (x : Binary32) : UInt32 := x.bits &&& 0x7FFFFFFF

/-- Whether the sign bit is set. -/
def isNegative (x : Binary32) : Bool := x.bits &&& 0x80000000 != 0

/-- Whether the bits are a pattern that stands for no number. -/
def isNaN (x : Binary32) : Bool := 0x7F800000 < x.magnitude

/-- The number that the bits stand for. -/
def value (x : Binary32) : Float32 := Float32.ofBits x.bits

/-- Positive zero. -/
def zero : Binary32 := ⟨0⟩

/-- The result of an operation that has no meaningful one. -/
def invalid : Binary32 := ⟨0xFFC00000⟩

/-- The quiet form of a pattern that is not a number. -/
def quiet (x : Binary32) : Binary32 := ⟨x.bits ||| 0x00400000⟩

/-- An operation on two numbers: a pattern that is not a number is passed on, and a result that is
not a number is `invalid`. -/
def lift (f : Float32 → Float32 → Float32) (x y : Binary32) : Binary32 :=
  if x.isNaN then x.quiet
  else if y.isNaN then y.quiet
  else
    let r : Binary32 := ⟨(f x.value y.value).toBits⟩
    if r.isNaN then invalid else r

/-- The sum, rounded to nearest. -/
def add : Binary32 → Binary32 → Binary32 := lift (· + ·)

/-- The difference, rounded to nearest. -/
def sub : Binary32 → Binary32 → Binary32 := lift (· - ·)

/-- The product, rounded to nearest. -/
def mul : Binary32 → Binary32 → Binary32 := lift (· * ·)

/-- The quotient, rounded to nearest. -/
def div : Binary32 → Binary32 → Binary32 := lift (· / ·)

/-- The number with its sign turned over. -/
def neg (x : Binary32) : Binary32 := ⟨x.bits ^^^ 0x80000000⟩

/-- Whether two numbers are equal as numbers: the two zeros are, and what is not a number is equal
to nothing. -/
def eq (x y : Binary32) : Bool := x.value == y.value

/-- Whether the first number is less than the second. -/
def lt (x y : Binary32) : Bool := x.value < y.value

/-- Whether the first number is at most the second. -/
def le (x y : Binary32) : Bool := x.value ≤ y.value

/-- The nearest number to a 32-bit integer. -/
def ofInt32 (n : Int32) : Binary32 := ⟨(Float32.ofInt n.toInt).toBits⟩

/-- The nearest number to the decimal `digits · 10^(-places)`. -/
def ofDecimal (digits places : Nat) : Binary32 := ⟨(Float32.ofScientific digits true places).toBits⟩

end Binary32

end StackLang
