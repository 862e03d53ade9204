/-
**The shortest decimal text of a binary32 number.**

The digits written are the fewest that read back as the same number; of several such decimals of
that length, the one nearest to the number.  A finite number `m · 2^q` owns the interval of reals
that round to it, ends included when `m` is even, and the search looks for the coarsest decimal grid
`10^t` on which one of the two neighbours of the number lies in that interval.

The text has always a fraction.  It is positional while the decimal exponent of the first digit is
between `-4` and `15`, and in scientific form beyond.

Main definitions:

* `Binary32.Decimal` — a decimal `digits · 10^exponent`;
* `Binary32.shortest` — the decimal that is written;
* `Binary32.text` — the text of a number.
-/

import StackLang.Binary32.Basic

set_option relaxedAutoImplicit false
set_option autoImplicit false

namespace StackLang

namespace Binary32

/-! ### The interval of a number -/

/-- The fraction bits. -/
def fraction (x : Binary32) : Nat := x.bits.toNat % 0x800000

/-- The exponent field. -/
def exponentField (x : Binary32) : Nat := x.bits.toNat / 0x800000 % 0x100

/-- The integer `m` of the magnitude `m · 2^q`. -/
def significand (x : Binary32) : Nat :=
  if x.exponentField = 0 then x.fraction else x.fraction + 0x800000

/-- The exponent `q` of the magnitude `m · 2^q`. -/
def scale (x : Binary32) : Int := (max x.exponentField 1 : Int) - 150

/-- The lower end of the interval, in units of `2^(q-2)`: half the gap to the number below, which is
a quarter of a unit of `m` where the exponent changes. -/
def lowerEnd (x : Binary32) : Nat :=
  4 * x.significand - (if x.fraction = 0 ∧ 1 < x.exponentField then 1 else 2)

/-- The upper end of the interval, in units of `2^(q-2)`. -/
def upperEnd (x : Binary32) : Nat := 4 * x.significand + 2

/-! ### Decimals in the interval -/

/-- A decimal `digits · 10^exponent`. -/
structure Decimal where
  /-- The digits, read as one integer. -/
  digits : Nat
  /-- The power of ten of the last digit. -/
  exponent : Int
deriving DecidableEq, Repr

/-- The neighbour of the number on the grid `10^t` that lies in its interval; of two, the nearer,
and at an exact tie the upper one. -/
def onGrid? (x : Binary32) (t : Int) : Option Decimal :=
  let num := Nat.pow 2 (x.scale - 2).toNat * Nat.pow 10 (-t).toNat
  let den := Nat.pow 2 (2 - x.scale).toNat * Nat.pow 10 t.toNat
  let target := 4 * x.significand * num
  let inside := fun (c : Nat) =>
    if x.significand % 2 = 0 then x.lowerEnd * num ≤ c * den ∧ c * den ≤ x.upperEnd * num
    else x.lowerEnd * num < c * den ∧ c * den < x.upperEnd * num
  let below := target / den
  let above := below + 1
  if inside below then
    if inside above ∧ above * den - target ≤ target - below * den then some ⟨above, t⟩
    else some ⟨below, t⟩
  else if inside above then some ⟨above, t⟩
  else none

/-- The decimal that is written for a finite number other than zero: the first hit from the coarsest
grid, `10^39`, down to `10^(-60)`, which is finer than every interval. -/
def shortest (x : Binary32) : Decimal :=
  ((List.range 100).findSome? fun (k : Nat) => x.onGrid? (39 - k)).getD ⟨0, 0⟩

/-! ### The text -/

/-- The text of a decimal in positional form, with at least one digit on either side of the
point. -/
def positional (d : Decimal) : String :=
  let ds := Nat.toDigits 10 d.digits
  if 0 ≤ d.exponent then
    String.ofList (ds ++ List.replicate d.exponent.toNat '0') ++ ".0"
  else
    let places := (-d.exponent).toNat
    let ds := List.replicate (places + 1 - ds.length) '0' ++ ds
    String.ofList (ds.take (ds.length - places)) ++ "."
      ++ String.ofList (ds.drop (ds.length - places))

/-- The text of a decimal in scientific form, with a point only before further digits. -/
def scientific (d : Decimal) : String :=
  let ds := Nat.toDigits 10 d.digits
  let point := if ds.length = 1 then "" else "."
  String.ofList (ds.take 1) ++ point ++ String.ofList (ds.drop 1) ++ "e"
    ++ toString (d.exponent + (ds.length - 1 : Nat))

/-- The decimal exponents of the first digit that are written positionally. -/
def isPositional (exponent : Int) : Bool := -4 ≤ exponent && exponent < 16

/-- The text of the magnitude of a number. -/
def magnitudeText (x : Binary32) : String :=
  if x.magnitude = 0x7F800000 then "inf"
  else if x.magnitude = 0 then "0.0"
  else
    let d := x.shortest
    let first := d.exponent + ((Nat.toDigits 10 d.digits).length - 1 : Nat)
    if isPositional first then positional d else scientific d

/-- **The text of a number.** What is not a number is written without its sign. -/
def text (x : Binary32) : String :=
  if x.isNaN then "NaN"
  else (if x.isNegative then "-" else "") ++ x.magnitudeText

end Binary32

end StackLang
