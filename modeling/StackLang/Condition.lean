/-
**Conditions of jumps.**

A conditional jump tests the cell that was popped last, as a signed integer.

Main definitions:

* `Condition` — when a jump is taken;
* `Condition.holds` — whether it is taken for a cell.

Main results:

* `Condition.holds_negate` — a jump and its negation are never both taken.
-/

set_option relaxedAutoImplicit false
set_option autoImplicit false

namespace StackLang

/-- When a jump is taken, by the sign of the cell that was popped last. -/
inductive Condition where
  | always
  | equal
  | notEqual
  | less
  | lessEqual
  | greater
  | greaterEqual
deriving DecidableEq, Repr, Inhabited

namespace Condition

/-- The name of the jump. -/
def mnemonic : Condition → String
  | always => "JMP"
  | equal => "JEQ"
  | notEqual => "JNE"
  | less => "JLT"
  | lessEqual => "JLE"
  | greater => "JGT"
  | greaterEqual => "JGE"

/-- The condition that holds where this one does not; `always` has none and stays. -/
def negate : Condition → Condition
  | always => always
  | equal => notEqual
  | notEqual => equal
  | less => greaterEqual
  | lessEqual => greater
  | greater => lessEqual
  | greaterEqual => less

/-- Whether the jump is taken after `value` was popped. -/
def holds (c : Condition) (value : Int32) : Bool :=
  match c with
  | always => true
  | equal => value == 0
  | notEqual => value != 0
  | less => value < 0
  | lessEqual => value ≤ 0
  | greater => 0 < value
  | greaterEqual => 0 ≤ value

/-- Whether the jump can be passed by. -/
def isConditional : Condition → Bool
  | always => false
  | _ => true

@[simp] theorem negate_negate (c : Condition) : c.negate.negate = c := by
  cases c <;> rfl

/-- A jump and its negation are never both taken. -/
theorem holds_negate {c : Condition} (h : c.isConditional) (value : Int32) :
    c.negate.holds value = !c.holds value := by
  cases c <;> simp [isConditional, negate, holds] at h ⊢ <;> grind

end Condition

end StackLang
