/-
**The values of typed trees.**

A typed tree on integers has a value of its own, without any code.  Operands are evaluated from left
to right and arguments from right to left, variables are told apart by their symbols, and the local
variables of a call start at zero.  Arithmetic wraps, and a comparison compares the wrapped
difference with zero.

A loop need not end, nor need calls, so evaluation goes down a given number of levels.

Main definitions:

* `Env` — the values of variables;
* `Eval.expression`, `Eval.statements`, `Eval.arguments` — evaluation in an environment;
* `Typing.value?` — the value of a unit, and its variables in the end;
* `Node.IsStraight`, `Typing.IsInteger` — trees without jumps and target code, and units on
  integers.
-/

import StackLang.Proofs.Lower.Emits
import StackLang.Proofs.Tree.Shape

set_option relaxedAutoImplicit false
set_option autoImplicit false

namespace StackLang

/-! ### Variables -/

/-- The values of variables, by the numbers of their symbols. -/
structure Env where
  /-- Those of the unit. -/
  globals : Nat → Int32
  /-- Those of the running function. -/
  locals : Nat → Int32

namespace Env

/-- Every variable is zero. -/
def zero : Env := ⟨fun _ => 0, fun _ => 0⟩

/-- The value of a variable. -/
def read (ss : Symbols) (k : Nat) (e : Env) : Option Int32 :=
  match ss[k]?.map Symbol.storage with
  | some (.global _) => some (e.globals k)
  | some (.frame _) => some (e.locals k)
  | _ => none

/-- The variables after an assignment. -/
def write (ss : Symbols) (k : Nat) (v : Int32) (e : Env) : Option Env :=
  match ss[k]?.map Symbol.storage with
  | some (.global _) => some { e with globals := Function.update e.globals k v }
  | some (.frame _) => some { e with locals := Function.update e.locals k v }
  | _ => none

/-- What was assigned is read. -/
theorem read_of_write {ss : Symbols} {k : Nat} {v : Int32} {e e' : Env}
    (h : e.write ss k v = some e') : e'.read ss k = some v := by
  unfold write at h
  unfold read
  split at h
  · cases h
    simp
  · cases h
    simp
  · cases h

end Env

/-- The local variables of a call: the parameters `ps` are the arguments, and the others zero. -/
def Scope.enter (scope : Scope) : List String → List Int32 → Nat → Int32
  | p :: ps, v :: vs, k => if scope.lookup p = some k then v else scope.enter ps vs k
  | _, _, _ => 0

/-- The value of an operator on two integers. -/
def BinaryOp.value? (op : BinaryOp) (a b : Int32) : Option Int32 :=
  if op.isComparison then some (if op.holdsInt (a - b) 0 then 1 else 0) else op.evalInt? a b

/-! ### Evaluation -/

namespace Eval

variable (r : Round)

mutual

/-- **The value of an expression**, and the variables behind it, at most `n` levels deep. -/
def expression : Nat → Node Note → Env → Option (Int32 × Env)
  | 0, _, _ => none
  | n + 1, x, e =>
    match x with
    | .literal _ (.int v) => some (v, e)
    | .literal _ (.float _) => none
    | .identifier m _ => do
      let v ← e.read r.symbols (← m.symbol)
      pure (v, e)
    | .binary _ .assign l y => do
      let (v, e) ← expression n y e
      let e ← e.write r.symbols (← l.note.symbol) v
      pure (v, e)
    | .binary _ op l y => do
      let (a, e) ← expression n l e
      let (b, e) ← expression n y e
      pure (← op.value? a b, e)
    | .unary _ .plus y => expression n y e
    | .unary _ .minus y => do
      let (v, e) ← expression n y e
      pure (0 - v, e)
    | .unary _ .not y => do
      let (v, e) ← expression n y e
      pure (if v = 0 then 1 else 0, e)
    | .call m _ as => do
      let (vs, e) ← arguments n as e
      let s ← r.symbols[← m.symbol]?
      let f ← r.inferred.find? fun f => f.name = s.emittedName
      let (v, e') ← expression n f.body ⟨e.globals, f.scope.enter f.params vs⟩
      pure (v, ⟨e'.globals, e.locals⟩)
    | .cond _ c t none => do
      let (v, e) ← expression n c e
      if v = 0 then pure (0, e) else expression n t e
    | .cond _ c t (some y) => do
      let (v, e) ← expression n c e
      if v = 0 then expression n y e else expression n t e
    | .loop m c b => do
      let (v, e) ← expression n c e
      if v = 0 then pure (0, e) else
        let (_, e) ← expression n b e
        expression n (.loop m c b) e
    | .block _ xs => statements n xs e
    | .nop _ => some (0, e)
    | _ => none

/-- The value of statements is that of the last one, and zero if there is none. -/
def statements : Nat → List (Node Note) → Env → Option (Int32 × Env)
  | 0, _, _ => none
  | n + 1, xs, e =>
    match xs with
    | [] => some (0, e)
    | [x] => expression n x e
    | x :: y :: xs => do
      let (_, e) ← expression n x e
      statements n (y :: xs) e

/-- The values of arguments, the last one first in time. -/
def arguments : Nat → List (Node Note) → Env → Option (List Int32 × Env)
  | 0, _, _ => none
  | n + 1, xs, e =>
    match xs with
    | [] => some ([], e)
    | x :: xs => do
      let (vs, e) ← arguments n xs e
      let (v, e) ← expression n x e
      pure (v :: vs, e)

end

end Eval

/-- **The value of a unit**, and its variables in the end. -/
def Typing.value? (n : Nat) (t : Typing) : Option (Int32 × Env) :=
  match t.root with
  | .unit _ items => Eval.statements t.round n (items.filter fun x => !x.isDefinition) .zero
  | _ => none

/-! ### Units of integers without jumps -/

namespace Node

variable {α : Type}

/-- Whether the tree is a jump or a piece of target code. -/
def isDetour : Node α → Bool
  | breakLoop .. | continueLoop .. | returnValue .. | assembly .. => true
  | _ => false

/-- There is no jump and no target code in the tree. -/
def IsStraight (x : Node α) : Prop := Every (fun y => y.isDetour = false) x

/-- Whether a tree is straight depends on its shape. -/
theorem isStraight_shape (x : Node α) : x.shape.IsStraight ↔ x.IsStraight := by
  have hroot : ∀ y : Node α, y.shape.isDetour = y.isDetour := by
    intro y
    cases y <;> rfl
  simp only [IsStraight, every_shape, hroot]

/-- No value in the tree is a float. -/
def IsInteger (x : Node Note) : Prop := Every (fun y => y.note.type ≠ some .float) x

end Node

/-- No value in the unit or in an instance is a float. -/
def Typing.IsInteger (t : Typing) : Prop :=
  t.root.IsInteger ∧ ∀ f ∈ t.round.inferred, f.body.IsInteger

instance {α : Type} (x : Node α) : Decidable x.IsStraight :=
  inferInstanceAs (Decidable (∀ y ∈ x.subtrees, y.isDetour = false))

instance (x : Node Note) : Decidable x.IsInteger :=
  inferInstanceAs (Decidable (∀ y ∈ x.subtrees, y.note.type ≠ some .float))

instance (t : Typing) : Decidable t.IsInteger :=
  inferInstanceAs (Decidable (t.root.IsInteger ∧ ∀ f ∈ t.round.inferred, f.body.IsInteger))

end StackLang
