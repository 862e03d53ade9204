/-
**Code from typed trees.**

The code of an expression leaves exactly one cell on the stack.  Jumps, target code and definitions
leave none, and where a value is needed a zero follows them.  Code that is left by a jump out of an
expression first drops the cells that wait there for their operator, so the number of these cells is
carried along.

The code of a unit is that of its statements, a halt, and the functions that calls go to.

Main definitions:

* `Lower.Site` — what surrounds the code of an expression;
* `Lower.expression` — the code of an expression;
* `Lower.function`, `Typing.lower` — the code of a function and of a whole unit.
-/

import StackLang.Code.Basic
import StackLang.Typing.Infer

set_option relaxedAutoImplicit false
set_option autoImplicit false

namespace StackLang

/-- A step that makes code: it takes fresh identities, and fails where a promise is broken. -/
abbrev Lower := StateT Nat (Except InternalError)

namespace Lower

/-! ### Surroundings -/

/-- Where the jumps of the loop around an expression go. -/
structure LoopSite where
  head : Nat
  exit : Nat
  /-- The number of waiting cells at the start of the loop. -/
  depth : Nat

/-- What surrounds the code of an expression. -/
structure Site where
  /-- The innermost loop around the expression, in the same function. -/
  loop : Option LoopSite
  /-- The number of cells that wait for their operator. -/
  depth : Nat

namespace Site

/-- No loop and no waiting cell. -/
def top : Site := ⟨none, 0⟩

/-- The surroundings with more waiting cells. -/
def deeper (n : Nat) (s : Site) : Site := { s with depth := s.depth + n }

end Site

/-! ### Single instructions -/

/-- A fresh identity. -/
def fresh : Lower Nat := do
  let k ← get
  set (k + 1)
  pure k

/-- An instruction with an operand. -/
def instr (op : Op) (operand : Operand) : Lower (List Instr) := do
  pure [.plain (← fresh) op operand]

/-- An instruction with an operand and a remark. -/
def remarked (op : Op) (operand : Operand) (comment : String) : Lower (List Instr) := do
  pure [(Instr.plain (← fresh) op operand).withComment comment]

/-- A jump. -/
def jump (c : Condition) (target : Target) : Lower (List Instr) := do
  pure [.jump (← fresh) c (some target)]

/-- The same instruction a number of times. -/
def times (n : Nat) (op : Op) (operand : Operand) : Lower (List Instr) :=
  match n with
  | 0 => pure []
  | n + 1 => do pure ((← instr op operand) ++ (← times n op operand))

/-- Turns the top cell of type `source` into one of type `target`. -/
def convert (source target : Scalar) : Lower (List Instr) :=
  match source, target with
  | .int, .float => instr .toFloat .none
  | .float, .int => instr .toInt .none
  | _, _ => pure []

/-- Pushes one if the condition holds of the cell popped last, and zero otherwise. -/
def truth (c : Condition) : Lower (List Instr) := do
  let one ← fresh
  let exit ← fresh
  let test ← jump c (.instr one)
  let zero ← instr .load (.int 0)
  let skip ← jump .always (.instr exit)
  pure (test ++ zero ++ skip ++ [.plain one .load (.int 1), .plain exit .nop .none])

/-! ### What inference promises -/

/-- The type of an expression. -/
def typeOf (x : Node Note) : Lower Scalar :=
  match x.note.type with
  | some type => pure type
  | none => throw (.untyped x.kindName x.note.mark.span)

/-- The symbol of a name or a call. -/
def symbolOf (symbols : Symbols) (x : Node Note) : Lower Symbol :=
  match x.note.symbol.bind fun k => symbols[k]? with
  | some s => pure s
  | none => throw (.unresolved x.kindName x.note.mark.span)

/-- The operand that is a variable's cell. -/
def cellOf (s : Symbol) : Lower Operand :=
  match s.storage with
  | .frame offset => pure (.frame offset)
  | .global label => pure (.global label)
  | .nowhere => throw (.unstored s.sourceName)

/-! ### Expressions -/

/-- The code of `x` with a zero after it where `x` leaves no cell. -/
def pad (x : Node Note) (code : List Instr) : Lower (List Instr) := do
  if x.yieldsCell then pure code else pure (code ++ (← instr .load (.int 0)))

/-- Pushes the value of a name. -/
def name (symbols : Symbols) (x : Node Note) : Lower (List Instr) := do
  let s ← symbolOf symbols x
  let cell ← cellOf s
  match s.storage with
  | .frame _ => remarked .load cell ("load " ++ s.sourceName)
  | _ => instr .load cell

/-- Stores the top cell into the variable `x` and pushes the value of the variable. -/
def store (symbols : Symbols) (x : Node Note) : Lower (List Instr) := do
  let s ← symbolOf symbols x
  let cell ← cellOf s
  let put ← remarked .store cell ("store " ++ s.sourceName)
  let back ← remarked .load cell ("load " ++ s.sourceName)
  pure (put ++ back)

/-- A jump to the exit or to the head of the loop around the expression, after the waiting cells
inside the loop were dropped; outside of loops there is nothing to do. -/
def loopJump (site : Site) (toHead : Bool) : Lower (List Instr) :=
  match site.loop with
  | none => pure []
  | some l => do
    let drops ← times (site.depth - l.depth) .pop .none
    let go ← jump .always (.instr (if toHead then l.head else l.exit))
    pure (drops ++ go)

/-- Whether a loop with this condition is left only by jumps. -/
def isEndless : Node Note → Bool
  | .literal _ (.int n) => n != 0
  | _ => false

mutual

/-- **The code of an expression.** -/
def expression (symbols : Symbols) (site : Site) : Node Note → Lower (List Instr)
  | .literal _ v => instr .load (.ofLiteral v)
  | .identifier n x => name symbols (.identifier n x)
  | .binary n op l r => do
    if op = .assign then
      let type ← typeOf l
      let value ← pad r (← expression symbols site r)
      let change ← convert (← typeOf r) type
      pure (value ++ change ++ (← store symbols l))
    else
      let s ← typeOf l
      let t ← typeOf r
      let type ← if op.isComparison then pure (s.join t) else typeOf (.binary n op l r)
      let first ← pad l (← expression symbols site l)
      let change ← convert s type
      let second ← pad r (← expression symbols (site.deeper 1) r)
      let change' ← convert t type
      let operands := first ++ change ++ second ++ change'
      match Condition.ofComparison? op with
      | some c =>
        let difference ← instr (.arith .sub type) .none
        let drop ← instr .pop .none
        pure (operands ++ difference ++ drop ++ (← truth c))
      | none => pure (operands ++ (← instr (.arith ((ArithOp.ofBinary? op).getD .add) type) .none))
  | .unary n op x => do
    match op with
    | .plus => pad x (← expression symbols site x)
    | .minus =>
      let type ← typeOf (.unary n op x)
      let zero ← instr .load (.zero type)
      let value ← pad x (← expression symbols (site.deeper 1) x)
      pure (zero ++ value ++ (← instr (.arith .sub type) .none))
    | .not =>
      let value ← pad x (← expression symbols site x)
      let drop ← instr .pop .none
      pure (value ++ drop ++ (← truth .equal))
  | .call n f as => do
    let s ← symbolOf symbols (.call n f as)
    let slot ← remarked .load (.int 0) "return slot"
    let values ← arguments symbols (site.deeper 1) as
    let go ← instr .call (.label s.emittedName)
    pure (slot ++ values ++ go ++ (← times as.length .pop .none))
  | .cond n c t none => do
    let type ← typeOf (.cond n c t none)
    let no ← fresh
    let exit ← fresh
    let test ← pad c (← expression symbols site c)
    let drop ← instr .pop .none
    let skip ← jump .equal (.instr no)
    let yes ← pad t (← expression symbols site t)
    let change ← convert (← typeOf t) type
    let leave ← jump .always (.instr exit)
    let zero ← instr .load (.zero type)
    pure (test ++ drop ++ skip ++ yes ++ change ++ leave ++ [.plain no .nop .none] ++ zero
      ++ [.plain exit .nop .none])
  | .cond n c t (some e) => do
    let type ← typeOf (.cond n c t (some e))
    let no ← fresh
    let exit ← fresh
    let test ← pad c (← expression symbols site c)
    let drop ← instr .pop .none
    let skip ← jump .equal (.instr no)
    let yes ← pad t (← expression symbols site t)
    let change ← convert (← typeOf t) type
    let leave ← jump .always (.instr exit)
    let other ← pad e (← expression symbols site e)
    let change' ← convert (← typeOf e) type
    pure (test ++ drop ++ skip ++ yes ++ change ++ leave ++ [.plain no .nop .none] ++ other
      ++ change' ++ [.plain exit .nop .none])
  | .loop _ c b => do
    let head ← fresh
    let exit ← fresh
    let inside : Site := ⟨some ⟨head, exit, site.depth⟩, site.depth⟩
    let test ← if isEndless c then pure [] else do
      let value ← pad c (← expression symbols inside c)
      let drop ← instr .pop .none
      let skip ← jump .equal (.instr exit)
      pure (value ++ drop ++ skip)
    let body ← pad b (← expression symbols inside b)
    let drop ← instr .pop .none
    let back ← jump .always (.instr head)
    let zero ← instr .load (.int 0)
    pure ([.plain head .nop .none] ++ test ++ body ++ drop ++ back ++ [.plain exit .nop .none]
      ++ zero)
  | .breakLoop _ => loopJump site false
  | .continueLoop _ => loopJump site true
  | .returnValue _ v => do
    let drops ← times site.depth .pop .none
    let value ← pad v (← expression symbols { site with depth := 0 } v)
    pure (drops ++ value ++ (← jump .always .epilogue))
  | .block _ is => statements symbols site is
  | .assembly _ text => instr (.assembly text) .none
  | .nop _ => instr .load (.int 0)
  | .define .. | .prototype .. => pure []
  | .unit .. => throw .nestedUnit

/-- The code of statements: only the value of the last one stays, and a zero if there is none. -/
def statements (symbols : Symbols) (site : Site) : List (Node Note) → Lower (List Instr)
  | [] => instr .load (.int 0)
  | [x] => do pad x (← expression symbols site x)
  | x :: y :: xs => do
    let first ← expression symbols site x
    let drop ← if x.yieldsCell then instr .pop .none else pure []
    pure (first ++ drop ++ (← statements symbols site (y :: xs)))

/-- The code of arguments, the last one first. -/
def arguments (symbols : Symbols) (site : Site) : List (Node Note) → Lower (List Instr)
  | [] => pure []
  | x :: xs => do
    let rest ← arguments symbols site xs
    let value ← pad x (← expression symbols (site.deeper xs.length) x)
    pure (rest ++ value)

end

/-! ### Functions and units -/

/-- **The code of a function**: a zero for each local variable, the body, the value into the return
cell, and the local variables dropped.  Returns from inside go to the store. -/
def function (symbols : Symbols) (f : Inferred) : Lower (List Instr) := do
  let entry ← instr (.entry f.name) .none
  let zeros ← times f.scope.locals .load (.int 0)
  let body ← pad f.body (← expression symbols .top f.body)
  let epilogue ← fresh
  let result := Instr.plain epilogue .store (.frame (4 + 4 * f.params.length))
  let drops ← times f.scope.locals .pop .none
  let back ← instr .ret .none
  let code := entry ++ zeros ++ body ++ [result.withComment "return value"] ++ drops ++ back
  pure (code.map (Code.resolveInstr epilogue))

/-- The code of the statements of a unit, with the halt at its end.  Returns go to the halt. -/
def main (symbols : Symbols) (items : List (Node Note)) : Lower (List Instr) := do
  let body ← statements symbols .top (items.filter fun x => !x.isDefinition)
  let halt ← fresh
  pure ((body ++ [Instr.plain halt .halt .none]).map (Code.resolveInstr halt))

/-- The instances of the last round that a call goes to, in the order in which they were made. -/
def reached (r : Round) : List Instance :=
  r.instances.made.filter fun i =>
    match (r.globals.lookup i.name).bind fun k => r.symbols[k]? with
    | some s => s.used
    | none => false

/-- The code of some instances. -/
def functions (r : Round) : List Instance → Lower (List Instr)
  | [] => pure []
  | i :: is => do
    match r.inferred.find? fun f => f.name = i.name with
    | none => throw (.unscopedInstance i.name)
    | some f =>
      let code ← function r.symbols f
      pure (code ++ (← functions r is))

/-- The code of a unit. -/
def unit (t : Typing) : Lower (List Instr) :=
  match t.root with
  | .unit _ items => do
    let code ← main t.round.symbols items
    pure (code ++ (← functions t.round (reached t.round)))
  | _ => throw .rootNotUnit

end Lower

/-- **The code of a typed unit.** -/
def Typing.lower (t : Typing) : Except InternalError Code := do
  let (instrs, fresh) ← (Lower.unit t).run 0
  pure (.ofInstrs fresh instrs)

end StackLang
