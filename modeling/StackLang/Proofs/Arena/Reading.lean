/-
**Reading a text into an arena.**

The parser does not hold the trees that are complete but the places of their roots: every node is
made in the arena as soon as what is below it is there, and what a node extends over is read off the
arena again.  This parser reads word by word as the other one does, in constructs that hold places.
What it refers to could be missing, and nothing but its own bookkeeping tells that it takes every
node that it makes into another one, and into one only.

Main definitions:

* `Reading` — a step that makes nodes, and may end with an error;
* `Reading.make`, `Reading.spanAt` — a new node, and what the node at a place extends over;
* `Reading.step`, `Reading.run` — reading one word, and reading words up to the first end mark;
* `Cursor.read` — reading a text.
-/

import StackLang.Proofs.Arena.Basic
import StackLang.Tree.Parser

set_option relaxedAutoImplicit false
set_option autoImplicit false

namespace StackLang

/-- A step that makes nodes in an arena.  It may find that a word cannot follow, and it has no
result when it refers to a place that is not there. -/
abbrev Reading := StateT Arena (ExceptT ParseError Option)

namespace Reading

/-! ### Single nodes -/

/-- A step on the arena that finds no error. -/
def ofPass {α : Type} (p : Pass α) : Reading α := fun A => ExceptT.lift (p A)

/-- Makes a node. -/
def make (kind : Kind Nat) (span : Span) : Reading Nat := ofPass (Arena.alloc kind span)

/-- What the node at a place extends over. -/
def spanAt (k : Nat) : Reading Span := ofPass do return (← Arena.cell k).span

/-- Makes a node that starts with a word and ends with the node at a place. -/
def makeTo (start : Span) (last : Nat) (kind : Kind Nat) : Reading Nat := do
  make kind (start.merge (← spanAt last))

/-! ### Operators -/

/-- Makes a binary operator with both sides. -/
def close (x : Nat) (p : Pending Nat) : Reading Nat := do
  makeTo (← spanAt p.left) x (.binary p.op p.left x)

/-- Makes the signs before an operand. -/
def closeSigns : Nat → List (Span × UnaryOp) → Reading Nat
  | x, [] => return x
  | x, (start, op) :: signs => do closeSigns (← makeTo start x (.unary op x)) signs

/-- Makes every binary operator before an operand, the innermost first. -/
def closeAll : Nat → List (Pending Nat) → Reading Nat
  | x, [] => return x
  | x, p :: ps => do closeAll (← close x p) ps

/-- The operators after `op` was read behind `x`, which is complete on its level. -/
def settle (op : BinaryOp) : Nat → Nat → List (Pending Nat) → Reading (List (Pending Nat))
  | x, floor, [] => return [⟨x, op, floor⟩]
  | x, floor, p :: ps =>
    if floor ≤ op.binding then return ⟨x, op, floor⟩ :: p :: ps
    else do settle op (← close x p) p.floor ps

/-- The operators after `op` was read behind the operand `x`. -/
def push (op : BinaryOp) (x : Nat) : List (Pending Nat) → Reading (List (Pending Nat))
  | [] => return [⟨x, op, BinaryOp.loosest⟩]
  | p :: ps =>
    if p.op.binding < op.binding then return ⟨x, op, p.op.binding + 1⟩ :: p :: ps
    else if p.op.binding = op.binding ∧ p.op.groupsRight then
      return ⟨x, op, p.op.binding⟩ :: p :: ps
    else do settle op (← close x p) p.floor ps

/-! ### Reading a word -/

/-- Makes an operand that is a single word. -/
def operand (l : Lexeme) (kind : Kind Nat) (callable : Bool) (chain : Chain Nat) (hole : Hole Nat) :
    Reading (Awaiting Nat) := do
  return .afterOperand (← make kind l.span) callable chain hole

/-- Reads the first word of an operand. -/
def startOperand (l : Lexeme) (chain : Chain Nat) (hole : Hole Nat) : Reading (Awaiting Nat) :=
  match l.token with
  | .plus => return .operand { chain with signs := (l.span, .plus) :: chain.signs } hole
  | .minus => return .operand { chain with signs := (l.span, .minus) :: chain.signs } hole
  | .bang => return .operand { chain with signs := (l.span, .not) :: chain.signs } hole
  | .intLiteral n => operand l (.literal (.int n)) false chain hole
  | .floatLiteral x => operand l (.literal (.float x)) false chain hole
  | .charLiteral c => operand l (.literal (.int (Int32.ofNat c.toNat))) false chain hole
  | .identifier name => operand l (.identifier name) true chain hole
  | .leftParen => return .expression (.group chain hole)
  | .stringLiteral _ => throw ⟨.misplacedString, l.span⟩
  | .defWord => throw ⟨.misplacedDefinition, l.span⟩
  | _ => throw (.unexpected [] l)

/-- Reads the first word of an expression. -/
def startExpression (l : Lexeme) (hole : Hole Nat) : Reading (Awaiting Nat) :=
  match l.token with
  | .leftBrace => return .statement (.block l.span [] hole)
  | .ifWord => return .expression (.condition l.span hole)
  | .whileWord => return .expression (.loopCondition l.span hole)
  | _ => startOperand l ⟨[], []⟩ hole

/-- Reads the first word of a statement inside a list. -/
def startStatement (l : Lexeme) (body : Body Nat) : Reading (Awaiting Nat) :=
  match l.token with
  | .breakWord => do return .statement (body.add (← make .breakLoop l.span))
  | .continueWord => do return .statement (body.add (← make .continueLoop l.span))
  | .returnWord => return .expression (.returned l.span body)
  | .asmWord => return .assemblyText l.span body
  | _ => startExpression l (.statement body)

/-- Reads a word where a statement or the end of the list can stand. -/
def inBody (l : Lexeme) : Body Nat → Reading (Awaiting Nat)
  | .unit done =>
    match l.token with
    | .eof => return .statement (.unit done)
    | .defWord => return .functionName l.span done
    | _ => startStatement l (.unit done)
  | .block start done outer =>
    match l.token with
    | .rightBrace => do
      return .afterExpression (← make (.block done.reverse) (start.merge l.span)) outer
    | .eof => throw (.unexpected [.rightBrace] l)
    | _ => startStatement l (.block start done outer)

/-- Makes a call that ends with the word `l`. -/
def call (l : Lexeme) (callee : Nat) (args : List Nat) (chain : Chain Nat) (hole : Hole Nat) :
    Reading (Awaiting Nat) := do
  let span := (← spanAt callee).merge l.span
  return .afterOperand (← make (.call callee args) span) false chain hole

/-- Reads the word after the complete expression `x`. -/
def complete (x : Nat) (l : Lexeme) : Hole Nat → Reading (Awaiting Nat)
  | .statement body => inBody l (body.add x)
  | .returned start body => do inBody l (body.add (← makeTo start x (.returnValue x)))
  | .group chain outer =>
    match l.token with
    | .rightParen => return .afterOperand x true chain outer
    | _ => throw (.unexpected [.rightParen] l)
  | .argument callee done chain outer =>
    match l.token with
    | .comma => return .expression (.argument callee (x :: done) chain outer)
    | .rightParen => call l callee (x :: done).reverse chain outer
    | _ => throw (.unexpected [.comma, .rightParen] l)
  | .condition start outer => startExpression l (.yes start x outer)
  | .yes start c outer =>
    match l.token with
    | .elseWord => return .expression (.no start c x outer)
    | _ => do complete (← makeTo start x (.cond c x none)) l outer
  | .no start c yes outer => do complete (← makeTo start x (.cond c yes (some x))) l outer
  | .loopCondition start outer => startExpression l (.loopBody start x outer)
  | .loopBody start c outer => do complete (← makeTo start x (.loop c x)) l outer
  | .functionBody start prototype done => do
    inBody l (.unit ((← makeTo start x (.define prototype x)) :: done))

/-- Reads the word after an operand that is not called by it. -/
def operate (x : Nat) (l : Lexeme) (chain : Chain Nat) (hole : Hole Nat) :
    Reading (Awaiting Nat) := do
  let x ← closeSigns x chain.signs
  match BinaryOp.ofToken? l.token with
  | some op => return .operand ⟨[], ← push op x chain.pending⟩ hole
  | none => complete (← closeAll x chain.pending) l hole

/-- The name that a word is. -/
def name (l : Lexeme) : Reading String :=
  match l.name with
  | .ok name => return name
  | .error e => throw e

/-- Makes the heading of a function, which ends with the word `l`. -/
def heading (l : Lexeme) (h : Heading Nat) : Reading (Awaiting Nat) := do
  let k ← make (.prototype h.name h.params.reverse) (h.nameSpan.merge l.span)
  return .expression (.functionBody h.start k h.done)

/-- Reads one word. -/
def step (l : Lexeme) : Awaiting Nat → Reading (Awaiting Nat)
  | .statement body => inBody l body
  | .expression hole => startExpression l hole
  | .operand chain hole => startOperand l chain hole
  | .afterOperand x callable chain hole =>
    if callable ∧ l.token = .leftParen then return .firstArgument x chain hole
    else operate x l chain hole
  | .afterExpression x hole => complete x l hole
  | .firstArgument callee chain hole =>
    match l.token with
    | .rightParen => call l callee [] chain hole
    | _ => startExpression l (.argument callee [] chain hole)
  | .assemblyText start body =>
    match l.token with
    | .stringLiteral s => do
      return .statement (body.add (← make (.assembly s) (start.merge l.span)))
    | _ => throw (.unexpected [.stringLiteral ""] l)
  | .functionName start done => do return .params ⟨start, l.span, ← name l, [], done⟩
  | .params h =>
    match l.token with
    | .leftParen => return .firstParam h
    | _ => throw (.unexpected [.leftParen] l)
  | .firstParam h =>
    match l.token with
    | .rightParen => heading l h
    | _ => do return .afterParam (h.addParam (← name l))
  | .param h => do return .afterParam (h.addParam (← name l))
  | .afterParam h =>
    match l.token with
    | .comma => return .param h
    | .rightParen => heading l h
    | _ => throw (.unexpected [.rightParen] l)

/-- Reads words up to the first end mark. -/
def run : List Lexeme → Awaiting Nat → Reading (Awaiting Nat)
  | [], a => return a
  | l :: ls, a => if l.token = .eof then step l a else do run ls (← step l a)

end Reading

namespace Cursor

open Reading

/-- Makes the root of a text with some items. -/
def makeRoot (c : Cursor) (items : List Nat) : Reading Nat :=
  match items.getLast? with
  | some x => makeTo c.current.span x (.unit items)
  | none => make (.unit items) c.current.span

/-- Reads the text whose words start at the cursor and end at the first end mark, and makes its
root. -/
def readRoot (c : Cursor) : Reading Nat := do
  c.makeRoot (← run c.lexemes (.statement (.unit []))).items

/-- **Reads a text** into an arena. -/
def read (c : Cursor) : Reading Unit := do
  ofPass (Arena.setRoot (← c.readRoot))

end Cursor

end StackLang
