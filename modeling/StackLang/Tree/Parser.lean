/-
**From tokens to a tree.**

The parser reads one word at a time.  What it has read is an `Awaiting`, and a word either extends
it or is the first word that cannot follow; there is no looking back.  A word that ends an
expression closes the constructs that are complete with it, innermost first, and is then read by the
construct that is still open.

Main definitions:

* `ParseError` — the first word that cannot follow, and what could have stood there;
* `Awaiting.step` — reading one word;
* `Cursor.parse` — the tree of a text.
-/

import StackLang.Tree.Context
import StackLang.Tree.Cursor

set_option relaxedAutoImplicit false
set_option autoImplicit false

namespace StackLang

/-! ### Errors -/

/-- Why a word cannot follow. -/
inductive ParseCause where
  /-- Another word had to stand here; no expectation at all stands for any expression. -/
  | unexpectedToken (expected : List Token) (found : Token)
  /-- The text ends where a word had to stand. -/
  | unexpectedEnd (expected : List Token)
  /-- A string that is not the text of target code. -/
  | misplacedString
  /-- A function that is not an item of the text. -/
  | misplacedDefinition
deriving DecidableEq, Repr

/-- The first word that cannot follow. -/
structure ParseError where
  cause : ParseCause
  span : Span
deriving DecidableEq, Repr

namespace ParseCause

/-- The words that could have stood here, as a message names them. -/
def alternatives : List Token → String
  | [] => "an expression"
  | [t] => "'" ++ t.text ++ "'"
  | ts => "one of " ++ ", ".intercalate (ts.map fun t => "'" ++ t.text ++ "'")

/-- The words that could have stood here. -/
def expected : ParseCause → List Token
  | unexpectedToken ts _ | unexpectedEnd ts => ts
  | misplacedString | misplacedDefinition => []

/-- The description of the fault, without its place. -/
def text : ParseCause → String
  | unexpectedToken ts found => "expected " ++ alternatives ts ++ ", found '" ++ found.text ++ "'"
  | unexpectedEnd ts => "unexpected end of file, expected " ++ alternatives ts
  | misplacedString => "string literals are only allowed as the operand of __asm__"
  | misplacedDefinition => "function definitions are only allowed at top level"

end ParseCause

namespace ParseError

/-- The word `l` stands where one of `expected` had to. -/
def unexpected (expected : List Token) (l : Lexeme) : ParseError :=
  if l.token = .eof then ⟨.unexpectedEnd expected, l.span⟩
  else ⟨.unexpectedToken expected l.token, l.span⟩

/-- The description of the fault with its place. -/
def message (e : ParseError) : String := "parse error at " ++ e.span.text ++ ": " ++ e.cause.text

end ParseError

/-! ### Single words -/

namespace Cursor

/-- The cursor after a word like `t`. -/
def expect (t : Token) (c : Cursor) : Except ParseError Cursor :=
  if c.check t then .ok c.advance else .error (.unexpected [t] c.current)

end Cursor

/-- The name that a word is. -/
def Lexeme.name (l : Lexeme) : Except ParseError String :=
  match l.token with
  | .identifier name => .ok name
  | _ => .error (.unexpected [.identifier "identifier"] l)

/-! ### Reading a word -/

namespace Awaiting

/-- Reads the first word of an operand. -/
def startOperand (l : Lexeme) (chain : Chain) (hole : Hole) : Except ParseError Awaiting :=
  match l.token with
  | .plus => .ok (.operand { chain with signs := (l.span, .plus) :: chain.signs } hole)
  | .minus => .ok (.operand { chain with signs := (l.span, .minus) :: chain.signs } hole)
  | .bang => .ok (.operand { chain with signs := (l.span, .not) :: chain.signs } hole)
  | .intLiteral n => .ok (.afterOperand (.literal l.span (.int n)) false chain hole)
  | .floatLiteral x => .ok (.afterOperand (.literal l.span (.float x)) false chain hole)
  | .charLiteral c =>
    .ok (.afterOperand (.literal l.span (.int (Int32.ofNat c.toNat))) false chain hole)
  | .identifier name => .ok (.afterOperand (.identifier l.span name) true chain hole)
  | .leftParen => .ok (.expression (.group chain hole))
  | .stringLiteral _ => .error ⟨.misplacedString, l.span⟩
  | .defWord => .error ⟨.misplacedDefinition, l.span⟩
  | _ => .error (.unexpected [] l)

/-- Reads the first word of an expression.  A block, a condition and a loop are whole expressions;
anything else starts a chain of operators. -/
def startExpression (l : Lexeme) (hole : Hole) : Except ParseError Awaiting :=
  match l.token with
  | .leftBrace => .ok (.statement (.block l.span [] hole))
  | .ifWord => .ok (.expression (.condition l.span hole))
  | .whileWord => .ok (.expression (.loopCondition l.span hole))
  | _ => startOperand l .empty hole

/-- Reads the first word of a statement inside a list. -/
def startStatement (l : Lexeme) (body : Body) : Except ParseError Awaiting :=
  match l.token with
  | .breakWord => .ok (.statement (body.add (.breakLoop l.span)))
  | .continueWord => .ok (.statement (body.add (.continueLoop l.span)))
  | .returnWord => .ok (.expression (.returned l.span body))
  | .asmWord => .ok (.assemblyText l.span body)
  | _ => startExpression l (.statement body)

/-- Reads a word where a statement or the end of the list can stand.  Only an item of the text can
be a function. -/
def inBody (l : Lexeme) : Body → Except ParseError Awaiting
  | .unit done =>
    match l.token with
    | .eof => .ok (.statement (.unit done))
    | .defWord => .ok (.functionName l.span done)
    | _ => startStatement l (.unit done)
  | .block start done outer =>
    match l.token with
    | .rightBrace => .ok (.afterExpression (.block (start.merge l.span) done.reverse) outer)
    | .eof => .error (.unexpected [.rightBrace] l)
    | _ => startStatement l (.block start done outer)

/-- Reads the word after the complete expression `x`: closes what is complete with it and reads the
word in what is still open. -/
def complete (x : Node Span) (l : Lexeme) : Hole → Except ParseError Awaiting
  | .statement body => inBody l (body.add x)
  | .returned start body => inBody l (body.add (.returnValue (start.merge x.note) x))
  | .group chain outer =>
    match l.token with
    | .rightParen => .ok (.afterOperand x true chain outer)
    | _ => .error (.unexpected [.rightParen] l)
  | .argument callee done chain outer =>
    match l.token with
    | .comma => .ok (.expression (.argument callee (x :: done) chain outer))
    | .rightParen =>
      .ok (.afterOperand (.call (callee.note.merge l.span) callee (x :: done).reverse) false
        chain outer)
    | _ => .error (.unexpected [.comma, .rightParen] l)
  | .condition start outer => startExpression l (.yes start x outer)
  | .yes start c outer =>
    match l.token with
    | .elseWord => .ok (.expression (.no start c x outer))
    | _ => complete (.cond (start.merge x.note) c x none) l outer
  | .no start c yes outer => complete (.cond (start.merge x.note) c yes (some x)) l outer
  | .loopCondition start outer => startExpression l (.loopBody start x outer)
  | .loopBody start c outer => complete (.loop (start.merge x.note) c x) l outer
  | .functionBody start prototype done =>
    inBody l (.unit (.define (start.merge x.note) prototype x :: done))

/-- Reads the word after an operand that is not called by it. -/
def operate (x : Node Span) (l : Lexeme) (chain : Chain) (hole : Hole) :
    Except ParseError Awaiting :=
  let x := Chain.closeSigns x chain.signs
  match BinaryOp.ofToken? l.token with
  | some op => .ok (.operand ⟨[], Chain.push op x chain.pending⟩ hole)
  | none => complete (Chain.closeAll x chain.pending) l hole

/-- Reads one word. -/
def step (l : Lexeme) : Awaiting → Except ParseError Awaiting
  | .statement body => inBody l body
  | .expression hole => startExpression l hole
  | .operand chain hole => startOperand l chain hole
  | .afterOperand x callable chain hole =>
    if callable ∧ l.token = .leftParen then .ok (.firstArgument x chain hole)
    else operate x l chain hole
  | .afterExpression x hole => complete x l hole
  | .firstArgument callee chain hole =>
    match l.token with
    | .rightParen =>
      .ok (.afterOperand (.call (callee.note.merge l.span) callee []) false chain hole)
    | _ => startExpression l (.argument callee [] chain hole)
  | .assemblyText start body =>
    match l.token with
    | .stringLiteral s => .ok (.statement (body.add (.assembly (start.merge l.span) s)))
    | _ => .error (.unexpected [.stringLiteral ""] l)
  | .functionName start done => l.name.map fun name => .params ⟨start, l.span, name, [], done⟩
  | .params h =>
    match l.token with
    | .leftParen => .ok (.firstParam h)
    | _ => .error (.unexpected [.leftParen] l)
  | .firstParam h =>
    match l.token with
    | .rightParen => .ok (.expression (.functionBody h.start (h.prototype l.span) h.done))
    | _ => l.name.map fun p => .afterParam (h.addParam p)
  | .param h => l.name.map fun p => .afterParam (h.addParam p)
  | .afterParam h =>
    match l.token with
    | .comma => .ok (.param h)
    | .rightParen => .ok (.expression (.functionBody h.start (h.prototype l.span) h.done))
    | _ => .error (.unexpected [.rightParen] l)

/-- Reads words up to the first end mark. -/
def run : List Lexeme → Awaiting → Except ParseError Awaiting
  | [], a => .ok a
  | l :: ls, a =>
    if l.token = .eof then a.step l
    else do run ls (← a.step l)

end Awaiting

namespace Cursor

/-- **The tree of a text**, whose words start at the cursor and end at the first end mark. -/
def parse (c : Cursor) : Except ParseError (Node Span) := do
  let items := (← Awaiting.run c.lexemes .start).items
  let span := match items.getLast? with
    | some x => c.current.span.merge x.note
    | none => c.current.span
  pure (.unit span items)

end Cursor

end StackLang
