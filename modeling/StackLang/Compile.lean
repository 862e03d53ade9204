/-
**Compilation.**

A source text becomes words, a tree, a document, a typing, code and at last a text for the
assembler.  Folding of constants and the peephole optimizer are run on demand.

Main definitions:

* `Unit.ofSource` — the tree of a text;
* `Compiled` — the outcome of a compilation;
* `compile` — all stages.
-/

import StackLang.Code.Label
import StackLang.Code.Lower
import StackLang.Code.Peephole
import StackLang.Code.Text
import StackLang.Tree.Fold

set_option relaxedAutoImplicit false
set_option autoImplicit false

namespace StackLang

/-- The outcome of a compilation. -/
structure Compiled where
  /-- The text for the assembler: the code, and the cells of the global variables. -/
  assembly : String
  /-- The code as it was written. -/
  code : Code
  /-- What the optimizer did, if it ran. -/
  stats : Option Peephole.Stats

namespace Compile

/-- The tree of a source text. -/
def tree (source : String) : Except CompileError (Node Span) :=
  match Lexeme.ofText source with
  | .error errors => .error (.lex errors)
  | .ok lexemes =>
    match (Cursor.ofLexemes lexemes).parse with
    | .error e => .error (.parse e)
    | .ok t => .ok t

/-- The tree as it is compiled: folded on demand. -/
def prepare (optimize : Bool) (t : Node Span) : Node Span := if optimize then t.fold.1 else t

/-- The code as it is written: optimized on demand, then spliced and labelled. -/
def finish (optimize : Bool) (c : Code) : Code × Option Peephole.Stats :=
  if optimize then
    let (c, stats) := c.optimize .zero
    ((c.finalize .zero).1, some stats)
  else ((c.finalize .zero).1, none)

/-- The typing of a tree, and its code before the optimizer. -/
def lowered (t : Node Span) : Except CompileError (Typing × Code) := do
  let typing ← (Document.ofTree t).infer
  match typing.lower with
  | .ok c => pure (typing, c)
  | .error e => throw (.internal e)

end Compile

/-- **The outcome of compiling a source text.** -/
def compile (optimize : Bool) (source : String) : Except CompileError Compiled := do
  let t ← Compile.tree source
  let (typing, c) ← Compile.lowered (Compile.prepare optimize t)
  let (code, stats) := Compile.finish optimize c
  match code.text with
  | .error e => throw (.internal e)
  | .ok text => pure ⟨text ++ typing.round.symbols.reservations, code, stats⟩

end StackLang
