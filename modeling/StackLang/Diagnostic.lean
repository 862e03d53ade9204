/-
**Diagnostics.**

An error is shown with the places in the files that it is about.  A place that no file holds is
named in a note.

Main definitions:

* `Label`, `Diagnostic` — a marked stretch of a file, and a message with its labels;
* `Diagnostic.ofCompileError`, `Diagnostic.ofAssemblyError` — what is shown for an error.
-/

import StackLang.Assembly.Error
import StackLang.Source.Files
import StackLang.Typing.Error

set_option relaxedAutoImplicit false
set_option autoImplicit false

namespace StackLang

/-- How grave a diagnostic is. -/
inductive Severity where
  /-- A fault of the program that made the text at fault, not of the text. -/
  | bug
  | error
deriving DecidableEq, Repr

/-- A marked stretch of a file. -/
structure Label where
  /-- The number of the file. -/
  file : Nat
  start : Nat
  stop : Nat
  /-- What is said beside the mark; nothing if empty. -/
  message : String
deriving DecidableEq, Repr

/-- A message with the places that it is about. -/
structure Diagnostic where
  severity : Severity
  message : String
  labels : List Label
  notes : List String
deriving DecidableEq, Repr

namespace Diagnostic

/-- A diagnostic about a span of the combined text.  A span that goes on in another file is marked
by its start alone. -/
def atSpan (sources : Sources) (message : String) (span : Span) : Diagnostic :=
  match sources.locateOffset span.start, sources.locateOffset span.stop with
  | some (file, start), some (endFile, stop) =>
    if file = endFile then ⟨.error, message, [⟨file, start, max stop start, ""⟩], []⟩
    else ⟨.error, message, [⟨file, start, start, ""⟩], []⟩
  | some (file, start), none => ⟨.error, message, [⟨file, start, start, ""⟩], []⟩
  | none, _ => ⟨.error, message, [], ["at " ++ span.text]⟩

/-- **The diagnostics of a failed compilation**, one for each fault. -/
def ofCompileError (sources : Sources) : CompileError → List Diagnostic
  | .lex errors => errors.map fun e => atSpan sources e.cause.text e.span
  | .parse e => [atSpan sources e.cause.text e.span]
  | .semantic e => [atSpan sources e.cause.text e.span]
  | .internal e => [⟨.bug, "internal compiler error: " ++ e.text, [], []⟩]

/-- The message for what is wrong with a line of assembly text. -/
def assemblyMessage : Assembly.Cause → String
  | .malformed fault => fault.text
  | cause => cause.text

/-- What is said beside a line of assembly text. -/
def assemblyRemark : Assembly.Cause → String
  | .malformed _ => "here"
  | .unknownMnemonic _ => "not an instruction"
  | .outOfRange _ _ _ => "operand too wide"
  | .duplicateLabel _ => "defined again here"
  | .undefinedLabel _ => "referenced here"

/-- **The diagnostic of a failed assembly.** -/
def ofAssemblyError (sources : Sources) (e : Assembly.Error) : Diagnostic :=
  match sources.locateLine e.line with
  | some (file, start, stop) =>
    ⟨.error, assemblyMessage e.cause, [⟨file, start, stop, assemblyRemark e.cause⟩], []⟩
  | none => ⟨.error, assemblyMessage e.cause, [], ["at line " ++ toString (e.line + 1)]⟩

end Diagnostic

end StackLang
