/-
**Errors of a compilation.**

A compilation fails on the first kind of fault that it meets: pieces of the text that are no words,
a word that cannot follow, or a name that is used against its meaning.  The last sort of error
stands for a broken promise between two stages and names the place where it was noticed.

Main definitions:

* `SemanticError` — a name used against its meaning;
* `InternalError` — a broken promise between two stages;
* `CompileError` — any of the errors, with its message.
-/

import StackLang.Tree.Parser

set_option relaxedAutoImplicit false
set_option autoImplicit false

namespace StackLang

/-! ### Names used against their meaning -/

/-- How a name is used against its meaning. -/
inductive SemanticCause where
  | unknownIdentifier (name : String)
  /-- What is called is no function. -/
  | notCallable (what : String)
  /-- A function stands where a value has to. -/
  | notAValue (name : String)
  | assignToNonIdentifier
  | duplicateDefinition (name : String)
  | arityMismatch (name : String) (expected found : Nat)
deriving DecidableEq, Repr

/-- A name used against its meaning. -/
structure SemanticError where
  cause : SemanticCause
  span : Span
deriving DecidableEq, Repr

namespace SemanticCause

/-- The description of the fault, without its place. -/
def text : SemanticCause → String
  | unknownIdentifier name => "unknown identifier '" ++ name ++ "'"
  | notCallable what => "'" ++ what ++ "' is not a function"
  | notAValue name => "'" ++ name ++ "' is a function, not a value"
  | assignToNonIdentifier => "left side of an assignment must be an identifier"
  | duplicateDefinition name => "duplicate definition of '" ++ name ++ "'"
  | arityMismatch name expected found =>
    "'" ++ name ++ "' takes " ++ toString expected ++ " argument(s) but " ++ toString found
      ++ " were supplied"

end SemanticCause

namespace SemanticError

/-- The description of the fault with its place. -/
def text (e : SemanticError) : String := e.cause.text ++ " at " ++ e.span.text

end SemanticError

/-! ### Broken promises -/

/-- A promise between two stages that does not hold. -/
inductive InternalError where
  /-- The result types of the instances keep changing. -/
  | unsettledResults
  | unknownInstance (name : String)
  | unboundInstance (name : String)
  | unscopedInstance (name : String)
  | untyped (kind : String) (span : Span)
  | unresolved (kind : String) (span : Span)
  | unstored (name : String)
  | nestedUnit
  /-- The root of the tree is no unit. -/
  | rootNotUnit
  /-- The jump with this identity goes to an instruction without a label. -/
  | unlabelledTarget (id : Nat)
  /-- The jump with this identity still goes to the end of its function. -/
  | openReturn (id : Nat)
deriving DecidableEq, Repr

namespace InternalError

/-- The description of the broken promise. -/
def text : InternalError → String
  | unsettledResults => "function return types did not converge"
  | unknownInstance name => "unknown instance '" ++ name ++ "'"
  | unboundInstance name => "instance '" ++ name ++ "' is unbound"
  | unscopedInstance name => "'" ++ name ++ "' has no scope"
  | untyped kind span => kind ++ " at " ++ span.text ++ " was never typed"
  | unresolved kind span => kind ++ " at " ++ span.text ++ " was never resolved"
  | unstored name => "'" ++ name ++ "' has no storage"
  | nestedUnit => "nested compilation unit"
  | rootNotUnit => "root is not a compilation unit"
  | unlabelledTarget id => "jump at i" ++ toString id ++ " targets an unlabelled instruction"
  | openReturn id => "jump at i" ++ toString id ++ " still targets the return sentinel"

end InternalError

/-! ### All errors -/

/-- Why a compilation fails. -/
inductive CompileError where
  | lex (errors : List LexError)
  | parse (error : ParseError)
  | semantic (error : SemanticError)
  | internal (error : InternalError)
deriving DecidableEq, Repr

namespace CompileError

/-- The place of the first fault, where one is known. -/
def span? : CompileError → Option Span
  | lex errors => errors.head?.map LexError.span
  | parse e => some e.span
  | semantic e => some e.span
  | internal _ => none

/-- The description of the failure, for a text that goes by the name `file`. -/
def message (file : String) : CompileError → String
  | lex errors => file ++ ": " ++ "; ".intercalate (errors.map LexError.message)
  | parse e => file ++ ": " ++ e.message
  | semantic e => file ++ ": " ++ e.text
  | internal e => "Internal compiler error: " ++ e.text

end CompileError

end StackLang
