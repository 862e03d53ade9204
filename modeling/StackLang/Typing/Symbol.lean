/-
**Symbols.**

What a name stands for: a variable with its type and its place at run time, or a function.  Symbols
are kept in the order in which they were made and are referred to by their number.

Main definitions:

* `Storage` — where a variable lives at run time;
* `Symbol` — a variable or a function;
* `Symbols` — the symbols made so far.
-/

import StackLang.Tree.Function

set_option relaxedAutoImplicit false
set_option autoImplicit false

namespace StackLang

/-- Where a symbol's cell lives at run time. -/
inductive Storage where
  /-- Nowhere: functions have no cell. -/
  | nowhere
  /-- In the frame of the running function, at an offset from its return cell. -/
  | frame (offset : Int)
  /-- In a labelled cell of its own. -/
  | global (label : String)
deriving DecidableEq, Repr, Inhabited

/-- What a name stands for. -/
structure Symbol where
  /-- The name in the source. -/
  sourceName : String
  /-- The name in the output. -/
  emittedName : String
  /-- The type of a variable; of a function instance the type of its body, once it is known. -/
  type : Option Scalar
  storage : Storage
  /-- The definition, for a function. -/
  definition : Option Function
  /-- Whether a call goes to the function. -/
  used : Bool
  /-- Whether the cell has been written out. -/
  emitted : Bool

namespace Symbol

/-- A variable. -/
def ofVariable (sourceName emittedName : String) (type : Scalar) (storage : Storage) : Symbol :=
  ⟨sourceName, emittedName, some type, storage, none, false, false⟩

/-- A function, which keeps its name. -/
def ofFunction (name : String) (f : Function) : Symbol :=
  ⟨name, name, none, .nowhere, some f, false, false⟩

/-- Whether the symbol is a function. -/
def isFunction (s : Symbol) : Bool := s.definition.isSome

/-- Whether the symbol has a labelled cell that is still to be written out. -/
def isPending (s : Symbol) : Bool :=
  !s.emitted && match s.storage with
    | .global _ => true
    | _ => false

end Symbol

/-- The symbols made so far, by number. -/
abbrev Symbols := Array Symbol

namespace Symbols

/-- The line that reserves the cell of a variable. -/
def reservation (label : String) : String := label ++ ": RESD 1\n"

/-- The lines that reserve the cells still to be written out. -/
def reservations (ss : Symbols) : String :=
  String.join (ss.toList.map fun s =>
    match s.emitted, s.storage with
    | false, .global label => reservation label
    | _, _ => "")

/-- The symbols after their cells were written out. -/
def markEmitted (ss : Symbols) : Symbols :=
  ss.map fun s => if s.isPending then { s with emitted := true } else s

end Symbols

end StackLang
