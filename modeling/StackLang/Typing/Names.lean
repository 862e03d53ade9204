/-
**Names in the output.**

The names that the output needs besides those of the source are made from counters.  They contain an
at sign, which no name of the source does, so they meet none of them.

Main definitions:

* `Counters` — how many names of each sort were made;
* `Counters.labelName`, `Counters.localName`, `Counters.globalName` — the next name of a sort;
* `decorate` — the name of a function for some argument types.
-/

import StackLang.Scalar

set_option relaxedAutoImplicit false
set_option autoImplicit false

namespace StackLang

/-- How many names of each sort were made. -/
structure Counters where
  labels : Nat
  locals : Nat
  globals : Nat
deriving DecidableEq, Repr

namespace Counters

/-- No name was made. -/
def zero : Counters := ⟨0, 0, 0⟩

/-- The next label of a jump target. -/
def labelName (c : Counters) : String × Counters :=
  ("L@" ++ toString c.labels, { c with labels := c.labels + 1 })

/-- The next name of a local variable or parameter. -/
def localName (base : String) (c : Counters) : String × Counters :=
  (base ++ "@" ++ toString c.locals, { c with locals := c.locals + 1 })

/-- The next label of a global variable.  Labels that differ only in case are one label to the
assembler and `SFP` is no label, so a source name is never used as it is. -/
def globalName (base : String) (c : Counters) : String × Counters :=
  (base ++ "@g" ++ toString c.globals, { c with globals := c.globals + 1 })

/-- The counters at the start of a round: variables are numbered anew, labels are not. -/
def newRound (c : Counters) : Counters := { c with locals := 0, globals := 0 }

end Counters

/-- The name of the function `base` for arguments of some types.  Without arguments it still differs
from `base`. -/
def decorate (base : String) (args : List Scalar) : String :=
  base ++ "@@" ++ "@@".intercalate (args.map Scalar.tag)

end StackLang
