/-
**Scopes.**

The names that a compilation unit or a function introduces.  A function's scope also hands out the
places in its frame: parameters stand at `4, 8, …` from the return cell and local variables at
`-4, -8, …`.

Main definitions:

* `Scope` — the names of one unit or function;
* `Scope.lookup`, `Scope.bind` — finding and adding a name;
* `Scope.addParam`, `Scope.addLocal` — handing out a place.
-/

set_option relaxedAutoImplicit false
set_option autoImplicit false

namespace StackLang

/-- The names of one unit or function. -/
structure Scope where
  /-- Whether the scope is that of the whole unit. -/
  isGlobal : Bool
  /-- The names with the numbers of their symbols, the latest binding first. -/
  names : List (String × Nat)
  /-- Places handed out to parameters. -/
  params : Nat
  /-- Places handed out to local variables. -/
  locals : Nat
deriving DecidableEq, Repr

namespace Scope

/-- The scope of a unit, without names. -/
def unit : Scope := ⟨true, [], 0, 0⟩

/-- The scope of a function, without names. -/
def function : Scope := ⟨false, [], 0, 0⟩

/-- The symbol that a name stands for. -/
def lookup (name : String) (s : Scope) : Option Nat := s.names.lookup name

/-- Whether the name is known. -/
def contains (name : String) (s : Scope) : Bool := (s.lookup name).isSome

/-- The scope in which the name stands for the symbol. -/
def bind (name : String) (symbol : Nat) (s : Scope) : Scope :=
  { s with names := (name, symbol) :: s.names }

/-- The place of the next parameter, and the scope after handing it out. -/
def addParam (s : Scope) : Int × Scope := (4 * (s.params + 1), { s with params := s.params + 1 })

/-- The place of the next local variable, and the scope after handing it out. -/
def addLocal (s : Scope) : Int × Scope := (-4 * (s.locals + 1), { s with locals := s.locals + 1 })

/-- The place of the last local variable, or zero. -/
def extent (s : Scope) : Int := -4 * s.locals

theorem lookup_bind_self (name : String) (symbol : Nat) (s : Scope) :
    (s.bind name symbol).lookup name = some symbol := by
  simp [lookup, bind]

theorem lookup_bind_of_ne {name other : String} (h : other ≠ name) (symbol : Nat) (s : Scope) :
    (s.bind name symbol).lookup other = s.lookup other := by
  have : (other == name) = false := by simpa using h
  simp [lookup, bind, List.lookup_cons, this]

end Scope

end StackLang
