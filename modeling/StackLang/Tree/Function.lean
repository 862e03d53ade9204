/-
**Function definitions.**

The parts of a function definition in a document, read off its node, and a copy of it under another
name.

Main definitions:

* `Function` — a definition by its parts;
* `Function.ofNode?`, `Function.toNode` — between a definition and its node;
* `Function.copy` — a copy made of fresh nodes, under another name.
-/

import StackLang.Tree.Document

set_option relaxedAutoImplicit false
set_option autoImplicit false

namespace StackLang

/-- A function definition in a document. -/
structure Function where
  /-- The mark of the definition. -/
  mark : Mark
  /-- The mark of the heading. -/
  heading : Mark
  name : String
  params : List String
  body : Node Mark

namespace Function

/-- The parts of a definition; nothing else has them. -/
def ofNode? : Node Mark → Option Function
  | .define mark (.prototype heading name params) body => some ⟨mark, heading, name, params, body⟩
  | _ => none

/-- The node of a definition. -/
def toNode (f : Function) : Node Mark :=
  .define f.mark (.prototype f.heading f.name f.params) f.body

@[simp] theorem ofNode?_toNode (f : Function) : ofNode? f.toNode = some f := rfl

/-- A copy under the name `name`, whose nodes take fresh identities from `k` on, and the next free
one. -/
def copy (k : Nat) (name : String) (f : Function) : Function × Nat :=
  let (body, fresh) := f.body.copy (k + 2)
  (⟨{ f.mark with id := k }, { f.heading with id := k + 1 }, name, f.params, body⟩, fresh)

end Function

namespace Node

/-- Whether the tree is a function definition. -/
def isDefinition {α : Type} : Node α → Bool
  | define .. => true
  | _ => false

/-- The definitions among some items. -/
def definitions (items : List (Node Mark)) : List Function := items.filterMap Function.ofNode?

end Node

end StackLang
