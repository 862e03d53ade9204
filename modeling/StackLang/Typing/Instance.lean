/-
**Function instances.**

Every function is generic in the types of its arguments.  A call with arguments of given types goes
to the instance of the function for these types: a copy of the definition, made when the first such
call is met and known by its decorated name.

Instances and what is known of their results last over the rounds of inference.  What a round has
still to do is a queue, in which an instance stands at most once a round.

Main definitions:

* `Instance` — the copy of a function for some argument types;
* `Instances` — the instances, their results and the queue;
* `Instances.returns`, `Instances.record` — the result of an instance, an integer while it is
  unknown;
* `Instances.enqueue`, `Instances.next` — the queue.
-/

import StackLang.Tree.Function
import StackLang.Typing.Names

set_option relaxedAutoImplicit false
set_option autoImplicit false

namespace StackLang

/-- The copy of a function for some argument types. -/
structure Instance where
  /-- The decorated name. -/
  name : String
  /-- The name of the function. -/
  base : String
  /-- The copy of the definition. -/
  function : Function
  args : List Scalar

/-- The instances of a compilation, what is known of them, and the queue. -/
structure Instances where
  /-- The instances in the order in which they were made. -/
  made : List Instance
  /-- Recorded results, the latest first. -/
  results : List (String × Scalar)
  /-- The names that wait in the queue. -/
  pending : List String
  /-- The names that stood in the queue in this round. -/
  queued : List String

namespace Instances

/-- No instance was made. -/
def empty : Instances := ⟨[], [], [], []⟩

/-- The instance with this name. -/
def get? (name : String) (is : Instances) : Option Instance := is.made.find? fun i => i.name = name

/-- The instances with one more; an instance of a name that exists is not taken. -/
def insert (i : Instance) (is : Instances) : Instances :=
  if (is.get? i.name).isSome then is else { is with made := is.made ++ [i] }

/-- Puts a name into the queue, unless it stood there in this round; and whether it was put there.
-/
def enqueue (name : String) (is : Instances) : Bool × Instances :=
  if name ∈ is.queued then (false, is)
  else (true, { is with pending := is.pending ++ [name], queued := name :: is.queued })

/-- The first name of the queue, taken out of it. -/
def next (is : Instances) : Option String × Instances :=
  match is.pending with
  | [] => (none, is)
  | name :: rest => (some name, { is with pending := rest })

/-- The instances at the start of a round: the queue is empty. -/
def newRound (is : Instances) : Instances := { is with pending := [], queued := [] }

/-- The result type of an instance, an integer while it is unknown. -/
def returns (name : String) (is : Instances) : Scalar := (is.results.lookup name).getD .int

/-- Records the result type of an instance; and whether it differs from what was assumed. -/
def record (name : String) (type : Scalar) (is : Instances) : Bool × Instances :=
  (is.returns name != type, { is with results := (name, type) :: is.results })

/-- A recorded result is the result. -/
theorem returns_record_self (name : String) (type : Scalar) (is : Instances) :
    (is.record name type).2.returns name = type := by
  simp [record, returns]

end Instances

end StackLang
