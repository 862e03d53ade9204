/-
**Type inference.**

Inference gives every expression its type and every name its symbol.  It runs in rounds over the
whole document.  A round makes all symbols and scopes anew, goes through the statements of the unit
and then through the instances that calls have put into the queue, each once.  The result of an
instance that was not inferred yet is assumed to be an integer; what a round finds instead is
recorded for the next one.  The last round is the first that records nothing new.

Main definitions:

* `Note` — the note of a typed node;
* `Round` — the state of a round;
* `Infer.visit` — the typed tree of an expression;
* `Typing`, `Document.infer` — the outcome of the last round.
-/

import StackLang.Typing.Error
import StackLang.Typing.Instance
import StackLang.Typing.Scope
import StackLang.Typing.Symbol

set_option relaxedAutoImplicit false
set_option autoImplicit false

namespace StackLang

/-! ### Typed trees -/

/-- The note of a typed node. -/
structure Note where
  mark : Mark
  /-- The type of the value; callees, definitions and headings have none. -/
  type : Option Scalar
  /-- The number of the symbol that a name or a call resolves to. -/
  symbol : Option Nat
deriving DecidableEq, Repr, Inhabited

namespace Note

/-- A node without type and symbol. -/
def bare (m : Mark) : Note := ⟨m, none, none⟩

/-- A node with a type. -/
def typed (m : Mark) (type : Scalar) : Note := ⟨m, some type, none⟩

/-- A node with a type and a symbol. -/
def resolved (m : Mark) (type : Scalar) (symbol : Nat) : Note := ⟨m, some type, some symbol⟩

end Note

/-- An instance after its body was inferred. -/
structure Inferred where
  /-- The decorated name. -/
  name : String
  /-- The scope after the body was visited. -/
  scope : Scope
  /-- The note of the definition, with the type of the body. -/
  mark : Note
  heading : Note
  params : List String
  body : Node Note

/-- The typed tree of the definition. -/
def Inferred.toNode (f : Inferred) : Node Note :=
  .define f.mark (.prototype f.heading f.name f.params) f.body

/-! ### The state of a round -/

/-- What a round has found so far. -/
structure Round where
  /-- The next identity for a node. -/
  fresh : Nat
  instances : Instances
  counters : Counters
  symbols : Symbols
  globals : Scope
  /-- The scope of the function whose body is being visited. -/
  frame : Option Scope
  /-- The instances inferred in this round, in order. -/
  inferred : List Inferred
  /-- Whether the result of some instance turned out otherwise than assumed. -/
  changed : Bool

namespace Round

/-- The state at the start of a round. -/
def start (fresh : Nat) (instances : Instances) : Round :=
  { fresh, instances := instances.newRound, counters := .zero, symbols := #[], globals := .unit,
    frame := none, inferred := [], changed := false }

/-- The symbol that a name stands for: the scope of the function goes before that of the unit. -/
def lookup (name : String) (r : Round) : Option Nat :=
  (r.frame.bind (Scope.lookup name)).or (r.globals.lookup name)

end Round

/-- A step of a round, which may fail. -/
abbrev Infer := StateT Round (Except CompileError)

namespace Infer

/-- Fails at a place of the text. -/
def fail {α : Type} (cause : SemanticCause) (span : Span) : Infer α :=
  throw (.semantic ⟨cause, span⟩)

/-- Makes a symbol and returns its number. -/
def addSymbol (s : Symbol) : Infer Nat := do
  let r ← get
  set { r with symbols := r.symbols.push s }
  pure r.symbols.size

/-- Binds a name in the scope of the unit. -/
def bindGlobal (name : String) (symbol : Nat) : Infer Unit :=
  modify fun r => { r with globals := r.globals.bind name symbol }

/-! ### Names -/

/-- The symbol of a name, with its number. -/
def find? (name : String) : Infer (Option (Nat × Symbol)) := do
  let r ← get
  pure ((r.lookup name).bind fun k => (r.symbols[k]?).map fun s => (k, s))

/-- Makes a variable where the visit is: in the frame of the function, or in a cell of its own. -/
def declare (name : String) (type : Scalar) : Infer Nat := do
  let r ← get
  match r.frame with
  | none =>
    let (label, counters) := r.counters.globalName name
    set { r with counters }
    let k ← addSymbol (.ofVariable name label type (.global label))
    bindGlobal name k
    pure k
  | some scope =>
    let (offset, scope) := scope.addLocal
    let (emitted, counters) := r.counters.localName name
    set { r with counters }
    let k ← addSymbol (.ofVariable name emitted type (.frame offset))
    modify fun r => { r with frame := some (scope.bind name k) }
    pure k

/-- The symbol and the type of a name that stands for a value. -/
def valueOf (m : Mark) (name : String) : Infer (Nat × Scalar) := do
  match ← find? name with
  | none => fail (.unknownIdentifier name) m.span
  | some (k, s) =>
    if s.isFunction then fail (.notAValue name) m.span
    else pure (k, s.type.getD .int)

/-- The symbol and the type of a name that is assigned a value of type `value`.  The first
assignment makes the variable and settles its type. -/
def assigned (m : Mark) (name : String) (value : Scalar) : Infer (Nat × Scalar) := do
  match ← find? name with
  | none =>
    let k ← declare name value
    pure (k, value)
  | some (k, s) =>
    if s.isFunction then fail (.notAValue name) m.span
    else pure (k, s.type.getD value)

/-! ### Calls -/

/-- The instance of `f` under the name `name`, made the first time that it is asked for. -/
def instanceOf (f : Function) (base name : String) (args : List Scalar) : Infer Function := do
  let r ← get
  match r.instances.get? name with
  | some i => pure i.function
  | none =>
    let (copy, fresh) := f.copy r.fresh name
    set { r with fresh, instances := r.instances.insert ⟨name, base, copy, args⟩ }
    pure copy

/-- Binds an instance in the scope of the unit and puts it into the queue. -/
def instantiate (f : Function) (base name : String) (args : List Scalar) : Infer Nat := do
  let copy ← instanceOf f base name args
  let k ← addSymbol (.ofFunction name copy)
  bindGlobal name k
  modify fun r => { r with instances := (r.instances.enqueue name).2 }
  pure k

/-- Resolves a call of `base` with arguments of some types: the symbol of the function, the symbol
of the instance, and the type of the result. -/
def called (call callee : Mark) (base : String) (args : List Scalar) :
    Infer (Nat × Nat × Scalar) := do
  match ← find? base with
  | none => fail (.unknownIdentifier base) callee.span
  | some (template, s) =>
    match s.definition with
    | none => fail (.notCallable base) callee.span
    | some f =>
      if f.params.length ≠ args.length then
        fail (.arityMismatch base f.params.length args.length) call.span
      else
        let name := decorate base args
        let k ← match (← get).lookup name with
          | some k => pure k
          | none => instantiate f base name args
        modify fun r => { r with symbols := r.symbols.modify k fun s => { s with used := true } }
        pure (template, k, (← get).instances.returns name)

/-! ### Expressions -/

mutual

/-- **The typed tree of an expression**, and its type. -/
def visit : Node Mark → Infer (Node Note × Scalar)
  | .literal m v => pure (.literal (.typed m v.scalar) v, v.scalar)
  | .identifier m x => do
    let (k, type) ← valueOf m x
    pure (.identifier (.resolved m type k) x, type)
  | .binary m op l r =>
    if op = .assign then
      match l with
      | .identifier n x => do
        let (r, value) ← visit r
        let (k, type) ← assigned n x value
        pure (.binary (.typed m type) op (.identifier (.resolved n type k) x) r, type)
      | _ => fail .assignToNonIdentifier l.note.span
    else do
      let (l, s) ← visit l
      let (r, t) ← visit r
      let type := if op.isComparison then .int else s.join t
      pure (.binary (.typed m type) op l r, type)
  | .unary m op x => do
    let (x, s) ← visit x
    let type := if op = .not then .int else s
    pure (.unary (.typed m type) op x, type)
  | .call m f as =>
    match f with
    | .identifier n base => do
      let (as, types) ← visitArgs as
      let (template, k, type) ← called m n base types
      pure (.call (.resolved m type k) (.identifier ⟨n, none, some template⟩ base) as, type)
    | _ => fail (.notCallable f.kindName) f.note.span
  | .cond m c t none => do
    let (c, _) ← visit c
    let (t, type) ← visit t
    pure (.cond (.typed m type) c t none, type)
  | .cond m c t (some e) => do
    let (c, _) ← visit c
    let (t, s) ← visit t
    let (e, s') ← visit e
    pure (.cond (.typed m (s.join s')) c t (some e), s.join s')
  | .loop m c b => do
    let (c, _) ← visit c
    let (b, _) ← visit b
    pure (.loop (.typed m .int) c b, .int)
  | .returnValue m v => do
    let (v, type) ← visit v
    pure (.returnValue (.typed m type) v, type)
  | .block m is => do
    let (is, type) ← visitList .int is
    pure (.block (.typed m type) is, type)
  | .unit m is => do
    let is ← visitItems is
    pure (.unit (.typed m .int) is, .int)
  | .breakLoop m => pure (.breakLoop (.typed m .int), .int)
  | .continueLoop m => pure (.continueLoop (.typed m .int), .int)
  | .assembly m t => pure (.assembly (.typed m .int) t, .int)
  | .nop m => pure (.nop (.typed m .int), .int)
  | .define m p b => pure (.define (.typed m .int) (p.map .bare) (b.map .bare), .int)
  | .prototype m f ps => pure (.prototype (.typed m .int) f ps, .int)

/-- The typed trees of the arguments of a call, and their types. -/
def visitArgs : List (Node Mark) → Infer (List (Node Note) × List Scalar)
  | [] => pure ([], [])
  | x :: xs => do
    let (x, s) ← visit x
    let (xs, ss) ← visitArgs xs
    pure (x :: xs, s :: ss)

/-- The typed trees of the statements of a block, and the type of the block: that of the last
statement, an integer if it leaves no cell.  The block without statements has the type `type`. -/
def visitList (type : Scalar) : List (Node Mark) → Infer (List (Node Note) × Scalar)
  | [] => pure ([], type)
  | x :: xs => do
    let (y, s) ← visit x
    let (ys, t) ← visitList (if x.yieldsCell then s else .int) xs
    pure (y :: ys, t)

/-- The typed trees of the items of a unit.  Definitions are left as they are. -/
def visitItems : List (Node Mark) → Infer (List (Node Note))
  | [] => pure []
  | x :: xs => do
    let y ← if x.isDefinition then pure (x.map .bare) else do pure (← visit x).1
    let ys ← visitItems xs
    pure (y :: ys)

end

/-! ### A round -/

/-- Binds the definitions of the unit, each name once. -/
def declareFunctions : List Function → Infer Unit
  | [] => pure ()
  | f :: fs => do
    if (← get).globals.contains f.name then
      fail (.duplicateDefinition f.name) f.heading.span
    else
      let k ← addSymbol (.ofFunction f.name f)
      bindGlobal f.name k
      declareFunctions fs

/-- Binds the parameters of an instance in its scope, each name once. -/
def declareParams (span : Span) : List (String × Scalar) → Infer Unit
  | [] => pure ()
  | (name, type) :: ps => do
    let r ← get
    let scope := r.frame.getD .function
    if scope.contains name then fail (.duplicateDefinition name) span
    else
      let (offset, scope) := scope.addParam
      let (emitted, counters) := r.counters.localName name
      set { r with counters }
      let k ← addSymbol (.ofVariable name emitted type (.frame offset))
      modify fun r => { r with frame := some (scope.bind name k) }
      declareParams span ps

/-- Infers the body of an instance and records its result. -/
def visitInstance (i : Instance) : Infer Unit := do
  let f := i.function
  modify fun r => { r with frame := some .function }
  declareParams f.heading.span (f.params.zip i.args)
  let (body, type) ← visit f.body
  let r ← get
  let symbols := match r.globals.lookup i.name with
    | some k => r.symbols.modify k fun s => { s with type := some type }
    | none => r.symbols
  let (differs, instances) := r.instances.record i.name type
  let found : Inferred :=
    { name := i.name
      scope := r.frame.getD .function
      mark := .typed f.mark type
      heading := .bare f.heading
      params := f.params
      body }
  set { r with
    symbols, instances
    frame := none
    inferred := r.inferred ++ [found]
    changed := r.changed || differs }

/-- Infers the instances of the queue, at most `fuel` of them. -/
def drain : Nat → Infer Unit
  | 0 => pure ()
  | fuel + 1 => do
    let r ← get
    match r.instances.next with
    | (none, _) => pure ()
    | (some name, instances) =>
      set { r with instances }
      match instances.get? name with
      | none => throw (.internal (.unknownInstance name))
      | some i =>
        visitInstance i
        drain fuel

/-- The number of signatures that the instances of some functions can have. -/
def signatures : List Function → Nat
  | [] => 0
  | f :: fs => Nat.pow 2 f.params.length + signatures fs

/-- A round over a unit: its statements and then the instances that they reach.  No more instances
can be queued than there are signatures. -/
def visitUnit (mark : Mark) (items : List (Node Mark)) : Infer (Node Note) := do
  let fs := Node.definitions items
  declareFunctions fs
  let is ← visitItems items
  drain (signatures fs)
  pure (.unit (.typed mark .int) is)

end Infer

/-! ### All rounds -/

/-- The outcome of the last round. -/
structure Typing where
  root : Node Note
  round : Round

namespace Document

/-- Runs rounds from the `k`-th on until one records nothing new.  After `2 n + 2` rounds with `n`
instances it gives up; `fuel` bounds the number of rounds by what can be reached before that. -/
def inferFrom (mark : Mark) (items : List (Node Mark)) :
    Nat → Nat → Nat → Instances → Except CompileError Typing
  | 0, _, _, _ => throw (.internal .unsettledResults)
  | fuel + 1, k, fresh, instances => do
    let (root, r) ← (Infer.visitUnit mark items).run (.start fresh instances)
    if !r.changed then pure ⟨root, r⟩
    else if 2 * r.instances.made.length + 2 < k then throw (.internal .unsettledResults)
    else inferFrom mark items fuel (k + 1) r.fresh r.instances

/-- **The typing of a document**, which must be a whole unit. -/
def infer (d : Document) : Except CompileError Typing :=
  match d.root with
  | .unit mark items =>
    inferFrom mark items (2 * Infer.signatures (Node.definitions items) + 4) 1 d.fresh .empty
  | _ => throw (.internal .rootNotUnit)

end Document

end StackLang
