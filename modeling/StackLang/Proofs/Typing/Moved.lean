/-
**Rounds with other numbers for their symbols.**

Two rounds stand side by side if they differ in the numbers of some symbols only, and in the places
that their trees note.  Steps over trees alike keep them so: no name, label or type depends on the
numbers, and neither does the order in which instances are made.

Main definitions:

* `Renaming` — numbers of symbols that correspond;
* `Round.Moved` — rounds side by side;
* `CompileError.Alike` — errors with the same cause at places that correspond.

Main results:

* `Infer.visit_moved` — visits of trees alike stay side by side;
* `Infer.visitItems_moved` — so do visits of the statements of two units, wherever the definitions
  stand between them;
* `Infer.drain_moved` — so does the work on the queue.
-/

import StackLang.Proofs.Paired
import StackLang.Proofs.Tree.Alike
import StackLang.Proofs.Typing.Infer

set_option relaxedAutoImplicit false
set_option autoImplicit false

namespace StackLang

open Step

/-! ### Numbers of symbols -/

/-- **Numbers of symbols that correspond**: those below a boundary in some order, and each other one
to itself. -/
structure Renaming where
  boundary : Nat
  ref : Nat → Nat → Prop
  beyond : ∀ k, boundary ≤ k → ref k k
  left : ∀ {k j j' : Nat}, ref k j → ref k j' → j = j'
  right : ∀ {k k' j : Nat}, ref k j → ref k' j → k = k'

namespace Renaming

variable {ρ : Renaming} {j j' k k' : Nat}

/-- Different numbers correspond to different ones. -/
theorem eq_iff (hk : ρ.ref k k') (hj : ρ.ref j j') : j = k ↔ j' = k' := by
  constructor
  · rintro rfl
    exact ρ.left hj hk
  · rintro rfl
    exact ρ.right hj hk

end Renaming

/-! ### Rounds side by side -/

variable {same : Span → Span → Prop} {ρ : Renaming}

/-- Notes with places that correspond. -/
def SameSpan (same : Span → Span → Prop) (m m' : Mark) : Prop := same m.span m'.span

/-- Notes with the same type and symbols that correspond. -/
structure Note.Moved (same : Span → Span → Prop) (ρ : Renaming) (n n' : Note) : Prop where
  span : same n.mark.span n'.mark.span
  type : n'.type = n.type
  symbol : Option.Rel ρ.ref n.symbol n'.symbol

/-- The same function, with another place and other nodes. -/
structure Function.Moved (same : Span → Span → Prop) (f f' : Function) : Prop where
  name : f'.name = f.name
  params : f'.params = f.params
  heading : same f.heading.span f'.heading.span
  body : Node.Alike (SameSpan same) f.body f'.body

/-- The same symbol. -/
structure Symbol.Moved (same : Span → Span → Prop) (s s' : Symbol) : Prop where
  sourceName : s'.sourceName = s.sourceName
  emittedName : s'.emittedName = s.emittedName
  type : s'.type = s.type
  storage : s'.storage = s.storage
  used : s'.used = s.used
  emitted : s'.emitted = s.emitted
  definition : Option.Rel (Function.Moved same) s.definition s'.definition

/-- The symbols of numbers that correspond are the same; those below the boundary have no cell. -/
structure Symbols.Moved (same : Span → Span → Prop) (ρ : Renaming) (ss ss' : Symbols) : Prop where
  size : ss'.size = ss.size
  le : ρ.boundary ≤ ss.size
  get : ∀ {k k' : Nat}, ρ.ref k k' → Option.Rel (Symbol.Moved same) ss[k]? ss'[k']?
  nowhere : ∀ (k : Nat) (s : Symbol), k < ρ.boundary → ss[k]? = some s ∨ ss'[k]? = some s →
    s.storage = .nowhere

/-- Names stand for symbols that correspond. -/
structure Scope.Moved (ρ : Renaming) (s s' : Scope) : Prop where
  params : s'.params = s.params
  locals : s'.locals = s.locals
  lookup : ∀ name, Option.Rel ρ.ref (s.lookup name) (s'.lookup name)

/-- The same instance. -/
structure Instance.Moved (same : Span → Span → Prop) (i i' : Instance) : Prop where
  name : i'.name = i.name
  args : i'.args = i.args
  function : Function.Moved same i.function i'.function

/-- The same instances in the same order, and the same queue. -/
structure Instances.Moved (same : Span → Span → Prop) (is is' : Instances) : Prop where
  made : List.Forall₂ (Instance.Moved same) is.made is'.made
  results : is'.results = is.results
  pending : is'.pending = is.pending
  queued : is'.queued = is.queued

/-- The same inferred instance. -/
structure Inferred.Moved (same : Span → Span → Prop) (ρ : Renaming) (f f' : Inferred) : Prop where
  name : f'.name = f.name
  params : f'.params = f.params
  locals : f'.scope.locals = f.scope.locals
  body : Node.Alike (Note.Moved same ρ) f.body f'.body

/-- **Rounds that stand side by side.** -/
structure Round.Moved (same : Span → Span → Prop) (ρ : Renaming) (r r' : Round) : Prop where
  instances : Instances.Moved same r.instances r'.instances
  counters : r'.counters = r.counters
  symbols : Symbols.Moved same ρ r.symbols r'.symbols
  globals : Scope.Moved ρ r.globals r'.globals
  frame : Option.Rel (Scope.Moved ρ) r.frame r'.frame
  inferred : List.Forall₂ (Inferred.Moved same ρ) r.inferred r'.inferred
  changed : r'.changed = r.changed

/-- Broken promises of the same kind, at places that correspond. -/
inductive InternalError.Alike (same : Span → Span → Prop) : InternalError → InternalError → Prop
  | untyped {kind : String} {s s' : Span} (h : same s s') :
      Alike same (.untyped kind s) (.untyped kind s')
  | unresolved {kind : String} {s s' : Span} (h : same s s') :
      Alike same (.unresolved kind s) (.unresolved kind s')
  | same (e : InternalError) : Alike same e e

/-- **Errors with the same cause**, at places that correspond. -/
inductive CompileError.Alike (same : Span → Span → Prop) : CompileError → CompileError → Prop
  | semantic {cause : SemanticCause} {s s' : Span} (h : same s s') :
      Alike same (.semantic ⟨cause, s⟩) (.semantic ⟨cause, s'⟩)
  | internal {e e' : InternalError} (h : InternalError.Alike same e e') :
      Alike same (.internal e) (.internal e')

namespace Infer

/-- Steps of rounds that stand side by side. -/
abbrev Beside {α β : Type} (same : Span → Span → Prop) (ρ : Renaming) (R : α → β → Prop)
    (x : Infer α) (x' : Infer β) : Prop :=
  Paired (CompileError.Alike same) (Round.Moved same ρ) R x x'

theorem beside_fail {α β : Type} {R : α → β → Prop} {cause : SemanticCause} {s s' : Span}
    (h : same s s') : Beside same ρ R (fail cause s) (fail cause s') :=
  Paired.throw (.semantic h)

variable {r r' : Round}

/-! ### Symbols and scopes -/

theorem moved_push {ss ss' : Symbols} {s s' : Symbol} (h : Symbols.Moved same ρ ss ss')
    (hs : Symbol.Moved same s s') : Symbols.Moved same ρ (ss.push s) (ss'.push s') := by
  have hsize : ρ.ref ss.size ss'.size := by
    rw [h.size]
    exact ρ.beyond _ h.le
  refine ⟨?_, ?_, ?_, ?_⟩
  · rw [Array.size_push, Array.size_push, h.size]
  · rw [Array.size_push]
    exact Nat.le_succ_of_le h.le
  · intro k k' hk
    rw [Array.getElem?_push, Array.getElem?_push]
    by_cases heq : k = ss.size
    · rw [if_pos heq, if_pos ((Renaming.eq_iff hsize hk).1 heq)]
      exact .some hs
    · rw [if_neg heq, if_neg fun h => heq ((Renaming.eq_iff hsize hk).2 h)]
      exact h.get hk
  · intro k t hk ht
    have hne : k ≠ ss.size := Nat.ne_of_lt (Nat.lt_of_lt_of_le hk h.le)
    have hne' : k ≠ ss'.size := h.size.symm ▸ hne
    rw [Array.getElem?_push, Array.getElem?_push, if_neg hne, if_neg hne'] at ht
    exact h.nowhere k t hk ht

theorem moved_modify {ss ss' : Symbols} {f : Symbol → Symbol} (h : Symbols.Moved same ρ ss ss')
    (hf : ∀ s s', Symbol.Moved same s s' → Symbol.Moved same (f s) (f s'))
    (hstorage : ∀ s, (f s).storage = s.storage) {k k' : Nat} (hk : ρ.ref k k') :
    Symbols.Moved same ρ (ss.modify k f) (ss'.modify k' f) := by
  refine ⟨?_, ?_, ?_, ?_⟩
  · rw [Array.size_modify, Array.size_modify, h.size]
  · rw [Array.size_modify]
    exact h.le
  · intro j j' hj
    have hold := h.get hj
    rw [getElem?_modify, getElem?_modify]
    by_cases heq : k = j
    · rw [if_pos heq, if_pos ((Renaming.eq_iff hj hk).1 heq)]
      revert hold
      generalize ss[j]? = o, ss'[j']? = o'
      intro hold
      cases hold with
      | none => exact .none
      | some hs => exact .some (hf _ _ hs)
    · rw [if_neg heq, if_neg fun h => heq ((Renaming.eq_iff hj hk).2 h)]
      exact hold
  · -- a change keeps the storage
    have hkept : ∀ {ts : Symbols} {i j : Nat} {t : Symbol}, (ts.modify i f)[j]? = some t →
        ∃ u, ts[j]? = some u ∧ t.storage = u.storage := by
      intro ts i j t ht
      rw [getElem?_modify] at ht
      split at ht
      · obtain ⟨u, hu, rfl⟩ := Option.map_eq_some_iff.1 ht
        exact ⟨u, hu, hstorage u⟩
      · exact ⟨t, ht, rfl⟩
    intro j t hj ht
    rcases ht with ht | ht
    · obtain ⟨u, hu, hut⟩ := hkept ht
      exact hut.trans (h.nowhere j u hj (.inl hu))
    · obtain ⟨u, hu, hut⟩ := hkept ht
      exact hut.trans (h.nowhere j u hj (.inr hu))

theorem moved_bind {s s' : Scope} (h : Scope.Moved ρ s s') (name : String) {k k' : Nat}
    (hk : ρ.ref k k') : Scope.Moved ρ (s.bind name k) (s'.bind name k') := by
  refine ⟨h.params, h.locals, ?_⟩
  intro n
  by_cases hn : n = name
  · rw [hn, Scope.lookup_bind_self, Scope.lookup_bind_self]
    exact .some hk
  · rw [Scope.lookup_bind_of_ne hn, Scope.lookup_bind_of_ne hn]
    exact h.lookup n

theorem moved_variable (name emitted : String) (type : Scalar) (storage : Storage) :
    Symbol.Moved same (.ofVariable name emitted type storage)
      (.ofVariable name emitted type storage) :=
  ⟨rfl, rfl, rfl, rfl, rfl, rfl, .none⟩

theorem moved_function {f f' : Function} (h : Function.Moved same f f') (name : String) :
    Symbol.Moved same (.ofFunction name f) (.ofFunction name f') :=
  ⟨rfl, rfl, rfl, rfl, rfl, rfl, .some h⟩

/-- One more symbol on either side. -/
theorem addSymbol_moved {s s' : Symbol} (hs : Symbol.Moved same s s') :
    Beside same ρ ρ.ref (addSymbol s) (addSymbol s') := by
  refine .read ?_
  intro r r' hr
  refine (Paired.set ?_).bind ?_
  · exact ⟨hr.instances, hr.counters, moved_push hr.symbols hs, hr.globals, hr.frame, hr.inferred,
      hr.changed⟩
  · intro _ _ _
    refine .pure ?_
    rw [hr.symbols.size]
    exact ρ.beyond _ hr.symbols.le

theorem bindGlobal_moved (name : String) {k k' : Nat} (hk : ρ.ref k k') :
    Beside same ρ (fun _ _ => True) (bindGlobal name k) (bindGlobal name k') := by
  refine .modify ?_
  intro r r' hr
  exact ⟨hr.instances, hr.counters, hr.symbols, moved_bind hr.globals name hk, hr.frame,
    hr.inferred, hr.changed⟩

theorem moved_lookup (hr : Round.Moved same ρ r r') (name : String) :
    Option.Rel ρ.ref (r.lookup name) (r'.lookup name) := by
  have hglobals := hr.globals.lookup name
  have hframe := hr.frame
  unfold Round.lookup
  revert hframe
  generalize r.frame = o, r'.frame = o'
  intro hframe
  cases hframe with
  | none => exact hglobals
  | @some scope scope' hscope =>
      have hlocal := hscope.lookup name
      simp only [Option.bind_some]
      revert hlocal
      generalize scope.lookup name = l, scope'.lookup name = l'
      intro hlocal
      cases hlocal with
      | none => exact hglobals
      | some hk => exact .some hk

/-! ### Names -/

/-- A name stands for the same symbol. -/
def MovedFound (same : Span → Span → Prop) (ρ : Renaming) (p p' : Nat × Symbol) : Prop :=
  ρ.ref p.1 p'.1 ∧ Symbol.Moved same p.2 p'.2

theorem find?_moved (name : String) :
    Beside same ρ (Option.Rel (MovedFound same ρ)) (find? name) (find? name) := by
  refine .read ?_
  intro r r' hr
  refine .pure ?_
  have hlookup := moved_lookup hr name
  revert hlookup
  generalize r.lookup name = o, r'.lookup name = o'
  intro hlookup
  cases hlookup with
  | none => exact .none
  | @some k k' hk =>
      have hs := hr.symbols.get hk
      simp only [Option.bind_some]
      revert hs
      generalize r.symbols[k]? = t, r'.symbols[k']? = t'
      intro hs
      cases hs with
      | none => exact .none
      | some hs => exact .some ⟨hk, hs⟩

theorem isFunction_moved {s s' : Symbol} (h : Symbol.Moved same s s') :
    s'.isFunction = s.isFunction := by
  have hdefinition := h.definition
  unfold Symbol.isFunction
  revert hdefinition
  generalize s.definition = o, s'.definition = o'
  intro hdefinition
  cases hdefinition <;> rfl

/-- Symbols that correspond, and the same type. -/
def MovedValue (ρ : Renaming) (p p' : Nat × Scalar) : Prop := ρ.ref p.1 p'.1 ∧ p'.2 = p.2

theorem valueOf_moved {m m' : Mark} (hm : SameSpan same m m') (name : String) :
    Beside same ρ (MovedValue ρ) (valueOf m name) (valueOf m' name) := by
  refine (find?_moved name).bind ?_
  intro o o' ho
  cases ho with
  | none => exact beside_fail hm
  | @some p p' hp =>
      obtain ⟨hk, hs⟩ := hp
      dsimp only
      rw [isFunction_moved hs, hs.type]
      split
      · exact beside_fail hm
      · exact .pure ⟨hk, rfl⟩

theorem declare_moved (name : String) (type : Scalar) :
    Beside same ρ ρ.ref (declare name type) (declare name type) := by
  refine .read ?_
  intro r r' hr
  -- another counter and another frame on either side
  have hset : ∀ {counters : Counters} {o o' : Option Scope}, Option.Rel (Scope.Moved ρ) o o' →
      Round.Moved same ρ { r with counters, frame := o } { r' with counters, frame := o' } := by
    intro counters o o' ho
    exact ⟨hr.instances, rfl, hr.symbols, hr.globals, ho, hr.inferred, hr.changed⟩
  have hframe := hr.frame
  rw [hr.counters]
  revert hset hframe
  obtain ⟨fresh, instances, counters, symbols, globals, frame, inferred, changed⟩ := r
  obtain ⟨fresh', instances', counters', symbols', globals', frame', inferred', changed'⟩ := r'
  intro hset hframe
  cases hframe with
  | none =>
      refine (Paired.set (hset .none)).bind ?_
      intro _ _ _
      refine (addSymbol_moved (moved_variable _ _ _ _)).bind ?_
      intro k k' hk
      exact (bindGlobal_moved name hk).bind fun _ _ _ => .pure hk
  | @some scope scope' hscope =>
      have hplace : scope'.addLocal.1 = scope.addLocal.1 := by
        rw [Scope.addLocal, Scope.addLocal, hscope.locals]
      have hscope' : Scope.Moved ρ scope.addLocal.2 scope'.addLocal.2 :=
        ⟨hscope.params, congrArg (· + 1) hscope.locals, hscope.lookup⟩
      dsimp only
      rw [hplace]
      refine (Paired.set (hset (.some hscope))).bind ?_
      intro _ _ _
      refine (addSymbol_moved (moved_variable _ _ _ _)).bind ?_
      intro k k' hk
      refine (Paired.modify ?_).bind fun _ _ _ => .pure hk
      intro r r' hr
      exact ⟨hr.instances, hr.counters, hr.symbols, hr.globals,
        .some (moved_bind hscope' name hk), hr.inferred, hr.changed⟩

theorem assigned_moved {m m' : Mark} (hm : SameSpan same m m') (name : String) (value : Scalar) :
    Beside same ρ (MovedValue ρ) (assigned m name value) (assigned m' name value) := by
  refine (find?_moved name).bind ?_
  intro o o' ho
  cases ho with
  | none =>
      refine (declare_moved name value).bind ?_
      intro k k' hk
      exact .pure ⟨hk, rfl⟩
  | @some p p' hp =>
      obtain ⟨hk, hs⟩ := hp
      dsimp only
      rw [isFunction_moved hs, hs.type]
      split
      · exact beside_fail hm
      · exact .pure ⟨hk, rfl⟩

/-! ### Calls -/

theorem get?_moved {is is' : Instances} (h : Instances.Moved same is is') (name : String) :
    Option.Rel (Instance.Moved same) (is.get? name) (is'.get? name) := by
  obtain ⟨hmade, -, -, -⟩ := h
  unfold Instances.get?
  generalize is.made = l, is'.made = l' at hmade ⊢
  induction hmade with
  | nil => exact .none
  | @cons i i' _ _ hi _ ih =>
      rw [List.find?_cons, List.find?_cons, hi.name]
      split
      · exact .some hi
      · exact ih

theorem copy_moved {f f' : Function} (h : Function.Moved same f f') (k k' : Nat) (name : String) :
    Function.Moved same (f.copy k name).1 (f'.copy k' name).1 := by
  refine ⟨rfl, h.params, h.heading, Node.alike_number ?_ f.body h.body _ _⟩
  exact fun _ _ _ _ hsame => hsame

theorem insert_moved {is is' : Instances} {i i' : Instance} (h : Instances.Moved same is is')
    (hi : Instance.Moved same i i') : Instances.Moved same (is.insert i) (is'.insert i') := by
  have hget := get?_moved h i.name
  unfold Instances.insert
  rw [hi.name]
  revert hget
  generalize is.get? i.name = o, is'.get? i.name = o'
  intro hget
  cases hget with
  | none => exact ⟨List.rel_append h.made (.cons hi .nil), h.results, h.pending, h.queued⟩
  | some _ => exact h

theorem enqueue_moved {is is' : Instances} (h : Instances.Moved same is is') (name : String) :
    Instances.Moved same (is.enqueue name).2 (is'.enqueue name).2 := by
  unfold Instances.enqueue
  rw [h.queued, h.pending]
  split
  · exact ⟨h.made, h.results, h.pending, h.queued⟩
  · exact ⟨h.made, h.results, rfl, rfl⟩

theorem instanceOf_moved {f f' : Function} (h : Function.Moved same f f') (base name : String)
    (args : List Scalar) :
    Beside same ρ (Function.Moved same) (instanceOf f base name args)
      (instanceOf f' base name args) := by
  refine .read ?_
  intro r r' hr
  have hget := get?_moved hr.instances name
  revert hget
  generalize r.instances.get? name = o, r'.instances.get? name = o'
  intro hget
  cases hget with
  | some hi => exact .pure hi.function
  | none =>
      have hcopy := copy_moved h r.fresh r'.fresh name
      refine (Paired.set ?_).bind fun _ _ _ => .pure hcopy
      exact ⟨insert_moved hr.instances ⟨rfl, rfl, hcopy⟩, hr.counters, hr.symbols, hr.globals,
        hr.frame, hr.inferred, hr.changed⟩

theorem instantiate_moved {f f' : Function} (h : Function.Moved same f f') (base name : String)
    (args : List Scalar) :
    Beside same ρ ρ.ref (instantiate f base name args) (instantiate f' base name args) := by
  refine (instanceOf_moved h base name args).bind ?_
  intro copy copy' hcopy
  refine (addSymbol_moved (moved_function hcopy name)).bind ?_
  intro k k' hk
  refine (bindGlobal_moved name hk).bind fun _ _ _ => (Paired.modify ?_).bind fun _ _ _ => .pure hk
  intro r r' hr
  exact ⟨enqueue_moved hr.instances name, hr.counters, hr.symbols, hr.globals, hr.frame,
    hr.inferred, hr.changed⟩

theorem returns_moved (hr : Round.Moved same ρ r r') (name : String) :
    r'.instances.returns name = r.instances.returns name := by
  rw [Instances.returns, Instances.returns, hr.instances.results]

/-- Symbols that correspond, and the same result. -/
def MovedCall (ρ : Renaming) (p p' : Nat × Nat × Scalar) : Prop :=
  ρ.ref p.1 p'.1 ∧ ρ.ref p.2.1 p'.2.1 ∧ p'.2.2 = p.2.2

theorem called_moved {m m' n n' : Mark} (hm : SameSpan same m m') (hn : SameSpan same n n')
    (base : String) (args : List Scalar) :
    Beside same ρ (MovedCall ρ) (called m n base args) (called m' n' base args) := by
  -- what is left to do once the symbol of the instance is known
  have hrest : ∀ {t t' k k' : Nat}, ρ.ref t t' → ρ.ref k k' → Beside same ρ (MovedCall ρ) (do
        modify fun r => { r with symbols := r.symbols.modify k fun s => { s with used := true } }
        pure (t, k, (← get).instances.returns (decorate base args))) (do
        modify fun r => { r with symbols := r.symbols.modify k' fun s => { s with used := true } }
        pure (t', k', (← get).instances.returns (decorate base args))) := by
    intro t t' k k' ht hk
    refine (Paired.modify ?_).bind fun _ _ _ => .read ?_
    · intro r r' hr
      exact ⟨hr.instances, hr.counters, moved_modify (f := fun s => { s with used := true })
        hr.symbols (fun _ _ hs => ⟨hs.sourceName, hs.emittedName, hs.type, hs.storage, rfl,
          hs.emitted, hs.definition⟩) (fun _ => rfl) hk, hr.globals, hr.frame, hr.inferred,
        hr.changed⟩
    · intro r r' hr
      refine .pure ⟨ht, hk, ?_⟩
      exact returns_moved hr _
  refine (find?_moved base).bind ?_
  intro o o' ho
  cases ho with
  | none => exact beside_fail hn
  | @some p p' hp =>
      obtain ⟨t, s⟩ := p
      obtain ⟨t', s'⟩ := p'
      obtain ⟨ht, hs⟩ := hp
      have hdefinition := hs.definition
      dsimp only at ht hdefinition ⊢
      revert hdefinition
      generalize s.definition = d, s'.definition = d'
      intro hdefinition
      cases hdefinition with
      | none => exact beside_fail hn
      | @some f f' hf =>
          dsimp only
          rw [hf.params]
          split
          · exact beside_fail hm
          · refine .read ?_
            intro r r' hr
            have hlookup := moved_lookup hr (decorate base args)
            revert hlookup
            generalize r.lookup (decorate base args) = l, r'.lookup (decorate base args) = l'
            intro hlookup
            cases hlookup with
            | none => exact (instantiate_moved hf base _ args).bind fun k k' hk => hrest ht hk
            | some hk => exact (Paired.pure hk).bind fun k k' hk => hrest ht hk

/-! ### Expressions -/

theorem moved_typed {m m' : Mark} (hm : SameSpan same m m') (type : Scalar) :
    Note.Moved same ρ (.typed m type) (.typed m' type) :=
  ⟨hm, rfl, .none⟩

theorem alike_bare {x x' : Node Mark} (h : Node.Alike (SameSpan same) x x') :
    Node.Alike (Note.Moved same ρ) (x.map .bare) (x'.map .bare) := by
  refine Node.alike_map ?_ x h
  intro m m' hm
  exact ⟨hm, rfl, .none⟩

theorem moved_resolved {m m' : Mark} (hm : SameSpan same m m') (type : Scalar) {k k' : Nat}
    (hk : ρ.ref k k') : Note.Moved same ρ (.resolved m type k) (.resolved m' type k') :=
  ⟨hm, rfl, .some hk⟩

/-- Typed trees alike, of the same type. -/
def MovedVisit (same : Span → Span → Prop) (ρ : Renaming) (p p' : Node Note × Scalar) : Prop :=
  Node.Alike (Note.Moved same ρ) p.1 p'.1 ∧ p'.2 = p.2

/-- Typed arguments alike, of the same types. -/
def MovedArgs (same : Span → Span → Prop) (ρ : Renaming)
    (p p' : List (Node Note) × List Scalar) : Prop :=
  Node.AlikeList (Note.Moved same ρ) p.1 p'.1 ∧ p'.2 = p.2

/-- Typed statements alike, of the same type. -/
def MovedVisits (same : Span → Span → Prop) (ρ : Renaming)
    (p p' : List (Node Note) × Scalar) : Prop :=
  Node.AlikeList (Note.Moved same ρ) p.1 p'.1 ∧ p'.2 = p.2

mutual

/-- **Visits of trees alike stay side by side.** -/
theorem visit_moved (x : Node Mark) {x' : Node Mark} (h : Node.Alike (SameSpan same) x x') :
    Beside same ρ (MovedVisit same ρ) (visit x) (visit x') := by
  cases h with
  | literal hm => exact .pure ⟨.literal (moved_typed hm _), rfl⟩
  | identifier hm =>
      simp only [visit]
      refine (valueOf_moved hm _).bind ?_
      rintro ⟨k, type⟩ ⟨k', type'⟩ ⟨hk, rfl⟩
      exact .pure ⟨.identifier (moved_resolved hm _ hk), rfl⟩
  | @binary m m' op l r l' r' hm hl hr =>
      by_cases hop : op = .assign
      · cases hl with
        | identifier hn =>
            simp only [visit, if_pos hop]
            refine (visit_moved r hr).bind ?_
            rintro ⟨y, s⟩ ⟨y', s'⟩ ⟨hy, rfl⟩
            refine (assigned_moved hn _ _).bind ?_
            rintro ⟨k, type⟩ ⟨k', type'⟩ ⟨hk, rfl⟩
            exact .pure ⟨.binary (moved_typed hm _) (.identifier (moved_resolved hn _ hk)) hy, rfl⟩
        | literal hn =>
            simp only [visit, if_pos hop]
            exact beside_fail hn
        | binary hn _ _ | unary hn _ | call hn _ _ | cond hn _ _ _ | loop hn _ _ | breakLoop hn
        | continueLoop hn | returnValue hn _ | define hn _ _ | prototype hn | block hn _
        | assembly hn | unit hn _ | nop hn =>
            simp only [visit, if_pos hop]
            exact beside_fail hn
      · simp only [visit, if_neg hop]
        refine (visit_moved l hl).bind ?_
        rintro ⟨y, s⟩ ⟨y', s'⟩ ⟨hy, rfl⟩
        refine (visit_moved r hr).bind ?_
        rintro ⟨z, t⟩ ⟨z', t'⟩ ⟨hz, rfl⟩
        exact .pure ⟨.binary (moved_typed hm _) hy hz, rfl⟩
  | @unary m m' op y y' hm hy =>
      simp only [visit]
      refine (visit_moved y hy).bind ?_
      rintro ⟨z, s⟩ ⟨z', s'⟩ ⟨hz, rfl⟩
      exact .pure ⟨.unary (moved_typed hm _) hz, rfl⟩
  | @call m m' c c' as as' hm hc has =>
      cases hc with
      | identifier hn =>
          simp only [visit]
          refine (visitArgs_moved as has).bind ?_
          rintro ⟨ys, types⟩ ⟨ys', types'⟩ ⟨hys, rfl⟩
          refine (called_moved hm hn _ _).bind ?_
          rintro ⟨t, k, type⟩ ⟨t', k', type'⟩ ⟨ht, hk, rfl⟩
          exact .pure ⟨.call (moved_resolved hm _ hk) (.identifier ⟨hn, rfl, .some ht⟩) hys, rfl⟩
      | literal hn | binary hn _ _ | unary hn _ | call hn _ _ | cond hn _ _ _ | loop hn _ _
      | breakLoop hn | continueLoop hn | returnValue hn _ | define hn _ _ | prototype hn
      | block hn _ | assembly hn | unit hn _ | nop hn =>
          simp only [visit]
          exact beside_fail hn
  | @cond m m' c t c' t' e e' hm hc ht he =>
      cases he with
      | none =>
          simp only [visit]
          refine (visit_moved c hc).bind ?_
          rintro ⟨y, s⟩ ⟨y', s'⟩ ⟨hy, -⟩
          refine (visit_moved t ht).bind ?_
          rintro ⟨z, type⟩ ⟨z', type'⟩ ⟨hz, rfl⟩
          exact .pure ⟨.cond (moved_typed hm _) hy hz .none, rfl⟩
      | @some e e' he =>
          simp only [visit]
          refine (visit_moved c hc).bind ?_
          rintro ⟨y, s⟩ ⟨y', s'⟩ ⟨hy, -⟩
          refine (visit_moved t ht).bind ?_
          rintro ⟨z, type⟩ ⟨z', type'⟩ ⟨hz, rfl⟩
          refine (visit_moved e he).bind ?_
          rintro ⟨w, last⟩ ⟨w', last'⟩ ⟨hw, rfl⟩
          exact .pure ⟨.cond (moved_typed hm _) hy hz (.some hw), rfl⟩
  | @loop m m' c b c' b' hm hc hb =>
      simp only [visit]
      refine (visit_moved c hc).bind ?_
      rintro ⟨y, s⟩ ⟨y', s'⟩ ⟨hy, -⟩
      refine (visit_moved b hb).bind ?_
      rintro ⟨z, t⟩ ⟨z', t'⟩ ⟨hz, -⟩
      exact .pure ⟨.loop (moved_typed hm _) hy hz, rfl⟩
  | @returnValue m m' v v' hm hv =>
      simp only [visit]
      refine (visit_moved v hv).bind ?_
      rintro ⟨y, s⟩ ⟨y', s'⟩ ⟨hy, rfl⟩
      exact .pure ⟨.returnValue (moved_typed hm _) hy, rfl⟩
  | @block m m' is is' hm his =>
      simp only [visit]
      refine (visitList_moved .int is his).bind ?_
      rintro ⟨ys, type⟩ ⟨ys', type'⟩ ⟨hys, rfl⟩
      exact .pure ⟨.block (moved_typed hm _) hys, rfl⟩
  | @unit m m' is is' hm his =>
      simp only [visit]
      refine (visitAlike_moved is his).bind ?_
      intro ys ys' hys
      exact .pure ⟨.unit (moved_typed hm _) hys, rfl⟩
  | breakLoop hm => exact .pure ⟨.breakLoop (moved_typed hm _), rfl⟩
  | continueLoop hm => exact .pure ⟨.continueLoop (moved_typed hm _), rfl⟩
  | assembly hm => exact .pure ⟨.assembly (moved_typed hm _), rfl⟩
  | nop hm => exact .pure ⟨.nop (moved_typed hm _), rfl⟩
  | @define m m' p b p' b' hm hp hb =>
      exact .pure ⟨.define (moved_typed hm _) (alike_bare hp) (alike_bare hb), rfl⟩
  | prototype hm => exact .pure ⟨.prototype (moved_typed hm _), rfl⟩

theorem visitArgs_moved (xs : List (Node Mark)) {xs' : List (Node Mark)}
    (h : Node.AlikeList (SameSpan same) xs xs') :
    Beside same ρ (MovedArgs same ρ) (visitArgs xs) (visitArgs xs') := by
  cases h with
  | nil => exact .pure ⟨.nil, rfl⟩
  | @cons x x' xs xs' hx hxs =>
      simp only [visitArgs]
      refine (visit_moved x hx).bind ?_
      rintro ⟨y, s⟩ ⟨y', s'⟩ ⟨hy, rfl⟩
      refine (visitArgs_moved xs hxs).bind ?_
      rintro ⟨ys, ss⟩ ⟨ys', ss'⟩ ⟨hys, rfl⟩
      exact .pure ⟨.cons hy hys, rfl⟩

theorem visitList_moved (type : Scalar) (xs : List (Node Mark)) {xs' : List (Node Mark)}
    (h : Node.AlikeList (SameSpan same) xs xs') :
    Beside same ρ (MovedVisits same ρ) (visitList type xs) (visitList type xs') := by
  cases h with
  | nil => exact .pure ⟨.nil, rfl⟩
  | @cons x x' xs xs' hx hxs =>
      simp only [visitList]
      refine (visit_moved x hx).bind ?_
      rintro ⟨y, s⟩ ⟨y', s'⟩ ⟨hy, rfl⟩
      dsimp only
      rw [hx.yieldsCell]
      refine (visitList_moved _ xs hxs).bind ?_
      rintro ⟨ys, t⟩ ⟨ys', t'⟩ ⟨hys, rfl⟩
      exact .pure ⟨.cons hy hys, rfl⟩

/-- Items alike, definitions at the same places. -/
theorem visitAlike_moved (xs : List (Node Mark)) {xs' : List (Node Mark)}
    (h : Node.AlikeList (SameSpan same) xs xs') :
    Beside same ρ (Node.AlikeList (Note.Moved same ρ)) (visitItems xs) (visitItems xs') := by
  cases h with
  | nil => exact .pure .nil
  | @cons x x' xs xs' hx hxs =>
      simp only [visitItems]
      rw [hx.isDefinition]
      have hrest : ∀ {y y' : Node Note}, Node.Alike (Note.Moved same ρ) y y' →
          Beside same ρ (Node.AlikeList (Note.Moved same ρ))
            (visitItems xs >>= fun ys => pure (y :: ys))
            (visitItems xs' >>= fun ys => pure (y' :: ys)) := by
        intro y y' hy
        exact (visitAlike_moved xs hxs).map fun _ _ hys => .cons hy hys
      split
      · exact hrest (alike_bare hx)
      · refine (visit_moved x hx).bind ?_
        intro p p' hp
        exact hrest hp.1

end

/-! ### Items -/

/-- Typed items alike, wherever the definitions stand. -/
def MovedRest (same : Span → Span → Prop) (ρ : Renaming) (ys ys' : List (Node Note)) : Prop :=
  List.Forall₂ (Node.Alike (Note.Moved same ρ)) (ys.filter fun y => !y.isDefinition)
    (ys'.filter fun y => !y.isDefinition)

theorem visitItems_define {x : Node Mark} (hx : x.isDefinition = true) (xs : List (Node Mark)) :
    visitItems (x :: xs) = visitItems xs >>= fun ys => pure (x.map .bare :: ys) := by
  rw [visitItems, if_pos hx, pure_bind]

theorem visitItems_statement {x : Node Mark} (hx : x.isDefinition = false) (xs : List (Node Mark)) :
    visitItems (x :: xs) = visit x >>= fun p => visitItems xs >>= fun ys => pure (p.1 :: ys) := by
  have hno : ¬ x.isDefinition = true := by
    rw [hx]
    exact Bool.false_ne_true
  rw [visitItems, if_neg hno]
  simp only [pure_bind]

theorem isDefinition_map (f : Mark → Note) (x : Node Mark) :
    (x.map f).isDefinition = x.isDefinition := by
  cases x <;> rfl

/-- One more definition on the left. -/
theorem movedRest_left {x : Node Mark} (hx : x.isDefinition = true) {ys ys' : List (Node Note)}
    (h : MovedRest same ρ ys ys') : MovedRest same ρ (x.map .bare :: ys) ys' := by
  unfold MovedRest
  rw [Node.statements_define ((isDefinition_map _ x).trans hx)]
  exact h

/-- One more definition on the right. -/
theorem movedRest_right {x : Node Mark} (hx : x.isDefinition = true) {ys ys' : List (Node Note)}
    (h : MovedRest same ρ ys ys') : MovedRest same ρ ys (x.map .bare :: ys') := by
  unfold MovedRest
  rw [Node.statements_define ((isDefinition_map _ x).trans hx)]
  exact h

/-- One more tree alike on both sides. -/
theorem movedRest_cons {y y' : Node Note} (hy : Node.Alike (Note.Moved same ρ) y y')
    {ys ys' : List (Node Note)} (h : MovedRest same ρ ys ys') :
    MovedRest same ρ (y :: ys) (y' :: ys') := by
  unfold MovedRest
  rw [List.filter_cons, List.filter_cons, hy.isDefinition]
  split
  · exact .cons hy h
  · exact h

/-- **The statements of units are visited side by side**, wherever the definitions stand. -/
theorem visitItems_moved (xs : List (Node Mark)) {xs' : List (Node Mark)}
    (h : List.Forall₂ (Node.Alike (SameSpan same)) (xs.filter fun x => !x.isDefinition)
      (xs'.filter fun x => !x.isDefinition)) :
    Beside same ρ (MovedRest same ρ) (visitItems xs) (visitItems xs') := by
  -- definitions before the next statement are passed by, first on the left and then on the right
  induction xs generalizing xs' with
  | nil =>
      induction xs' with
      | nil => exact .pure .nil
      | cons x' xs' ih' =>
          cases hx' : x'.isDefinition with
          | true =>
              rw [Node.statements_define hx'] at h
              rw [visitItems_define hx']
              exact ((ih' h).imp fun _ _ hys => movedRest_right hx' hys).mapRight
          | false =>
              rw [Node.statements_cons hx'] at h
              cases h
  | cons x xs ih =>
      cases hx : x.isDefinition with
      | true =>
          rw [Node.statements_define hx] at h
          rw [visitItems_define hx]
          exact ((ih h).imp fun _ _ hys => movedRest_left hx hys).mapLeft
      | false =>
          rw [Node.statements_cons hx] at h
          induction xs' with
          | nil => cases h
          | cons x' xs' ih' =>
              cases hx' : x'.isDefinition with
              | true =>
                  rw [Node.statements_define hx'] at h
                  rw [visitItems_define hx']
                  exact ((ih' h).imp fun _ _ hys => movedRest_right hx' hys).mapRight
              | false =>
                  rw [Node.statements_cons hx'] at h
                  cases h with
                  | cons hxx hrest =>
                      rw [visitItems_statement hx, visitItems_statement hx']
                      refine (visit_moved x hxx).bind ?_
                      intro p p' hp
                      exact (ih hrest).map fun _ _ hys => movedRest_cons hp.1 hys

/-! ### Instances -/

theorem moved_function_scope : Scope.Moved ρ .function .function :=
  ⟨rfl, rfl, fun _ => .none⟩

theorem moved_frame {o o' : Option Scope} (h : Option.Rel (Scope.Moved ρ) o o') :
    Scope.Moved ρ (o.getD .function) (o'.getD .function) := by
  cases h with
  | none => exact moved_function_scope
  | some hscope => exact hscope

theorem contains_moved {s s' : Scope} (h : Scope.Moved ρ s s') (name : String) :
    s'.contains name = s.contains name := by
  have hlookup := h.lookup name
  unfold Scope.contains
  revert hlookup
  generalize s.lookup name = o, s'.lookup name = o'
  intro hlookup
  cases hlookup <;> rfl

theorem declareParams_moved {span span' : Span} (hspan : same span span')
    (ps : List (String × Scalar)) :
    Beside same ρ (fun _ _ => True) (declareParams span ps) (declareParams span' ps) := by
  induction ps with
  | nil => exact .pure trivial
  | cons p ps ih =>
      refine .read ?_
      intro r r' hr
      have hscope := moved_frame hr.frame
      have hplace : (r'.frame.getD .function).addParam.1 = (r.frame.getD .function).addParam.1 := by
        rw [Scope.addParam, Scope.addParam, hscope.params]
      have hscope' : Scope.Moved ρ (r.frame.getD .function).addParam.2
          (r'.frame.getD .function).addParam.2 :=
        ⟨congrArg (· + 1) hscope.params, hscope.locals, hscope.lookup⟩
      dsimp only
      rw [contains_moved hscope, hr.counters]
      split
      · exact beside_fail hspan
      · rw [hplace]
        refine (Paired.set ?_).bind ?_
        · exact ⟨hr.instances, rfl, hr.symbols, hr.globals, hr.frame, hr.inferred, hr.changed⟩
        · intro _ _ _
          refine (addSymbol_moved (moved_variable _ _ _ _)).bind ?_
          intro k k' hk
          refine (Paired.modify ?_).bind fun _ _ _ => ih
          intro r r' hr
          exact ⟨hr.instances, hr.counters, hr.symbols, hr.globals,
            .some (moved_bind hscope' _ hk), hr.inferred, hr.changed⟩

theorem finished_moved (hr : Round.Moved same ρ r r') {i i' : Instance}
    (hi : Instance.Moved same i i') (type : Scalar) {found found' : Inferred}
    (hfound : Inferred.Moved same ρ found found') :
    Round.Moved same ρ (finished i type found r) (finished i' type found' r') := by
  refine ⟨?_, hr.counters, ?_, hr.globals, .none, List.rel_append hr.inferred (.cons hfound .nil),
    ?_⟩
  · refine ⟨hr.instances.made, ?_, hr.instances.pending, hr.instances.queued⟩
    simp only [finished, Instances.record, hi.name, hr.instances.results]
  · have hlookup := hr.globals.lookup i.name
    simp only [finished, hi.name]
    revert hlookup
    generalize r.globals.lookup i.name = o, r'.globals.lookup i.name = o'
    intro hlookup
    cases hlookup with
    | none => exact hr.symbols
    | some hk =>
        exact moved_modify (f := fun s => { s with type := some type }) hr.symbols
          (fun _ _ hs => ⟨hs.sourceName, hs.emittedName, rfl, hs.storage, hs.used, hs.emitted,
            hs.definition⟩) (fun _ => rfl) hk
  · simp only [finished, Instances.record, hi.name, returns_moved hr, hr.changed]

/-- **Instances of functions alike are inferred side by side.** -/
theorem visitInstance_moved {i i' : Instance} (hi : Instance.Moved same i i') :
    Beside same ρ (fun _ _ => True) (visitInstance i) (visitInstance i') := by
  rw [visitInstance_eq, visitInstance_eq, hi.function.params, hi.args]
  refine (Paired.modify ?_).bind fun _ _ _ =>
    (declareParams_moved hi.function.heading _).bind fun _ _ _ => ?_
  · intro r r' hr
    exact ⟨hr.instances, hr.counters, hr.symbols, hr.globals, .some moved_function_scope,
      hr.inferred, hr.changed⟩
  · refine (visit_moved _ hi.function.body).bind ?_
    rintro ⟨y, type⟩ ⟨y', type'⟩ ⟨hy, rfl⟩
    refine .read ?_
    intro r r' hr
    refine .set (finished_moved hr hi _ ?_)
    exact ⟨hi.name, rfl, (moved_frame hr.frame).locals, hy⟩

/-- **The queues are worked off side by side.** -/
theorem drain_moved (fuel : Nat) :
    Beside same ρ (fun _ _ => True) (drain fuel) (drain fuel) := by
  induction fuel with
  | zero => exact .pure trivial
  | succ fuel ih =>
      refine .read ?_
      intro r r' hr
      simp only [Instances.next, hr.instances.pending]
      cases r.instances.pending with
      | nil => exact .pure trivial
      | cons name rest =>
          have hnext : Instances.Moved same { r.instances with pending := rest }
              { r'.instances with pending := rest } :=
            ⟨hr.instances.made, hr.instances.results, rfl, hr.instances.queued⟩
          refine (Paired.set ?_).bind fun _ _ _ => ?_
          · exact ⟨hnext, hr.counters, hr.symbols, hr.globals, hr.frame, hr.inferred, hr.changed⟩
          · have hget := get?_moved hnext name
            revert hget
            dsimp only
            generalize Instances.get? name { r.instances with pending := rest } = o,
              Instances.get? name { r'.instances with pending := rest } = o'
            intro hget
            cases hget with
            | none => exact .throw (.internal (.same _))
            | some hi => exact (visitInstance_moved hi).bind fun _ _ _ => ih

end Infer

end StackLang
