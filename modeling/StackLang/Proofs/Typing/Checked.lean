/-
**Inference checks nothing but names.**

A round of inference fails exactly where the uses of names do, and its types have no part in it.  A
visit performs the uses of the tree: it finds the same names bound, makes the same variables and
calls the same functions.  The queue holds instances where the list of uses has functions, and a
function can have many instances; but all of them have the same uses, so the second instance of a
function fails only if the first did, and calls only functions that were called already.

Main definitions:

* `Stage` — where a visit takes place;
* `Mirrors` — a state of a round and what is known of names there;
* `Infer.Performs` — a step of inference and the uses that it performs;
* `Waits` — the state between two instances of the queue.

Main results:

* `Infer.visit_performs` — a visit performs the uses of the tree;
* `Infer.drain_resolves` — the work on the queue fares as its functions do;
* `Document.infer_resolves` — inference fares as the unit does.
-/

import StackLang.Proofs.Paired
import StackLang.Proofs.Tree.Resolves
import StackLang.Proofs.Typing.Order
import StackLang.Proofs.Typing.Settles
import StackLang.Proofs.Typing.Steps

set_option relaxedAutoImplicit false
set_option autoImplicit false

namespace StackLang

open Step Infer

/-! ### Functions and their instances -/

/-- A definition as far as names go. -/
def Function.outline (f : Function) : Outline := ⟨f.name, f.params, f.body.uses⟩

theorem Node.outlines_eq (items : List (Node Mark)) :
    outlines items = (definitions items).map Function.outline := by
  rw [outlines, definitions, List.map_filterMap]
  refine List.filterMap_congr fun x _ => ?_
  cases x with
  | define m p b => cases p <;> rfl
  | _ => rfl

/-- The name of the function that an instance with this name was made of. -/
def baseName (name : String) : String := String.ofList (name.toList.takeWhile fun c => c ≠ '@')

theorem baseName_decorate {base : String} (h : IsSourceName base) (args : List Scalar) :
    baseName (decorate base args) = base := by
  have hplain : ∀ c ∈ base.toList, decide (c ≠ '@') = true := by
    intro c hc
    have hne : c ≠ '@' := by
      rintro rfl
      exact h.at_notMem hc
    simpa using hne
  rw [baseName, toList_decorate, List.takeWhile_append_of_pos hplain,
    List.takeWhile_cons_of_neg (by simp), List.append_nil, String.ofList_toList]

/-- **Where a visit takes place**: among the definitions `fs`, after the instances `done` have left
the queue, which are instances of functions in `seen`; with the functions `queue` waiting at its
start; and in the body of a function if the variables of the unit are given. -/
structure Stage where
  fs : List Function
  done : List String
  seen : List String
  queue : List String
  unit : Option (List String)
  source : AreSource fs
  nodup : (fs.map Function.name).Nodup
  served : ∀ n ∈ done, baseName n ∈ seen

namespace Stage

/-- How many arguments a function takes. -/
def arity (c : Stage) : String → Option Nat := Outline.arity (c.fs.map Function.outline)

end Stage

/-! ### What names stand for -/

/-- The symbol of a name, with its number. -/
def Round.binding? (x : String) (r : Round) : Option (Nat × Symbol) :=
  (r.lookup x).bind fun k => (r.symbols[k]?).map fun s => (k, s)

/-- **What is known of a name is what it stands for**: nothing, a variable, or a function. -/
inductive Means (arity : String → Option Nat) (vars : List String) (x : String) :
    Option (Nat × Symbol) → Prop
  | nothing (hvars : x ∉ vars) (harity : arity x = none) : Means arity vars x none
  | value {j : Nat} {s : Symbol} (hs : s.definition = none) (hvars : x ∈ vars) :
      Means arity vars x (some (j, s))
  | callable {j : Nat} {s : Symbol} {f : Function} (hs : s.definition = some f)
      (hvars : x ∉ vars) (harity : arity x = some f.params.length) :
      Means arity vars x (some (j, s))

section

variable {fs : List Function} {done : List String} {r r' : Round}
  {arity : String → Option Nat} {vars vars' : List String} {x : String}

theorem Means.congr {e : Option (Nat × Symbol)} (h : Means arity vars x e)
    (hvars : x ∈ vars' ↔ x ∈ vars) : Means arity vars' x e := by
  cases h with
  | nothing hnew harity => exact .nothing (mt hvars.1 hnew) harity
  | value hs hold => exact .value hs (hvars.2 hold)
  | callable hs hnew harity => exact .callable hs (mt hvars.1 hnew) harity

theorem Round.binding?_of_lookup {j : Nat} {s : Symbol} (hj : r.lookup x = some j)
    (hs : r.symbols[j]? = some s) : r.binding? x = some (j, s) := by
  rw [binding?, hj, Option.bind_some, hs, Option.map_some]

theorem Round.lookup_of_binding? (h : r.Sound fs done) (hx : r.binding? x = none) :
    r.lookup x = none := by
  cases hj : r.lookup x with
  | none => rfl
  | some j =>
      obtain ⟨s, hs⟩ := exists_symbol h hj
      rw [binding?_of_lookup hj hs] at hx
      cases hx

/-- A name stands for what it did, if it is bound to the same symbol. -/
theorem Means.kept (h : r.Sound fs done) (hx : Means arity vars x (r.binding? x))
    (hlookup : r'.lookup x = r.lookup x)
    (hsymbols : ∀ (k : Nat) (s : Symbol), r.symbols[k]? = some s →
      ∃ s' : Symbol, r'.symbols[k]? = some s' ∧ Round.SymbolKept s s') :
    Means arity vars x (r'.binding? x) := by
  cases hj : r.lookup x with
  | none =>
      rw [Round.binding?, hj, Option.bind_none] at hx
      rw [Round.binding?, hlookup, hj, Option.bind_none]
      exact hx
  | some j =>
      obtain ⟨s, hs⟩ := exists_symbol h hj
      obtain ⟨s', hs', hkept⟩ := hsymbols j s hs
      rw [Round.binding?_of_lookup hj hs] at hx
      rw [Round.binding?_of_lookup (hlookup.trans hj) hs']
      cases hx with
      | value hdefinition hvars => exact .value (hkept.definition.trans hdefinition) hvars
      | callable hdefinition hvars harity =>
          exact .callable (hkept.definition.trans hdefinition) hvars harity

theorem lookup_outside (r : Round) (x : String) : (outside r).lookup x = r.globals.lookup x := rfl

end

/-! ### States side by side -/

/-- **A state of a round and what is known of names there.** -/
structure Mirrors (c : Stage) (r : Round) (k : Known) : Prop where
  sound : r.Sound c.fs c.done
  names : ∀ x, IsSourceName x → Means c.arity k.vars x (r.binding? x)
  frame : r.frame.isSome = c.unit.isSome
  /-- What names stand for outside of the function. -/
  outer : ∀ globals, c.unit = some globals → ∀ x, IsSourceName x →
    Means c.arity globals x ((outside r).binding? x)
  queue : SameOrder c.seen (r.instances.pending.map baseName) (c.queue ++ k.calls)

namespace Mirrors

variable {c : Stage} {r r' : Round} {k k' : Known}

/-- A step that changes nothing of what names of the source stand for. -/
theorem keep (h : Mirrors c r k) (hgoes : r.Goes c.fs c.done r')
    (hframe : r'.frame = r.frame)
    (hglobals : ∀ x, IsSourceName x → r'.globals.lookup x = r.globals.lookup x)
    (hvars : k'.vars = k.vars)
    (hqueue : SameOrder c.seen (r'.instances.pending.map baseName) (c.queue ++ k'.calls)) :
    Mirrors c r' k' := by
  refine ⟨hgoes.sound, fun x hx => ?_, hframe ▸ h.frame, fun globals hunit x hx => ?_, hqueue⟩
  · have hlookup : r'.lookup x = r.lookup x := by
      rw [Round.lookup, Round.lookup, hframe, hglobals x hx]
    rw [hvars]
    exact (h.names x hx).kept h.sound hlookup hgoes.extend.symbols
  · exact (h.outer globals hunit x hx).kept (sound_outside h.sound) (hglobals x hx)
      hgoes.extend.symbols

/-- What is known does not depend on the order in which variables were made. -/
theorem congr {vars vars' calls : List String} (h : Mirrors c r ⟨vars, calls⟩)
    (hvars : ∀ x, x ∈ vars' ↔ x ∈ vars) : Mirrors c r ⟨vars', calls⟩ :=
  ⟨h.sound, fun x hx => (h.names x hx).congr (hvars x), h.frame, h.outer, h.queue⟩

end Mirrors

/-- An error is reported with its cause. -/
def Reports (e : CompileError) (cause : SemanticCause) : Prop := ∃ span, e = .semantic ⟨cause, span⟩

namespace Infer

variable {c : Stage} {r r' : Round} {k k' : Known}

/-- A step of inference performs some uses, and its values have the property `R`. -/
def Performs {α : Type} (c : Stage) (R : α → Prop) (x : Infer α) (us : List Use) : Prop :=
  Paired Reports (Mirrors c) (fun a _ => R a) x (check c.arity us)

/-! ### Names -/

theorem find?_eq (x : String) (r : Round) : find? x r = .ok (r.binding? x, r) := rfl

/-- **Reading a name.** -/
theorem valueOf_performs {m : Mark} {x : String} (hx : IsSourceName x) :
    Performs c (fun _ => True) (valueOf m x) [.read x] := by
  intro r k h
  have hmeans := h.names x hx
  rw [check_single, valueOf, bind_of_eq_ok (find?_eq x r)]
  generalize r.binding? x = e at hmeans ⊢
  cases hmeans with
  | nothing hvars harity =>
      simp only [Use.check, if_neg hvars, if_pos harity]
      exact .error ⟨m.span, rfl⟩
  | @value j s hs hvars =>
      have hfunction : s.isFunction = false := by rw [Symbol.isFunction, hs]; rfl
      simp only [Use.check, if_pos hvars, hfunction, Bool.false_eq_true, if_false]
      exact .ok ⟨trivial, h⟩
  | @callable j s f hs hvars harity =>
      have hfunction : s.isFunction = true := by rw [Symbol.isFunction, hs]; rfl
      have hsome : ¬ c.arity x = none := by rw [harity]; exact Option.some_ne_none _
      simp only [Use.check, if_neg hvars, if_neg hsome, hfunction, if_true]
      exact .error ⟨m.span, rfl⟩

theorem lookup_declared {x : String} (hnew : r.lookup x = none) (type : Scalar) (y : String) :
    (declared x type r).lookup y = if y = x then some r.symbols.size else r.lookup y := by
  obtain ⟨hscope, hglobals⟩ := Option.or_eq_none_iff.1 hnew
  unfold declared
  cases hframe : r.frame with
  | none =>
      simp only [declaredGlobal, Round.lookup, hframe, Option.bind_none, Option.none_or]
      split
      · rename_i heq
        rw [heq, Scope.lookup_bind_self]
      · rename_i hne
        rw [Scope.lookup_bind_of_ne hne]
  | some scope =>
      simp only [declaredLocal, Round.lookup, hframe, Option.bind_some]
      split
      · rename_i heq
        rw [heq, Scope.lookup_bind_self, Option.some_or]
      · rename_i hne
        rw [Scope.lookup_bind_of_ne hne]
        rfl

/-- The symbol of a new variable. -/
theorem symbols_declared (x : String) (type : Scalar) (r : Round) :
    ∃ s : Symbol, s.definition = none ∧ (declared x type r).symbols = r.symbols.push s := by
  unfold declared
  split
  · exact ⟨_, rfl, rfl⟩
  · exact ⟨_, rfl, rfl⟩

/-- **A new variable is known as one.** -/
theorem mirrors_declared (h : Mirrors c r k) {x : String} (hx : IsSourceName x)
    (hnew : r.lookup x = none) {type : Scalar}
    (hsound : (declared x type r).Sound c.fs c.done) :
    Mirrors c (declared x type r) { k with vars := x :: k.vars } := by
  obtain ⟨s, hs, hpush⟩ := symbols_declared x type r
  have hsymbols : ∀ (j : Nat) (t : Symbol), r.symbols[j]? = some t →
      ∃ t' : Symbol, (declared x type r).symbols[j]? = some t' ∧ Round.SymbolKept t t' := by
    rw [hpush]
    exact fun j t ht => kept_push j t ht
  refine ⟨hsound, fun y hy => ?_, ?_, fun globals hunit y hy => ?_, ?_⟩
  · have hlookup := lookup_declared hnew type y
    by_cases heq : y = x
    · subst heq
      rw [if_pos rfl] at hlookup
      rw [Round.binding?_of_lookup (s := s) hlookup (by rw [hpush]; exact getElem?_push_self)]
      exact .value hs List.mem_cons_self
    · rw [if_neg heq] at hlookup
      exact ((h.names y hy).kept h.sound hlookup hsymbols).congr (by simp [heq])
  · rw [← h.frame]
    unfold declared
    cases hframe : r.frame with
    | none => exact congrArg Option.isSome hframe
    | some scope => rfl
  · -- inside of a function nothing is bound in the scope of the unit
    have hinside : r.frame.isSome = true := by rw [h.frame, hunit]; rfl
    obtain ⟨scope, hscope⟩ := Option.isSome_iff_exists.1 hinside
    refine (h.outer globals hunit y hy).kept (sound_outside h.sound) ?_ hsymbols
    rw [lookup_outside, lookup_outside, declared, hscope]
    rfl
  · have hqueue := h.queue
    unfold declared
    split
    · exact hqueue
    · exact hqueue

/-- **Assigning to a name.** -/
theorem assigned_performs {m : Mark} {x : String} (hx : IsSourceName x) (value : Scalar) :
    Performs c (fun _ => True) (assigned m x value) [.write x] := by
  intro r k h
  have hmeans := h.names x hx
  rw [check_single]
  cases hbinding : r.binding? x with
  | none =>
      rw [hbinding] at hmeans
      have hnew := Round.lookup_of_binding? h.sound hbinding
      have hassigned : assigned m x value r
          = .ok ((r.symbols.size, value), declared x value r) := by
        rw [assigned, bind_of_eq_ok (find?_eq x r), hbinding]
        exact bind_of_eq_ok (declare_eq_ok.2 ⟨rfl, rfl⟩)
      rw [hassigned]
      cases hmeans with
      | nothing hvars harity =>
          simp only [Use.check, if_neg hvars, if_pos harity]
          exact .ok ⟨trivial,
            mirrors_declared h hx hnew (assigned_resolved h.sound hx hassigned).1.sound⟩
  | some p =>
      obtain ⟨j, s⟩ := p
      rw [hbinding] at hmeans
      rw [assigned, bind_of_eq_ok (find?_eq x r), hbinding]
      cases hmeans with
      | value hs hvars =>
          have hfunction : s.isFunction = false := by rw [Symbol.isFunction, hs]; rfl
          simp only [Use.check, if_pos hvars, hfunction, Bool.false_eq_true, if_false]
          exact .ok ⟨trivial, h⟩
      | callable hs hvars harity =>
          have hfunction : s.isFunction = true := by rw [Symbol.isFunction, hs]; rfl
          have hsome : ¬ c.arity x = none := by rw [harity]; exact Option.some_ne_none _
          simp only [Use.check, if_neg hvars, if_neg hsome, hfunction, if_true]
          exact .error ⟨m.span, rfl⟩

/-! ### Calls -/

/-- An instance in the queue is one of a function that is done or waits. -/
theorem mem_of_queued (h : Mirrors c r k) {n : String} (hn : n ∈ r.instances.queued) :
    baseName n ∈ c.seen ∨ baseName n ∈ c.queue ++ k.calls := by
  rcases h.sound.queue n hn with hdone | hwaits
  · exact .inl (c.served n hdone)
  · exact h.queue.mem (List.mem_map_of_mem hwaits)

/-- An instance that is put into the queue stands there for its function. -/
theorem sameOrder_enqueue (h : Mirrors c r k) (n : String) :
    SameOrder c.seen ((r.instances.enqueue n).2.pending.map baseName)
      (c.queue ++ (k.calls ++ [baseName n])) := by
  rw [← List.append_assoc]
  by_cases hn : n ∈ r.instances.queued
  · rw [Instances.enqueue, if_pos hn]
    refine h.queue.trans (SameOrder.absorb ?_).symm
    rw [List.forall_mem_singleton]
    exact mem_of_queued h hn
  · rw [Instances.enqueue, if_neg hn, List.map_append]
    exact h.queue.append _

/-- **An instance that is bound is a call of its function.** -/
theorem mirrors_bound (h : Mirrors c r k) {i : Instance} (hi : i ∈ r.instances.made)
    (hnew : r.globals.lookup i.name = none) (hname : ¬ IsSourceName i.name) :
    Mirrors c (bound i.name i.function r) { k with calls := k.calls ++ [baseName i.name] } := by
  refine h.keep (goes_bound h.sound hi hnew _) rfl (fun x hx => ?_) rfl
    (sameOrder_enqueue h i.name)
  have hne : x ≠ i.name := by
    rintro rfl
    exact hname hx
  exact Scope.lookup_bind_of_ne hne _ _

/-- **An instance that is provided is a call of its function.** -/
theorem mirrors_provides (h : Mirrors c r k) {f : Function} {args : List Scalar} (hf : f ∈ c.fs)
    (hargs : args.length = f.params.length) {j : Nat} (hp : r.Provides f args j r') :
    Mirrors c r' { k with calls := k.calls ++ [f.name] } := by
  have hbase := baseName_decorate (c.source f hf).1 args
  have hdecorated := not_isSourceName_decorate f.name args
  cases hp with
  | known hk =>
      refine h.keep (goes_refl h.sound) rfl (fun _ _ => rfl) rfl ?_
      obtain ⟨s, -, hbound⟩ := h.sound.globals _ _ (Scope.lookup_mem hk)
      rw [← List.append_assoc]
      refine h.queue.trans (SameOrder.absorb ?_).symm
      rw [List.forall_mem_singleton]
      cases hbound with
      | defined hsource => exact absurd hsource hdecorated
      | cell hsource => exact absurd hsource hdecorated
      | made _ _ _ _ hqueued =>
          have hmem := mem_of_queued h hqueued
          rwa [hbase] at hmem
  | @again i hnew hi =>
      obtain ⟨hmem, hname⟩ := Instances.mem_of_get? hi
      have hcall := mirrors_bound h hmem
        (hname ▸ (Option.or_eq_none_iff.1 hnew).2) (hname ▸ hdecorated)
      rwa [hname, hbase, ← hname] at hcall
  | fresh hnew hi =>
      have hgoes := goes_withInstance h.sound hf hargs hi
      have hmem := newInstance_mem hi
      have hpending : (r.withInstance f args).instances.pending = r.instances.pending := by
        rw [made_withInstance hi]
      have hmade : Mirrors c (r.withInstance f args) k :=
        h.keep hgoes rfl (fun _ _ => rfl) rfl (hpending ▸ h.queue)
      have hcall := mirrors_bound hmade hmem (Option.or_eq_none_iff.1 hnew).2 hdecorated
      rwa [show baseName (r.newInstance f args).name = f.name from hbase] at hcall

theorem mirrors_marked (h : Mirrors c r k) (j : Nat) : Mirrors c (marked j r) k :=
  h.keep (goes_modify (f := fun s => { s with used := true }) h.sound
    (fun _ => ⟨rfl, rfl, rfl, fun _ => rfl⟩) j) rfl (fun _ _ => rfl) rfl h.queue

theorem read_eq {α : Type} (f : Round → Infer α) (r : Round) : (get >>= f) r = f r r := rfl

theorem write_eq {α : Type} (s : Round) (f : PUnit → Infer α) (r : Round) :
    ((set s : Infer PUnit) >>= f) r = f ⟨⟩ s := rfl

/-- Making an instance never fails. -/
theorem exists_instantiate (f : Function) (base name : String) (args : List Scalar) (r : Round) :
    ∃ p, instantiate f base name args r = .ok p := by
  simp only [instantiate, instanceOf, bind_assoc]
  rw [read_eq]
  cases r.instances.get? name with
  | some i => exact ⟨_, rfl⟩
  | none => exact ⟨_, rfl⟩

/-- A call of a function with as many arguments as it takes succeeds. -/
theorem exists_called {m n : Mark} {base : String} {args : List Scalar} {j : Nat} {s : Symbol}
    {f : Function} (hbinding : r.binding? base = some (j, s)) (hs : s.definition = some f)
    (hlength : f.params.length = args.length) :
    ∃ p, called m n base args r = .ok p := by
  rw [called, bind_of_eq_ok (find?_eq base r), hbinding]
  simp only [hs]
  rw [if_neg (not_not.2 hlength), read_eq]
  cases r.lookup (decorate base args) with
  | some i => exact ⟨_, rfl⟩
  | none =>
      obtain ⟨⟨i, r₁⟩, hi⟩ := exists_instantiate f base (decorate base args) args r
      simp only
      rw [bind_of_eq_ok hi]
      exact ⟨_, rfl⟩

/-- **Calling a name.** -/
theorem called_performs {m n : Mark} {base : String} (hbase : IsSourceName base)
    (args : List Scalar) :
    Performs c (fun _ => True) (called m n base args) [.call base args.length] := by
  intro r k h
  have hmeans := h.names base hbase
  rw [check_single]
  cases hbinding : r.binding? base with
  | none =>
      rw [hbinding] at hmeans
      rw [called, bind_of_eq_ok (find?_eq base r), hbinding]
      cases hmeans with
      | nothing hvars harity =>
          simp only [Use.check, if_neg hvars, harity]
          exact .error ⟨n.span, rfl⟩
  | some p =>
      obtain ⟨j, s⟩ := p
      rw [hbinding] at hmeans
      cases hmeans with
      | value hs hvars =>
          rw [called, bind_of_eq_ok (find?_eq base r), hbinding]
          simp only [Use.check, if_pos hvars, hs]
          exact .error ⟨n.span, rfl⟩
      | @callable _ _ f hs hvars harity =>
          by_cases hlength : f.params.length = args.length
          · obtain ⟨⟨⟨t, i, type⟩, r'⟩, hcalled⟩ :=
              @exists_called r m n _ _ _ _ _ hbinding hs hlength
            obtain ⟨g, hg, rfl, -, -, hparams, -, r₁, hp, rfl⟩ := called_spec h.sound hbase hcalled
            rw [hcalled]
            simp only [Use.check, if_neg hvars, harity, if_pos hlength]
            exact .ok ⟨trivial, mirrors_marked (mirrors_provides h hg hparams.symm hp) i⟩
          · rw [called, bind_of_eq_ok (find?_eq base r), hbinding]
            simp only [Use.check, if_neg hvars, harity, if_neg hlength, hs]
            rw [if_pos hlength]
            exact .error ⟨m.span, rfl⟩

/-! ### Visits -/

section Combinators

variable {α β : Type} {R : α → Prop} {Q : β → Prop} {us vs : List Use}

/-- A step that uses no names. -/
theorem Performs.pure {a : α} (h : R a) : Performs c R (pure a) [] := Paired.pure h

/-- One step after another. -/
theorem Performs.bind {x : Infer α} {f : α → Infer β} (hx : Performs c R x us)
    (hf : ∀ a, R a → Performs c Q (f a) vs) : Performs c Q (x >>= f) (us ++ vs) := by
  unfold Performs
  rw [check_append]
  exact Paired.bind hx fun a _ ha => hf a ha

/-- A step behind which no names are used. -/
theorem Performs.last {x : Infer α} {f : α → Infer β} (hx : Performs c R x us)
    (hf : ∀ a, R a → Performs c Q (f a) []) : Performs c Q (x >>= f) us := by
  have hboth := hx.bind hf
  rwa [List.append_nil] at hboth

end Combinators

mutual

/-- **A visit performs the uses of the tree.** -/
theorem visit_performs (x : Node Mark) (hx : x.IsPlain) :
    Performs c (fun _ => True) (visit x) x.uses := by
  cases x with
  | identifier m x =>
      rw [visit]
      refine (valueOf_performs hx.self).last ?_
      rintro ⟨k, type⟩ -
      exact .pure trivial
  | binary m op a b =>
      obtain ⟨ha, hb⟩ := isPlain_binary.1 hx
      by_cases hop : op = .assign
      · subst hop
        cases a with
        | identifier n x =>
            rw [visit, if_pos rfl]
            refine (visit_performs b hb).bind ?_
            rintro ⟨b', value⟩ -
            refine (assigned_performs ha.self value).last ?_
            rintro ⟨k, type⟩ -
            exact .pure trivial
        | _ => exact fun r k h => .error ⟨_, rfl⟩
      · rw [Node.uses_binary hop]
        simp only [visit, if_neg hop]
        refine (visit_performs a ha).bind ?_
        rintro ⟨a', s⟩ -
        refine (visit_performs b hb).last ?_
        rintro ⟨b', t⟩ -
        exact .pure trivial
  | unary m op x =>
      rw [visit]
      refine (visit_performs x (Node.every_unary.1 hx).2).last ?_
      rintro ⟨x', s⟩ -
      exact .pure trivial
  | call m f as =>
      obtain ⟨-, hf, has⟩ := Node.every_call.1 hx
      cases f with
      | identifier n base =>
          rw [visit, Node.uses]
          refine (visitArgs_performs as has).bind ?_
          rintro ⟨as', types⟩ hlength
          rw [← hlength]
          refine (called_performs hf.self types).last ?_
          rintro ⟨t, k, type⟩ -
          exact .pure trivial
      | _ => exact fun r k h => .error ⟨_, rfl⟩
  | cond m a t e =>
      obtain ⟨-, ha, ht, he⟩ := Node.every_cond.1 hx
      cases e with
      | none =>
          rw [visit, Node.uses, Node.usesOption, List.append_nil]
          refine (visit_performs a ha).bind ?_
          rintro ⟨a', _⟩ -
          refine (visit_performs t ht).last ?_
          rintro ⟨t', s⟩ -
          exact .pure trivial
      | some e =>
          rw [visit, Node.uses, Node.usesOption]
          refine (visit_performs a ha).bind ?_
          rintro ⟨a', _⟩ -
          refine (visit_performs t ht).bind ?_
          rintro ⟨t', s⟩ -
          refine (visit_performs e (he e rfl)).last ?_
          rintro ⟨e', s'⟩ -
          exact .pure trivial
  | loop m a b =>
      obtain ⟨-, ha, hb⟩ := Node.every_loop.1 hx
      rw [visit]
      refine (visit_performs a ha).bind ?_
      rintro ⟨a', _⟩ -
      refine (visit_performs b hb).last ?_
      rintro ⟨b', _⟩ -
      exact .pure trivial
  | returnValue m v =>
      rw [visit]
      refine (visit_performs v (Node.every_returnValue.1 hx).2).last ?_
      rintro ⟨v', s⟩ -
      exact .pure trivial
  | block m is =>
      rw [visit]
      refine (visitList_performs .int is (Node.every_block.1 hx).2).last ?_
      rintro ⟨is', s⟩ -
      exact .pure trivial
  | define m p b => exact absurd hx.self id
  | prototype m f ps => exact absurd hx.self id
  | unit m is => exact absurd hx.self id
  | _ => exact .pure trivial

theorem visitArgs_performs (xs : List (Node Mark)) (hxs : ∀ x ∈ xs, x.IsPlain) :
    Performs c (fun p => p.2.length = xs.length) (visitArgs xs) (Node.usesList xs) := by
  cases xs with
  | nil => exact .pure rfl
  | cons x xs =>
      rw [List.forall_mem_cons] at hxs
      rw [visitArgs]
      refine (visit_performs x hxs.1).bind ?_
      rintro ⟨y, s⟩ -
      refine (visitArgs_performs xs hxs.2).last ?_
      rintro ⟨ys, ss⟩ hlength
      exact .pure (congrArg (· + 1) hlength)

theorem visitList_performs (type : Scalar) (xs : List (Node Mark)) (hxs : ∀ x ∈ xs, x.IsPlain) :
    Performs c (fun _ => True) (visitList type xs) (Node.usesList xs) := by
  cases xs with
  | nil => exact .pure trivial
  | cons x xs =>
      rw [List.forall_mem_cons] at hxs
      rw [visitList]
      refine (visit_performs x hxs.1).bind ?_
      rintro ⟨y, s⟩ -
      refine (visitList_performs _ xs hxs.2).last ?_
      rintro ⟨ys, t⟩ -
      exact .pure trivial

end

/-- **The items of a unit perform their uses**, definitions none. -/
theorem visitItems_performs (xs : List (Node Mark)) (hxs : ∀ x ∈ xs, x.IsItem) :
    Performs c (fun _ => True) (visitItems xs) (Node.usesList xs) := by
  induction xs with
  | nil => exact .pure trivial
  | cons x xs ih =>
      rw [List.forall_mem_cons] at hxs
      have hrest : ∀ y : Node Note, Performs c (fun _ => True)
          (do pure (y :: (← visitItems xs))) (Node.usesList xs) := by
        intro y
        exact (ih hxs.2).last fun ys _ => .pure trivial
      cases hdefinition : x.isDefinition with
      | true =>
          have hnone : x.uses = [] := by
            cases x with
            | define m p b => rfl
            | _ => cases hdefinition
          rw [Node.usesList, hnone, List.nil_append]
          simp only [visitItems, hdefinition, if_true, pure_bind]
          exact hrest _
      | false =>
          have hplain := (Node.isItem_of_not_isDefinition hdefinition).1 hxs.1
          rw [Node.usesList]
          simp only [visitItems, hdefinition, Bool.false_eq_true, if_false, pure_bind]
          exact (visit_performs x hplain).bind fun p _ => hrest p.1

/-! ### Parameters -/

/-- A parameter is known as a variable. -/
theorem mirrors_declaredParam {globals vars : List String} (hunit : c.unit = some globals)
    (h : Mirrors c r ⟨vars, []⟩) {scope : Scope} (hframe : r.frame = some scope) {x : String}
    (hx : IsSourceName x) (type : Scalar) :
    Mirrors c (declaredParam scope x type r) ⟨x :: vars, []⟩ := by
  obtain ⟨hsound, hextend⟩ := sound_declaredParam h.sound hframe hx type
  refine ⟨hsound, fun y hy => ?_, by rw [hunit]; rfl, fun g hg y hy => ?_, h.queue⟩
  · by_cases heq : y = x
    · subst heq
      have hlookup : (declaredParam scope y type r).lookup y = some r.symbols.size := by
        simp only [declaredParam, Round.lookup, Option.bind_some, Scope.lookup_bind_self,
          Option.some_or]
      rw [Round.binding?_of_lookup hlookup getElem?_push_self]
      exact .value rfl List.mem_cons_self
    · have hlookup : (declaredParam scope x type r).lookup y = r.lookup y := by
        simp only [declaredParam, Round.lookup, hframe, Option.bind_some,
          Scope.lookup_bind_of_ne heq]
        rfl
      exact ((h.names y hy).kept h.sound hlookup hextend.symbols).congr (by simp [heq])
  · exact (h.outer g hg y hy).kept (sound_outside h.sound) rfl hextend.symbols

/-- **The parameters of a function must differ.** -/
theorem declareParams_agree {globals vars : List String} (span : Span)
    (hunit : c.unit = some globals) {ps : List (String × Scalar)} (hps : ∀ p ∈ ps, IsSourceName p.1)
    {seen : List String} (h : Mirrors c r ⟨vars, []⟩) {scope : Scope}
    (hframe : r.frame = some scope) (hseen : ∀ x, scope.lookup x = none ↔ x ∉ seen) :
    Agree Reports (fun p _ => Mirrors c p.2 ⟨(ps.map Prod.fst).reverse ++ vars, []⟩)
      (declareParams span ps r) (distinct seen (ps.map Prod.fst)) := by
  induction ps generalizing r scope seen vars with
  | nil => exact .ok h
  | cons p ps ih =>
      obtain ⟨x, type⟩ := p
      rw [List.forall_mem_cons] at hps
      rw [declareParams, read_eq, List.map_cons, distinct]
      simp only [hframe, Option.getD_some]
      by_cases hx : x ∈ seen
      · have hcontains : scope.contains x = true := by
          have hsome := mt (hseen x).1 (not_not.2 hx)
          rwa [Scope.contains, Option.isSome_iff_ne_none]
        rw [if_pos hcontains, if_pos hx]
        exact .error ⟨span, rfl⟩
      · have hcontains : ¬ scope.contains x = true := by
          rw [Scope.contains, (hseen x).2 hx]
          exact Bool.false_ne_true
        rw [if_neg hcontains, if_neg hx, List.reverse_cons, List.append_assoc]
        refine ih hps.2 (mirrors_declaredParam hunit h hframe hps.1 type) rfl fun y => ?_
        by_cases heq : y = x
        · subst heq
          simp [Scope.lookup_bind_self]
        · rw [Scope.lookup_bind_of_ne heq]
          exact (hseen y).trans (by simp [heq])

/-! ### Instances -/

/-- **The state between two instances**, where the variables of the unit are `globals`. -/
structure Waits (fs : List Function) (globals : List String) (done : List String) (r : Round) :
    Prop where
  sound : r.Sound fs done
  frame : r.frame = none
  names : ∀ x, IsSourceName x →
    Means (Outline.arity (fs.map Function.outline)) globals x (r.binding? x)

/-- A definition is found by its name. -/
theorem find?_outline {fs : List Function} (hnames : (fs.map Function.name).Nodup)
    {f : Function} (hf : f ∈ fs) :
    ((fs.map Function.outline).find? fun o => o.name = f.name) = some f.outline := by
  cases hfind : (fs.map Function.outline).find? fun o => o.name = f.name with
  | none =>
      have hno := List.find?_eq_none.1 hfind f.outline (List.mem_map_of_mem hf)
      exact absurd (decide_eq_true (rfl : f.outline.name = f.name)) hno
  | some o =>
      obtain ⟨g, hg, rfl⟩ := List.mem_map.1 (List.mem_of_find?_eq_some hfind)
      have hname : g.outline.name = f.name := by simpa using List.find?_some hfind
      rw [List.inj_on_of_nodup_map hnames hg hf hname]

/-- Behind an instance names stand for what they stood for outside of it. -/
theorem binding?_finished {arity : String → Option Nat} {globals : List String} {x : String}
    (h : r.Sound c.fs c.done) (hx : Means arity globals x ((outside r).binding? x)) (i : Instance)
    (type : Scalar) (found : Inferred) :
    Means arity globals x ((finished i type found r).binding? x) :=
  hx.kept (r := outside r) (sound_outside h) rfl
    (goes_typed h i type).extend.symbols

/-- **An instance fares as the body of its function.** -/
theorem visitInstance_agree {globals : List String} (hunit : c.unit = some globals)
    (h : Waits c.fs globals c.done r)
    (hqueue : SameOrder c.seen (r.instances.pending.map baseName) c.queue) {i : Instance}
    (hi : i ∈ r.instances.made) {f : Function} (hf : f ∈ c.fs) (hcopy : i.IsCopy f) :
    Agree Reports
      (fun p calls => Waits c.fs globals c.done p.2 ∧
        SameOrder c.seen (p.2.instances.pending.map baseName) (c.queue ++ calls))
      (visitInstance i r) (Outline.body (c.fs.map Function.outline) globals f.name) := by
  obtain ⟨-, hpnames, hplain⟩ := c.source f hf
  have hparams : (i.function.params.zip i.args).map Prod.fst = f.params := by
    rw [List.map_fst_zip (by rw [hcopy.params, hcopy.args]), hcopy.params]
  have hstart : Mirrors c { r with frame := some .function } ⟨globals, []⟩ := by
    refine ⟨sound_inside h.sound (sound_function _), fun x hx => ?_, by rw [hunit]; rfl,
      fun g hg x hx => ?_, by rw [List.append_nil]; exact hqueue⟩
    · refine (h.names x hx).kept h.sound ?_ fun k s hs => ⟨s, hs, .refl s⟩
      simp only [Round.lookup, h.frame, Option.bind_none, Option.bind_some]
      rfl
    · cases hunit.symm.trans hg
      refine (h.names x hx).kept h.sound ?_ fun k s hs => ⟨s, hs, .refl s⟩
      simp only [Round.lookup, outside, h.frame]
  have hempty : ∀ x, Scope.lookup x .function = none ↔ x ∉ [] := fun x => by
    simp [Scope.lookup, Scope.function]
  have hdeclare := declareParams_agree i.function.heading.span hunit
    (fun p hp => hpnames _ (hparams ▸ List.mem_map_of_mem hp)) hstart rfl hempty
  rw [hparams] at hdeclare
  have hvisit := @visit_performs c i.function.body (hplain.of_shape hcopy.shape)
  rw [Node.uses_of_shape hcopy.shape] at hvisit
  have hbody : Agree Reports
      (fun p calls => (∀ x, IsSourceName x → Means c.arity globals x (p.2.binding? x)) ∧
        SameOrder c.seen (p.2.instances.pending.map baseName) (c.queue ++ calls))
      (visitInstance i r) (Outline.body (c.fs.map Function.outline) globals f.name) := by
    rw [visitInstance_eq, Outline.body, find?_outline c.nodup hf]
    refine hdeclare.bind fun p _ hp => ?_
    have hknown : Mirrors c p.2 ⟨f.params ++ globals, []⟩ := hp.congr (by simp)
    refine (hvisit p.2 _ hknown).bind fun q k hq => .ok ⟨fun x hx => ?_, hq.2.queue⟩
    exact binding?_finished hq.2.sound (hq.2.outer globals hunit x hx) _ _ _
  refine (hbody.and_ok (Q := fun p => p.2.Sound c.fs c.done ∧ p.2.frame = none) ?_).mono
    (fun _ _ he => he) fun p calls hp => ⟨⟨hp.2.1, hp.2.2, hp.1.1⟩, hp.1.2⟩
  rintro ⟨_, r'⟩ hv
  obtain ⟨hsound, -, hframe, -⟩ := visitInstance_sound c.source h.sound hi h.frame hv
  exact ⟨hsound, hframe⟩

/-! ### The queue -/

/-- The next instance of the queue is one of a function of the unit. -/
theorem exists_next {fs : List Function} {done : List String} (hfs : AreSource fs)
    (h : r.Sound fs done) {name : String} (hn : name ∈ r.instances.pending) :
    ∃ i ∈ r.instances.made, r.instances.get? name = some i ∧
      ∃ f ∈ fs, i.IsCopy f ∧ baseName name = f.name := by
  obtain ⟨j, hj, hname⟩ := h.instances.queued name (h.pending name hn)
  obtain ⟨i, hget⟩ := Option.isSome_iff_exists.1
    (List.find?_isSome (p := fun i : Instance => decide (i.name = name)).2
      ⟨j, hj, decide_eq_true hname⟩)
  obtain ⟨hi, hiname⟩ := Instances.mem_of_get? hget
  obtain ⟨f, hf, hcopy⟩ := h.instances.made i hi
  refine ⟨i, hi, hget, f, hf, hcopy, ?_⟩
  rw [← hiname, hcopy.name, baseName_decorate (hfs f hf).1]

/-- Taking the first instance out of the queue. -/
theorem drain_succ {fuel : Nat} {name : String} {rest : List String} {i : Instance}
    (hpending : r.instances.pending = name :: rest) (hget : r.instances.get? name = some i) :
    drain (fuel + 1) r = (do visitInstance i; drain fuel)
      { r with instances := { r.instances with pending := rest } } := by
  have hget' : Instances.get? name
      ⟨r.instances.made, r.instances.results, rest, r.instances.queued⟩ = some i := hget
  rw [drain, read_eq, Instances.next, hpending]
  simp only
  rw [write_eq, hget']

/-- The stage of the next instance of the queue, one of the function `f`. -/
def next {fs : List Function} (hfs : AreSource fs) (hnodup : (fs.map Function.name).Nodup)
    (globals : List String) {done seen : List String} (hserved : ∀ n ∈ done, baseName n ∈ seen)
    (name : String) (queue : List String) : Stage where
  fs
  done := done ++ [name]
  seen := seen.insert (baseName name)
  queue
  unit := some globals
  source := hfs
  nodup := hnodup
  served n hn := by
    rw [List.mem_insert_iff]
    rcases List.mem_append.1 hn with hn | hn
    · exact .inr (hserved n hn)
    · exact .inl (congrArg baseName (List.mem_singleton.1 hn))

/-- **The work on the queue fares as its functions do.** -/
theorem drain_resolves {fs : List Function} (hfs : AreSource fs)
    (hnodup : (fs.map Function.name).Nodup) {globals : List String} {fuel : Nat}
    {done seen : List String} (h : Waits fs globals done r)
    (hserved : ∀ n ∈ done, baseName n ∈ seen) (hfuel : signatures fs ≤ fuel + done.length)
    (hseen : Settled (Outline.body (fs.map Function.outline) globals) seen
      (r.instances.pending.map baseName)) :
    ∃ o, Agree Reports (fun _ _ => True) (drain fuel r) o ∧
      Drains (Outline.body (fs.map Function.outline) globals) seen
        (r.instances.pending.map baseName) o := by
  induction fuel generalizing r done seen with
  | zero =>
      have hempty : r.instances.pending = [] := by
        have hqueued := length_queued_le h.sound.instances
        have hcount := h.sound.count
        exact List.eq_nil_of_length_eq_zero (by omega)
      rw [hempty]
      exact ⟨.ok (), .ok trivial, .done rfl⟩
  | succ fuel ih =>
      cases hpending : r.instances.pending with
      | nil =>
          refine ⟨.ok (), ?_, .done rfl⟩
          rw [drain, read_eq, Instances.next, hpending]
          exact .ok trivial
      | cons name rest =>
          obtain ⟨i, hi, hget, f, hf, hcopy, hbase⟩ :=
            exists_next hfs h.sound (hpending ▸ List.mem_cons_self)
          rw [hpending, List.map_cons] at hseen
          rw [drain_succ hpending hget, List.map_cons]
          let c := next hfs hnodup globals hserved name (rest.map baseName)
          have hwaits : Waits fs globals (done ++ [name])
              { r with instances := { r.instances with pending := rest } } :=
            ⟨sound_next h.sound hpending, h.frame, h.names⟩
          have hvisit := visitInstance_agree (c := c) rfl hwaits (.refl _ _) hi hf hcopy
          rw [← hbase] at hvisit
          change ∃ o, Agree Reports _ (visitInstance i
            { r with instances := { r.instances with pending := rest } } >>=
              fun p => drain fuel p.2) o ∧ _
          generalize visitInstance i { r with instances := { r.instances with pending := rest } }
            = x at hvisit ⊢
          generalize hbody : Outline.body (c.fs.map Function.outline) globals (baseName name) = y
            at hvisit
          cases hvisit with
          | @error e cause hcause => exact ⟨.error cause, .error hcause, .stop hseen hbody⟩
          | @ok p calls hp =>
              obtain ⟨hwaits', hqueue⟩ := hp
              have hmore : signatures fs ≤ fuel + (done ++ [name]).length := by
                rw [List.length_append, List.length_singleton]
                omega
              obtain ⟨o, hdrain, hrest⟩ := ih hwaits' c.served hmore (hseen.next hbody hqueue)
              exact ⟨o, hdrain, hrest.next hseen hbody hqueue⟩

/-! ### Rounds -/

/-- The stage of the statements of a unit. -/
def outermost {fs : List Function} (hfs : AreSource fs) (hnodup : (fs.map Function.name).Nodup) :
    Stage :=
  ⟨fs, [], [], [], none, hfs, hnodup, fun _ hn => absurd hn List.not_mem_nil⟩

/-- The definitions of a unit must differ in their names. -/
theorem declareFunctions_agree (gs : List Function) {seen : List String}
    (hseen : ∀ x, r.globals.lookup x = none ↔ x ∉ seen) :
    Agree Reports (fun p _ => p.2 = bindAll gs r) (declareFunctions gs r)
      (distinct seen (gs.map Function.name)) := by
  induction gs generalizing r seen with
  | nil => exact .ok rfl
  | cons f gs ih =>
      rw [declareFunctions, read_eq, List.map_cons, distinct]
      by_cases hf : f.name ∈ seen
      · have hcontains : r.globals.contains f.name = true := by
          have hsome := mt (hseen f.name).1 (not_not.2 hf)
          rwa [Scope.contains, Option.isSome_iff_ne_none]
        rw [if_pos hcontains, if_pos hf]
        exact .error ⟨f.heading.span, rfl⟩
      · have hcontains : ¬ r.globals.contains f.name = true := by
          rw [Scope.contains, (hseen f.name).2 hf]
          exact Bool.false_ne_true
        rw [if_neg hcontains, if_neg hf]
        refine ih (r := { r with
          symbols := r.symbols.push (.ofFunction f.name f)
          globals := r.globals.bind f.name r.symbols.size }) fun y => ?_
        by_cases heq : y = f.name
        · subst heq
          simp [Scope.lookup_bind_self]
        · rw [Scope.lookup_bind_of_ne heq]
          exact (hseen y).trans (by simp [heq])

theorem nodup_of_distinct {seen xs : List String} {u : Unit} (h : distinct seen xs = .ok u) :
    xs.Nodup ∧ ∀ x ∈ xs, x ∉ seen := by
  induction xs generalizing seen with
  | nil => exact ⟨List.nodup_nil, fun x hx => absurd hx List.not_mem_nil⟩
  | cons x xs ih =>
      rw [distinct] at h
      split at h
      · cases h
      · rename_i hx
        obtain ⟨hnodup, hnew⟩ := ih h
        refine ⟨List.nodup_cons.2 ⟨fun hmem => hnew x hmem List.mem_cons_self, hnodup⟩, ?_⟩
        rw [List.forall_mem_cons]
        exact ⟨hx, fun y hy hmem => hnew y hy (List.mem_cons_of_mem _ hmem)⟩

/-- **Behind the definitions nothing but functions is known.** -/
theorem mirrors_bindAll {fs : List Function} (hfs : AreSource fs)
    (hnodup : (fs.map Function.name).Nodup) {is : Instances} (his : is.newRound.Sound fs)
    (fresh : Nat) : Mirrors (outermost hfs hnodup) (bindAll fs (.start fresh is)) ⟨[], []⟩ := by
  have hdeclare := declareFunctions_eq (r := Round.start fresh is) hnodup fun _ _ => rfl
  obtain ⟨hsound, hframe, -⟩ := declareFunctions_sound hfs (List.Subset.refl _)
    (sound_start his fresh) rfl rfl hdeclare
  refine ⟨hsound, fun x hx => ?_, by rw [hframe]; rfl, fun g hg => (nomatch hg), ?_⟩
  · by_cases hmem : x ∈ fs.map Function.name
    · obtain ⟨f, hf, rfl⟩ := List.mem_map.1 hmem
      obtain ⟨j, hj⟩ := List.mem_iff_getElem?.1 hf
      have hlookup : (bindAll fs (.start fresh is)).lookup f.name = some j := by
        rw [Round.lookup, hframe, Option.bind_none, Option.none_or,
          lookup_bindAll hnodup (k := j) (by rw [List.getElem?_map, hj]; rfl)]
        exact congrArg some (Nat.zero_add j)
      have hsymbol : (bindAll fs (.start fresh is)).symbols[j]? = some (.ofFunction f.name f) := by
        rw [symbols_bindAll]
        simp [Round.start, hj]
      rw [Round.binding?_of_lookup hlookup hsymbol]
      refine .callable (f := f) rfl List.not_mem_nil ?_
      rw [Stage.arity, Outline.arity]
      exact congrArg (Option.map _) (find?_outline hnodup hf)
    · have hlookup : (bindAll fs (.start fresh is)).lookup x = none := by
        rw [Round.lookup, hframe, Option.bind_none, Option.none_or, lookup_bindAll_of_notMem hmem]
        rfl
      rw [Round.binding?, hlookup, Option.bind_none]
      refine .nothing List.not_mem_nil ?_
      rw [Stage.arity, Outline.arity, Option.map_eq_none_iff, List.find?_eq_none]
      intro o ho hname
      obtain ⟨f, hf, rfl⟩ := List.mem_map.1 ho
      exact hmem ((of_decide_eq_true hname) ▸ List.mem_map_of_mem hf)
  · have hinstances : (bindAll fs (Round.start fresh is)).instances = is.newRound := by
      rw [bindAll_eq]
      rfl
    rw [hinstances]
    exact .refl _ _

variable {items : List (Node Mark)}

/-- The stages of a round, one after the other. -/
theorem run_visitUnit (mark : Mark) (items : List (Node Mark)) (r : Round) :
    (visitUnit mark items).run r =
      (declareFunctions (Node.definitions items) r >>= fun p =>
        visitItems items p.2 >>= fun q =>
          drain (signatures (Node.definitions items)) q.2 >>= fun u =>
            Except.ok (Node.unit (.typed mark .int) q.1, u.2)) := rfl

/-- **A round fares as the unit does.** -/
theorem visitUnit_resolves (hitems : ∀ x ∈ items, x.IsItem) {is : Instances}
    (his : is.newRound.Sound (Node.definitions items)) (mark : Mark) (fresh : Nat) :
    ∃ o, Agree Reports (fun _ _ => True) ((visitUnit mark items).run (.start fresh is)) o ∧
      Resolves (Node.outlines items) (Node.usesList items) o := by
  have hfs := Typing.areSource_definitions hitems
  have hempty : ∀ x, Scope.lookup x (Round.start fresh is).globals = none ↔ x ∉ [] := fun x => by
    simp [Round.start, Scope.lookup, Scope.unit]
  have hdeclare := declareFunctions_agree (Node.definitions items) hempty
  have hnames : (Node.definitions items).map Function.name
      = (Node.outlines items).map Outline.name := by
    rw [Node.outlines_eq, List.map_map]
    rfl
  rw [run_visitUnit]
  generalize declareFunctions (Node.definitions items) (.start fresh is) = x at hdeclare ⊢
  generalize hdistinct : distinct [] ((Node.definitions items).map Function.name) = y at hdeclare
  cases hdeclare with
  | @error e c hc =>
      refine ⟨.error c, .error hc, .fault ?_⟩
      rw [Outline.start, ← hnames, hdistinct]
      rfl
  | @ok p u hp =>
      obtain ⟨hnodup, -⟩ := nodup_of_distinct hdistinct
      have hvisit := visitItems_performs (c := outermost hfs hnodup) items hitems _ _
        (mirrors_bindAll hfs hnodup his fresh)
      rw [← hp] at hvisit
      change ∃ o, Agree Reports _ (visitItems items p.2 >>= fun q =>
        drain (signatures (Node.definitions items)) q.2 >>= fun u =>
          Except.ok (Node.unit (.typed mark .int) q.1, u.2)) o ∧ _
      generalize visitItems items p.2 = x at hvisit ⊢
      generalize hcheck : check (outermost hfs hnodup).arity (Node.usesList items) ⟨[], []⟩ = y
        at hvisit
      have hstart : Outline.start (Node.outlines items) (Node.usesList items)
          = y >>= fun q => .ok q.2 := by
        rw [Outline.start, ← hnames, hdistinct, Node.outlines_eq, ← hcheck]
        rfl
      cases hvisit with
      | @error e c hc => exact ⟨.error c, .error hc, .fault hstart⟩
      | @ok q k hq =>
          obtain ⟨-, hmirrors⟩ := hq
          have hframe : q.2.frame = none := Option.not_isSome_iff_eq_none.1 (by
            rw [hmirrors.frame]
            exact Bool.false_ne_true)
          have hwaits : Waits (Node.definitions items) k.2.vars [] q.2 :=
            ⟨hmirrors.sound, hframe, hmirrors.names⟩
          have hnone : ∀ n ∈ [], baseName n ∈ [] := fun n hn => absurd hn List.not_mem_nil
          obtain ⟨o, hdrain, hdrains⟩ := drain_resolves hfs hnodup hwaits hnone
            (Nat.le_add_right _ _) (fun f hf => absurd hf List.not_mem_nil)
          refine ⟨o, ?_, .drains hstart ?_⟩
          · have hlast : Agree Reports (fun _ _ => True)
                (drain (signatures (Node.definitions items)) q.2 >>= fun u =>
                  Except.ok (Node.unit (.typed mark .int) q.1, u.2)) (o >>= pure) :=
              hdrain.bind fun _ _ _ => .ok trivial
            rwa [bind_pure] at hlast
          · rw [Node.outlines_eq]
            exact hdrains.congr hmirrors.queue

end Infer

/-! ### All rounds -/

namespace Document

variable {items : List (Node Mark)}

/-- **Inference fares as the unit does**: it reports its fault, or the unit has none. -/
theorem inferFrom_resolves (hitems : ∀ x ∈ items, x.IsItem) (mark : Mark) {fuel k fresh : Nat}
    {is : Instances} (his : is.newRound.Sound (Node.definitions items)) :
    (∀ e, inferFrom mark items fuel k fresh is = .error (.semantic e) →
        Resolves (Node.outlines items) (Node.usesList items) (.error e.cause)) ∧
      (fuel ≠ 0 → (∀ e, inferFrom mark items fuel k fresh is ≠ .error (.semantic e)) →
        Resolves (Node.outlines items) (Node.usesList items) (.ok ())) := by
  induction fuel generalizing k fresh is with
  | zero => exact ⟨fun e he => (nomatch he), fun h => absurd rfl h⟩
  | succ fuel ih =>
      obtain ⟨o, hround, ho⟩ := Infer.visitUnit_resolves hitems his mark fresh
      rw [inferFrom]
      cases hv : (Infer.visitUnit mark items).run (.start fresh is) with
      | error e =>
          rw [hv] at hround
          cases hround with
          | @error _ c hc =>
              obtain ⟨span, rfl⟩ := hc
              refine ⟨fun e he => ?_, fun _ hno => absurd rfl (hno ⟨c, span⟩)⟩
              cases he
              exact ho
      | ok p =>
          obtain ⟨root, r⟩ := p
          have hinstances := (Infer.visitUnit_sound hitems his hv).round.instances
          rw [hv] at hround
          cases hround with
          | ok =>
              refine ⟨fun e he => ?_, fun _ _ => ho⟩
              change (if _ then _ else _) = _ at he
              split at he
              · cases he
              · split at he
                · cases he
                · exact (ih ⟨hinstances.nodup, hinstances.made,
                    fun _ hn => absurd hn List.not_mem_nil, List.nodup_nil⟩).1 e he

/-- **Inference reports the fault of a unit, or the unit has none.** -/
theorem infer_resolves {d : Document} {mark : Mark} (hroot : d.root = .unit mark items)
    (hitems : ∀ x ∈ items, x.IsItem) :
    (∃ e, d.infer = .error (.semantic e) ∧
        Resolves (Node.outlines items) (Node.usesList items) (.error e.cause)) ∨
      (∀ e, d.infer ≠ .error (.semantic e)) ∧
        Resolves (Node.outlines items) (Node.usesList items) (.ok ()) := by
  obtain ⟨hfault, hnone⟩ := @inferFrom_resolves items hitems mark
    (2 * Infer.signatures (Node.definitions items) + 4) 1 d.fresh .empty (Infer.sound_empty _)
  have hinfer : d.infer = inferFrom mark items
      (2 * Infer.signatures (Node.definitions items) + 4) 1 d.fresh .empty := by
    rw [infer, hroot]
  rw [hinfer]
  by_cases hsemantic : ∃ e, inferFrom mark items
      (2 * Infer.signatures (Node.definitions items) + 4) 1 d.fresh .empty = .error (.semantic e)
  · obtain ⟨e, he⟩ := hsemantic
    exact .inl ⟨e, he, hfault e he⟩
  · have hno := not_exists.1 hsemantic
    exact .inr ⟨hno, hnone (Nat.succ_ne_zero _) hno⟩

end Document

end StackLang
