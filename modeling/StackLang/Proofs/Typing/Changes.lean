/-
**The changes that names and calls make.**

A name that is used or assigned, and a call, each change the state of a round in few ways.  They are
listed here once; what they keep, and what is known after them, is told from these lists.

Main definitions:

* `Infer.declared`, `Infer.inserted`, `Infer.bound`, `Infer.marked` — the states after the changes
  that a visit makes;
* `Round.Provides` — the ways in which a call comes to the symbol of its instance.

Main results:

* `Infer.valueOf_spec`, `Infer.assigned_spec`, `Infer.called_spec` — what names and calls do.
-/

import StackLang.Proofs.Typing.Round

set_option relaxedAutoImplicit false
set_option autoImplicit false

namespace StackLang

open Step

namespace Infer

variable {fs : List Function} {done : List String} {r r' : Round}

/-! ### Steps -/

theorem addSymbol_eq_ok {s : Symbol} {k : Nat} :
    addSymbol s r = .ok (k, r') ↔
      k = r.symbols.size ∧ r' = { r with symbols := r.symbols.push s } := by
  simp only [addSymbol, bind_eq_ok, get_eq_ok, set_eq_ok, pure_eq_ok, and_assoc, exists_and_left,
    exists_eq_left, exists_const]

theorem bindGlobal_eq_ok {name : String} {k : Nat} {u : PUnit} :
    bindGlobal name k r = .ok (u, r') ↔ r' = { r with globals := r.globals.bind name k } := by
  rw [bindGlobal, modify_eq_ok]

theorem find?_eq_ok {name : String} {o : Option (Nat × Symbol)} :
    find? name r = .ok (o, r') ↔
      o = ((r.lookup name).bind fun k => (r.symbols[k]?).map fun s => (k, s)) ∧ r' = r := by
  simp only [find?, bind_eq_ok, get_eq_ok, pure_eq_ok, and_assoc, exists_and_left, exists_eq_left]

theorem fail_ne_ok {α : Type} {cause : SemanticCause} {span : Span} {p : α × Round} :
    (fail cause span : Infer α) r ≠ .ok p := throw_ne_ok

/-! ### What names stand for -/

/-- What a name that is found stands for. -/
theorem found (h : r.Sound fs done) {name : String} {k : Nat} {s : Symbol}
    (hk : r.lookup name = some k) (hs : r.symbols[k]? = some s) :
    (∃ scope, r.frame = some scope ∧ (name, k) ∈ scope.names ∧ s.definition = none) ∨
      (r.globals.lookup name = some k ∧ Round.Bound fs r.instances name s) := by
  rw [Round.lookup, Option.or_eq_some_iff] at hk
  rcases hk with hk | ⟨-, hk⟩
  · obtain ⟨scope, hscope, hlookup⟩ := Option.bind_eq_some_iff.1 hk
    have hmem := Scope.lookup_mem hlookup
    obtain ⟨-, t, -, ht, hdefinition, -⟩ := (h.frame scope hscope).bound name k hmem
    cases hs.symm.trans ht
    exact .inl ⟨scope, hscope, hmem, hdefinition⟩
  · obtain ⟨t, ht, hbound⟩ := h.globals name k (Scope.lookup_mem hk)
    cases hs.symm.trans ht
    exact .inr ⟨hk, hbound⟩

/-- A name has a symbol as soon as it is bound. -/
theorem exists_symbol (h : r.Sound fs done) {name : String} {k : Nat}
    (hk : r.lookup name = some k) : ∃ s : Symbol, r.symbols[k]? = some s := by
  rw [Round.lookup, Option.or_eq_some_iff] at hk
  rcases hk with hk | ⟨-, hk⟩
  · obtain ⟨scope, hscope, hlookup⟩ := Option.bind_eq_some_iff.1 hk
    obtain ⟨-, t, -, ht, -⟩ := (h.frame scope hscope).bound name k (Scope.lookup_mem hlookup)
    exact ⟨t, ht⟩
  · obtain ⟨t, ht, -⟩ := h.globals name k (Scope.lookup_mem hk)
    exact ⟨t, ht⟩

/-! ### The states after the changes -/

/-- The state after a variable of the unit was made. -/
def declaredGlobal (name : String) (type : Scalar) (r : Round) : Round :=
  { r with
    counters := (r.counters.globalName name).2
    symbols := r.symbols.push (.ofVariable name (globalLabel name r.counters.globals) type
      (.global (globalLabel name r.counters.globals)))
    globals := r.globals.bind name r.symbols.size }

/-- The state after a variable of a function with the scope `scope` was made. -/
def declaredLocal (scope : Scope) (name : String) (type : Scalar) (r : Round) : Round :=
  { r with
    counters := (r.counters.localName name).2
    symbols := r.symbols.push (.ofVariable name (r.counters.localName name).1 type
      (.frame scope.addLocal.1))
    frame := some (scope.addLocal.2.bind name r.symbols.size) }

/-- The state after a variable was made where the visit is. -/
def declared (name : String) (type : Scalar) (r : Round) : Round :=
  match r.frame with
  | none => declaredGlobal name type r
  | some scope => declaredLocal scope name type r

theorem declare_eq_ok {name : String} {type : Scalar} {k : Nat} :
    declare name type r = .ok (k, r') ↔ k = r.symbols.size ∧
      r' = match r.frame with
        | none => declaredGlobal name type r
        | some scope => declaredLocal scope name type r := by
  cases hframe : r.frame with
  | none =>
      simp only [declare, bind_eq_ok, get_eq_ok, and_assoc, exists_and_left, exists_eq_left, hframe,
        set_eq_ok, addSymbol_eq_ok, bindGlobal_eq_ok, pure_eq_ok, exists_const, declaredGlobal]
      exact Iff.rfl
  | some scope =>
      simp only [declare, bind_eq_ok, get_eq_ok, and_assoc, exists_and_left, exists_eq_left, hframe,
        set_eq_ok, addSymbol_eq_ok, modify_eq_ok, pure_eq_ok, exists_const, declaredLocal]

/-- The state with one more instance. -/
def inserted (i : Instance) (fresh : Nat) (r : Round) : Round :=
  { r with fresh, instances := r.instances.insert i }

/-- The state after the instance with a name was bound and put into the queue. -/
def bound (name : String) (f : Function) (r : Round) : Round :=
  { r with
    symbols := r.symbols.push (.ofFunction name f)
    globals := r.globals.bind name r.symbols.size
    instances := (r.instances.enqueue name).2 }

/-- The state after a call of a symbol was met. -/
def marked (k : Nat) (r : Round) : Round :=
  { r with symbols := r.symbols.modify k fun s => { s with used := true } }

end Infer

/-! ### Instances that calls ask for -/

/-- An instance that is found by a name is there, and has the name. -/
theorem Instances.mem_of_get? {is : Instances} {name : String} {i : Instance}
    (h : is.get? name = some i) : i ∈ is.made ∧ i.name = name :=
  ⟨List.mem_of_find?_eq_some h, by simpa using List.find?_some h⟩

namespace Round

open Infer

/-- The instance of `f` for arguments of some types, if it is made now. -/
def newInstance (f : Function) (args : List Scalar) (r : Round) : Instance :=
  ⟨decorate f.name args, f.name, (f.copy r.fresh (decorate f.name args)).1, args⟩

/-- The state after the instance of `f` for arguments of some types was made. -/
def withInstance (f : Function) (args : List Scalar) (r : Round) : Round :=
  inserted (r.newInstance f args) (f.copy r.fresh (decorate f.name args)).2 r

/-- **How a call of `f` comes to the symbol of its instance**: the symbol is bound in this round,
the instance is there from an earlier round, or it is made. -/
inductive Provides (f : Function) (args : List Scalar) (r : Round) : Nat → Round → Prop
  | known {k : Nat} (hk : r.globals.lookup (decorate f.name args) = some k) : Provides f args r k r
  | again {i : Instance} (hnew : r.lookup (decorate f.name args) = none)
      (hi : r.instances.get? (decorate f.name args) = some i) :
      Provides f args r r.symbols.size (bound i.name i.function r)
  | fresh (hnew : r.lookup (decorate f.name args) = none)
      (hi : r.instances.get? (decorate f.name args) = none) :
      Provides f args r r.symbols.size
        (bound (r.newInstance f args).name (r.newInstance f args).function (r.withInstance f args))

/-- The symbol that is provided is bound to the decorated name. -/
theorem Provides.lookup {f : Function} {args : List Scalar} {r r' : Round} {k : Nat}
    (h : r.Provides f args k r') : r'.globals.lookup (decorate f.name args) = some k := by
  cases h with
  | known hk => exact hk
  | @again i _ hi =>
      rw [← (Instances.mem_of_get? hi).2]
      exact Scope.lookup_bind_self _ _ _
  | fresh => exact Scope.lookup_bind_self _ _ _

end Round

namespace Infer

variable {fs : List Function} {done : List String} {r r' : Round}

/-! ### Names -/

/-- A name that stands for a value is bound to a variable, and nothing changes. -/
theorem valueOf_spec (h : r.Sound fs done) {m : Mark} {name : String} {k : Nat} {type : Scalar}
    (hv : valueOf m name r = .ok ((k, type), r')) :
    r' = r ∧ r.lookup name = some k ∧
      ∃ s : Symbol, r.symbols[k]? = some s ∧ s.definition = none ∧ type = s.type.getD .int := by
  simp only [valueOf, bind_eq_ok, find?_eq_ok, and_assoc, exists_and_left, exists_eq_left] at hv
  cases hk : r.lookup name with
  | none =>
      rw [hk] at hv
      exact absurd hv fail_ne_ok
  | some j =>
      obtain ⟨s, hs⟩ := exists_symbol h hk
      simp only [hk, Option.bind_some, hs, Option.map_some] at hv
      split at hv
      · exact absurd hv fail_ne_ok
      · rename_i hfunction
        simp only [pure_eq_ok, Prod.mk.injEq] at hv
        obtain ⟨⟨rfl, rfl⟩, rfl⟩ := hv
        exact ⟨rfl, rfl, s, hs, by simpa [Symbol.isFunction] using hfunction, rfl⟩

/-- A name that is assigned a value is bound to a variable, or it becomes one of the type of the
value. -/
theorem assigned_spec (h : r.Sound fs done) {m : Mark} {name : String} {value type : Scalar}
    {k : Nat} (ha : assigned m name value r = .ok ((k, type), r')) :
    (r' = r ∧ r.lookup name = some k ∧ ∃ s : Symbol, r.symbols[k]? = some s ∧
        s.definition = none ∧ type = s.type.getD value) ∨
      (r.lookup name = none ∧ k = r.symbols.size ∧ type = value ∧ r' = declared name value r) := by
  simp only [assigned, bind_eq_ok, find?_eq_ok, and_assoc, exists_and_left, exists_eq_left] at ha
  cases hk : r.lookup name with
  | none =>
      simp only [hk, Option.bind_none, bind_eq_ok, pure_eq_ok, Prod.mk.injEq] at ha
      obtain ⟨_, _, hdeclare, ⟨rfl, rfl⟩, rfl⟩ := ha
      obtain ⟨rfl, rfl⟩ := declare_eq_ok.1 hdeclare
      exact .inr ⟨rfl, rfl, rfl, rfl⟩
  | some j =>
      obtain ⟨s, hs⟩ := exists_symbol h hk
      simp only [hk, Option.bind_some, hs, Option.map_some] at ha
      split at ha
      · exact absurd ha fail_ne_ok
      · rename_i hfunction
        simp only [pure_eq_ok, Prod.mk.injEq] at ha
        obtain ⟨⟨rfl, rfl⟩, rfl⟩ := ha
        exact .inl ⟨rfl, rfl, s, hs, by simpa [Symbol.isFunction] using hfunction, rfl⟩

/-! ### Calls -/

/-- The function that a name of the source stands for is one of the unit. -/
theorem eq_of_found (h : r.Sound fs done) {base : String} (hbase : IsSourceName base) {j : Nat}
    {s : Symbol} {f : Function} (hj : r.lookup base = some j) (hs : r.symbols[j]? = some s)
    (hf : s.definition = some f) : f ∈ fs ∧ f.name = base := by
  rcases found h hj hs with ⟨-, -, -, hnone⟩ | ⟨-, hbound⟩
  · rw [hf] at hnone
    cases hnone
  · cases hbound with
    | defined _ hmem hname hs' =>
        cases hf.symm.trans hs'
        exact ⟨hmem, hname⟩
    | cell _ hs' _ =>
        rw [hf] at hs'
        cases hs'
    | made hi hname _ _ _ =>
        obtain ⟨g, -, hcopy⟩ := h.instances.made _ hi
        rw [hcopy.name] at hname
        exact absurd (hname ▸ hbase) (not_isSourceName_decorate _ _)

/-- A decorated name is bound in the scope of the unit, if it is bound. -/
theorem lookup_decorate (h : r.Sound fs done) {base : String} {args : List Scalar} {k : Nat}
    (hk : r.lookup (decorate base args) = some k) :
    r.globals.lookup (decorate base args) = some k := by
  rw [Round.lookup, Option.or_eq_some_iff] at hk
  rcases hk with hk | ⟨-, hk⟩
  · obtain ⟨scope, hscope, hlookup⟩ := Option.bind_eq_some_iff.1 hk
    exact absurd ((h.frame scope hscope).bound _ _ (Scope.lookup_mem hlookup)).1
      (not_isSourceName_decorate _ _)
  · exact hk

/-- Asking for an instance finds it, or makes it. -/
theorem instanceOf_cases {f copy : Function} {args : List Scalar}
    (hi : instanceOf f f.name (decorate f.name args) args r = .ok (copy, r')) :
    (∃ i, r.instances.get? (decorate f.name args) = some i ∧ copy = i.function ∧ r' = r) ∨
      (r.instances.get? (decorate f.name args) = none ∧ copy = (r.newInstance f args).function ∧
        r' = r.withInstance f args) := by
  simp only [instanceOf, bind_eq_ok, get_eq_ok, and_assoc, exists_and_left, exists_eq_left] at hi
  cases hget : r.instances.get? (decorate f.name args) with
  | some i =>
      simp only [hget, pure_eq_ok] at hi
      exact .inl ⟨i, rfl, hi⟩
  | none =>
      simp only [hget, bind_eq_ok, set_eq_ok, pure_eq_ok, exists_const, exists_eq_left] at hi
      exact .inr ⟨rfl, hi⟩

/-- **What a call does**: the name stands for a function of the unit that takes as many arguments,
the instance is provided, and its symbol is marked.  The type is the result that is known of the
instance. -/
theorem called_spec (h : r.Sound fs done) {m n : Mark} {base : String} {args : List Scalar}
    {t k : Nat} {type : Scalar} (hbase : IsSourceName base)
    (hc : called m n base args r = .ok ((t, k, type), r')) :
    ∃ f ∈ fs, f.name = base ∧ r.lookup base = some t ∧
      (∃ s : Symbol, r.symbols[t]? = some s ∧ s.definition = some f) ∧
      f.params.length = args.length ∧ type = r'.instances.returns (decorate base args) ∧
      ∃ r₁, r.Provides f args k r₁ ∧ r' = marked k r₁ := by
  simp only [called, bind_eq_ok, find?_eq_ok, and_assoc, exists_and_left, exists_eq_left] at hc
  cases hj : r.lookup base with
  | none =>
      rw [hj] at hc
      exact absurd hc fail_ne_ok
  | some j =>
    obtain ⟨s, hs⟩ := exists_symbol h hj
    simp only [hj, Option.bind_some, hs, Option.map_some] at hc
    cases hdefinition : s.definition with
    | none =>
        rw [hdefinition] at hc
        exact absurd hc fail_ne_ok
    | some f =>
      obtain ⟨hf, rfl⟩ := eq_of_found h hbase hj hs hdefinition
      simp only [hdefinition] at hc
      split at hc
      · exact absurd hc fail_ne_ok
      · rename_i hlength
        simp only [bind_eq_ok, get_eq_ok, and_assoc, exists_and_left, exists_eq_left] at hc
        cases hlookup : r.lookup (decorate f.name args) with
        | some k =>
            simp only [hlookup, bind_eq_ok, get_eq_ok, modify_eq_ok, pure_eq_ok, and_assoc,
              exists_and_left, exists_eq_left, exists_const, Prod.mk.injEq] at hc
            obtain ⟨rfl, rfl, rfl, rfl⟩ := hc
            exact ⟨f, hf, rfl, rfl, ⟨s, hs, hdefinition⟩, by omega, rfl, r,
              .known (lookup_decorate h hlookup), rfl⟩
        | none =>
            simp only [hlookup, instantiate, bind_eq_ok, addSymbol_eq_ok, bindGlobal_eq_ok,
              get_eq_ok, modify_eq_ok, pure_eq_ok, and_assoc, exists_and_left, exists_eq_left,
              exists_const, Prod.mk.injEq] at hc
            obtain ⟨_, _, ⟨copy, r₂, hcopy, rfl, rfl⟩, rfl, rfl, rfl, rfl⟩ := hc
            rcases instanceOf_cases hcopy with ⟨i, hget, rfl, rfl⟩ | ⟨hget, rfl, rfl⟩
            · refine ⟨f, hf, rfl, rfl, ⟨s, hs, hdefinition⟩, by omega, rfl, _,
                .again hlookup hget, ?_⟩
              rw [(Instances.mem_of_get? hget).2]
              rfl
            · exact ⟨f, hf, rfl, rfl, ⟨s, hs, hdefinition⟩, by omega, rfl, _,
                .fresh hlookup hget, rfl⟩

end Infer

end StackLang
