/-
**Acceptance by names alone.**

Whether a unit is accepted can be told from what it does with names, without any type.  The names
of the definitions must differ; the statements of the unit are gone through and make its variables;
then the functions that were called are gone through, each once, in the order in which they were
called first, with the parameters and the variables of the unit as variables.  The first use that
goes against the meaning of a name is the cause of the failure.

Main definitions:

* `Known`, `check` — what is known of names, and the uses that are checked against it;
* `Outline` — a definition as far as names go;
* `Drains` — the functions that were called, worked off one after the other;
* `SameOrder` — lists of functions that are worked off in the same order;
* `Resolves` — how a unit fares.

Main results:

* `Drains.congr` — lists in the same order are worked off alike;
* `Drains.next`, `Drains.stop` — the first function that waits succeeds or fails.
-/

import StackLang.Proofs.Tree.Uses

set_option relaxedAutoImplicit false
set_option autoImplicit false

namespace StackLang

/-! ### Uses against what is known -/

/-- What is known of names while uses are gone through. -/
structure Known where
  /-- The names of variables. -/
  vars : List String
  /-- The functions that were called, in order. -/
  calls : List String

/-- A step through uses, which may fail. -/
abbrev Check := StateT Known (Except SemanticCause)

/-- **One use**, where `arity` tells how many arguments the functions take.  A variable hides a
function of its name, and the first assignment makes a variable. -/
def Use.check (arity : String → Option Nat) (u : Use) : Check Unit := fun k =>
  match u with
  | .read x =>
    if x ∈ k.vars then .ok ((), k)
    else if arity x = none then .error (.unknownIdentifier x)
    else .error (.notAValue x)
  | .write x =>
    if x ∈ k.vars then .ok ((), k)
    else if arity x = none then .ok ((), { k with vars := x :: k.vars })
    else .error (.notAValue x)
  | .call f n =>
    if f ∈ k.vars then .error (.notCallable f)
    else
      match arity f with
      | none => .error (.unknownIdentifier f)
      | some m =>
        if m = n then .ok ((), { k with calls := k.calls ++ [f] })
        else .error (.arityMismatch f m n)
  | .fault c => .error c

/-- Uses one after the other, up to the first that fails. -/
def check (arity : String → Option Nat) : List Use → Check Unit
  | [] => pure ()
  | u :: us => do
    u.check arity
    check arity us

section

variable {arity : String → Option Nat} {us vs : List Use} {k : Known}

theorem check_single (u : Use) : check arity [u] = u.check arity := bind_pure _

theorem check_append : check arity (us ++ vs) = (do check arity us; check arity vs) := by
  induction us with
  | nil => rfl
  | cons u us ih => simp only [List.cons_append, check, ih, bind_assoc]

theorem check_cons_ok {u : Use} {k' : Known} (h : u.check arity k = .ok ((), k')) :
    check arity (u :: us) k = check arity us k' :=
  congrArg (fun o : Except SemanticCause (Unit × Known) => o >>= fun p => check arity us p.2) h

theorem check_cons_error {u : Use} {c : SemanticCause} (h : u.check arity k = .error c) :
    check arity (u :: us) k = .error c :=
  congrArg (fun o : Except SemanticCause (Unit × Known) => o >>= fun p => check arity us p.2) h

end

/-! ### Definitions -/

/-- A definition as far as names go. -/
structure Outline where
  name : String
  params : List String
  uses : List Use

/-- Names that are defined one after the other, where those in `seen` are defined already. -/
def distinct (seen : List String) : List String → Except SemanticCause Unit
  | [] => .ok ()
  | x :: xs => if x ∈ seen then .error (.duplicateDefinition x) else distinct (x :: seen) xs

namespace Outline

/-- How many arguments a function takes. -/
def arity (os : List Outline) (name : String) : Option Nat :=
  (os.find? fun o => o.name = name).map fun o => o.params.length

/-- **What the body of a function calls** when the variables of the unit are `globals`. -/
def body (os : List Outline) (globals : List String) (name : String) :
    Except SemanticCause (List String) :=
  match os.find? fun o => o.name = name with
  | none => .ok []
  | some o => do
    distinct [] o.params
    pure (← check (arity os) o.uses ⟨o.params ++ globals, []⟩).2.calls

/-- What is known behind the statements of a unit that use the names `us`. -/
def start (os : List Outline) (us : List Use) : Except SemanticCause Known := do
  distinct [] (os.map name)
  pure (← check (arity os) us ⟨[], []⟩).2

end Outline

namespace Node

variable {α : Type}

/-- A definition as far as names go. -/
def outline? : Node α → Option Outline
  | define _ (prototype _ f ps) b => some ⟨f, ps, b.uses⟩
  | _ => none

/-- The definitions among some items as far as names go. -/
def outlines (items : List (Node α)) : List Outline := items.filterMap outline?

end Node

/-! ### The functions that are called -/

/-- **Functions worked off one after the other.**  The next one is the first on the list that is not
done; what its body calls goes to the end of the list. -/
inductive Drains (body : String → Except SemanticCause (List String)) :
    List String → List String → Except SemanticCause Unit → Prop
  | done {seen queue : List String} (h : (queue.find? fun f => f ∉ seen) = none) :
      Drains body seen queue (.ok ())
  | fault {seen queue : List String} {f : String} {c : SemanticCause}
      (h : (queue.find? fun f => f ∉ seen) = some f) (hbody : body f = .error c) :
      Drains body seen queue (.error c)
  | step {seen queue calls : List String} {f : String} {o : Except SemanticCause Unit}
      (h : (queue.find? fun f => f ∉ seen) = some f) (hbody : body f = .ok calls)
      (hrest : Drains body (f :: seen) (queue ++ calls) o) : Drains body seen queue o

namespace Drains

variable {seen queue : List String}

/-- What is on a list without a next one is done. -/
theorem mem_of_find?_eq_none (h : (queue.find? fun f => f ∉ seen) = none) {f : String}
    (hf : f ∈ queue) : f ∈ seen := by
  simpa using List.find?_eq_none.1 h f hf

theorem mem_of_find?_eq_some {f : String} (h : (queue.find? fun f => f ∉ seen) = some f) :
    f ∈ queue ∧ f ∉ seen :=
  ⟨List.mem_of_find?_eq_some h, by simpa using List.find?_some h⟩

end Drains

/-! ### The order of the queue -/

/-- **Lists of functions in the same order**: whatever is done besides `seen`, the next one is the
same. -/
def SameOrder (seen queue queue' : List String) : Prop :=
  ∀ more : List String, (∀ f ∈ seen, f ∈ more) →
    (queue.find? fun f => f ∉ more) = (queue'.find? fun f => f ∉ more)

namespace SameOrder

variable {seen queue queue' queue'' : List String}

@[refl] theorem refl (seen queue : List String) : SameOrder seen queue queue := fun _ _ => rfl

theorem symm (h : SameOrder seen queue queue') : SameOrder seen queue' queue :=
  fun more hmore => (h more hmore).symm

theorem trans (h : SameOrder seen queue queue') (h' : SameOrder seen queue' queue'') :
    SameOrder seen queue queue'' :=
  fun more hmore => (h more hmore).trans (h' more hmore)

theorem mono {seen' : List String} (h : SameOrder seen queue queue')
    (hseen : ∀ f ∈ seen, f ∈ seen') : SameOrder seen' queue queue' :=
  fun more hmore => h more fun f hf => hmore f (hseen f hf)

theorem append (h : SameOrder seen queue queue') (calls : List String) :
    SameOrder seen (queue ++ calls) (queue' ++ calls) := by
  intro more hmore
  rw [List.find?_append, List.find?_append, h more hmore]

/-- What stands on a list stands on the other, or is done. -/
theorem mem (h : SameOrder seen queue queue') {f : String} (hf : f ∈ queue) :
    f ∈ seen ∨ f ∈ queue' := by
  have hnone : (queue'.find? fun g => g ∉ seen ++ queue') = none := by
    rw [List.find?_eq_none]
    intro g hg
    simp [hg]
  rw [← h _ fun g hg => List.mem_append_left _ hg] at hnone
  exact List.mem_append.1 (Drains.mem_of_find?_eq_none hnone hf)

/-- What is done or stands on the list already changes nothing at its end. -/
theorem absorb {calls : List String} (h : ∀ f ∈ calls, f ∈ seen ∨ f ∈ queue) :
    SameOrder seen (queue ++ calls) queue := by
  intro more hmore
  rw [List.find?_append]
  cases hnext : queue.find? fun f => f ∉ more with
  | some f => rfl
  | none =>
      rw [Option.none_or, List.find?_eq_none]
      intro f hf
      have hmem : f ∈ more := by
        rcases h f hf with hf | hf
        · exact hmore f hf
        · exact Drains.mem_of_find?_eq_none hnext hf
      simp [hmem]

/-- What is done may stand in front. -/
theorem skip {f : String} (h : f ∈ seen) : SameOrder seen (f :: queue) queue := by
  intro more hmore
  rw [List.find?_cons_of_neg (by simp [hmore f h])]

end SameOrder

/-- **Lists in the same order are worked off alike.** -/
theorem Drains.congr {body : String → Except SemanticCause (List String)}
    {seen queue queue' : List String} {o : Except SemanticCause Unit}
    (hqueue : SameOrder seen queue queue') (h : Drains body seen queue o) :
    Drains body seen queue' o := by
  induction h generalizing queue' with
  | done hnext => exact .done ((hqueue _ fun f hf => hf) ▸ hnext)
  | fault hnext hbody => exact .fault ((hqueue _ fun f hf => hf) ▸ hnext) hbody
  | step hnext hbody _ ih =>
      exact .step ((hqueue _ fun f hf => hf) ▸ hnext) hbody
        (ih ((hqueue.mono fun f hf => List.mem_cons_of_mem _ hf).append _))

section

variable {body : String → Except SemanticCause (List String)}
  {seen queue queue' calls : List String} {f : String} {o : Except SemanticCause Unit}

/-- The functions in `seen` succeed, and what they call is done or waits. -/
def Settled (body : String → Except SemanticCause (List String)) (seen queue : List String) :
    Prop :=
  ∀ f ∈ seen, ∃ calls, body f = .ok calls ∧ ∀ g ∈ calls, g ∈ seen ∨ g ∈ queue

/-- The first function that waits succeeds. -/
theorem Settled.next (h : Settled body seen (f :: queue)) (hbody : body f = .ok calls)
    (hqueue : SameOrder (seen.insert f) queue' (queue ++ calls)) :
    Settled body (seen.insert f) queue' := by
  have hkept : ∀ g ∈ queue ++ calls, g ∈ seen.insert f ∨ g ∈ queue' :=
    fun g hg => hqueue.symm.mem hg
  intro g hg
  rcases List.mem_insert_iff.1 hg with rfl | hg
  · exact ⟨calls, hbody, fun g' hg' => hkept g' (List.mem_append_right _ hg')⟩
  · obtain ⟨calls', hcalls', hknown⟩ := h g hg
    refine ⟨calls', hcalls', fun g' hg' => ?_⟩
    rcases hknown g' hg' with hg' | hg'
    · exact .inl (List.mem_insert_of_mem hg')
    · rcases List.mem_cons.1 hg' with rfl | hg'
      · exact .inl List.mem_insert_self
      · exact hkept g' (List.mem_append_left _ hg')

/-- The first function on the list succeeds: it is met for the first time, or it is done and calls
nothing new. -/
theorem Drains.next (hseen : Settled body seen (f :: queue)) (hbody : body f = .ok calls)
    (hqueue : SameOrder (seen.insert f) queue' (queue ++ calls))
    (h : Drains body (seen.insert f) queue' o) : Drains body seen (f :: queue) o := by
  by_cases hf : f ∈ seen
  · rw [List.insert_of_mem hf] at hqueue h
    obtain ⟨calls', hcalls', hknown⟩ := hseen f hf
    cases hbody.symm.trans hcalls'
    have hold : ∀ g ∈ calls, g ∈ seen ∨ g ∈ queue := by
      intro g hg
      rcases hknown g hg with hg | hg
      · exact .inl hg
      · rcases List.mem_cons.1 hg with rfl | hg
        · exact .inl hf
        · exact .inr hg
    exact h.congr ((hqueue.trans (SameOrder.absorb hold)).trans (SameOrder.skip hf).symm)
  · rw [List.insert_of_not_mem hf] at hqueue h
    refine .step (by simp [hf]) hbody (h.congr (hqueue.trans ?_))
    exact (SameOrder.skip List.mem_cons_self).symm

/-- The first function on the list fails: it is met for the first time. -/
theorem Drains.stop {c : SemanticCause} (hseen : Settled body seen (f :: queue))
    (hbody : body f = .error c) : Drains body seen (f :: queue) (.error c) := by
  have hnew : f ∉ seen := by
    intro hf
    obtain ⟨calls, hcalls, -⟩ := hseen f hf
    rw [hbody] at hcalls
    cases hcalls
  exact .fault (by simp [hnew]) hbody

end

/-! ### Units -/

/-- **How a unit fares** that has the definitions `os` and whose statements use the names `us`. -/
inductive Resolves (os : List Outline) (us : List Use) : Except SemanticCause Unit → Prop
  | fault {c : SemanticCause} (h : Outline.start os us = .error c) : Resolves os us (.error c)
  | drains {k : Known} {o : Except SemanticCause Unit} (h : Outline.start os us = .ok k)
      (hcalls : Drains (Outline.body os k.vars) [] k.calls o) : Resolves os us o

end StackLang
