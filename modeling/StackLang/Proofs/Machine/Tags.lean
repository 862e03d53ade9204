/-
**Cells and the types that they were produced as.**

A cell holds thirty-two bits and does not show whether these were computed as an integer or as a
float.  A run with tags keeps this on the side: a tag goes with each cell of the stack and of the
variables, an instruction that makes a cell gives it the tag of what it makes, and a cell that is
copied keeps its tag.  What the machine does never depends on tags, so every run has one with tags.

A zero has the same bits in both types, and so it counts as either.

Main definitions:

* `Machine.Tagged` — a state with tags;
* `Machine.Tagged.after` — the tags behind an instruction;
* `Machine.Produces` — the states of a run, with their tags;
* `Machine.Tagged.Counts` — a cell of the stack counts as a type;
* `Machine.Fills` — a stack counts as a list of types.

Main results:

* `Machine.exists_produces` — every state of a run has tags;
* `Machine.Fills.counts`, `Machine.Fills.set` — cells of a stack are read and written one by one.
-/

import StackLang.Proofs.Machine

set_option relaxedAutoImplicit false
set_option autoImplicit false

namespace StackLang

/-- The types of the cells that an instruction computes on, the top first. -/
def Op.consumed : Op → List Scalar
  | arith _ type => [type, type]
  | toFloat => [.int]
  | toInt => [.float]
  | _ => []

namespace Machine

/-! ### States with tags -/

/-- A state, with the types that its cells were produced as. -/
structure Tagged where
  state : State
  /-- The tags of the cells of the stack, the top first. -/
  tags : List Scalar
  /-- The tags of the cells of the global variables. -/
  globals : String → Scalar

/-- A cell counts as a type if it was produced as one, or if it is zero. -/
def CountsAs (type tag : Scalar) (v : UInt32) : Prop := tag = type ∨ v = 0

namespace Tagged

/-- The state in which code starts. -/
def start (code : List Instr) : Tagged := ⟨Machine.start code, [], fun _ => .int⟩

/-- The tag of the cell that an operand stands for. -/
def tagOf (operand : Operand) (T : Tagged) : Scalar :=
  match operand with
  | .immediate _ type => type
  | .frame offset =>
    match T.state.slot offset with
    | .ok k => T.tags.reverse.getD k .int
    | .error _ => .int
  | .global name => T.globals name
  | .none | .label _ => .int

/-- The tags of the stack behind an instruction that leads to the state `s`. -/
def tagsAfter (i : Instr) (s : State) (T : Tagged) : List Scalar :=
  match i.op with
  | .load => T.tagOf i.operand :: T.tags
  | .store =>
    match i.operand with
    | .frame offset =>
      match s.slot offset with
      | .ok k => (T.tags.tail.reverse.set k (T.tags.headD .int)).reverse
      | .error _ => T.tags.tail
    | _ => T.tags.tail
  | .pop | .ret => T.tags.tail
  | .dup => T.tags.headD .int :: T.tags
  | .arith _ type => type :: T.tags.drop 2
  | .toFloat => .float :: T.tags.tail
  | .toInt => .int :: T.tags.tail
  | .call => .int :: T.tags
  | .jump _ | .halt | .nop | .entry _ | .assembly _ => T.tags

/-- The tags of the global variables behind an instruction. -/
def globalsAfter (i : Instr) (T : Tagged) : String → Scalar :=
  match i.op, i.operand with
  | .store, .global name => fun x => if x = name then T.tags.headD .int else T.globals x
  | _, _ => T.globals

/-- The state `s` behind an instruction, with its tags. -/
def after (i : Instr) (s : State) (T : Tagged) : Tagged :=
  ⟨s, T.tagsAfter i s, T.globalsAfter i⟩

/-- The cell that lies `j` cells below the top counts as a type. -/
def Counts (T : Tagged) (j : Nat) (type : Scalar) : Prop :=
  ∃ v tag, T.state.stack[j]? = some v ∧ T.tags[j]? = some tag ∧ CountsAs type tag v

instance (T : Tagged) (j : Nat) (type : Scalar) : Decidable (T.Counts j type) :=
  decidable_of_iff (∃ v ∈ T.state.stack[j]?, ∃ tag ∈ T.tags[j]?, tag = type ∨ v = 0) (by
    simp [Counts, CountsAs, Option.mem_def, exists_and_left])

end Tagged

/-- **The states of a run**, each with the tags that the instructions before it left. -/
inductive Produces (code : List Instr) : Tagged → Prop where
  | start : Produces code (.start code)
  | step {T : Tagged} {i : Instr} {rest : List Instr} {s : State} (h : Produces code T)
      (hrest : T.state.rest = i :: rest) (hstep : Machine.step code T.state = .next s) :
      Produces code (T.after i s)

/-- The state with tags that comes up to `n` instructions later. -/
def Tagged.later (code : List Instr) : Nat → Tagged → Tagged
  | 0, T => T
  | n + 1, T =>
    match T.state.rest, Machine.step code T.state with
    | i :: _, .next s => later code n (T.after i s)
    | _, _ => T

theorem Produces.later {code : List Instr} {T : Tagged} (h : Produces code T) (n : Nat) :
    Produces code (T.later code n) := by
  induction n generalizing T with
  | zero => exact h
  | succ n ih =>
      rw [Tagged.later]
      split
      · exact ih (.step h ‹_› ‹_›)
      · exact h

/-- **Every state of a run has tags.** -/
theorem exists_produces {code : List Instr} {s : State} (h : Reaches code (start code) s) :
    ∃ T, Produces code T ∧ T.state = s := by
  have hrun : ∀ (n : Nat) (T : Tagged), Produces code T → run code n T.state = .next s →
      ∃ T, Produces code T ∧ T.state = s := by
    intro n
    induction n with
    | zero =>
        intro T hT hn
        cases hn
        exact ⟨T, hT, rfl⟩
    | succ n ih =>
        intro T hT hn
        rw [run_succ] at hn
        cases hstep : step code T.state with
        | next t =>
            cases hrest : T.state.rest with
            | nil => simp [step, hrest] at hstep
            | cons i rest =>
                rw [hstep] at hn
                exact ih (T.after i t) (.step hT hrest hstep) hn
        | halted o =>
            rw [hstep] at hn
            cases hn
        | failed f =>
            rw [hstep] at hn
            cases hn
  obtain ⟨n, hn⟩ := h
  exact hrun n (.start code) .start hn

/-! ### Stacks of known types -/

/-- **A stack counts as a list of types**, cell by cell. -/
inductive Fills : List Scalar → List UInt32 → List Scalar → Prop where
  | nil : Fills [] [] []
  | cons {type tag : Scalar} {v : UInt32} {types tags : List Scalar} {stack : List UInt32}
      (h : CountsAs type tag v) (hs : Fills types stack tags) :
      Fills (type :: types) (v :: stack) (tag :: tags)

namespace Fills

variable {types types' tags tags' : List Scalar} {stack stack' : List UInt32} {type tag : Scalar}
  {v : UInt32} {k : Nat}

theorem length (h : Fills types stack tags) :
    stack.length = types.length ∧ tags.length = types.length := by
  induction h with
  | nil => exact ⟨rfl, rfl⟩
  | cons _ _ ih => exact ⟨congrArg (· + 1) ih.1, congrArg (· + 1) ih.2⟩

theorem append (h : Fills types stack tags) (h' : Fills types' stack' tags') :
    Fills (types ++ types') (stack ++ stack') (tags ++ tags') := by
  induction h with
  | nil => exact h'
  | cons hv _ ih => exact .cons hv ih

theorem reverse (h : Fills types stack tags) :
    Fills types.reverse stack.reverse tags.reverse := by
  induction h with
  | nil => exact .nil
  | cons hv _ ih =>
      simp only [List.reverse_cons]
      exact ih.append (.cons hv .nil)

/-- The top cell counts as the first type, and the others as the other types. -/
theorem exists_cons (h : Fills (type :: types) (v :: stack) tags) :
    ∃ tag tags', tags = tag :: tags' ∧ CountsAs type tag v ∧ Fills types stack tags' := by
  cases h with
  | cons hv hs => exact ⟨_, _, rfl, hv, hs⟩

/-- Each cell counts as the type in its place. -/
theorem counts (h : Fills types stack tags) (hk : types[k]? = some type) :
    ∃ v tag, stack[k]? = some v ∧ tags[k]? = some tag ∧ CountsAs type tag v := by
  induction h generalizing k with
  | nil => cases hk
  | cons hv _ ih =>
      cases k with
      | zero =>
          cases hk
          exact ⟨_, _, rfl, rfl, hv⟩
      | succ k => exact ih hk

/-- A cell is replaced by one that counts as the type in its place. -/
theorem set (h : Fills types stack tags) (hk : types[k]? = some type) (hv : CountsAs type tag v) :
    Fills types (stack.set k v) (tags.set k tag) := by
  induction h generalizing k with
  | nil => cases hk
  | cons hw hs ih =>
      cases k with
      | zero =>
          cases hk
          exact .cons hv hs
      | succ k => exact .cons hw (ih hk)

end Fills

end Machine

end StackLang
