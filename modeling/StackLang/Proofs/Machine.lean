/-
**The stack machine.**

Code runs on a machine with a stack of cells of thirty-two bits.  A call pushes a return cell; the
arguments stand below it and the local variables above it, and places in the frame are counted in
bytes from the return cell, downward to the arguments and upward, with a negative sign, to the
variables.  A conditional jump tests the cell that was popped last.

The place of the machine in its code is the list of the instructions that are still ahead, so a jump
looks up the part of the code that starts at its target.

Main definitions:

* `Machine.State`, `Machine.Outcome`, `Machine.Fault` — a state, what a halt shows, and why a run
  can fail;
* `Machine.step`, `Machine.run` — one instruction, and a number of them;
* `Machine.Halts`, `Machine.outcome?` — the code runs to a halt with an outcome, and what a run of a
  number of instructions shows;
* `Machine.Reaches` — a state is met on the way from another one.

Main results:

* `Machine.halted_of_reaches` — a run to a halt goes on from every state that it meets;
* `Machine.Halts.unique` — a run has one outcome.
-/

import StackLang.Code.Basic
import Mathlib

set_option relaxedAutoImplicit false
set_option autoImplicit false

namespace StackLang

namespace Binary32

/-- The integer part of a number, taken toward zero; what is too large for an integer becomes the
nearest one, and what is not a number becomes zero. -/
def truncate (x : Binary32) : Int32 := if x.isNaN then 0 else x.value.toInt32

end Binary32

namespace Machine

/-! ### States -/

/-- Why a run ends without a halt. -/
inductive Fault where
  /-- No instruction is ahead. -/
  | pastEnd
  /-- A cell is needed and there is none. -/
  | emptyStack
  /-- A place in the frame lies outside of the stack. -/
  | outsideStack
  /-- The operand cannot be loaded from, stored to or called. -/
  | badOperand
  | divisionByZero
  /-- A jump goes nowhere. -/
  | noTarget
  /-- No function has the name that is called. -/
  | noEntry
  | returnOutsideCall
  /-- A function returns with other cells than the return cell in its frame. -/
  | unbalancedReturn
  /-- A text of target code is no instruction of this machine. -/
  | foreignCode
deriving DecidableEq, Repr

/-- A state of the machine. -/
structure State where
  /-- The instructions that are still ahead. -/
  rest : List Instr
  /-- The cells of the stack, the top first. -/
  stack : List UInt32
  /-- The number of cells below the return cell of the running function. -/
  base : Nat
  /-- For each call that is not over the instructions behind it and the base of the caller, the
  latest first. -/
  frames : List (List Instr × Nat)
  /-- The cells of the global variables; one that was never written is zero. -/
  globals : String → UInt32
  /-- The cell that was popped last. -/
  flag : Int32

/-- What a halt shows of a state. -/
structure Outcome where
  /-- The top cell, zero if there is none. -/
  top : UInt32
  /-- The number of cells. -/
  depth : Nat
  globals : String → UInt32

namespace State

/-- The state with one more cell. -/
def push (v : UInt32) (s : State) : State := { s with stack := v :: s.stack }

/-- The top cell, and the state without it. -/
def pop (s : State) : Except Fault (UInt32 × State) :=
  match s.stack with
  | [] => .error .emptyStack
  | v :: stack => .ok (v, { s with stack })

/-- The cells of the stack, the top last, so that a cell keeps its place while others come and go
above it. -/
def cells (s : State) : List UInt32 := s.stack.reverse

/-- The place of a frame cell among the cells. -/
def slot (offset : Int) (s : State) : Except Fault Nat :=
  let k := (s.base : Int) - offset.tdiv 4
  if 0 ≤ k ∧ k < s.stack.length then .ok k.toNat else .error .outsideStack

/-- The cell that an operand stands for. -/
def read (operand : Operand) (s : State) : Except Fault UInt32 :=
  match operand with
  | .immediate bits _ => .ok bits
  | .frame offset => (s.slot offset).map fun k => s.cells.getD k 0
  | .global name => .ok (s.globals name)
  | .none | .label _ => .error .badOperand

/-- The state with another cell in the place that an operand stands for. -/
def write (operand : Operand) (v : UInt32) (s : State) : Except Fault State :=
  match operand with
  | .frame offset =>
    (s.slot offset).map fun k => { s with stack := (s.cells.set k v).reverse }
  | .global name =>
    .ok { s with globals := fun x => if x = name then v else s.globals x }
  | .immediate .. | .none | .label _ => .error .badOperand

/-- What a halt shows. -/
def outcome (s : State) : Outcome := ⟨s.stack.headD 0, s.stack.length, s.globals⟩

end State

/-! ### Instructions -/

/-- Arithmetic on two cells: integers wrap and divide toward zero. -/
def compute (op : ArithOp) (type : Scalar) (a b : UInt32) : Except Fault UInt32 :=
  match type with
  | .int =>
    match op with
    | .add => .ok (a.toInt32 + b.toInt32).toUInt32
    | .sub => .ok (a.toInt32 - b.toInt32).toUInt32
    | .mul => .ok (a.toInt32 * b.toInt32).toUInt32
    | .div => if b.toInt32 = 0 then .error .divisionByZero else .ok (a.toInt32 / b.toInt32).toUInt32
  | .float =>
    match op with
    | .add => .ok (Binary32.add ⟨a⟩ ⟨b⟩).bits
    | .sub => .ok (Binary32.sub ⟨a⟩ ⟨b⟩).bits
    | .mul => .ok (Binary32.mul ⟨a⟩ ⟨b⟩).bits
    | .div => .ok (Binary32.div ⟨a⟩ ⟨b⟩).bits

/-- The part of the code that starts at an instruction. -/
def goto? (k : Nat) : List Instr → Option (List Instr)
  | [] => none
  | i :: is => if i.id = k then some (i :: is) else goto? k is

/-- The part of the code that starts at a function; of several functions of one name the last one
counts. -/
def callee? (name : String) : List Instr → Option (List Instr)
  | [] => none
  | i :: is =>
    match callee? name is with
    | some rest => some rest
    | none => if i.op = .entry name then some (i :: is) else none

/-- The part of the code that a jump goes to. -/
def landing? (code : List Instr) (i : Instr) : Option (List Instr) :=
  i.targetId?.bind fun k => goto? k code

/-- The state after an instruction that is no halt.  The instructions ahead in `s` are those behind
it. -/
def execute (code : List Instr) (i : Instr) (s : State) : Except Fault State :=
  match i.op with
  | .load => do pure (s.push (← s.read i.operand))
  | .store => do
    let (v, s) ← s.pop
    s.write i.operand v
  | .pop => do
    let (v, s) ← s.pop
    pure { s with flag := v.toInt32 }
  | .dup => do
    let (v, _) ← s.pop
    pure (s.push v)
  | .arith op type => do
    let (b, s) ← s.pop
    let (a, s) ← s.pop
    pure (s.push (← compute op type a b))
  | .toFloat => do
    let (v, s) ← s.pop
    pure (s.push (Binary32.ofInt32 v.toInt32).bits)
  | .toInt => do
    let (v, s) ← s.pop
    pure (s.push (Binary32.truncate ⟨v⟩).toUInt32)
  | .jump c =>
    if c.holds s.flag then
      match landing? code i with
      | some rest => .ok { s with rest }
      | none => .error .noTarget
    else .ok s
  | .call =>
    match i.operand with
    | .label name =>
      match callee? name code with
      | some rest =>
        .ok { s with
          rest
          stack := 0 :: s.stack
          base := s.stack.length
          frames := (s.rest, s.base) :: s.frames }
      | none => .error .noEntry
    | _ => .error .badOperand
  | .ret =>
    if s.stack.length ≠ s.base + 1 then .error .unbalancedReturn
    else
      match s.frames with
      | (rest, base) :: frames => .ok { s with rest, stack := s.stack.tail, base, frames }
      | [] => .error .returnOutsideCall
  | .assembly _ => .error .foreignCode
  | .halt | .nop | .entry _ => .ok s

/-- What becomes of a state. -/
inductive Turn where
  | next (s : State)
  | halted (o : Outcome)
  | failed (f : Fault)

/-- One instruction. -/
def step (code : List Instr) (s : State) : Turn :=
  match s.rest with
  | [] => .failed .pastEnd
  | i :: rest =>
    if i.op = .halt then .halted s.outcome
    else
      match execute code i { s with rest } with
      | .ok s => .next s
      | .error f => .failed f

/-- Up to `n` instructions. -/
def run (code : List Instr) : Nat → State → Turn
  | 0, s => .next s
  | n + 1, s =>
    match step code s with
    | .next s => run code n s
    | t => t

/-- The state in which code starts: the stack is empty and every variable is zero. -/
def start (code : List Instr) : State := ⟨code, [], 0, [], fun _ => 0, 0⟩

/-- The code runs to a halt that shows `o`. -/
def Halts (code : List Instr) (o : Outcome) : Prop :=
  ∃ n, run code n (start code) = .halted o

/-- What a run of up to `n` instructions to a halt shows. -/
def outcome? (n : Nat) (code : List Instr) : Option Outcome :=
  match run code n (start code) with
  | .halted o => some o
  | _ => none

/-- The state `t` is met on the way from `s`. -/
def Reaches (code : List Instr) (s t : State) : Prop := ∃ n, run code n s = .next t

/-! ### Runs -/

variable {code : List Instr} {s t : State} {o : Outcome}

@[simp] theorem run_zero : run code 0 s = .next s := rfl

theorem run_succ (n : Nat) :
    run code (n + 1) s =
      match step code s with
      | .next t => run code n t
      | turn => turn := rfl

/-- A run of `m + n` instructions is one of `m` and then one of `n`. -/
theorem run_add (m n : Nat) :
    run code (m + n) s =
      match run code m s with
      | .next t => run code n t
      | turn => turn := by
  induction m generalizing s with
  | zero => rw [Nat.zero_add, run_zero]
  | succ m ih =>
      rw [Nat.succ_add, run_succ, run_succ]
      cases step code s with
      | next t => exact ih
      | halted o => rfl
      | failed f => rfl

/-- A run to a halt goes on from every state that it meets. -/
theorem halted_of_reaches {m n : Nat} (h : run code n s = .halted o)
    (hm : run code m s = .next t) : ∃ k, n = m + k ∧ run code k t = .halted o := by
  rcases Nat.le_total m n with hmn | hnm
  · obtain ⟨k, rfl⟩ := Nat.exists_eq_add_of_le hmn
    rw [run_add, hm] at h
    exact ⟨k, rfl, h⟩
  · obtain ⟨k, rfl⟩ := Nat.exists_eq_add_of_le hnm
    rw [run_add, h] at hm
    cases hm

/-- What was reached at a halt is reached by a longer run as well. -/
theorem run_halted_add {n : Nat} (h : run code n s = .halted o) (k : Nat) :
    run code (n + k) s = .halted o := by
  rw [run_add, h]

/-- A run has one outcome. -/
theorem Halts.unique {o' : Outcome} (h : Halts code o) (h' : Halts code o') : o = o' := by
  obtain ⟨n, hn⟩ := h
  obtain ⟨m, hm⟩ := h'
  have hn' := run_halted_add hn m
  have hm' := run_halted_add hm n
  rw [Nat.add_comm, hm'] at hn'
  cases hn'
  rfl

theorem halts_of_outcome? {n : Nat} (h : outcome? n code = some o) : Halts code o := by
  unfold outcome? at h
  split at h
  · cases h
    exact ⟨n, ‹_›⟩
  · cases h

namespace Reaches

@[refl] theorem refl (s : State) : Reaches code s s := ⟨0, rfl⟩

theorem trans {s t u : State} (h : Reaches code s t) (h' : Reaches code t u) :
    Reaches code s u := by
  obtain ⟨m, hm⟩ := h
  obtain ⟨n, hn⟩ := h'
  exact ⟨m + n, by rw [run_add, hm]; exact hn⟩

theorem step (h : step code s = .next t) : Reaches code s t := ⟨1, by rw [run_succ, h]; rfl⟩

/-- A halt that follows a state follows every state from which that one is reached. -/
theorem halted (h : Reaches code s t) (ht : ∃ n, run code n t = .halted o) :
    ∃ n, run code n s = .halted o := by
  obtain ⟨m, hm⟩ := h
  obtain ⟨n, hn⟩ := ht
  exact ⟨m + n, by rw [run_add, hm]; exact hn⟩

end Reaches

/-! ### One instruction -/

/-- What an operand stands for depends on the stack and on the variables only. -/
theorem State.read_congr {operand : Operand} (hstack : s.stack = t.stack)
    (hbase : s.base = t.base) (hglobals : s.globals = t.globals) :
    s.read operand = t.read operand := by
  cases operand <;> simp [State.read, State.slot, State.cells, hstack, hbase, hglobals]

/-- Writing changes the stack or a variable, and depends on nothing else. -/
theorem State.write_eq_ok {operand : Operand} {v : UInt32} (h : s.write operand v = .ok t) :
    t = { s with stack := t.stack, globals := t.globals } ∧
      ∀ u : State, u.stack = s.stack → u.base = s.base → u.globals = s.globals →
        u.write operand v = .ok { u with stack := t.stack, globals := t.globals } := by
  cases operand with
  | frame offset =>
      cases hk : s.slot offset with
      | error f => simp [State.write, hk, Except.map] at h
      | ok k =>
          simp only [State.write, hk, Except.map, Except.ok.injEq] at h
          subst h
          refine ⟨rfl, fun u hstack hbase hglobals => ?_⟩
          have hslot : u.slot offset = .ok k := by
            simpa [State.slot, hstack, hbase] using hk
          simp [State.write, hslot, Except.map, State.cells, hstack, ← hglobals]
  | global name =>
      simp only [State.write, Except.ok.injEq] at h
      subst h
      refine ⟨rfl, fun u hstack hbase hglobals => ?_⟩
      simp [State.write, hglobals, ← hstack]
  | none => cases h
  | immediate bits type => cases h
  | label name => cases h

/-- A cell that could be read can be read with one more cell above it. -/
theorem State.read_push {operand : Operand} {v w : UInt32} (h : s.read operand = .ok v) :
    (s.push w).read operand = .ok v := by
  cases operand with
  | frame offset =>
      simp only [State.read, State.slot] at h ⊢
      split at h
      case isFalse => cases h
      case isTrue hk =>
        have hlt : ((s.base : Int) - offset.tdiv 4).toNat < s.stack.length := by omega
        rw [if_pos (by simp only [State.push, List.length_cons]; omega)]
        simpa [State.push, State.cells, Except.map, List.getElem?_append, hlt] using h
  | none => cases h
  | label name => cases h
  | immediate bits type => exact h
  | global name => exact h

section Execute

variable {i : Instr}

theorem pop_eq_ok {v : UInt32} : s.pop = .ok (v, t) ↔
    ∃ stack, s.stack = v :: stack ∧ t = { s with stack } := by
  cases hs : s.stack with
  | nil => simp [State.pop, hs]
  | cons w stack =>
      simp only [State.pop, hs, Except.ok.injEq, Prod.mk.injEq, List.cons.injEq]
      constructor
      · rintro ⟨rfl, rfl⟩
        exact ⟨stack, ⟨rfl, rfl⟩, rfl⟩
      · rintro ⟨_, ⟨rfl, rfl⟩, rfl⟩
        exact ⟨rfl, rfl⟩

theorem bind_eq_ok {α β : Type} {x : Except Fault α} {f : α → Except Fault β} {b : β} :
    x >>= f = .ok b ↔ ∃ a, x = .ok a ∧ f a = .ok b := by
  cases x with
  | error e => simp [bind, Except.bind]
  | ok a => simp [bind, Except.bind]

theorem execute_load (hi : i.op = .load) : execute code i s = .ok t ↔
    ∃ v, s.read i.operand = .ok v ∧ t = s.push v := by
  simp only [execute, hi, bind_eq_ok]
  simp [pure, Except.pure, eq_comm]

theorem execute_store (hi : i.op = .store) : execute code i s = .ok t ↔
    ∃ v stack, s.stack = v :: stack ∧ State.write i.operand v { s with stack } = .ok t := by
  simp only [execute, hi, bind_eq_ok, Prod.exists, pop_eq_ok]
  constructor
  · rintro ⟨v, u, ⟨stack, hs, rfl⟩, h⟩
    exact ⟨v, stack, hs, h⟩
  · rintro ⟨v, stack, hs, h⟩
    exact ⟨v, _, ⟨stack, hs, rfl⟩, h⟩

theorem execute_pop (hi : i.op = .pop) : execute code i s = .ok t ↔
    ∃ v stack, s.stack = v :: stack ∧ t = { s with stack, flag := v.toInt32 } := by
  simp only [execute, hi, bind_eq_ok, Prod.exists, pop_eq_ok]
  constructor
  · rintro ⟨v, u, ⟨stack, hs, rfl⟩, h⟩
    exact ⟨v, stack, hs, (Except.ok.inj h).symm⟩
  · rintro ⟨v, stack, hs, rfl⟩
    exact ⟨v, _, ⟨stack, hs, rfl⟩, rfl⟩

theorem execute_dup (hi : i.op = .dup) : execute code i s = .ok t ↔
    ∃ v stack, s.stack = v :: stack ∧ t = s.push v := by
  simp only [execute, hi, bind_eq_ok, Prod.exists, pop_eq_ok]
  constructor
  · rintro ⟨v, u, ⟨stack, hs, rfl⟩, h⟩
    exact ⟨v, stack, hs, (Except.ok.inj h).symm⟩
  · rintro ⟨v, stack, hs, rfl⟩
    exact ⟨v, _, ⟨stack, hs, rfl⟩, rfl⟩

theorem execute_arith {op : ArithOp} {type : Scalar} (hi : i.op = .arith op type) :
    execute code i s = .ok t ↔
      ∃ a b v stack, s.stack = b :: a :: stack ∧ compute op type a b = .ok v ∧
        t = { s with stack := v :: stack } := by
  simp only [execute, hi, bind_eq_ok, Prod.exists, pop_eq_ok]
  constructor
  · rintro ⟨b, u, ⟨stack, hs, rfl⟩, a, u', ⟨stack', hs', rfl⟩, v, hv, h⟩
    simp only at hs'
    subst hs'
    exact ⟨a, b, v, stack', hs, hv, (Except.ok.inj h).symm⟩
  · rintro ⟨a, b, v, stack, hs, hv, rfl⟩
    exact ⟨b, _, ⟨_, hs, rfl⟩, a, _, ⟨stack, rfl, rfl⟩, v, hv, rfl⟩

theorem execute_toFloat (hi : i.op = .toFloat) : execute code i s = .ok t ↔
    ∃ v stack, s.stack = v :: stack ∧
      t = { s with stack := (Binary32.ofInt32 v.toInt32).bits :: stack } := by
  simp only [execute, hi, bind_eq_ok, Prod.exists, pop_eq_ok]
  constructor
  · rintro ⟨v, u, ⟨stack, hs, rfl⟩, h⟩
    exact ⟨v, stack, hs, (Except.ok.inj h).symm⟩
  · rintro ⟨v, stack, hs, rfl⟩
    exact ⟨v, _, ⟨stack, hs, rfl⟩, rfl⟩

theorem execute_toInt (hi : i.op = .toInt) : execute code i s = .ok t ↔
    ∃ v stack, s.stack = v :: stack ∧
      t = { s with stack := (Binary32.truncate ⟨v⟩).toUInt32 :: stack } := by
  simp only [execute, hi, bind_eq_ok, Prod.exists, pop_eq_ok]
  constructor
  · rintro ⟨v, u, ⟨stack, hs, rfl⟩, h⟩
    exact ⟨v, stack, hs, (Except.ok.inj h).symm⟩
  · rintro ⟨v, stack, hs, rfl⟩
    exact ⟨v, _, ⟨stack, hs, rfl⟩, rfl⟩

theorem execute_jump {c : Condition} (hi : i.op = .jump c) : execute code i s = .ok t ↔
    (c.holds s.flag = true ∧ ∃ rest, landing? code i = some rest ∧ t = { s with rest }) ∨
      (c.holds s.flag = false ∧ t = s) := by
  simp only [execute, hi]
  cases hc : c.holds s.flag with
  | false => simp [eq_comm]
  | true => cases hl : landing? code i <;> simp [eq_comm]

theorem execute_call (hi : i.op = .call) : execute code i s = .ok t ↔
    ∃ name rest, i.operand = .label name ∧ callee? name code = some rest ∧
      t = { s with
        rest
        stack := 0 :: s.stack
        base := s.stack.length
        frames := (s.rest, s.base) :: s.frames } := by
  simp only [execute, hi]
  cases i.operand with
  | label name => cases h : callee? name code <;> simp [h, eq_comm]
  | none => simp
  | immediate bits type => simp
  | frame offset => simp
  | global name => simp

theorem execute_ret (hi : i.op = .ret) : execute code i s = .ok t ↔
    ∃ rest base frames, s.stack.length = s.base + 1 ∧ s.frames = (rest, base) :: frames ∧
      t = { s with rest, stack := s.stack.tail, base, frames } := by
  simp only [execute, hi]
  by_cases hlen : s.stack.length = s.base + 1
  · cases hf : s.frames with
    | nil => simp [hlen]
    | cons f frames =>
        obtain ⟨rest, base⟩ := f
        simp [hlen, eq_comm]
  · simp [hlen]

theorem execute_assembly {text : String} (hi : i.op = .assembly text) :
    execute code i s ≠ .ok t := by
  simp [execute, hi]

/-- A halt, an entry and an instruction that does nothing leave the state as it is. -/
theorem execute_still (hi : i.op = .nop ∨ i.op = .halt ∨ ∃ name, i.op = .entry name) :
    execute code i s = .ok t ↔ t = s := by
  rcases hi with hi | hi | ⟨name, hi⟩ <;> simp [execute, hi, eq_comm]

end Execute

/-- An instruction that does not halt leads to the state after it. -/
theorem step_eq_next {i : Instr} {rest : List Instr} (hs : s.rest = i :: rest)
    (hi : i.op ≠ .halt) (h : execute code i { s with rest } = .ok t) :
    Machine.step code s = .next t := by
  simp only [Machine.step, hs, if_neg hi, h]

/-- A run that halts later passes the instruction that is next. -/
theorem halted_cons {i : Instr} {rest : List Instr} {n : Nat} (hs : s.rest = i :: rest)
    (hi : i.op ≠ .halt) (h : run code n s = .halted o) :
    ∃ m t, n = m + 1 ∧ execute code i { s with rest } = .ok t ∧ run code m t = .halted o := by
  cases n with
  | zero => cases h
  | succ m =>
      rw [run_succ] at h
      simp only [Machine.step, hs, if_neg hi] at h
      cases he : execute code i { s with rest } with
      | error f => rw [he] at h; cases h
      | ok t =>
          rw [he] at h
          exact ⟨m, t, rfl, rfl, h⟩

end Machine

end StackLang
