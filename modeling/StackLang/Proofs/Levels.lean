/-
**Code with known stack levels.**

In code that keeps its stack in order the number of cells is known before every instruction, counted
from the bottom of the frame of the running function.  Such levels are given by marks at the
instructions.  Whether the marks are right is checked for one instruction at a time against the mark
of the next one, and for each jump against that of its target.

Main definitions:

* `Layout` — how many parameters and local variables a function has;
* `Spot` — the mark of an instruction;
* `Legal`, `Chained`, `Leveled` — the marks of one instruction, of a stretch of code, and of a whole
  program are right;
* `Machine.Disciplined` — what stack discipline asks of a state.

Main results:

* `Machine.disciplined_of_leveled` — **code with right marks keeps the stack in order** in every
  run.
-/

import StackLang.Proofs.Machine.Simulation

set_option relaxedAutoImplicit false
set_option autoImplicit false

namespace StackLang

/-! ### Frames -/

/-- The number of parameters and of local variables of a function. -/
structure Layout where
  params : Nat
  locals : Nat

namespace Layout

/-- The places in the frame: those of the local variables, those of the arguments, and the cell
below them that takes the result. -/
def Covers (l : Layout) (offset : Int) : Prop :=
  (∃ j, j ≤ l.params ∧ offset = 4 * (j + 1)) ∨ ∃ j, j < l.locals ∧ offset = -4 * (j + 1)

end Layout

/-- The number of cells that belong to the frame from its bottom on: the return cell and the local
variables of a function, and none outside of functions. -/
def frameSize (layout : String → Layout) : Option String → Nat
  | none => 0
  | some name => 1 + (layout name).locals

/-- The function to which an instruction belongs, from the one to which those before it do. -/
def Instr.home (owner : Option String) (i : Instr) : Option String :=
  match i.op with
  | .entry name => some name
  | _ => owner

/-- The function to which the code behind some instructions belongs. -/
def homes (owner : Option String) (is : List Instr) : Option String := is.foldl Instr.home owner

namespace Op

/-- The number of cells that an instruction works on. -/
def operands : Op → Nat
  | store | pop | dup | toFloat | toInt => 1
  | arith .. => 2
  | _ => 0

/-- The number of cells that an instruction of an expression takes off the stack. -/
def taken : Op → Nat
  | dup => 0
  | op => op.operands

end Op

namespace Machine

/-- Whether code drops cells and returns, as the end of a function does. -/
def leaves : List Instr → Bool
  | [] => false
  | i :: is => i.op = .ret || ((i.op = .pop || i.op = .nop) && leaves is)

/-- **Stack discipline** before the next instruction.  The instruction finds the cells that it works
on.  It takes no cell of the frame, unless it drops the local variables before a return, and even
then not the return cell.  A return finds the return cell alone, and a halt finds one cell.  Nothing
fails but a division by zero. -/
structure Disciplined (layout : String → Layout) (code : List Instr) (s : State) : Prop where
  operands : ∀ i rest, s.rest = i :: rest → i.op.operands ≤ s.stack.length
  frame : ∃ before, code = before ++ s.rest ∧ ∀ i rest, s.rest = i :: rest →
    0 < i.op.taken → leaves s.rest = false →
      s.base + frameSize layout (homes none before) + i.op.taken ≤ s.stack.length
  leaving : ∀ i rest, s.rest = i :: rest → i.op = .pop → leaves s.rest = true →
    s.base + 2 ≤ s.stack.length
  ret : ∀ i rest, s.rest = i :: rest → i.op = .ret → s.stack.length = s.base + 1
  halt : ∀ i rest, s.rest = i :: rest → i.op = .halt → s.stack.length = 1
  fault : ∀ f, step code s = .failed f → f = .divisionByZero

end Machine

/-! ### Marks -/

/-- The mark of an instruction: the function to which it belongs, the number of cells from the
bottom of the frame on, and whether the frame is being dropped. -/
structure Spot where
  owner : Option String
  level : Nat
  leaving : Bool
deriving DecidableEq

/-- An instruction with a mark. -/
abbrev Marked := Instr × Spot

/-- An operand that can be written at a level. -/
inductive Writable (layout : String → Layout) : Option String → Nat → Operand → Prop where
  | global {owner : Option String} {level : Nat} {label : String} :
      Writable layout owner level (.global label)
  | frame {name : String} {level : Nat} {offset : Int}
      (hlevel : frameSize layout (some name) ≤ level) (hcovers : (layout name).Covers offset) :
      Writable layout (some name) level (.frame offset)

/-- An operand that can be read at a level. -/
inductive Readable (layout : String → Layout) : Option String → Nat → Operand → Prop where
  | immediate {owner : Option String} {level : Nat} {bits : UInt32} {type : Scalar} :
      Readable layout owner level (.immediate bits type)
  | cell {owner : Option String} {level : Nat} {operand : Operand}
      (h : Writable layout owner level operand) : Readable layout owner level operand

section Marks

variable (layout : String → Layout)

/-- **The mark of an instruction is right**, with the mark of the next one. -/
inductive Legal : Instr → Spot → Option Spot → Prop where
  | load {i : Instr} {o : Option String} {n : Nat} (hop : i.op = .load)
      (hread : Readable layout o n i.operand) : Legal i ⟨o, n, false⟩ (some ⟨o, n + 1, false⟩)
  | store {i : Instr} {o : Option String} {n : Nat} {b : Bool} (hop : i.op = .store)
      (hsize : frameSize layout o ≤ n) (hwrite : Writable layout o n i.operand) :
      Legal i ⟨o, n + 1, false⟩ (some ⟨o, n, b⟩)
  | pop {i : Instr} {o : Option String} {n : Nat} (hop : i.op = .pop)
      (hsize : frameSize layout o ≤ n) : Legal i ⟨o, n + 1, false⟩ (some ⟨o, n, false⟩)
  | drop {i : Instr} {o : Option String} {n : Nat} (hop : i.op = .pop) (hn : 1 ≤ n) :
      Legal i ⟨o, n + 1, true⟩ (some ⟨o, n, true⟩)
  | dup {i : Instr} {o : Option String} {n : Nat} (hop : i.op = .dup) :
      Legal i ⟨o, n + 1, false⟩ (some ⟨o, n + 2, false⟩)
  | arith {i : Instr} {o : Option String} {n : Nat} {op : ArithOp} {type : Scalar}
      (hop : i.op = .arith op type) (hsize : frameSize layout o ≤ n) :
      Legal i ⟨o, n + 2, false⟩ (some ⟨o, n + 1, false⟩)
  | convert {i : Instr} {o : Option String} {n : Nat} (hop : i.op = .toFloat ∨ i.op = .toInt)
      (hsize : frameSize layout o ≤ n) : Legal i ⟨o, n + 1, false⟩ (some ⟨o, n + 1, false⟩)
  | goto {i : Instr} {o : Option String} {n : Nat} {next : Option Spot}
      (hop : i.op = .jump .always) : Legal i ⟨o, n, false⟩ next
  | branch {i : Instr} {o : Option String} {n : Nat} {c : Condition} (hop : i.op = .jump c) :
      Legal i ⟨o, n, false⟩ (some ⟨o, n, false⟩)
  | call {i : Instr} {o : Option String} {n : Nat} {name : String} (hop : i.op = .call)
      (hname : i.operand = .label name)
      (hsize : frameSize layout o + (layout name).params + 1 ≤ n) :
      Legal i ⟨o, n, false⟩ (some ⟨o, n, false⟩)
  | ret {i : Instr} {name : String} {b : Bool} {next : Option Spot} (hop : i.op = .ret) :
      Legal i ⟨some name, 1, b⟩ next
  | halt {i : Instr} {next : Option Spot} (hop : i.op = .halt) : Legal i ⟨none, 1, false⟩ next
  | nop {i : Instr} {σ : Spot} (hop : i.op = .nop) : Legal i σ (some σ)
  | entry {i : Instr} {name : String} (hop : i.op = .entry name) :
      Legal i ⟨some name, 1, false⟩ (some ⟨some name, 1, false⟩)

/-- The mark of the first of some instructions, or of what comes behind them. -/
def headSpot (ann : List Marked) (last : Option Spot) : Option Spot :=
  (ann.head?.map Prod.snd).or last

/-- **The marks of a stretch of code are right**, with the function to which the code before it
belongs and the mark of what comes behind it. -/
def Chained : Option String → List Marked → Option Spot → Prop
  | _, [], _ => True
  | owner, p :: ann, last =>
    p.2.owner = p.1.home owner ∧ Legal layout p.1 p.2 (headSpot ann last) ∧
      Chained (p.1.home owner) ann last

/-- **The marks of a program are right**: those of a jump and of its target agree, and every
function that is called is there. -/
structure Leveled (ann : List Marked) : Prop where
  chained : Chained layout none ann none
  start : ∃ i rest, ann = (i, ⟨none, 0, false⟩) :: rest
  targets : ∀ p ∈ ann, p.1.op.isJump = true →
    ∃ q ∈ ann, p.1.targetId? = some q.1.id ∧ q.2 = p.2
  callees : ∀ p ∈ ann, p.1.op = .call → ∀ name, p.1.operand = .label name →
    ∃ q ∈ ann, q.1.op = .entry name

end Marks

/-! ### Stretches of marked code -/

section Chained

variable {layout : String → Layout} {xs ys : List Marked} {owner : Option String}
  {last : Option Spot}

@[simp] theorem headSpot_nil (last : Option Spot) : headSpot [] last = last := rfl

@[simp] theorem headSpot_cons (p : Marked) (xs : List Marked) (last : Option Spot) :
    headSpot (p :: xs) last = some p.2 := rfl

theorem headSpot_append (xs ys : List Marked) (last : Option Spot) :
    headSpot (xs ++ ys) last = headSpot xs (headSpot ys last) := by
  cases xs <;> rfl

@[simp] theorem homes_nil (owner : Option String) : homes owner [] = owner := rfl

@[simp] theorem homes_cons (owner : Option String) (i : Instr) (is : List Instr) :
    homes owner (i :: is) = homes (i.home owner) is := rfl

theorem chained_append : Chained layout owner (xs ++ ys) last ↔
    Chained layout owner xs (headSpot ys last) ∧
      Chained layout (homes owner (xs.map Prod.fst)) ys last := by
  induction xs generalizing owner with
  | nil => simp [Chained]
  | cons p xs ih =>
      simp only [List.cons_append, Chained, ih, List.map_cons, homes_cons, headSpot_append]
      tauto

theorem home_eq {i : Instr} (h : ∀ name, i.op ≠ .entry name) : i.home owner = owner := by
  unfold Instr.home
  split
  · exact absurd ‹_› (h _)
  · rfl

end Chained

/-! ### Runs -/

namespace Machine

section Runs

variable {layout : String → Layout} {ann : List Marked} {s t : State}

/-- Some instructions are those of the program from one with the mark `σ` on. -/
def At (ann : List Marked) (rest : List Instr) (σ : Spot) : Prop :=
  ∃ pre i suf, ann = pre ++ (i, σ) :: suf ∧ rest = i :: suf.map Prod.fst

/-- **The frames of the calls that are not over**: each caller goes on with the cells that it had at
the call, and these hold the arguments and the cell for the result. -/
inductive Framed (layout : String → Layout) (ann : List Marked) :
    Option String → Nat → List (List Instr × Nat) → Prop where
  | main : Framed layout ann none 0 []
  | call {name : String} {o : Option String} {n base : Nat} {rest : List Instr}
      {frames : List (List Instr × Nat)} (hat : At ann rest ⟨o, n, false⟩)
      (hsize : frameSize layout o + (layout name).params + 1 ≤ n)
      (h : Framed layout ann o base frames) :
      Framed layout ann (some name) (base + n) ((rest, base) :: frames)

/-- **The invariant of a run**: there are as many cells as the mark of the next instruction says. -/
structure Balanced (layout : String → Layout) (ann : List Marked) (σ : Spot) (s : State) :
    Prop where
  place : At ann s.rest σ
  length : s.stack.length = s.base + σ.level
  framed : Framed layout ann σ.owner s.base s.frames

/-- The mark of an instruction is right, and the next instruction has the next mark. -/
theorem legal_of_at (h : Leveled layout ann) {i : Instr} {rest : List Instr} {σ : Spot}
    (hat : At ann (i :: rest) σ) :
    ∃ next, Legal layout i σ next ∧ (∀ τ, next = some τ → At ann rest τ) ∧ (i, σ) ∈ ann ∧
      ∃ before, ann.map Prod.fst = before ++ i :: rest ∧ σ.owner = i.home (homes none before) ∧
        ∃ pre suf, ann = pre ++ (i, σ) :: suf ∧ rest = suf.map Prod.fst := by
  obtain ⟨pre, j, suf, rfl, heq⟩ := hat
  obtain ⟨rfl, rfl⟩ := List.cons.inj heq
  obtain ⟨-, howner, hlegal, -⟩ := chained_append.1 h.chained
  refine ⟨_, hlegal, ?_, by simp, pre.map Prod.fst, by simp, howner, pre, suf, rfl, rfl⟩
  intro τ hτ
  cases suf with
  | nil => cases hτ
  | cons p suf =>
      cases hτ
      exact ⟨pre ++ [(i, σ)], p.1, suf, by simp, rfl⟩

/-- A function that runs was given its arguments and the cell for the result. -/
theorem Framed.params_le {name : String} {base : Nat} {frames : List (List Instr × Nat)}
    (h : Framed layout ann (some name) base frames) : (layout name).params + 1 ≤ base := by
  cases h
  omega

/-- Outside of functions no frame lies below. -/
theorem Framed.base_eq_zero {base : Nat} {frames : List (List Instr × Nat)}
    (h : Framed layout ann none base frames) : base = 0 := by
  cases h
  rfl

/-- Behind a function that runs stands its caller. -/
theorem Framed.exists_call {name : String} {base : Nat} {frames : List (List Instr × Nat)}
    (h : Framed layout ann (some name) base frames) :
    ∃ o n base' rest frames', frames = (rest, base') :: frames' ∧ base = base' + n ∧
      At ann rest ⟨o, n, false⟩ ∧ Framed layout ann o base' frames' := by
  cases h with
  | call hat hsize h => exact ⟨_, _, _, _, _, rfl, rfl, hat, h⟩

/-- A place of the frame lies among the cells. -/
theorem slot_eq_ok {name : String} {offset : Int} (hcovers : (layout name).Covers offset)
    (hlength : s.base + frameSize layout (some name) ≤ s.stack.length)
    (hbase : (layout name).params + 1 ≤ s.base) : ∃ k, s.slot offset = .ok k := by
  simp only [frameSize] at hlength
  rcases hcovers with ⟨j, hj, rfl⟩ | ⟨j, hj, rfl⟩
  · have hdiv : (4 * ((j : Int) + 1)).tdiv 4 = j + 1 := Int.mul_tdiv_cancel_left _ (by omega)
    simp only [State.slot, hdiv]
    rw [if_pos (by omega)]
    exact ⟨_, rfl⟩
  · have hdiv : (-4 * ((j : Int) + 1)).tdiv 4 = -(j + 1) := by
      rw [Int.neg_mul, Int.neg_tdiv, Int.mul_tdiv_cancel_left _ (by omega)]
    simp only [State.slot, hdiv]
    rw [if_pos (by omega)]
    exact ⟨_, rfl⟩

theorem write_of_writable {o : Option String} {n : Nat} {operand : Operand}
    (h : Writable layout o n operand) (hlength : s.stack.length = s.base + n)
    (hframed : Framed layout ann o s.base s.frames) (v : UInt32) :
    ∃ t, s.write operand v = .ok t ∧ t.stack.length = s.stack.length := by
  cases h with
  | global => exact ⟨_, rfl, rfl⟩
  | frame hlevel hcovers =>
      obtain ⟨k, hk⟩ := slot_eq_ok hcovers (by omega) hframed.params_le
      refine ⟨{ s with stack := (s.cells.set k v).reverse }, ?_, by simp [State.cells]⟩
      rw [State.write, hk]
      rfl

theorem read_of_readable {o : Option String} {n : Nat} {operand : Operand}
    (h : Readable layout o n operand) (hlength : s.stack.length = s.base + n)
    (hframed : Framed layout ann o s.base s.frames) : ∃ v, s.read operand = .ok v := by
  cases h with
  | immediate => exact ⟨_, rfl⟩
  | cell h =>
      cases h with
      | global => exact ⟨_, rfl⟩
      | frame hlevel hcovers =>
          obtain ⟨k, hk⟩ := slot_eq_ok hcovers (by omega) hframed.params_le
          refine ⟨s.cells.getD k 0, ?_⟩
          rw [State.read, hk]
          rfl

/-- A jump finds its target, where as many cells are known. -/
theorem landing_of_mem (h : Leveled layout ann) (hreg : Regular (ann.map Prod.fst)) {i : Instr}
    {σ : Spot} (hmem : (i, σ) ∈ ann) (hop : i.op.isJump = true) :
    ∃ l, landing? (ann.map Prod.fst) i = some l ∧ At ann l σ := by
  obtain ⟨q, hq, htarget, hspot⟩ := h.targets (i, σ) hmem hop
  obtain ⟨pre, suf, rfl⟩ := List.append_of_mem hq
  refine ⟨q.1 :: suf.map Prod.fst, ?_, pre, q.1, suf, ?_, rfl⟩
  · rw [landing?, htarget, Option.bind_some]
    have hnodup := hreg.nodup
    simp only [List.map_append, List.map_cons] at hnodup ⊢
    refine goto?_append_cons fun hin => ?_
    exact List.disjoint_of_nodup_append hnodup hin (by simp)
  · rw [← show q.2 = σ from hspot]

/-- A call finds its function, which starts with the return cell alone. -/
theorem callee_of_mem (h : Leveled layout ann) {i : Instr} {σ : Spot} (hmem : (i, σ) ∈ ann)
    (hop : i.op = .call) {name : String} (hname : i.operand = .label name) :
    ∃ l, callee? name (ann.map Prod.fst) = some l ∧ At ann l ⟨some name, 1, false⟩ := by
  obtain ⟨q, hq, hentry⟩ := h.callees (i, σ) hmem hop name hname
  cases hl : callee? name (ann.map Prod.fst) with
  | none =>
      obtain ⟨pre, suf, heq⟩ := List.append_of_mem (List.mem_map_of_mem (f := Prod.fst) hq)
      rw [heq, callee?_append] at hl
      cases hs : callee? name suf <;> simp [callee?, hs, hentry] at hl
  | some l =>
      refine ⟨l, rfl, ?_⟩
      obtain ⟨pre, j, rest, heq, rfl, hj⟩ := exists_of_callee? hl
      obtain ⟨pre', suf', rfl, rfl, hsuf⟩ := List.map_eq_append_iff.1 heq
      obtain ⟨q', suf'', rfl, rfl, rfl⟩ := List.map_eq_cons_iff.1 hsuf
      obtain ⟨-, -, hlegal, -⟩ := chained_append.1 h.chained
      have hspot : q'.2 = ⟨some name, 1, false⟩ := by
        generalize headSpot suf'' none = next at hlegal
        obtain ⟨j, τ⟩ := q'
        cases hlegal <;> simp_all
      exact ⟨pre', q'.1, suf'', by rw [← hspot], rfl⟩

theorem exists_cons_of_length {α : Type} {l : List α} {m n : Nat} (h : l.length = m + (n + 1)) :
    ∃ a l', l = a :: l' ∧ l'.length = m + n := by
  cases l with
  | nil => cases h
  | cons a l => exact ⟨a, l, rfl, Nat.succ_injective h⟩

/-- Nothing is computed only where an integer is divided by zero. -/
theorem compute_eq_error {op : ArithOp} {type : Scalar} {a b : UInt32} {f : Fault}
    (h : compute op type a b = .error f) : f = .divisionByZero := by
  cases type with
  | float => cases op <;> cases h
  | int =>
      cases op with
      | div =>
          simp only [compute] at h
          split at h
          · cases h
            rfl
          · cases h
      | _ => cases h

/-- **One instruction keeps the levels right**, unless it divides by zero. -/
theorem Balanced.execute (h : Leveled layout ann) (hreg : Regular (ann.map Prod.fst)) {σ : Spot}
    (hb : Balanced layout ann σ s) {i : Instr} {rest : List Instr} (hs : s.rest = i :: rest)
    (hi : i.op ≠ .halt) :
    (∃ t τ, Machine.execute (ann.map Prod.fst) i { s with rest } = .ok t ∧
        Balanced layout ann τ t) ∨
      Machine.execute (ann.map Prod.fst) i { s with rest } = .error .divisionByZero := by
  obtain ⟨hplace, hlength, hframed⟩ := hb
  obtain ⟨next, hlegal, hnext, hmem, -⟩ := legal_of_at h (hs ▸ hplace)
  -- an instruction that goes on to the next one with other cells
  have hstep : ∀ (t : State) (n : Nat) (b : Bool), next = some ⟨σ.owner, n, b⟩ → t.rest = rest →
      t.base = s.base → t.frames = s.frames → t.stack.length = s.base + n →
      ∃ τ, Balanced layout ann τ t := by
    intro t n b hn hrest hbase hframes hcells
    refine ⟨⟨σ.owner, n, b⟩, hrest ▸ hnext _ hn, hbase ▸ hcells, ?_⟩
    rw [hbase, hframes]
    exact hframed
  cases hlegal with
  | load hop hread =>
      obtain ⟨v, hv⟩ := read_of_readable (s := { s with rest }) hread hlength hframed
      obtain ⟨τ, hτ⟩ :=
        hstep ({ s with rest }.push v) _ _ rfl rfl rfl rfl (congrArg (· + 1) hlength)
      exact .inl ⟨_, τ, (execute_load hop).2 ⟨v, hv, rfl⟩, hτ⟩
  | store hop hsize hwrite =>
      obtain ⟨v, stack, hstack, hcells⟩ := exists_cons_of_length hlength
      obtain ⟨t, ht, htlength⟩ := write_of_writable (s := { s with rest, stack }) hwrite hcells
        hframed v
      have hkept := (State.write_eq_ok ht).1
      obtain ⟨τ, hτ⟩ := hstep t _ _ rfl (by rw [hkept]) (by rw [hkept]) (by rw [hkept])
        (htlength.trans hcells)
      exact .inl ⟨t, τ, (execute_store hop).2 ⟨v, stack, hstack, ht⟩, hτ⟩
  | pop hop hsize =>
      obtain ⟨v, stack, hstack, hcells⟩ := exists_cons_of_length hlength
      obtain ⟨τ, hτ⟩ := hstep { s with rest, stack, flag := v.toInt32 } _ _ rfl rfl rfl rfl hcells
      exact .inl ⟨_, τ, (execute_pop hop).2 ⟨v, stack, hstack, rfl⟩, hτ⟩
  | drop hop hn =>
      obtain ⟨v, stack, hstack, hcells⟩ := exists_cons_of_length hlength
      obtain ⟨τ, hτ⟩ := hstep { s with rest, stack, flag := v.toInt32 } _ _ rfl rfl rfl rfl hcells
      exact .inl ⟨_, τ, (execute_pop hop).2 ⟨v, stack, hstack, rfl⟩, hτ⟩
  | dup hop =>
      obtain ⟨v, stack, hstack, -⟩ := exists_cons_of_length hlength
      obtain ⟨τ, hτ⟩ :=
        hstep ({ s with rest }.push v) _ _ rfl rfl rfl rfl (congrArg (· + 1) hlength)
      exact .inl ⟨_, τ, (execute_dup hop).2 ⟨v, stack, hstack, rfl⟩, hτ⟩
  | @arith o n op type hop hsize =>
      obtain ⟨b, stack, hstack, hcells⟩ := exists_cons_of_length hlength
      obtain ⟨a, stack, rfl, hcells⟩ := exists_cons_of_length hcells
      cases hcompute : compute op type a b with
      | ok v =>
          obtain ⟨τ, hτ⟩ := hstep { s with rest, stack := v :: stack } _ _ rfl rfl rfl rfl hcells
          exact .inl ⟨_, τ, (execute_arith hop).2 ⟨a, b, v, stack, hstack, hcompute, rfl⟩, hτ⟩
      | error f =>
          refine .inr ?_
          rw [compute_eq_error hcompute] at hcompute
          simp only [Machine.execute, hop, State.pop, hstack, bind, Except.bind, hcompute]
  | convert hop hsize =>
      obtain ⟨v, stack, hstack, hcells⟩ := exists_cons_of_length hlength
      rcases hop with hop | hop
      · obtain ⟨τ, hτ⟩ := hstep
          { s with rest, stack := (Binary32.ofInt32 v.toInt32).bits :: stack } _ _ rfl rfl rfl rfl
          (congrArg (· + 1) hcells)
        exact .inl ⟨_, τ, (execute_toFloat hop).2 ⟨v, stack, hstack, rfl⟩, hτ⟩
      · obtain ⟨τ, hτ⟩ := hstep
          { s with rest, stack := (Binary32.truncate ⟨v⟩).toUInt32 :: stack } _ _ rfl rfl rfl rfl
          (congrArg (· + 1) hcells)
        exact .inl ⟨_, τ, (execute_toInt hop).2 ⟨v, stack, hstack, rfl⟩, hτ⟩
  | goto hop =>
      obtain ⟨l, hl, hat⟩ := landing_of_mem h hreg hmem (by rw [hop]; rfl)
      exact .inl ⟨_, _, (execute_jump hop).2 (.inl ⟨rfl, l, hl, rfl⟩), hat, hlength, hframed⟩
  | @branch o n c hop =>
      cases hc : c.holds s.flag with
      | true =>
          obtain ⟨l, hl, hat⟩ := landing_of_mem h hreg hmem (by rw [hop]; rfl)
          exact .inl ⟨_, _, (execute_jump hop).2 (.inl ⟨hc, l, hl, rfl⟩), hat, hlength, hframed⟩
      | false =>
          exact .inl ⟨_, _, (execute_jump hop).2 (.inr ⟨hc, rfl⟩), hnext _ rfl, hlength, hframed⟩
  | call hop hname hsize =>
      obtain ⟨l, hl, hat⟩ := callee_of_mem h hmem hop hname
      refine .inl ⟨_, _, (execute_call hop).2 ⟨_, l, hname, hl, rfl⟩, hat, rfl, ?_⟩
      rw [hlength]
      exact .call (hnext _ rfl) hsize hframed
  | ret hop =>
      -- the caller has the cells that it had at the call
      obtain ⟨o, n, base', rest', frames', hframes, hbase, hat, hcaller⟩ := hframed.exists_call
      have hcells : s.stack.length = s.base + 1 := hlength
      refine .inl ⟨_, _, (execute_ret hop).2 ⟨rest', base', frames', hcells, hframes, rfl⟩, hat, ?_,
        hcaller⟩
      rw [List.length_tail, hcells, hbase]
      rfl
  | halt hop => exact absurd hop hi
  | nop hop => exact .inl ⟨_, _, (execute_still (.inl hop)).2 rfl, hnext _ rfl, hlength, hframed⟩
  | entry hop =>
      exact .inl ⟨_, _, (execute_still (.inr (.inr ⟨_, hop⟩))).2 rfl, hnext _ rfl, hlength, hframed⟩

/-- A frame is only dropped before a return. -/
theorem leaves_of_leaving {owner : Option String} {xs : List Marked}
    (h : Chained layout owner xs none) {p : Marked} {ys : List Marked} (hxs : xs = p :: ys)
    (hp : p.2.leaving = true) : leaves (xs.map Prod.fst) = true := by
  induction xs generalizing owner p ys with
  | nil => cases hxs
  | cons q xs ih =>
      obtain ⟨rfl, rfl⟩ := List.cons.inj hxs
      obtain ⟨i, σ⟩ := q
      obtain ⟨-, hlegal, hrest⟩ := h
      -- the next instruction drops the frame as well
      have hgoes : (i.op = .pop ∨ i.op = .nop) →
          (∀ τ, headSpot xs none = some τ → τ.leaving = true) →
          headSpot xs none ≠ none → leaves (((i, σ) :: xs).map Prod.fst) = true := by
        intro hop hnext hne
        cases xs with
        | nil => exact absurd rfl hne
        | cons q xs =>
            have hleaves := ih hrest rfl (hnext q.2 rfl)
            rw [List.map_cons, leaves, hleaves]
            rcases hop with hop | hop <;> simp [hop]
      generalize hnext : headSpot xs none = next at hlegal hgoes
      cases hlegal with
      | drop hop hn => exact hgoes (.inl hop) (by rintro _ ⟨⟩; rfl) nofun
      | nop hop => exact hgoes (.inr hop) (by rintro _ ⟨⟩; exact hp) nofun
      | ret hop => rw [List.map_cons, leaves, hop]; rfl
      | _ => cases hp

/-- Outside of functions nothing is dropped before a return. -/
theorem owner_of_leaves {owner : Option String} {xs : List Marked}
    (h : Chained layout owner xs none) {p : Marked} {ys : List Marked} (hxs : xs = p :: ys)
    (hleaves : leaves (xs.map Prod.fst) = true) : p.2.owner ≠ none := by
  induction xs generalizing owner p ys with
  | nil => cases hxs
  | cons q xs ih =>
      obtain ⟨rfl, rfl⟩ := List.cons.inj hxs
      obtain ⟨i, σ⟩ := q
      obtain ⟨-, hlegal, hrest⟩ := h
      rw [List.map_cons, leaves, Bool.or_eq_true, Bool.and_eq_true] at hleaves
      have hnext : ∀ τ, headSpot xs none = some τ → leaves (xs.map Prod.fst) = true →
          τ.owner ≠ none := by
        intro τ hτ hxs
        cases xs with
        | nil => cases hτ
        | cons q xs =>
            cases hτ
            exact ih hrest rfl hxs
      generalize headSpot xs none = next at hlegal hnext
      rcases hleaves with hret | ⟨hop, hbehind⟩
      · have hret : i.op = .ret := by simpa using hret
        cases hlegal <;> simp_all
      · have hop : i.op = .pop ∨ i.op = .nop := by simpa using hop
        cases hlegal with
        | @pop o n => exact hnext ⟨o, n, false⟩ rfl hbehind
        | @drop o n => exact hnext ⟨o, n, true⟩ rfl hbehind
        | nop => exact hnext σ rfl hbehind
        | _ => simp_all

end Runs

end Machine

/-! ### Discipline -/

namespace Legal

variable {layout : String → Layout} {i : Instr} {σ : Spot} {next : Option Spot}

/-- The cells that an instruction works on are there. -/
theorem operands_le (h : Legal layout i σ next) : i.op.operands ≤ σ.level := by
  cases h with
  | convert hop => rcases hop with hop | hop <;> simp [hop, Op.operands]
  | _ => simp [*, Op.operands]

/-- The cells that an instruction takes do not belong to the frame. -/
theorem taken_le (h : Legal layout i σ next) (htaken : 0 < i.op.taken) (hσ : σ.leaving = false) :
    frameSize layout σ.owner + i.op.taken ≤ σ.level := by
  cases h with
  | store hop hsize => simpa [hop, Op.taken, Op.operands] using hsize
  | pop hop hsize => simpa [hop, Op.taken, Op.operands] using hsize
  | drop => cases hσ
  | arith hop hsize => simpa [hop, Op.taken, Op.operands] using hsize
  | convert hop hsize =>
      rcases hop with hop | hop <;> simpa [hop, Op.taken, Op.operands] using hsize
  | _ => simp [*, Op.taken, Op.operands] at htaken

/-- A drop inside of a function leaves the return cell. -/
theorem two_le_of_pop (h : Legal layout i σ next) (hop : i.op = .pop) (hσ : σ.owner ≠ none) :
    2 ≤ σ.level := by
  cases h with
  | @pop o n hop hsize =>
      cases o with
      | none => exact absurd rfl hσ
      | some name =>
          simp only [frameSize] at hsize
          simp only
          omega
  | @drop o n hop hn => exact Nat.succ_le_succ hn
  | convert hop' => rcases hop' with hop' | hop' <;> simp [hop] at hop'
  | _ => simp_all

theorem level_of_ret (h : Legal layout i σ next) (hop : i.op = .ret) : σ.level = 1 := by
  cases h with
  | ret => rfl
  | convert hop' => rcases hop' with hop' | hop' <;> simp [hop] at hop'
  | _ => simp_all

theorem of_halt (h : Legal layout i σ next) (hop : i.op = .halt) :
    σ.level = 1 ∧ σ.owner = none := by
  cases h with
  | halt => exact ⟨rfl, rfl⟩
  | convert hop' => rcases hop' with hop' | hop' <;> simp [hop] at hop'
  | _ => simp_all

end Legal

namespace Machine

section Discipline

variable {layout : String → Layout} {ann : List Marked} {s : State} {σ : Spot}

/-- Where the levels are right the stack is in order. -/
theorem Balanced.disciplined (h : Leveled layout ann) (hreg : Regular (ann.map Prod.fst))
    (hb : Balanced layout ann σ s) : Disciplined layout (ann.map Prod.fst) s := by
  obtain ⟨hplace, hlength, hframed⟩ := id hb
  obtain ⟨-, i, rest, -, hrest⟩ := id hplace
  obtain ⟨next, hlegal, -, -, before, hcode, howner, pre, suf, rfl, hsuf⟩ :=
    legal_of_at h (hrest ▸ hplace)
  have hchained := (chained_append.1 h.chained).2
  have hi : ∀ {j rest'}, s.rest = j :: rest' → j = i := fun hj =>
    (List.cons.inj (hj.symm.trans hrest)).1
  have hmap : s.rest = (((i, σ) :: suf).map Prod.fst) := by rw [hrest, hsuf]; rfl
  refine ⟨fun j rest' hj => ?_,
    ⟨before, by rw [hrest]; exact hcode, fun j rest' hj htaken hstays => ?_⟩,
    fun j rest' hj hpop hgoes => ?_, fun j rest' hj hret => ?_, fun j rest' hj hhalt => ?_,
    fun f hf => ?_⟩
  · have := hlegal.operands_le
    rw [hi hj]
    omega
  · have hσ : σ.leaving = false := by
      by_contra hσ
      rw [hmap, leaves_of_leaving hchained rfl (by simpa using hσ)] at hstays
      cases hstays
    rw [hi hj] at htaken ⊢
    have hsize := hlegal.taken_le htaken hσ
    have hhome : i.home (homes none before) = homes none before := by
      refine home_eq fun name hname => ?_
      simp [hname, Op.taken, Op.operands] at htaken
    rw [howner, hhome] at hsize
    omega
  · rw [hi hj] at hpop
    have hnone := owner_of_leaves hchained rfl (hmap ▸ hgoes)
    have := hlegal.two_le_of_pop hpop hnone
    omega
  · rw [hi hj] at hret
    rw [hlength, hlegal.level_of_ret hret]
  · rw [hi hj] at hhalt
    obtain ⟨hlevel, howner'⟩ := hlegal.of_halt hhalt
    rw [howner'] at hframed
    rw [hlength, hlevel, hframed.base_eq_zero]
  · by_cases hhalt : i.op = .halt
    · simp only [step, hrest, if_pos hhalt] at hf
      cases hf
    · rcases hb.execute h hreg hrest hhalt with ⟨t, τ, ht, -⟩ | herror
      · simp only [step, hrest, if_neg hhalt, ht] at hf
        cases hf
      · simp only [step, hrest, if_neg hhalt, herror] at hf
        cases hf
        rfl

/-- A run starts without cells. -/
theorem balanced_start (h : Leveled layout ann) :
    Balanced layout ann ⟨none, 0, false⟩ (start (ann.map Prod.fst)) := by
  obtain ⟨i, rest, rfl⟩ := h.start
  exact ⟨⟨[], i, rest, rfl, rfl⟩, rfl, .main⟩

/-- **Every state of a run has the levels of its place.** -/
theorem exists_balanced (h : Leveled layout ann) (hreg : Regular (ann.map Prod.fst)) {n : Nat}
    (hb : Balanced layout ann σ s) {t : State} (hn : run (ann.map Prod.fst) n s = .next t) :
    ∃ τ, Balanced layout ann τ t := by
  induction n generalizing s σ with
  | zero =>
      cases hn
      exact ⟨σ, hb⟩
  | succ n ih =>
      obtain ⟨-, i, rest, -, hrest⟩ := id hb.place
      rw [run_succ] at hn
      by_cases hhalt : i.op = .halt
      · simp only [step, hrest, if_pos hhalt] at hn
        cases hn
      · rcases hb.execute h hreg hrest hhalt with ⟨u, τ, hu, hτ⟩ | herror
        · simp only [step, hrest, if_neg hhalt, hu] at hn
          exact ih hτ hn
        · simp only [step, hrest, if_neg hhalt, herror] at hn
          cases hn

/-- **Code with right marks keeps the stack in order** in every run. -/
theorem disciplined_of_leveled (h : Leveled layout ann) (hreg : Regular (ann.map Prod.fst))
    (hs : Reaches (ann.map Prod.fst) (start (ann.map Prod.fst)) s) :
    Disciplined layout (ann.map Prod.fst) s := by
  obtain ⟨n, hn⟩ := hs
  obtain ⟨τ, hτ⟩ := exists_balanced h hreg (balanced_start h) hn
  exact hτ.disciplined h hreg

end Discipline

end Machine

end StackLang
