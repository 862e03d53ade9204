/-
**Single instructions on the way.**

What one instruction does to a state that is met on a run, and what repeated pushes and pops do.

Main results:

* `Machine.reaches_load`, `Machine.reaches_store`, `Machine.reaches_pop`, `Machine.reaches_arith`,
  `Machine.reaches_call`, `Machine.reaches_ret` — the state behind one instruction;
* `Machine.reaches_goto` — a jump that is taken;
* `Machine.reaches_pushes`, `Machine.reaches_pops` — the same cell pushed, and cells popped.
-/

import StackLang.Proofs.Lower.Emits
import StackLang.Proofs.Machine.Simulation

set_option relaxedAutoImplicit false
set_option autoImplicit false

namespace StackLang

namespace Machine

variable {code rest : List Instr} {s t : State} {i : Instr}

theorem reaches_load {v : UInt32} (hs : s.rest = i :: rest) (hi : i.op = .load)
    (hv : s.read i.operand = .ok v) :
    Reaches code s { s with rest, stack := v :: s.stack } :=
  .step (step_eq_next hs (by simp [hi]) ((execute_load hi).2
    ⟨v, (State.read_congr rfl rfl rfl).trans hv, rfl⟩))

theorem reaches_store {v : UInt32} {stack : List UInt32} (hs : s.rest = i :: rest)
    (hi : i.op = .store) (hstack : s.stack = v :: stack)
    (ht : State.write i.operand v { s with rest, stack } = .ok t) : Reaches code s t :=
  .step (step_eq_next hs (by simp [hi]) ((execute_store hi).2 ⟨v, stack, hstack, ht⟩))

theorem reaches_pop {v : UInt32} {stack : List UInt32} (hs : s.rest = i :: rest)
    (hi : i.op = .pop) (hstack : s.stack = v :: stack) :
    Reaches code s { s with rest, stack, flag := v.toInt32 } :=
  .step (step_eq_next hs (by simp [hi]) ((execute_pop hi).2 ⟨v, stack, hstack, rfl⟩))

theorem reaches_arith {op : ArithOp} {type : Scalar} {a b v : UInt32} {stack : List UInt32}
    (hs : s.rest = i :: rest) (hi : i.op = .arith op type) (hstack : s.stack = b :: a :: stack)
    (hv : compute op type a b = .ok v) :
    Reaches code s { s with rest, stack := v :: stack } :=
  .step (step_eq_next hs (by simp [hi]) ((execute_arith hi).2 ⟨a, b, v, stack, hstack, hv, rfl⟩))

theorem reaches_call {name : String} {l : List Instr} (hs : s.rest = i :: rest)
    (hi : i.op = .call) (hname : i.operand = .label name) (hl : callee? name code = some l) :
    Reaches code s { s with
      rest := l
      stack := 0 :: s.stack
      base := s.stack.length
      frames := (rest, s.base) :: s.frames } :=
  .step (step_eq_next hs (by simp [hi]) ((execute_call hi).2 ⟨name, l, hname, hl, rfl⟩))

theorem reaches_ret {v : UInt32} {stack : List UInt32} {back : List Instr} {base : Nat}
    {frames : List (List Instr × Nat)} (hs : s.rest = i :: rest) (hi : i.op = .ret)
    (hstack : s.stack = v :: stack) (hlength : stack.length = s.base)
    (hframes : s.frames = (back, base) :: frames) :
    Reaches code s { s with rest := back, stack, base, frames } := by
  refine .step (step_eq_next hs (by simp [hi]) ((execute_ret hi).2
    ⟨back, base, frames, ?_, hframes, ?_⟩))
  · rw [hstack, List.length_cons, hlength]
  · rw [hstack, List.tail_cons]

/-- An instruction that does nothing, or the start of a function, is passed. -/
theorem reaches_still (hs : s.rest = i :: rest) (hi : i.op = .nop ∨ ∃ name, i.op = .entry name) :
    Reaches code s { s with rest } := by
  refine .step (step_eq_next hs ?_ ((execute_still ?_).2 rfl))
  · rcases hi with hi | ⟨name, hi⟩ <;> simp [hi]
  · exact hi.imp_right .inr

/-- **A jump that is taken** goes to where its target stands. -/
theorem reaches_goto {c : Condition} {k : Nat} {pre post : List Instr} {j : Instr}
    (hnodup : (code.map Instr.id).Nodup) (hs : s.rest = i :: rest) (hi : i.op = .jump c)
    (htarget : i.target = some (.instr k)) (hc : c.holds s.flag = true)
    (hcode : code = pre ++ j :: post) (hj : j.id = k) :
    Reaches code s { s with rest := j :: post } := by
  refine reaches_of_holds hs hi hc ?_
  rw [landing?, Instr.targetId?, htarget, Option.bind_some, hcode, ← hj]
  refine goto?_append_cons fun hmem => ?_
  rw [hcode, List.map_append, List.map_cons] at hnodup
  exact List.disjoint_of_nodup_append hnodup hmem List.mem_cons_self

/-- The same cell is pushed a number of times. -/
theorem reaches_pushes (k n : Nat) {v : UInt32} {operand : Operand}
    (hv : ∀ s : State, s.read operand = .ok v)
    (hs : s.rest = Lower.copies k n .load operand ++ rest) :
    Reaches code s { s with rest, stack := List.replicate n v ++ s.stack } := by
  induction n generalizing k s with
  | zero =>
      rw [Lower.copies, List.range'_zero, List.map_nil, List.nil_append] at hs
      rw [← hs]
      exact .refl s
  | succ n ih =>
      rw [Lower.copies_succ, List.cons_append] at hs
      refine (reaches_load hs rfl (hv s)).trans ?_
      rw [List.replicate_succ', List.append_assoc]
      exact ih (k + 1) (s := { s with
        rest := Lower.copies (k + 1) n .load operand ++ rest, stack := v :: s.stack }) rfl

/-- A number of cells are popped. -/
theorem reaches_pops (k : Nat) {vs stack : List UInt32}
    (hs : s.rest = Lower.copies k vs.length .pop .none ++ rest) (hstack : s.stack = vs ++ stack) :
    ∃ flag, Reaches code s { s with rest, stack, flag } := by
  induction vs generalizing k s with
  | nil =>
      rw [List.length_nil, Lower.copies, List.range'_zero, List.map_nil, List.nil_append] at hs
      rw [List.nil_append] at hstack
      rw [← hs, ← hstack]
      exact ⟨s.flag, .refl s⟩
  | cons v vs ih =>
      rw [List.length_cons, Lower.copies_succ, List.cons_append] at hs
      obtain ⟨flag, h⟩ := ih (k + 1) (s := { s with
        rest := Lower.copies (k + 1) vs.length .pop .none ++ rest
        stack := vs ++ stack
        flag := v.toInt32 }) rfl rfl
      exact ⟨flag, (reaches_pop hs rfl hstack).trans h⟩

end Machine

end StackLang
