/-
**Runs through stretches of code.**

A stretch of code takes values off the stack and leaves others there, and on the way it changes the
variables.  What waits below these values stays as it is, and so does everything below the frame of
the running function, so that stretches can be put behind each other and into longer ones.

Main definitions:

* `Machine.Ground` — what stays below the values of a stretch of code;
* `Machine.Stands` — the variables and the topmost values of a state;
* `Machine.Leads` — from one place of the code to another;
* `Machine.Runs` — through a stretch of code, wherever it stands in the code.

Main results:

* `Machine.Runs.append` — stretches behind each other;
* `Machine.Runs.skip`, `Machine.Runs.pass`, `Machine.Runs.back` — a test that is taken, a test that
  is passed, and a jump back to the head of a loop;
* `Machine.Runs.verdict` — the truth value of a condition.
-/

import StackLang.Proofs.Eval.Frame
import StackLang.Proofs.Machine.Reach

set_option relaxedAutoImplicit false
set_option autoImplicit false

namespace StackLang

namespace Machine

/-- Where code of a unit or of one function runs. -/
structure Host where
  symbols : Symbols
  scope : Option Scope
  /-- The number of arguments of the running function. -/
  params : Nat

/-- What stays below the values of a stretch of code. -/
structure Ground where
  /-- The cells that wait for their operator. -/
  waiting : List UInt32
  /-- The number of cells in the frame. -/
  size : Nat
  /-- The cells below the frame. -/
  below : List UInt32
  /-- The calls that are not over. -/
  frames : List (List Instr × Nat)

/-- The state has the variables `e`, and the values `vs` above its ground. -/
structure Stands (host : Host) (g : Ground) (e : Env) (vs : List Int32) (s : State) : Prop where
  frames : s.frames = g.frames
  base : s.base = g.below.length + host.params
  stack : ∃ cells, cells.length = g.size ∧
    s.stack = vs.map Int32.toUInt32 ++ g.waiting ++ cells.reverse ++ g.below ∧
    Holds host.symbols host.scope host.params e cells s.globals

/-- From the place `l`, with `us` on the stack, to the place `l'` with `vs` on the stack. -/
def Leads (prog : List Instr) (host : Host) (l : List Instr) (e : Env) (us : List Int32)
    (l' : List Instr) (e' : Env) (vs : List Int32) : Prop :=
  ∀ g s, s.rest = l → Stands host g e us s →
    ∃ t, Reaches prog s t ∧ t.rest = l' ∧ Stands host g e' vs t

/-- **Through a stretch of code**, wherever it stands. -/
def Runs (prog : List Instr) (host : Host) (is : List Instr) (e : Env) (us : List Int32) (e' : Env)
    (vs : List Int32) : Prop :=
  ∀ pre rest, prog = pre ++ is ++ rest → Leads prog host (is ++ rest) e us rest e' vs

variable {prog l l' l'' is js rest : List Instr} {host : Host} {e e' e'' : Env}
  {us vs ws : List Int32} {g : Ground} {s : State} {i j : Instr} {k : Nat} {v : Int32}
  {c : Condition}

namespace Leads

theorem refl : Leads prog host l e us l e us := fun _ s hs h => ⟨s, .refl s, hs, h⟩

theorem trans (h : Leads prog host l e us l' e' vs) (h' : Leads prog host l' e' vs l'' e'' ws) :
    Leads prog host l e us l'' e'' ws := by
  intro g s hs hstands
  obtain ⟨t, hst, ht, htstands⟩ := h g s hs hstands
  obtain ⟨u, htu, hu, hustands⟩ := h' g t ht htstands
  exact ⟨u, hst.trans htu, hu, hustands⟩

/-- Values below stay where they are. -/
theorem more (h : Leads prog host l e us l' e' vs) (ws : List Int32) :
    Leads prog host l e (us ++ ws) l' e' (vs ++ ws) := by
  intro g s hs ⟨hframes, hbase, cells, hlength, hstack, hholds⟩
  obtain ⟨t, hst, ht, htframes, htbase, cells', hlength', hstack', hholds'⟩ :=
    h ⟨ws.map Int32.toUInt32 ++ g.waiting, g.size, g.below, g.frames⟩ s hs
      ⟨hframes, hbase, cells, hlength, by simpa using hstack, hholds⟩
  exact ⟨t, hst, ht, htframes, htbase, cells', hlength', by simpa using hstack', hholds'⟩

/-- A load. -/
theorem load (hi : i.op = .load)
    (hread : ∀ g s, Stands host g e us s → s.read i.operand = .ok v.toUInt32) :
    Leads prog host (i :: rest) e us rest e (v :: us) := by
  intro g s hs h
  refine ⟨_, reaches_load hs hi (hread g s h), rfl, h.frames, h.base, ?_⟩
  obtain ⟨cells, hlength, hstack, hholds⟩ := h.stack
  exact ⟨cells, hlength, by simp [hstack], hholds⟩

/-- Arithmetic. -/
theorem arith {op : ArithOp} {a b : Int32} (hi : i.op = .arith op .int)
    (hv : compute op .int a.toUInt32 b.toUInt32 = .ok v.toUInt32) :
    Leads prog host (i :: rest) e (b :: a :: us) rest e (v :: us) := by
  intro g s hs h
  obtain ⟨cells, hlength, hstack, hholds⟩ := h.stack
  rw [List.map_cons, List.map_cons, List.cons_append, List.cons_append, List.cons_append,
    List.cons_append, List.cons_append, List.cons_append] at hstack
  exact ⟨_, reaches_arith hs hi hstack hv, rfl, h.frames, h.base, cells, hlength, rfl, hholds⟩

/-- An instruction that does nothing. -/
theorem nop (hi : i.op = .nop) : Leads prog host (i :: rest) e us rest e us := fun _ _ hs h =>
  ⟨_, reaches_still hs (.inl hi), rfl, h.frames, h.base, h.stack⟩

/-- The topmost value is popped, and conditional jumps test it from now on. -/
theorem reaches_popped (hi : i.op = .pop) (hs : s.rest = i :: rest)
    (h : Stands host g e (v :: us) s) :
    ∃ t, Reaches prog s t ∧ t.rest = rest ∧ t.flag = v ∧ Stands host g e us t := by
  obtain ⟨cells, hlength, hstack, hholds⟩ := h.stack
  rw [List.map_cons, List.cons_append, List.cons_append, List.cons_append] at hstack
  exact ⟨_, reaches_pop hs hi hstack, rfl, by simp, h.frames, h.base, cells, hlength, rfl, hholds⟩

theorem pop (hi : i.op = .pop) : Leads prog host (i :: rest) e (v :: us) rest e us := by
  intro g s hs h
  obtain ⟨t, hst, ht, -, hstands⟩ := reaches_popped hi hs h
  exact ⟨t, hst, ht, hstands⟩

/-- A test that is passed. -/
theorem pass (hi : i.op = .pop) (hj : j.op = .jump c) (hc : c.holds v = false) :
    Leads prog host (i :: j :: rest) e (v :: us) rest e us := by
  intro g s hs h
  obtain ⟨t, hst, ht, hflag, hstands⟩ := @reaches_popped prog _ _ _ _ _ _ _ _ hi hs h
  exact ⟨_, hst.trans (reaches_of_not_holds ht hj (hflag ▸ hc)), rfl, hstands.frames,
    hstands.base, hstands.stack⟩

variable {m : Instr} {pre post : List Instr}

/-- A test that is taken. -/
theorem skip (hnodup : (prog.map Instr.id).Nodup) (hi : i.op = .pop) (hj : j.op = .jump c)
    (hc : c.holds v = true) (htarget : j.target = some (.instr m.id))
    (hprog : prog = pre ++ m :: post) :
    Leads prog host (i :: j :: rest) e (v :: us) (m :: post) e us := by
  intro g s hs h
  obtain ⟨t, hst, ht, hflag, hstands⟩ := @reaches_popped prog _ _ _ _ _ _ _ _ hi hs h
  exact ⟨_, hst.trans (reaches_goto hnodup ht hj htarget (hflag ▸ hc) hprog rfl), rfl,
    hstands.frames, hstands.base, hstands.stack⟩

/-- A jump that is always taken. -/
theorem goto (hnodup : (prog.map Instr.id).Nodup) (hi : i.op = .jump .always)
    (htarget : i.target = some (.instr m.id)) (hprog : prog = pre ++ m :: post) :
    Leads prog host (i :: rest) e us (m :: post) e us := fun _ _ hs h =>
  ⟨_, reaches_goto hnodup hs hi htarget rfl hprog rfl, rfl, h.frames, h.base, h.stack⟩

end Leads

namespace Runs

theorem nil : Runs prog host [] e us e us := fun _ _ _ => .refl

theorem of_eq (h : Runs prog host is e us e' vs) (heq : is = js) :
    Runs prog host js e us e' vs := heq ▸ h

/-- **Stretches behind each other.** -/
theorem append (h : Runs prog host is e us e' vs) (h' : Runs prog host js e' vs e'' ws) :
    Runs prog host (is ++ js) e us e'' ws := by
  intro pre rest hprog
  rw [List.append_assoc]
  exact (h pre (js ++ rest) (by simp [hprog])).trans (h' (pre ++ is) rest (by simp [hprog]))

/-- A stretch of one instruction. -/
theorem single (h : ∀ rest, Leads prog host (i :: rest) e us rest e' vs) :
    Runs prog host [i] e us e' vs := fun _ _ _ => h _

/-- One instruction before a stretch. -/
theorem cons (h : ∀ rest, Leads prog host (i :: rest) e us rest e' vs)
    (h' : Runs prog host js e' vs e'' ws) : Runs prog host (i :: js) e us e'' ws :=
  append (single h) h'

theorem more (h : Runs prog host is e us e' vs) (ws : List Int32) :
    Runs prog host is e (us ++ ws) e' (vs ++ ws) := fun pre rest hprog =>
  (h pre rest hprog).more ws

/-- A test that is passed. -/
theorem pass (hi : i.op = .pop) (hj : j.op = .jump c) (hc : c.holds v = false) :
    Runs prog host [i, j] e (v :: us) e us := fun _ _ _ => .pass hi hj hc

/-- The loads of immediate integers. -/
theorem int (k : Nat) (v : Int32) (comment : Option String) :
    Runs prog host [⟨k, .load, .int v, none, comment⟩] e us e (v :: us) :=
  .single fun _ => .load rfl fun _ _ _ => rfl

/-- The loads of variables. -/
theorem read {x : Symbol} {cell : Operand} (hi : i.op = .load) (hoperand : i.operand = cell)
    (hk : IsVisible host.symbols host.scope k) (hx : host.symbols[k]? = some x)
    (hcell : x.storage.cell? = some cell) (hv : e.read host.symbols k = some v) :
    Runs prog host [i] e us e (v :: us) := by
  refine .single fun _ => .load hi fun g s h => ?_
  obtain ⟨cells, -, hstack, hholds⟩ := h.stack
  rw [hoperand]
  exact hholds.read hk hx hcell hv hstack h.base

/-- The stores of variables. -/
theorem assign {x : Symbol} {cell : Operand} (happart : Apart host.symbols host.scope)
    (hi : i.op = .store) (hoperand : i.operand = cell)
    (hk : IsVisible host.symbols host.scope k) (hx : host.symbols[k]? = some x)
    (hcell : x.storage.cell? = some cell) (he : e.write host.symbols k v = some e') :
    Runs prog host [i] e (v :: us) e' us := by
  refine .single fun rest g s hs h => ?_
  obtain ⟨cells, hlength, hstack, hholds⟩ := h.stack
  rw [List.map_cons, List.cons_append, List.cons_append, List.cons_append] at hstack
  obtain ⟨cells', globals', hlength', hholds', hwrite⟩ := Holds.write (s := { s with
    rest, stack := us.map Int32.toUInt32 ++ g.waiting ++ cells.reverse ++ g.below })
    hholds happart hk hx hcell he rfl h.base
  have hstore : Reaches prog s { s with
      rest
      stack := us.map Int32.toUInt32 ++ g.waiting ++ cells'.reverse ++ g.below
      globals := globals' } := reaches_store hs hi hstack (hoperand ▸ hwrite)
  exact ⟨_, hstore, rfl, h.frames, h.base, cells', hlength'.trans hlength, rfl, hholds'⟩

section Jumps

variable (hnodup : (prog.map Instr.id).Nodup)

include hnodup

/-- **A test that is taken** skips what stands before its target. -/
theorem skip {m : Instr} (hi : i.op = .pop) (hj : j.op = .jump c) (hc : c.holds v = true)
    (htarget : j.target = some (.instr m.id)) (h : Runs prog host (m :: js) e us e' vs) :
    Runs prog host (i :: j :: is ++ m :: js) e (v :: us) e' vs := by
  intro pre rest hprog
  have hplace : prog = (pre ++ i :: j :: is) ++ m :: (js ++ rest) := by simp [hprog]
  have hskip : Leads prog host (i :: j :: (is ++ m :: js ++ rest)) e (v :: us)
      (m :: (js ++ rest)) e us := .skip hnodup hi hj hc htarget hplace
  refine Leads.trans ?_ (h (pre ++ i :: j :: is) rest (by simp [hprog]))
  simpa using hskip

/-- **A jump** skips what stands before its target. -/
theorem goto {m : Instr} (hi : i.op = .jump .always) (htarget : i.target = some (.instr m.id))
    (h : Runs prog host (m :: js) e us e' vs) : Runs prog host (i :: is ++ m :: js) e us e' vs := by
  intro pre rest hprog
  have hplace : prog = (pre ++ i :: is) ++ m :: (js ++ rest) := by simp [hprog]
  have hgoto : Leads prog host (i :: (is ++ m :: js ++ rest)) e us (m :: (js ++ rest)) e us :=
    .goto hnodup hi htarget hplace
  refine Leads.trans ?_ (h (pre ++ i :: is) rest (by simp [hprog]))
  simpa using hgoto

/-- **A jump back** to the head of a loop, from where the loop is run again. -/
theorem back {m : Instr} (hi : i.op = .jump .always) (htarget : i.target = some (.instr m.id))
    (h : Runs prog host (m :: is) e us e' vs)
    (hagain : Runs prog host (m :: is ++ i :: js) e' vs e'' ws) :
    Runs prog host (m :: is ++ i :: js) e us e'' ws := by
  intro pre rest hprog
  have hfirst := h pre (i :: js ++ rest) (by simp [hprog])
  have hplace : prog = pre ++ m :: (is ++ i :: js ++ rest) := by simp [hprog]
  have hgoto : Leads prog host (i :: js ++ rest) e' vs (m :: (is ++ i :: js ++ rest)) e' vs :=
    .goto hnodup hi htarget hplace
  refine Leads.trans ?_ (hagain pre rest hprog)
  simpa using hfirst.trans hgoto

/-- **The truth value of a condition** of the topmost value. -/
theorem verdict (k : Nat) (c : Condition) (v : Int32) :
    Runs prog host (Lower.verdict k c) e (v :: us) e ((if c.holds v then 1 else 0) :: us) := by
  cases hc : c.holds v with
  | true =>
      have hone : Runs prog host [.plain (k + 1) .load (.int 1), .plain (k + 2) .nop .none] e us e
          (1 :: us) := (int _ 1 none).append (.single fun _ => .nop rfl)
      exact @skip prog
        [.plain (k + 4) .load (.int 0), .jump (k + 5) .always (some (.instr (k + 2)))]
        _ _ _ _ _ _ _ _ _ _ hnodup _ rfl rfl hc rfl hone
  | false =>
      have hend : Runs prog host [.plain (k + 2) .nop .none] e (0 :: us) e (0 :: us) :=
        .single fun _ => .nop rfl
      exact (pass (i := .plain k .pop .none) rfl rfl hc).append ((int _ 0 none).append
        (@goto prog [.plain (k + 1) .load (.int 1)] _ _ _ _ _ _ _ hnodup _ rfl rfl hend))

end Jumps

end Runs

end Machine

end StackLang
