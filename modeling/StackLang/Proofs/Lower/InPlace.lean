/-
**Code made in one list.**

The code of a function is made behind everything that was made before, and while it is made its end
is not known yet.  The jumps of its returns go there in name only, and when the function is complete
they get their target: in all of the code from the start of the function on.  What stands in front
of the start stays as it is, since the identities of a function are taken after those of everything
before it, and there is nothing behind its end.  So the code that is made in this way is that of
functions which know their ends, side by side.

Main definitions:

* `Lower.Build`, `Lower.put` — steps that add to the code that was made before;
* `Lower.buildFunction`, `Typing.build` — the code of a function and of a unit, made in one list.

Main results:

* `Code.resolveReturns_append` — what stands in front of a function stays as it is;
* `Typing.build_eq` — **code made in one list is the code of the unit.**
-/

import StackLang.Proofs.Lower.Regular

set_option relaxedAutoImplicit false
set_option autoImplicit false

namespace StackLang

/-! ### Returns behind a place -/

namespace Code

/-- An instruction stands in its own place while none has lost its place. -/
theorem standIn_of_replaced {c : Code} (h : c.replaced = []) (k : Nat) :
    c.standIn c.replaced.length k = k := by
  rw [h]
  rfl

/-- **What stands in front of a function stays as it is** when its returns get their target. -/
theorem resolveReturns_append {c : Code} {start : Nat} {first : Instr} {before after : List Instr}
    (hreplaced : c.replaced = []) (hinstrs : c.instrs = before ++ first :: after)
    (hbefore : ∀ i ∈ before, i.id ≠ start) (hfirst : first.id = start) (epilogue : Nat) :
    c.resolveReturns start epilogue
      = { c with instrs := before ++ (first :: after).map (resolveInstr epilogue) } := by
  have hpasses : ∀ i ∈ before, decide (i.id ≠ start) = true := fun i hi =>
    decide_eq_true (hbefore i hi)
  simp only [resolveReturns, standIn_of_replaced hreplaced, hinstrs]
  rw [List.takeWhile_append_of_pos hpasses, List.dropWhile_append_of_pos hpasses]
  simp [hfirst]

/-- Code that is being made: no instruction has lost its place, and identities are taken in
order. -/
structure IsGrowing (c : Code) : Prop where
  replaced : c.replaced = []
  below : ∀ i ∈ c.instrs, i.id < c.fresh

end Code

namespace Lower

open Step

/-! ### Making code in one list -/

/-- A step that adds to the code that was made before. -/
abbrev Build := StateT Code (Except InternalError)

/-- Puts the code of a step behind what was made before. -/
def put (m : Lower (List Instr)) : Build Unit := fun c => do
  let (is, fresh) ← m c.fresh
  pure ((), { c with fresh, instrs := c.instrs ++ is })

/-- The identity that is taken next. -/
def next : Build Nat := do return (← get).fresh

/-- **The code of a function**, behind what was made before.  Its returns get their target when it
is complete. -/
def buildFunction (symbols : Symbols) (f : Inferred) : Build Unit := do
  let start ← next
  put (instr (.entry f.name) .none)
  put (times f.scope.locals .load (.int 0))
  put (do pad f.body (← expression symbols .top f.body))
  let epilogue ← next
  put (remarked .store (.frame (4 + 4 * f.params.length)) "return value")
  put (times f.scope.locals .pop .none)
  put (instr .ret .none)
  modify (Code.resolveReturns start epilogue)

/-- The code of some instances, one behind the other. -/
def buildFunctions (r : Round) : List Instance → Build Unit
  | [] => pure ()
  | i :: is => do
    match r.inferred.find? fun f => f.name = i.name with
    | none => throw (.unscopedInstance i.name)
    | some f =>
      buildFunction r.symbols f
      buildFunctions r is

/-- The code of the statements of a unit.  Their returns, from the first instruction on, go to the
halt. -/
def buildMain (symbols : Symbols) (items : List (Node Note)) : Build Unit := do
  put (statements symbols .top (items.filter fun x => !x.isDefinition))
  let halt ← next
  put (instr .halt .none)
  match (← get).instrs.head? with
  | some first => modify (Code.resolveReturns first.id halt)
  | none => pure ()

/-- The code of a unit. -/
def buildUnit (t : Typing) : Build Unit :=
  match t.root with
  | .unit _ items => do
    buildMain t.round.symbols items
    buildFunctions t.round (reached t.round)
  | _ => throw .rootNotUnit

/-! ### The same code -/

section Steps

variable {α : Type} {m : Lower (List Instr)} {c : Code} {is : List Instr} {k : Nat}

theorem put_bind (g : Unit → Build α) :
    (put m >>= g) c
      = m c.fresh >>= fun p => g () { c with fresh := p.2, instrs := c.instrs ++ p.1 } := by
  change (put m c >>= fun p => g p.1 p.2) = _
  rw [put]
  cases m c.fresh <;> rfl

theorem next_bind (g : Nat → Build α) : (next >>= g) c = g c.fresh c := rfl

theorem bind_run {β : Type} (m : Lower α) (g : α → Lower β) (k : Nat) :
    (m >>= g) k = m k >>= fun p => g p.1 p.2 := rfl

theorem ok_bind {β : Type} (x : α) (g : α → Except InternalError β) :
    (Except.ok x >>= g) = g x := rfl

/-- Code that is made in two steps, the second of which finds that of the first in front of it. -/
theorem bind_eq_put {m' : Lower (List Instr)} {first second : Build Unit} (hm : first c = put m c)
    (hm' : ∀ is k, m c.fresh = .ok (is, k) →
      second { c with fresh := k, instrs := c.instrs ++ is }
        = put m' { c with fresh := k, instrs := c.instrs ++ is }) :
    (do first; second) c = put (do let is ← m; let js ← m'; pure (is ++ js)) c := by
  change (first c >>= fun p => second p.2) = _
  rw [hm, put, put, bind_run]
  cases h : m c.fresh with
  | error e => rfl
  | ok p =>
      change second { c with fresh := p.2, instrs := c.instrs ++ p.1 } = _
      rw [hm' p.1 p.2 h, ok_bind, put, bind_run]
      dsimp only
      cases m' p.2 with
      | error e => rfl
      | ok q =>
          rw [ok_bind, List.append_assoc]
          rfl

end Steps

/-! ### Code that grows -/

section Growing

variable {symbols : Symbols} {c : Code} {f : Inferred} {r : Round} {is : List Instr} {k : Nat}

/-- Code that takes the identities from the next one on can be put behind what was made before. -/
theorem isGrowing_append (hc : c.IsGrowing)
    (his : ∀ j, idCount j is = under k j - under c.fresh j) :
    ({ c with fresh := k, instrs := c.instrs ++ is } : Code).IsGrowing := by
  have hcount : ∀ j, (0 : Int) ≤ idCount j is := fun j => Int.natCast_nonneg _
  have hle : c.fresh ≤ k := by
    by_contra hlt
    have hk := hcount k
    rw [his, under, under, if_neg (Nat.lt_irrefl k), if_pos (Nat.lt_of_not_le hlt)] at hk
    omega
  refine ⟨hc.replaced, fun i hi => ?_⟩
  rcases List.mem_append.1 hi with hi | hi
  · exact (hc.below i hi).trans_le hle
  · have hpos : 0 < (is.map Instr.id).count i.id := List.count_pos_iff.2 (List.mem_map_of_mem hi)
    have hid := his i.id
    rw [idCount, under, under] at hid
    split_ifs at hid <;> omega

/-- **A function is made behind what was made before**, which stays as it is. -/
theorem buildFunction_eq (hc : c.IsGrowing) :
    buildFunction symbols f c = put (function symbols f) c := by
  have hbefore : ∀ i ∈ c.instrs, i.id ≠ c.fresh := fun i hi => (hc.below i hi).ne
  have hentry : (Instr.plain c.fresh (.entry f.name) .none).id = c.fresh := rfl
  rw [buildFunction, next_bind, put_bind, put, function]
  simp only [bind_run, put_bind, next_bind, instr_eq_ok.2 ⟨rfl, rfl⟩, times_eq_ok.2 ⟨rfl, rfl⟩,
    remarked_eq_ok.2 ⟨rfl, rfl⟩, fresh_eq_ok.2 ⟨rfl, rfl⟩, ok_bind]
  cases expression symbols .top f.body (c.fresh + 1 + f.scope.locals) with
  | error e => rfl
  | ok body =>
      rw [ok_bind, ok_bind]
      cases pad f.body body.1 body.2 with
      | error e => rfl
      | ok value =>
          simp only [ok_bind, List.append_assoc, List.cons_append]
          refine congrArg (fun d => Except.ok ((), d)) ?_
          refine Code.resolveReturns_append ?_ rfl hbefore hentry _
          exact hc.replaced

theorem buildFunctions_eq (is : List Instance) (hc : c.IsGrowing) :
    buildFunctions r is c = put (functions r is) c := by
  induction is generalizing c with
  | nil =>
      have hnone : c = { c with fresh := c.fresh, instrs := c.instrs ++ [] } := by
        rw [List.append_nil]
      exact congrArg (fun c => Except.ok ((), c)) hnone
  | cons i is ih =>
      rw [buildFunctions, functions]
      cases r.inferred.find? fun f => f.name = i.name with
      | none => rfl
      | some f =>
          refine bind_eq_put (buildFunction_eq hc) fun code k hf => ?_
          exact ih (isGrowing_append hc (emits_function hf).idCount_eq)

/-- The statements of a unit are made first, and so from its first instruction on. -/
theorem buildMain_eq (items : List (Node Note)) (hreplaced : c.replaced = [])
    (hinstrs : c.instrs = []) : buildMain symbols items c = put (main symbols items) c := by
  rw [buildMain, put_bind, put, main]
  simp only [bind_run]
  cases statements symbols .top (items.filter fun x => !x.isDefinition) c.fresh with
  | error e => rfl
  | ok body =>
      obtain ⟨code, k⟩ := body
      obtain ⟨first, after, hcode⟩ :=
        List.exists_cons_of_ne_nil (List.concat_ne_nil (Instr.plain k .halt .none) code)
      simp only [ok_bind, next_bind, put_bind, instr_eq_ok.2 ⟨rfl, rfl⟩, fresh_eq_ok.2 ⟨rfl, rfl⟩,
        hinstrs, List.nil_append, hcode]
      refine congrArg (fun d => Except.ok ((), d)) ?_
      refine Code.resolveReturns_append ?_ rfl (List.forall_mem_nil _) rfl _
      exact hreplaced

theorem idCount_main {items : List (Node Note)} {k' : Nat}
    (h : main symbols items k = .ok (is, k')) (j : Nat) :
    idCount j is = under k' j - under k j := by
  simp only [main, bind_eq_ok, pure_eq_ok, fresh_eq_ok] at h
  obtain ⟨body, k₁, hbody, halt, k₂, ⟨rfl, rfl⟩, rfl, rfl⟩ := h
  change idCount j (resolved _ _) = _
  rw [idCount_resolved, idCount_append, (emits_statements _ _ _ hbody).idCount_eq]
  simp [Instr.plain]

theorem buildUnit_eq (t : Typing) :
    buildUnit t (.ofInstrs 0 []) = put (unit t) (.ofInstrs 0 []) := by
  rw [buildUnit, unit]
  cases t.root with
  | unit n items =>
      refine bind_eq_put (buildMain_eq items rfl rfl) fun code k hmain => ?_
      exact buildFunctions_eq _ (isGrowing_append ⟨rfl, List.forall_mem_nil _⟩ (idCount_main hmain))
  | _ => rfl

end Growing

end Lower

/-- **The code of a typed unit, made in one list.** -/
def Typing.build (t : Typing) : Except InternalError Code := do
  let ((), c) ← (Lower.buildUnit t).run (.ofInstrs 0 [])
  pure c

/-- **Code made in one list is the code of the unit**: where a function goes to its end when that is
known, it is as if it had known from the start. -/
theorem Typing.build_eq (t : Typing) : t.build = t.lower := by
  rw [build, lower]
  change (Lower.buildUnit t (.ofInstrs 0 []) >>= _) = (Lower.unit t 0 >>= _)
  rw [Lower.buildUnit_eq, Lower.put]
  change (Lower.unit t 0 >>= _) >>= _ = _
  cases Lower.unit t 0 with
  | error e => rfl
  | ok p => rfl

end StackLang
