/-
**Variables on the machine.**

The frame of a function is a stretch of the stack, from its arguments up to its local variables, and
the variables of an environment lie in it or in cells of their own.  Reading and assigning a
variable of the environment is loading and storing its cell.

Main definitions:

* `Machine.Lies` — a cell of a frame;
* `Machine.Holds`, `Machine.HoldsGlobals` — a frame and the cells of the unit hold the variables of
  an environment.

Main results:

* `Machine.Holds.read` — a load finds the value of a variable;
* `Machine.Holds.write` — a store assigns it;
* `Machine.holds_enter` — behind its entry a function holds its arguments and zeros.
-/

import StackLang.Proofs.Eval.Basic
import StackLang.Proofs.Machine
import StackLang.Proofs.Typing.Round

set_option relaxedAutoImplicit false
set_option autoImplicit false

namespace StackLang

namespace Machine

variable {ss : Symbols} {scope : Option Scope} {params : Nat} {e e' : Env}
  {cells : List UInt32} {globals : String → UInt32} {offset : Int} {v : UInt32} {k : Nat}

/-! ### Cells of a frame -/

/-- The cell `v` lies at an offset from the return cell, of a frame whose return cell has `params`
cells before it. -/
def Lies (params : Nat) (cells : List UInt32) (offset : Int) (v : UInt32) : Prop :=
  ∃ i : Nat, (i : Int) = params - offset.tdiv 4 ∧ cells[i]? = some v

/-- The place of a cell of the frame among all cells. -/
theorem slot_of_lies {s : State} {top below : List UInt32}
    (hstack : s.stack = top ++ cells.reverse ++ below) (hbase : s.base = below.length + params)
    {i : Nat} (hi : (i : Int) = params - offset.tdiv 4) (hlt : i < cells.length) :
    s.slot offset = .ok (below.length + i) := by
  have hlength : s.stack.length = top.length + cells.length + below.length := by
    simp only [hstack, List.length_append, List.length_reverse]
  have hplace : (s.base : Int) - offset.tdiv 4 = ((below.length + i : Nat) : Int) := by
    rw [hbase]
    push_cast
    omega
  simp only [State.slot, hplace]
  rw [if_pos ⟨by omega, by omega⟩, Int.toNat_natCast]

theorem read_of_lies {s : State} {top below : List UInt32}
    (hstack : s.stack = top ++ cells.reverse ++ below) (hbase : s.base = below.length + params)
    (h : Lies params cells offset v) : s.read (.frame offset) = .ok v := by
  obtain ⟨i, hi, hv⟩ := h
  obtain ⟨hlt, -⟩ := List.getElem?_eq_some_iff.1 hv
  have hcells : s.cells[below.length + i]? = some v := by
    rw [State.cells, hstack, List.reverse_append, List.reverse_append, List.reverse_reverse,
      List.getElem?_append_right (by simp), List.length_reverse, Nat.add_sub_cancel_left,
      List.getElem?_append_left hlt, hv]
  simp only [State.read, slot_of_lies hstack hbase hi hlt, Except.map, List.getD, hcells,
    Option.getD_some]

theorem write_of_lies {s : State} {top below : List UInt32} {u : UInt32}
    (hstack : s.stack = top ++ cells.reverse ++ below) (hbase : s.base = below.length + params)
    (h : Lies params cells offset v) : ∃ i : Nat, (i : Int) = params - offset.tdiv 4 ∧
      i < cells.length ∧ s.write (.frame offset) u =
        .ok { s with stack := top ++ (cells.set i u).reverse ++ below } := by
  obtain ⟨i, hi, hv⟩ := h
  obtain ⟨hlt, -⟩ := List.getElem?_eq_some_iff.1 hv
  refine ⟨i, hi, hlt, ?_⟩
  have hcells : s.cells.set (below.length + i) u
      = below.reverse ++ (cells.set i u ++ top.reverse) := by
    rw [State.cells, hstack, List.reverse_append, List.reverse_append, List.reverse_reverse,
      List.set_append_right _ _ (by simp), List.length_reverse, Nat.add_sub_cancel_left,
      List.set_append_left _ _ hlt]
  simp only [State.write, slot_of_lies hstack hbase hi hlt, Except.map, hcells,
    List.reverse_append, List.reverse_reverse]

/-! ### Offsets -/

/-- Offsets that are handed out count cells. -/
theorem offset_eq {sc : Scope} (h : sc.HandsOut offset) : offset = 4 * offset.tdiv 4 := by
  rcases h with ⟨j, -, rfl⟩ | ⟨j, -, rfl⟩
  · rw [Int.mul_tdiv_cancel_left _ (by decide)]
  · rw [Int.neg_mul, ← Int.mul_neg, Int.mul_tdiv_cancel_left _ (by decide)]

/-! ### Environments -/

/-- The cells of the unit hold the values of its variables. -/
def HoldsGlobals (ss : Symbols) (values : Nat → Int32) (globals : String → UInt32) : Prop :=
  ∀ (k : Nat) (s : Symbol) (l : String), ss[k]? = some s → s.storage = .global l →
    globals l = (values k).toUInt32

/-- **A frame and the cells of the unit hold the variables of an environment.** -/
structure Holds (ss : Symbols) (scope : Option Scope) (params : Nat) (e : Env)
    (cells : List UInt32) (globals : String → UInt32) : Prop where
  globals : HoldsGlobals ss e.globals globals
  locals : ∀ sc, scope = some sc → ∀ (k : Nat) (s : Symbol) (offset : Int), sc.Binds k →
    ss[k]? = some s → s.storage = .frame offset → Lies params cells offset (e.locals k).toUInt32

/-- What the names of a unit and of a function refer to is told apart. -/
structure Apart (ss : Symbols) (scope : Option Scope) : Prop where
  globals : ∀ (j k : Nat) (s t : Symbol) (l : String), ss[j]? = some s → ss[k]? = some t →
    s.storage = .global l → t.storage = .global l → j = k
  scope : ∀ sc, scope = some sc → sc.Sound ss

namespace Holds

variable {x : Symbol} {cell : Operand} {s : State} {top below : List UInt32} {w : Int32}

/-- **A load finds the value of a variable.** -/
theorem read (h : Holds ss scope params e cells s.globals) (hk : IsVisible ss scope k)
    (hx : ss[k]? = some x) (hcell : x.storage.cell? = some cell)
    (hw : e.read ss k = some w) (hstack : s.stack = top ++ cells.reverse ++ below)
    (hbase : s.base = below.length + params) : s.read cell = .ok w.toUInt32 := by
  cases hstorage : x.storage with
  | nowhere =>
      rw [hstorage] at hcell
      cases hcell
  | global l =>
      rw [hstorage] at hcell
      cases hcell
      simp only [Env.read, hx, Option.map_some, hstorage, Option.some.injEq] at hw
      rw [State.read, h.globals k x l hx hstorage, hw]
  | frame offset =>
      rw [hstorage] at hcell
      cases hcell
      simp only [Env.read, hx, Option.map_some, hstorage, Option.some.injEq] at hw
      rcases hk with ⟨y, l, hy, hl⟩ | ⟨sc, hsc, hbinds⟩
      · rw [hx] at hy
        cases hy
        rw [hstorage] at hl
        cases hl
      · exact read_of_lies hstack hbase (hw ▸ h.locals sc hsc k x offset hbinds hx hstorage)

/-- **A store assigns a variable.** -/
theorem write (h : Holds ss scope params e cells s.globals) (happart : Apart ss scope)
    (hk : IsVisible ss scope k) (hx : ss[k]? = some x) (hcell : x.storage.cell? = some cell)
    (he : e.write ss k w = some e') (hstack : s.stack = top ++ cells.reverse ++ below)
    (hbase : s.base = below.length + params) : ∃ cells' globals',
      cells'.length = cells.length ∧ Holds ss scope params e' cells' globals' ∧
      s.write cell w.toUInt32
        = .ok { s with stack := top ++ cells'.reverse ++ below, globals := globals' } := by
  cases hstorage : x.storage with
  | nowhere =>
      rw [hstorage] at hcell
      cases hcell
  | global l =>
      rw [hstorage] at hcell
      cases hcell
      simp only [Env.write, hx, Option.map_some, hstorage, Option.some.injEq] at he
      subst he
      refine ⟨cells, fun y => if y = l then w.toUInt32 else s.globals y, rfl, ⟨?_, h.locals⟩, ?_⟩
      · intro j y l' hy hl'
        by_cases hj : j = k
        · subst hj
          rw [hx] at hy
          cases hy
          rw [hstorage] at hl'
          cases hl'
          simp
        · have hne : l' ≠ l := by
            rintro rfl
            exact hj (happart.globals j k y x l' hy hx hl' hstorage)
          simp only [if_neg hne, h.globals j y l' hy hl', Function.update_of_ne hj]
      · rw [State.write, ← hstack]
  | frame offset =>
      rw [hstorage] at hcell
      cases hcell
      simp only [Env.write, hx, Option.map_some, hstorage, Option.some.injEq] at he
      subst he
      rcases hk with ⟨y, l, hy, hl⟩ | ⟨sc, hsc, hbinds⟩
      · rw [hx] at hy
        cases hy
        rw [hstorage] at hl
        cases hl
      · obtain ⟨i, hi, hlt, hwrite⟩ := write_of_lies (u := w.toUInt32) hstack hbase
          (h.locals sc hsc k x offset hbinds hx hstorage)
        refine ⟨cells.set i w.toUInt32, s.globals, by simp, ⟨h.globals, ?_⟩, hwrite⟩
        intro sc' hsc' j y offset' hbinds' hy hoffset'
        rw [hsc] at hsc'
        cases hsc'
        obtain ⟨i', hi', hv⟩ := h.locals sc hsc j y offset' hbinds' hy hoffset'
        refine ⟨i', hi', ?_⟩
        by_cases hj : j = k
        · subst hj
          rw [hx] at hy
          cases hy
          rw [hstorage] at hoffset'
          cases hoffset'
          have hii : i' = i := by omega
          simp [hii, hlt]
        · -- cells at one place would be at one offset, and so of one symbol
          have hne : i ≠ i' := by
            rintro rfl
            have hsound := happart.scope sc hsc
            obtain ⟨n, hn⟩ := hbinds
            obtain ⟨n', hn'⟩ := hbinds'
            obtain ⟨-, y₁, o₁, hy₁, -, ho₁, hout₁⟩ := hsound.bound n k hn
            obtain ⟨-, y₂, o₂, hy₂, -, ho₂, hout₂⟩ := hsound.bound n' j hn'
            rw [hx] at hy₁
            cases hy₁
            rw [hy] at hy₂
            cases hy₂
            rw [hstorage] at ho₁
            cases ho₁
            rw [hoffset'] at ho₂
            cases ho₂
            have heq : offset' = offset := by
              rw [offset_eq hout₁, offset_eq hout₂]
              omega
            exact hj (hsound.distinct j k y x offset' ⟨n', hn'⟩ ⟨n, hn⟩ hy hx hoffset'
              (heq ▸ hstorage))
          simp only [List.getElem?_set_ne hne, hv, Function.update_of_ne hj]

end Holds

/-! ### The start of a function -/

section Enter

variable {sc : Scope}

theorem enter_eq_zero {ps : List String} (h : ∀ p ∈ ps, sc.lookup p ≠ some k)
    (vs : List Int32) : sc.enter ps vs k = 0 := by
  induction ps generalizing vs with
  | nil => cases vs <;> rfl
  | cons p ps ih =>
      rw [List.forall_mem_cons] at h
      cases vs with
      | nil => rfl
      | cons v vs => rw [Scope.enter, if_neg h.1, ih h.2]

/-- A variable is the first of the arguments whose parameter refers to it. -/
theorem enter_eq {ps : List String} {vs : List Int32} {j : Nat} {p : String} {v : Int32}
    (hp : ps[j]? = some p) (hv : vs[j]? = some v) (hk : sc.lookup p = some k)
    (hfirst : ∀ (i : Nat) (q : String), i < j → ps[i]? = some q → sc.lookup q ≠ some k) :
    sc.enter ps vs k = v := by
  induction j generalizing ps vs with
  | zero =>
      obtain ⟨ps, rfl⟩ : ∃ ps', ps = p :: ps' := by
        cases ps with
        | nil => cases hp
        | cons q ps => exact ⟨ps, by cases hp; rfl⟩
      obtain ⟨vs, rfl⟩ : ∃ vs', vs = v :: vs' := by
        cases vs with
        | nil => cases hv
        | cons w vs => exact ⟨vs, by cases hv; rfl⟩
      rw [Scope.enter, if_pos hk]
  | succ j ih =>
      cases ps with
      | nil => cases hp
      | cons q ps =>
          cases vs with
          | nil => cases hv
          | cons w vs =>
              rw [Scope.enter, if_neg (hfirst 0 q (Nat.succ_pos j) rfl)]
              exact ih hp hv fun i q' hi hq' => hfirst (i + 1) q' (Nat.succ_lt_succ hi) hq'

/-- **Behind its entry a function holds its arguments and zeros.** -/
theorem holds_enter {r : Round} {f : Inferred} (hf : InferredWell r f) {values : Nat → Int32}
    (h : HoldsGlobals r.symbols values globals) {vs : List Int32}
    (hvs : vs.length = f.params.length) :
    Holds r.symbols (some f.scope) f.params.length ⟨values, f.scope.enter f.params vs⟩
      ((vs.map Int32.toUInt32).reverse ++ 0 :: List.replicate f.scope.locals 0) globals := by
  refine ⟨h, ?_⟩
  rintro _ ⟨⟩ k s offset ⟨n, hn⟩ hs hoffset
  obtain ⟨-, s', offset', hs', -, hoffset', hout⟩ := hf.scope.bound n k hn
  cases hs.symm.trans hs'
  cases hoffset.symm.trans hoffset'
  rcases hout with ⟨j, hj, rfl⟩ | ⟨j, hj, rfl⟩
  · -- the place of the parameter `j`, which no earlier parameter has
    rw [hf.params] at hj
    obtain ⟨k', s', hk', hs', hstorage⟩ := hf.param j _ (List.getElem?_eq_getElem hj)
    have hkk : k' = k := hf.scope.distinct k' k s' s _ ⟨_, Scope.lookup_mem hk'⟩ ⟨n, hn⟩ hs' hs
      hstorage hoffset
    subst hkk
    have henter : f.scope.enter f.params vs k' = vs[j] := by
      refine enter_eq (List.getElem?_eq_getElem hj) (List.getElem?_eq_getElem _) hk' ?_
      intro i q hi hq hlookup
      obtain ⟨k₁, s₁, hk₁, hs₁, hstorage₁⟩ := hf.param i q hq
      cases hk₁.symm.trans hlookup
      cases hs.symm.trans hs₁
      have := hoffset.symm.trans hstorage₁
      simp only [Storage.frame.injEq] at this
      omega
    refine ⟨f.params.length - 1 - j, ?_, ?_⟩
    · rw [Int.mul_tdiv_cancel_left _ (by decide)]
      omega
    · rw [List.getElem?_append_left (by simp; omega), List.getElem?_reverse (by simp; omega),
        List.length_map, List.getElem?_map]
      have hplace : vs.length - 1 - (f.params.length - 1 - j) = j := by omega
      simp only [hplace, List.getElem?_eq_getElem (hvs ▸ hj), Option.map_some, henter]
  · have henter : f.scope.enter f.params vs k = 0 := by
      refine enter_eq_zero (fun p hp hlookup => ?_) vs
      obtain ⟨i, hi, rfl⟩ := List.mem_iff_getElem.1 hp
      obtain ⟨k₁, s₁, hk₁, hs₁, hstorage₁⟩ := hf.param i _ (List.getElem?_eq_getElem hi)
      cases hk₁.symm.trans hlookup
      cases hs.symm.trans hs₁
      have := hoffset.symm.trans hstorage₁
      simp only [Storage.frame.injEq] at this
      omega
    refine ⟨f.params.length + (j + 1), ?_, ?_⟩
    · rw [Int.neg_mul, ← Int.mul_neg, Int.mul_tdiv_cancel_left _ (by decide)]
      push_cast
      ring
    · rw [List.getElem?_append_right (by simp; omega), List.length_reverse, List.length_map, hvs,
        Nat.add_sub_cancel_left, List.getElem?_cons_succ, List.getElem?_replicate, if_pos hj]
      simp only [henter]
      rfl

end Enter

end Machine

end StackLang
