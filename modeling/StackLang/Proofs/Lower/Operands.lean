/-
**The operands of lowered code.**

Every instruction has an operand of the kind that goes with its name.  A load has a value or a cell,
a store has a cell, a call has a name, and no other instruction has an operand; where a jump goes is
written elsewhere.  The cells are those of variables of the unit and the places that the frame of
some function has.  This needs nothing of stack levels, so it holds even where the jumps out of a
loop upset them.

Main definitions:

* `Op.isBare` — the instructions without an operand;
* `Instr.IsSupplied`, `Supplied` — an instruction and a stretch of code have operands that go with
  the names.

Main results:

* `Lower.EmitsUnit.supplied` — the code of a unit has such operands;
* `Peephole.supplied_of_improved` — and so has optimized code.
-/

import StackLang.Proofs.Lower.Levels
import StackLang.Proofs.Peephole.Kept

set_option relaxedAutoImplicit false
set_option autoImplicit false

namespace StackLang

/-! ### Operands that go with names -/

/-- Whether the instruction has no operand behind its name. -/
def Op.isBare : Op → Bool
  | load | store | call => false
  | _ => true

/-- **The operand of an instruction goes with its name.** -/
inductive Instr.IsSupplied (layout : String → Layout) (i : Instr) : Prop where
  | value {bits : UInt32} {type : Scalar} (hop : i.op = .load)
      (hoperand : i.operand = .immediate bits type)
  | cell {owner : Option String} {level : Nat} (hop : i.op = .load ∨ i.op = .store)
      (hoperand : Writable layout owner level i.operand)
  | name {callee : String} (hop : i.op = .call) (hoperand : i.operand = .label callee)
  | bare (hop : i.op.isBare = true) (hoperand : i.operand = .none)

/-- The operands of a stretch of code go with the names. -/
def Supplied (layout : String → Layout) (code : List Instr) : Prop :=
  ∀ i ∈ code, i.IsSupplied layout

section Supplied

variable {layout : String → Layout} {a b : List Instr} {i j : Instr}

/-- What matters is the name and the operand. -/
theorem Instr.IsSupplied.congr (h : i.IsSupplied layout) (hop : j.op = i.op)
    (hoperand : j.operand = i.operand) : j.IsSupplied layout := by
  cases h with
  | value hi hvalue => exact .value (hop.trans hi) (hoperand.trans hvalue)
  | cell hi hcell => exact .cell (hop.symm ▸ hi) (hoperand.symm ▸ hcell)
  | name hi hname => exact .name (hop.trans hi) (hoperand.trans hname)
  | bare hi hnone => exact .bare (hop.symm ▸ hi) (hoperand.trans hnone)

/-- An instruction that goes without an operand has none. -/
theorem Instr.IsSupplied.operand_eq_none (h : i.IsSupplied layout) (hop : i.op.isBare = true) :
    i.operand = .none := by
  cases h with
  | value hi _ => simp [hi, Op.isBare] at hop
  | cell hi _ => rcases hi with hi | hi <;> simp [hi, Op.isBare] at hop
  | name hi _ => simp [hi, Op.isBare] at hop
  | bare _ hnone => exact hnone

/-- A place of a frame is one that some function has. -/
theorem Instr.IsSupplied.exists_covers (h : i.IsSupplied layout) {offset : Int}
    (hoffset : i.operand = .frame offset) : ∃ name, (layout name).Covers offset := by
  cases h with
  | value _ hvalue => cases hoffset.symm.trans hvalue
  | cell _ hcell =>
      rw [hoffset] at hcell
      cases hcell with
      | frame _ hcovers => exact ⟨_, hcovers⟩
  | name _ hname => cases hoffset.symm.trans hname
  | bare _ hnone => cases hoffset.symm.trans hnone

theorem Supplied.nil : Supplied layout [] := List.forall_mem_nil _

theorem Supplied.append (ha : Supplied layout a) (hb : Supplied layout b) :
    Supplied layout (a ++ b) := List.forall_mem_append.2 ⟨ha, hb⟩

theorem Supplied.cons (hi : i.IsSupplied layout) (ha : Supplied layout a) :
    Supplied layout (i :: a) := List.forall_mem_cons.2 ⟨hi, ha⟩

end Supplied

namespace Lower

/-! ### Stretches of lowered code -/

section Stretches

variable {layout : String → Layout} {a : List Instr} {k n : Nat}

theorem supplied_zero (k : Nat) (type : Scalar) :
    (Instr.plain k .load (.zero type)).IsSupplied layout := by
  cases type <;> exact .value rfl rfl

theorem supplied_copies {op : Op} {operand : Operand}
    (h : ∀ k, (Instr.plain k op operand).IsSupplied layout) :
    Supplied layout (copies k n op operand) := by
  induction n generalizing k with
  | zero => exact .nil
  | succ n ih =>
      rw [copies_succ]
      exact .cons (h k) ih

theorem supplied_conversion {s t : Scalar} : Supplied layout (conversion k s t) := by
  cases s <;> cases t
  · exact .nil
  · exact .cons (.bare rfl rfl) .nil
  · exact .cons (.bare rfl rfl) .nil
  · exact .nil

theorem supplied_verdict {c : Condition} : Supplied layout (verdict k c) :=
  .cons (.bare rfl rfl) <| .cons (.bare rfl rfl) <| .cons (.value rfl rfl) <|
    .cons (.bare rfl rfl) <| .cons (.value rfl rfl) <| .cons (.bare rfl rfl) .nil

theorem Supplied.resolved (h : Supplied layout a) : Supplied layout (resolved k a) := by
  intro i hi
  obtain ⟨j, hj, rfl⟩ := List.mem_map.1 hi
  exact (h j hj).congr (op_resolveInstr j) (operand_resolveInstr j)

end Stretches

/-! ### Pieces -/

section Pieces

variable {layout : String → Layout} {var : Nat → Prop} {fn : Nat → Nat → Prop} {symbols : Symbols}

/-- **The operands of lowered code go with the names**, if the variables of its trees have cells. -/
theorem Emits.supplied
    (hvar : ∀ k s cell, var k → symbols[k]? = some s → s.storage.cell? = some cell →
      ∃ o n, Writable layout o n cell)
    {site : Site} {piece : Piece} {k k' : Nat} {code : List Instr}
    (h : Emits symbols site piece k code k') (hok : ∀ x ∈ piece.trees, Resolved var fn x) :
    Supplied layout code := by
  induction h with
  | @literal site n v k =>
      cases v <;> exact .cons (.value rfl rfl) .nil
  | @identifier site n x k s cell hs hcell =>
      simp only [Piece.trees, List.forall_mem_singleton] at hok
      cases hok with
      | @identifier _ _ j _ hsymbol hj =>
          rw [Node.symbol?, Node.note, hsymbol] at hs
          obtain ⟨o, n, hwrite⟩ := hvar j s cell hj hs hcell
          exact .cons (.cell (.inl rfl) hwrite) .nil
  | @assign site n l r k k₁ a type s cell htype hs hcell hr ih =>
      simp only [Piece.trees, List.forall_mem_singleton] at hok ih
      cases hok with
      | binary _ hop => exact absurd rfl hop
      | @assign n m x r j _ _ hsymbol hj hres =>
          rw [Node.symbol?, Node.note, hsymbol] at hs
          obtain ⟨o, n, hwrite⟩ := hvar j s cell hj hs hcell
          exact (ih hres).append (.cons (.cell (.inr rfl) hwrite)
            (.cons (.cell (.inl rfl) hwrite) .nil))
  | comparison hc _ _ _ _ ihl ihr =>
      simp only [Piece.trees, List.forall_mem_singleton] at hok ihl ihr
      cases hok with
      | assign => cases hc
      | binary _ _ hresl hresr =>
          exact .append (.append (ihl hresl) (ihr hresr)) (.cons (.bare rfl rfl) supplied_verdict)
  | arith hop _ _ _ ihl ihr =>
      simp only [Piece.trees, List.forall_mem_singleton] at hok ihl ihr
      cases hok with
      | assign => cases hop
      | binary _ _ hresl hresr =>
          exact .append (.append (ihl hresl) (ihr hresr)) (.cons (.bare rfl rfl) .nil)
  | plus _ ih =>
      simp only [Piece.trees, List.forall_mem_singleton] at hok ih
      cases hok with
      | unary _ hres => exact ih hres
  | minus _ _ ih =>
      simp only [Piece.trees, List.forall_mem_singleton] at hok ih
      cases hok with
      | unary _ hres =>
          exact .append (.cons (supplied_zero _ _) (ih hres)) (.cons (.bare rfl rfl) .nil)
  | not _ ih =>
      simp only [Piece.trees, List.forall_mem_singleton] at hok ih
      cases hok with
      | unary _ hres => exact (ih hres).append supplied_verdict
  | call _ _ ih =>
      simp only [Piece.trees, List.forall_mem_singleton] at hok ih
      cases hok with
      | call _ _ _ hres =>
          exact .append (.cons (.value rfl rfl) (ih hres))
            (.cons (.name rfl rfl) (supplied_copies fun _ => .bare rfl rfl))
  | cond _ _ _ ihc iht =>
      simp only [Piece.trees, List.forall_mem_singleton] at hok ihc iht
      cases hok with
      | cond _ hresc hrest _ =>
          exact .append (.append (ihc hresc) (iht hrest)) <| .cons (.bare rfl rfl) <|
            .cons (.bare rfl rfl) <| .cons (supplied_zero _ _) <| .cons (.bare rfl rfl) .nil
  | condElse _ _ _ _ ihc iht ihe =>
      simp only [Piece.trees, List.forall_mem_singleton] at hok ihc iht ihe
      cases hok with
      | cond _ hresc hrest hrese =>
          exact .append (.append (.append (ihc hresc) (iht hrest)) (.cons (.bare rfl rfl)
            (.cons (.bare rfl rfl) (ihe (hrese _ rfl))))) (.cons (.bare rfl rfl) .nil)
  | endless _ _ ih =>
      simp only [Piece.trees, List.forall_mem_singleton] at hok ih
      cases hok with
      | loop _ _ hresb =>
          exact .append (.cons (.bare rfl rfl) (ih hresb)) <| .cons (.bare rfl rfl) <|
            .cons (.bare rfl rfl) <| .cons (.bare rfl rfl) <| .cons (.value rfl rfl) .nil
  | loop _ _ _ ihc ihb =>
      simp only [Piece.trees, List.forall_mem_singleton] at hok ihc ihb
      cases hok with
      | loop _ hresc hresb =>
          exact .append (.append (.cons (.bare rfl rfl) (ihc hresc)) (ihb hresb)) <|
            .cons (.bare rfl rfl) <| .cons (.bare rfl rfl) <| .cons (.bare rfl rfl) <|
            .cons (.value rfl rfl) .nil
  | idleJump => exact .nil
  | loopJump =>
      exact .append (supplied_copies fun _ => .bare rfl rfl) (.cons (.bare rfl rfl) .nil)
  | returnValue _ ih =>
      simp only [Piece.trees, List.forall_mem_singleton] at hok ih
      cases hok with
      | returnValue _ hres =>
          exact .append (.append (supplied_copies fun _ => .bare rfl rfl) (ih hres))
            (.cons (.bare rfl rfl) .nil)
  | block _ ih =>
      simp only [Piece.trees, List.forall_mem_singleton] at hok ih
      cases hok with
      | block _ hres => exact ih hres
  | assembly => exact .cons (.bare rfl rfl) .nil
  | nop => exact .cons (.value rfl rfl) .nil
  | silent => exact .nil
  | whole _ _ ih => exact ih hok
  | padded _ _ ih => exact (ih hok).append (.cons (.value rfl rfl) .nil)
  | converted _ _ ih => exact (ih hok).append supplied_conversion
  | test _ ih => exact (ih hok).append (.cons (.bare rfl rfl) (.cons (.bare rfl rfl) .nil))
  | noStatement => exact .cons (.value rfl rfl) .nil
  | lastStatement _ ih => exact ih hok
  | droppedStatement _ _ _ ihx ihxs =>
      simp only [Piece.trees, List.forall_mem_singleton] at ihx
      rw [Piece.trees, List.forall_mem_cons] at hok
      exact (ihx hok.1).append (.cons (.bare rfl rfl) (ihxs hok.2))
  | bareStatement _ _ _ ihx ihxs =>
      simp only [Piece.trees, List.forall_mem_singleton] at ihx
      rw [Piece.trees, List.forall_mem_cons] at hok
      exact (ihx hok.1).append (ihxs hok.2)
  | noArgument => exact .nil
  | argument _ _ ihxs ihx =>
      simp only [Piece.trees, List.forall_mem_singleton] at ihx
      rw [Piece.trees, List.forall_mem_cons] at hok
      exact (ihxs hok.2).append (ihx hok.1)

end Pieces

/-! ### Functions and units -/

section Units

variable {t : Typing} {items : List (Node Mark)} {f : Inferred} {k k' : Nat} {code : List Instr}

theorem EmitsFunction.supplied (hf : InferredWell t.round f)
    (hlayout : t.layout f.name = f.layout) (h : EmitsFunction t.round.symbols f k code k') :
    Supplied t.layout code := by
  cases h with
  | @mk a k₁ comment hbody =>
      have hbody := hbody.supplied (fun _ _ _ hk hs hcell =>
        ⟨_, _, writable_of_isVisible (n := 0) hf hlayout hk hs hcell⟩)
        (by simpa [Piece.trees] using hf.body)
      have hslot : (t.layout f.name).Covers (4 + 4 * f.params.length) := by
        rw [hlayout]
        exact .inl ⟨f.params.length, le_rfl, by omega⟩
      exact Supplied.resolved (.append (.append (.append (.cons (.bare rfl rfl)
        (supplied_copies fun _ => .value rfl rfl)) hbody) (.cons (.cell (.inr rfl)
          (.frame le_rfl hslot)) (supplied_copies fun _ => .bare rfl rfl)))
            (.cons (.bare rfl rfl) .nil))

theorem EmitsFunctions.supplied (ht : t.Sound items) {is : List Instance}
    (h : EmitsFunctions t.round is k code k') : Supplied t.layout code := by
  induction h with
  | nil => exact .nil
  | @cons i is f k k₁ k₂ a b hfound hf _ ih =>
      have hname : f.name = i.name := by simpa using List.find?_some hfound
      have hwell := ht.round.inferred f (List.mem_of_find?_eq_some hfound)
      exact (hf.supplied hwell (layout_of_find? (hname ▸ hfound))).append ih

/-- **The operands of the code of a unit go with the names.** -/
theorem EmitsUnit.supplied (ht : t.Sound items) (h : EmitsUnit t code k) :
    Supplied t.layout code := by
  cases h with
  | mk hroot hbody hfunctions =>
      obtain ⟨n', ys', hroot', -, hresolved⟩ := ht.root
      obtain ⟨rfl, rfl⟩ := Node.unit.inj (hroot.symm.trans hroot')
      have hbody := @Emits.supplied t.layout _ _ _ (fun _ _ _ hk hs hcell =>
        ⟨none, 0, writable_of_isGlobal (ht.noFrame ▸ hk) hs hcell⟩) _ _ _ _ _ hbody
          fun y hy => by
            obtain ⟨hy, hdefinition⟩ := List.mem_filter.1 hy
            exact hresolved y hy (by simpa using hdefinition)
      exact .append (Supplied.resolved (hbody.append (.cons (.bare rfl rfl) .nil)))
        (hfunctions.supplied ht)

end Units

end Lower

/-! ### The optimizer -/

namespace Peephole

open Machine Relation

variable {layout : String → Layout} {code code' : List Instr}

/-- A rule erases instructions, pushes values, copies cells and leaves jumps bare. -/
theorem Rewrites.supplied {pre post seg seg' : List Instr} (h : Rewrites pre post seg seg')
    (hseg : Supplied layout seg) : Supplied layout seg' := by
  have herase : ∀ i : Instr, i.erase.IsSupplied layout := fun _ => .bare rfl rfl
  cases h with
  | @comparison first _ _ _ _ _ _ _ hfirst =>
      have hnone := (hseg first List.mem_cons_self).operand_eq_none (by rw [hfirst]; rfl)
      exact .cons (.bare rfl hnone) <| .cons (herase _) <| .cons (herase _) <|
        .cons (herase _) <| .cons (herase _) <| .cons (herase _) .nil
  | idleJump => exact .cons (herase _) .nil
  | sureJump => exact .cons (.bare rfl rfl) <| .cons (herase _) <| .cons (herase _) .nil
  | neverJump => exact .cons (herase _) <| .cons (herase _) <| .cons (herase _) .nil
  | deadPair => exact .cons (herase _) <| .cons (herase _) .nil
  | floatLiteral hfirst =>
      exact .cons (.value (op_of_pushed? hfirst).1 rfl) <| .cons (herase _) .nil
  | duplicateLoad =>
      exact .cons (hseg _ List.mem_cons_self) <| .cons (.bare rfl rfl) .nil

theorem Improves.supplied (h : Improves code code') (hcode : Supplied layout code) :
    Supplied layout code' := by
  cases h with
  | change h =>
      obtain ⟨hpre, hrest⟩ := List.forall_mem_append.1 hcode
      obtain ⟨hseg, hpost⟩ := List.forall_mem_append.1 hrest
      exact Supplied.append hpre ((h.supplied hseg).append hpost)
  | splice =>
      intro a ha
      obtain ⟨b, hb, rfl⟩ := Code.mem_spliced ha
      exact (hcode b ((Code.thin_sublist code).subset hb)).congr (Code.op_redirect _ _)
        (Code.operand_redirect _ _)

/-- **The operands of optimized code go with the names.** -/
theorem supplied_of_improved (h : ReflTransGen Improves code code')
    (hcode : Supplied layout code) : Supplied layout code' := by
  induction h with
  | refl => exact hcode
  | tail _ h ih => exact h.supplied ih

end Peephole

end StackLang
