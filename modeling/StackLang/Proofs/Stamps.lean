/-
**Code with known types of cells.**

In code that comes from typed trees more is known before every instruction than the number of cells:
each cell from the top to the bottom of the frame has a type, and so have the arguments below the
frame.  Such types are given by stamps at the instructions.  Whether the stamps are right is checked
for one instruction at a time against the stamp of the next one, and for each jump against that of
its target.  A halt shows a cell of any type, so jumps to a halt need no more than to get there.

Main definitions:

* `FrameTypes` — the types of the arguments, of the result and of the local variables of a function;
* `CellTyping`, `Fitting` — which cells an operand stands for, and that frames have room for these;
* `Stamp.Legal`, `Stamp.Chained`, `WellStamped` — the stamps of one instruction, of a stretch of
  code, and of a whole program are right;
* `Machine.TypeSafe` — what type safety asks of a state with tags.

Main results:

* `Machine.Agrees.execute` — one instruction keeps the types right;
* `Machine.typeSafe_of_wellStamped` — **code with right stamps is type-safe** in every run.
-/

import StackLang.Proofs.Levels
import StackLang.Proofs.Machine.Tags

set_option relaxedAutoImplicit false
set_option autoImplicit false

namespace StackLang

/-! ### What cells are for -/

/-- The types of the cells that a function works with. -/
structure FrameTypes where
  params : List Scalar
  result : Scalar
  locals : List Scalar

namespace FrameTypes

variable {f : FrameTypes} {offset : Int} {type type' : Scalar}

/-- The cells of the frame, from the last local variable down to the return cell. -/
def cells (f : FrameTypes) : List Scalar := f.locals.reverse ++ [.int]

/-- The place with the offset holds cells of the type. -/
def Has (f : FrameTypes) (offset : Int) (type : Scalar) : Prop :=
  (∃ j : Nat, (f.params ++ [f.result])[j]? = some type ∧ offset = 4 * (j + 1)) ∨
    ∃ j : Nat, f.locals[j]? = some type ∧ offset = -4 * (j + 1)

theorem Has.unique (h : f.Has offset type) (h' : f.Has offset type') : type = type' := by
  rcases h with ⟨j, hj, rfl⟩ | ⟨j, hj, rfl⟩ <;> rcases h' with ⟨k, hk, heq⟩ | ⟨k, hk, heq⟩
  · obtain rfl : j = k := by omega
    exact Option.some.inj (hj.symm.trans hk)
  · omega
  · omega
  · obtain rfl : j = k := by omega
    exact Option.some.inj (hj.symm.trans hk)

/-- The arguments and the cell for the result lie one behind the other. -/
theorem Has.of_nat {j : Nat} (h : f.Has (4 * (j + 1)) type) :
    (f.params ++ [f.result])[j]? = some type := by
  rcases h with ⟨k, hk, heq⟩ | ⟨k, -, heq⟩
  · obtain rfl : j = k := by omega
    exact hk
  · omega

end FrameTypes

/-- In a function, or outside of all functions, an operand stands for cells of a type. -/
abbrev CellTyping := Option String → Operand → Scalar → Prop

/-- **The cells of operands have their places**: those in frames where the frame has one of the
type, and those of global variables the same everywhere. -/
structure Fitting (frames : String → FrameTypes) (cell : CellTyping) : Prop where
  frame : ∀ {o : Option String} {offset : Int} {type : Scalar}, cell o (.frame offset) type →
    ∃ name, o = some name ∧ (frames name).Has offset type
  global : ∀ {o o' : Option String} {label : String} {type type' : Scalar},
    cell o (.global label) type → cell o' (.global label) type' → type = type'
  place : ∀ {o : Option String} {operand : Operand} {type : Scalar}, cell o operand type →
    (∃ label, operand = .global label) ∨ ∃ offset, operand = .frame offset

/-- An operand stands for cells of one type. -/
theorem Fitting.unique {frames : String → FrameTypes} {cell : CellTyping} (h : Fitting frames cell)
    {o : Option String} {operand : Operand} {type type' : Scalar} (hcell : cell o operand type)
    (hcell' : cell o operand type') : type = type' := by
  rcases h.place hcell with ⟨label, rfl⟩ | ⟨offset, rfl⟩
  · exact h.global hcell hcell'
  · obtain ⟨name, rfl, hhas⟩ := h.frame hcell
    obtain ⟨name', hname, hhas'⟩ := h.frame hcell'
    cases hname
    exact hhas.unique hhas'

/-- The cells that belong to the frame of a function, and none outside of functions. -/
def frameCells (frames : String → FrameTypes) : Option String → List Scalar
  | none => []
  | some name => (frames name).cells

/-! ### Stamps -/

/-- The stamp of an instruction: the function to which it belongs, and the types of the cells from
the top to the bottom of the frame. -/
structure Stamp where
  owner : Option String
  cells : List Scalar
deriving DecidableEq

/-- An instruction with a stamp. -/
abbrev Stamped := Instr × Stamp

namespace Stamp

section Stamps

variable (frames : String → FrameTypes) (cell : CellTyping)

/-- An operand that can be read as a type.  A zero can be read as either. -/
inductive Reads : Stamp → Operand → Scalar → Prop where
  | immediate {σ : Stamp} {bits : UInt32} {type : Scalar} : Reads σ (.immediate bits type) type
  | zero {σ : Stamp} {type type' : Scalar} : Reads σ (.immediate 0 type) type'
  | cell {o : Option String} {operand : Operand} {type : Scalar} (w : List Scalar)
      (h : cell o operand type) : Reads ⟨o, w ++ frameCells frames o⟩ operand type

/-- **The stamp of an instruction is right**, with the stamp of the next one. -/
inductive Legal : Instr → Stamp → Option Stamp → Prop where
  | load {i : Instr} {o : Option String} {c : List Scalar} {type : Scalar} (hop : i.op = .load)
      (hread : Reads frames cell ⟨o, c⟩ i.operand type) : Legal i ⟨o, c⟩ (some ⟨o, type :: c⟩)
  | store {i : Instr} {o : Option String} {w : List Scalar} {type : Scalar} (hop : i.op = .store)
      (hcell : cell o i.operand type) :
      Legal i ⟨o, type :: (w ++ frameCells frames o)⟩ (some ⟨o, w ++ frameCells frames o⟩)
  | pop {i : Instr} {o : Option String} {c : List Scalar} {type : Scalar} (hop : i.op = .pop) :
      Legal i ⟨o, type :: c⟩ (some ⟨o, c⟩)
  | arith {i : Instr} {o : Option String} {c : List Scalar} {op : ArithOp} {type : Scalar}
      (hop : i.op = .arith op type) : Legal i ⟨o, type :: type :: c⟩ (some ⟨o, type :: c⟩)
  | toFloat {i : Instr} {o : Option String} {c : List Scalar} (hop : i.op = .toFloat) :
      Legal i ⟨o, .int :: c⟩ (some ⟨o, .float :: c⟩)
  | toInt {i : Instr} {o : Option String} {c : List Scalar} (hop : i.op = .toInt) :
      Legal i ⟨o, .float :: c⟩ (some ⟨o, .int :: c⟩)
  | goto {i : Instr} {σ : Stamp} {next : Option Stamp} (hop : i.op = .jump .always) :
      Legal i σ next
  | branch {i : Instr} {σ : Stamp} {c : Condition} (hop : i.op = .jump c) : Legal i σ (some σ)
  | call {i : Instr} {o : Option String} {c : List Scalar} {name : String} (hop : i.op = .call)
      (hname : i.operand = .label name) :
      Legal i ⟨o, (frames name).params ++ (frames name).result :: c⟩
        (some ⟨o, (frames name).params ++ (frames name).result :: c⟩)
  | ret {i : Instr} {name : String} {type : Scalar} {next : Option Stamp} (hop : i.op = .ret) :
      Legal i ⟨some name, [type]⟩ next
  | halt {i : Instr} {σ : Stamp} {next : Option Stamp} (hop : i.op = .halt) : Legal i σ next
  | nop {i : Instr} {σ : Stamp} (hop : i.op = .nop) : Legal i σ (some σ)
  | entry {i : Instr} {name : String} (hop : i.op = .entry name) :
      Legal i ⟨some name, [.int]⟩ (some ⟨some name, [.int]⟩)

/-- The stamp of the first of some instructions, or of what comes behind them. -/
def head (ann : List Stamped) (last : Option Stamp) : Option Stamp :=
  (ann.head?.map Prod.snd).or last

/-- **The stamps of a stretch of code are right**, with the function to which the code before it
belongs and the stamp of what comes behind it. -/
def Chained : Option String → List Stamped → Option Stamp → Prop
  | _, [], _ => True
  | owner, p :: ann, last =>
    p.2.owner = p.1.home owner ∧ Legal frames cell p.1 p.2 (head ann last) ∧
      Chained (p.1.home owner) ann last

end Stamps

section Chained

variable {frames : String → FrameTypes} {cell : CellTyping} {xs ys : List Stamped}
  {owner : Option String} {last : Option Stamp}

@[simp] theorem head_nil (last : Option Stamp) : head [] last = last := rfl

@[simp] theorem head_cons (p : Stamped) (xs : List Stamped) (last : Option Stamp) :
    head (p :: xs) last = some p.2 := rfl

theorem head_append (xs ys : List Stamped) (last : Option Stamp) :
    head (xs ++ ys) last = head xs (head ys last) := by
  cases xs <;> rfl

theorem chained_append_iff : Chained frames cell owner (xs ++ ys) last ↔
    Chained frames cell owner xs (head ys last) ∧
      Chained frames cell (homes owner (xs.map Prod.fst)) ys last := by
  induction xs generalizing owner with
  | nil => simp [Chained]
  | cons p xs ih =>
      simp only [List.cons_append, Chained, ih, List.map_cons, homes_cons, head_append]
      tauto

end Chained

namespace Legal

variable {frames : String → FrameTypes} {cell : CellTyping} {i : Instr} {σ : Stamp}
  {next : Option Stamp}

/-- The cells that an instruction computes on have its types. -/
theorem consumed (h : Legal frames cell i σ next) {j : Nat} {type : Scalar}
    (hj : i.op.consumed[j]? = some type) : σ.cells[j]? = some type := by
  cases h with
  | arith hop =>
      rw [hop] at hj
      rcases j with _ | _ | j
      · exact hj
      · exact hj
      · cases hj
  | toFloat hop | toInt hop =>
      rw [hop] at hj
      rcases j with _ | j
      · exact hj
      · cases hj
  | _ => simp_all [Op.consumed]

/-- The cell that is stored has the type of its place. -/
theorem stored (h : Legal frames cell i σ next) (hop : i.op = .store) :
    ∃ type, cell σ.owner i.operand type ∧ σ.cells[0]? = some type := by
  cases h with
  | store _ hcell => exact ⟨_, hcell, rfl⟩
  | _ => simp_all

/-- The arguments of a call, and the cell for its result, have the types of the function. -/
theorem passed (h : Legal frames cell i σ next) (hop : i.op = .call) {name : String}
    (hname : i.operand = .label name) :
    ∃ c, σ.cells = (frames name).params ++ (frames name).result :: c := by
  cases h with
  | call _ hname' =>
      cases hname.symm.trans hname'
      exact ⟨_, rfl⟩
  | _ => simp_all

end Legal

end Stamp

/-- **The stamps of a program are right**: those of a jump and of its target agree, unless the
target is a halt. -/
structure WellStamped (frames : String → FrameTypes) (cell : CellTyping) (ann : List Stamped) :
    Prop where
  chained : Stamp.Chained frames cell none ann none
  start : ∃ i rest, ann = (i, ⟨none, []⟩) :: rest
  targets : ∀ p ∈ ann, p.1.op.isJump = true →
    ∃ q ∈ ann, p.1.targetId? = some q.1.id ∧ (q.2 = p.2 ∨ q.1.op = .halt)

/-! ### Type safety -/

namespace Machine

/-- **Type safety** before the next instruction.  An instruction computes on cells of its types, a
store puts a cell of the type of the place there, and a call finds arguments of the types that the
function has for them. -/
structure TypeSafe (cell : CellTyping) (code : List Instr) (T : Tagged) : Prop where
  consumed : ∀ i rest, T.state.rest = i :: rest →
    ∀ (j : Nat) (type : Scalar), i.op.consumed[j]? = some type → T.Counts j type
  stored : ∃ before, code = before ++ T.state.rest ∧ ∀ i rest, T.state.rest = i :: rest →
    i.op = .store → (∃ type, cell (homes none before) i.operand type) ∧
      ∀ type, cell (homes none before) i.operand type → T.Counts 0 type
  passed : ∀ i rest name, T.state.rest = i :: rest → i.op = .call → i.operand = .label name →
    ∀ (j : Nat) (type : Scalar), cell (some name) (.frame (4 * (j + 1))) type → T.Counts j type

section Runs

variable {frames : String → FrameTypes} {cell : CellTyping} {ann : List Stamped} {σ : Stamp}
  {below : List Scalar} {T : Tagged} {s : State} {i : Instr} {rest : List Instr}

/-- Some instructions are those of the program from one with the stamp `σ` on. -/
def StampedAt (ann : List Stamped) (rest : List Instr) (σ : Stamp) : Prop :=
  ∃ pre i suf, ann = pre ++ (i, σ) :: suf ∧ rest = i :: suf.map Prod.fst

/-- The next instruction is a halt. -/
def AtHalt (code : List Instr) (s : State) : Prop :=
  ∃ before i rest, code = before ++ i :: rest ∧ s.rest = i :: rest ∧ i.op = .halt

/-- **The frames of the calls that are not over**, with the types of the cells below the running
one: each caller goes on with the cells that it had at the call. -/
inductive Called (frames : String → FrameTypes) (ann : List Stamped) :
    Option String → List Scalar → List (List Instr × Nat) → Prop where
  | main : Called frames ann none [] []
  | call {name : String} {o : Option String} {c c' below : List Scalar} {rest : List Instr}
      {calls : List (List Instr × Nat)} (hat : StampedAt ann rest ⟨o, c⟩)
      (hc : c = (frames name).params ++ (frames name).result :: c')
      (h : Called frames ann o below calls) :
      Called frames ann (some name) (c ++ below) ((rest, below.length) :: calls)

/-- **The invariant of a run**: the cells count as the types in the stamp of the next instruction,
with those below the frame, and global variables count as their types. -/
structure Agrees (frames : String → FrameTypes) (cell : CellTyping) (ann : List Stamped)
    (below : List Scalar) (σ : Stamp) (T : Tagged) : Prop where
  place : StampedAt ann T.state.rest σ
  base : T.state.base = below.length
  fills : Fills (σ.cells ++ below) T.state.stack T.tags
  called : Called frames ann σ.owner below T.state.frames
  globals : ∀ o label type, cell o (.global label) type →
    CountsAs type (T.globals label) (T.state.globals label)

/-- The stamp of an instruction is right, and the next instruction has the next stamp. -/
theorem legal_of_stampedAt (h : WellStamped frames cell ann) (hat : StampedAt ann (i :: rest) σ) :
    ∃ next, Stamp.Legal frames cell i σ next ∧ (∀ τ, next = some τ → StampedAt ann rest τ) ∧
      (i, σ) ∈ ann ∧
        ∃ before, ann.map Prod.fst = before ++ i :: rest ∧
          σ.owner = i.home (homes none before) := by
  obtain ⟨pre, j, suf, rfl, heq⟩ := hat
  obtain ⟨rfl, rfl⟩ := List.cons.inj heq
  obtain ⟨-, howner, hlegal, -⟩ := Stamp.chained_append_iff.1 h.chained
  refine ⟨_, hlegal, ?_, by simp, pre.map Prod.fst, by simp, howner⟩
  intro τ hτ
  cases suf with
  | nil => cases hτ
  | cons p suf =>
      cases hτ
      exact ⟨pre ++ [(i, σ)], p.1, suf, by simp, rfl⟩

/-- A jump comes to its target, where the same types are known, or to a halt. -/
theorem stampedAt_landing (h : WellStamped frames cell ann) (hreg : Regular (ann.map Prod.fst))
    (hmem : (i, σ) ∈ ann) (hop : i.op.isJump = true) {l : List Instr}
    (hl : landing? (ann.map Prod.fst) i = some l) :
    StampedAt ann l σ ∨ AtHalt (ann.map Prod.fst) { s with rest := l } := by
  obtain ⟨q, hq, htarget, hsame⟩ := h.targets (i, σ) hmem hop
  obtain ⟨pre, suf, rfl⟩ := List.append_of_mem hq
  have hnodup := hreg.nodup
  simp only [List.map_append, List.map_cons] at hnodup hl
  have hfresh : q.1.id ∉ (pre.map Prod.fst).map Instr.id := fun hmem =>
    (List.nodup_append.1 hnodup).2.2 _ hmem _ List.mem_cons_self rfl
  rw [landing?, htarget, Option.bind_some, goto?_append_cons hfresh] at hl
  cases hl
  rcases hsame with hsame | hhalt
  · obtain rfl : q.2 = σ := hsame
    exact .inl ⟨pre, q.1, suf, rfl, rfl⟩
  · exact .inr ⟨pre.map Prod.fst, q.1, suf.map Prod.fst, by simp, rfl, hhalt⟩

/-- A call comes to the entry of the function. -/
theorem stampedAt_callee (h : WellStamped frames cell ann) {name : String} {l : List Instr}
    (hl : callee? name (ann.map Prod.fst) = some l) : StampedAt ann l ⟨some name, [.int]⟩ := by
  obtain ⟨pre, j, rest, heq, rfl, hj⟩ := exists_of_callee? hl
  obtain ⟨pre', suf, rfl, rfl, hsuf⟩ := List.map_eq_append_iff.1 heq
  obtain ⟨q, suf', rfl, rfl, rfl⟩ := List.map_eq_cons_iff.1 hsuf
  obtain ⟨-, -, hlegal, -⟩ := Stamp.chained_append_iff.1 h.chained
  have hstamp : q.2 = ⟨some name, [.int]⟩ := by
    generalize Stamp.head suf' none = next at hlegal
    obtain ⟨j, τ⟩ := q
    cases hlegal <;> simp_all
  exact ⟨pre', q.1, suf', by rw [← hstamp], rfl⟩

/-- Which type the cell of a place in the frame has. -/
theorem type_of_slot {name : String} {offset : Int} {type : Scalar} {w : List Scalar} {k : Nat}
    {calls : List (List Instr × Nat)} (hcalled : Called frames ann (some name) below calls)
    (hhas : (frames name).Has offset type) (hbase : s.base = below.length)
    (hslot : s.slot offset = .ok k) :
    (w ++ frameCells frames (some name) ++ below).reverse[k]? = some type := by
  simp only [List.reverse_append, frameCells, FrameTypes.cells, List.reverse_reverse,
    List.reverse_singleton]
  rcases hhas with ⟨j, hj, rfl⟩ | ⟨j, hj, rfl⟩
  · -- the arguments and the result lie on top of the cells below the frame
    have hdiv : (4 * ((j : Int) + 1)).tdiv 4 = j + 1 := Int.mul_tdiv_cancel_left _ (by omega)
    simp only [State.slot, hdiv, hbase] at hslot
    split at hslot
    · case isTrue hin =>
        cases hslot
        have hk : ((below.length : Int) - (j + 1)).toNat = below.length - 1 - j := by omega
        have hlt : j < below.length := by omega
        rw [hk, List.getElem?_append_left (by simp; omega), List.getElem?_reverse (by omega),
          show below.length - 1 - (below.length - 1 - j) = j by omega]
        cases hcalled with
        | call hat hc h =>
            rw [hc, List.append_assoc, List.cons_append, List.append_cons,
              List.getElem?_append_left (List.getElem?_eq_some_iff.1 hj).1]
            exact hj
    · cases hslot
  · have hdiv : (-4 * ((j : Int) + 1)).tdiv 4 = -(j + 1) := by
      rw [Int.neg_mul, Int.neg_tdiv, Int.mul_tdiv_cancel_left _ (by omega)]
    simp only [State.slot, hdiv, hbase] at hslot
    split at hslot
    · cases hslot
      have hk : ((below.length : Int) - -(j + 1)).toNat = below.length + (j + 1) := by omega
      have hlt := (List.getElem?_eq_some_iff.1 hj).1
      rw [hk, List.getElem?_append_right (by simp), List.length_reverse, Nat.add_sub_cancel_left,
        List.append_assoc, List.singleton_append, List.getElem?_cons_succ,
        List.getElem?_append_left hlt]
      exact hj
    · cases hslot

/-- What an operand is read as, it counts as. -/
theorem Agrees.counts_of_reads (hfit : Fitting frames cell)
    (ha : Agrees frames cell ann below σ T) {operand : Operand} {type : Scalar} {v : UInt32}
    (hread : Stamp.Reads frames cell σ operand type)
    (hv : State.read operand { T.state with rest } = .ok v) :
    CountsAs type (T.tagOf operand) v := by
  cases hread with
  | immediate =>
      cases hv
      exact .inl rfl
  | zero =>
      cases hv
      exact .inr rfl
  | cell w h =>
      rcases hfit.place h with ⟨label, rfl⟩ | ⟨offset, rfl⟩
      · cases hv
        exact ha.globals _ _ _ h
      · obtain ⟨name, rfl, hhas⟩ := hfit.frame h
        cases hslot : T.state.slot offset with
        | error f =>
            change (T.state.slot offset).map _ = _ at hv
            rw [hslot] at hv
            cases hv
        | ok k =>
            change (T.state.slot offset).map _ = _ at hv
            rw [hslot] at hv
            cases hv
            obtain ⟨v, tag, hcell, htag, hcounts⟩ :=
              ha.fills.reverse.counts (type_of_slot ha.called hhas ha.base hslot)
            simp only [Tagged.tagOf, hslot, State.cells, List.getD_eq_getElem?_getD, hcell, htag,
              Option.getD_some]
            exact hcounts

/-- **A store keeps the types right**: a cell goes where cells of its type belong. -/
theorem fills_of_write (hfit : Fitting frames cell) {o : Option String} {w tags : List Scalar}
    {type tag : Scalar} {v : UInt32} {t : State} (hcell : cell o i.operand type)
    (hop : i.op = .store) (htags : T.tags = tag :: tags) (hcounts : CountsAs type tag v)
    (hbase : s.base = below.length)
    (hfills : Fills (w ++ frameCells frames o ++ below) s.stack tags)
    (hcalled : Called frames ann o below s.frames)
    (hglobals : ∀ o label type, cell o (.global label) type →
      CountsAs type (T.globals label) (s.globals label))
    (hwrite : s.write i.operand v = .ok t) :
    Fills (w ++ frameCells frames o ++ below) t.stack (T.tagsAfter i t) ∧
      ∀ o label type, cell o (.global label) type →
        CountsAs type (T.globalsAfter i label) (t.globals label) := by
  rcases hfit.place hcell with ⟨label, hlabel⟩ | ⟨offset, hoffset⟩
  · rw [hlabel] at hwrite hcell
    cases hwrite
    refine ⟨by simpa [Tagged.tagsAfter, hop, hlabel, htags] using hfills, fun o' l type' h => ?_⟩
    simp only [Tagged.globalsAfter, hop, hlabel, htags, List.headD_cons]
    by_cases hl : l = label
    · subst hl
      simpa [hfit.global h hcell] using hcounts
    · simpa [hl] using hglobals o' l type' h
  · rw [hoffset] at hwrite hcell
    obtain ⟨name, rfl, hhas⟩ := hfit.frame hcell
    cases hslot : s.slot offset with
    | error f =>
        simp only [State.write, hslot] at hwrite
        cases hwrite
    | ok k =>
        simp only [State.write, hslot] at hwrite
        cases hwrite
        -- behind the store the slot is found in the same place
        have hsame : State.slot offset { s with stack := (s.cells.set k v).reverse } = .ok k := by
          rw [← hslot]
          simp [State.slot, State.cells]
        constructor
        · simp only [Tagged.tagsAfter, hop, hoffset, hsame, htags, List.tail_cons, List.headD_cons]
          have hset := hfills.reverse.set (type_of_slot hcalled hhas hbase hslot) hcounts
          simpa [State.cells] using hset.reverse
        · simpa [Tagged.globalsAfter, hop, hoffset] using hglobals

/-- **One instruction keeps the types right**, unless it leads to a halt. -/
theorem Agrees.execute (hfit : Fitting frames cell) (h : WellStamped frames cell ann)
    (hreg : Regular (ann.map Prod.fst)) (ha : Agrees frames cell ann below σ T)
    (hs : T.state.rest = i :: rest) (hi : i.op ≠ .halt)
    (he : Machine.execute (ann.map Prod.fst) i { T.state with rest } = .ok s) :
    (∃ below τ, Agrees frames cell ann below τ (T.after i s)) ∨
      AtHalt (ann.map Prod.fst) s := by
  obtain ⟨hplace, hbase, hfills, hcalled, hglobals⟩ := id ha
  obtain ⟨next, hlegal, hnext, hmem, -⟩ := legal_of_stampedAt h (hs ▸ hplace)
  -- an instruction other than a store leaves the global variables as they are
  have hglobals' : i.op ≠ .store → s.globals = T.state.globals →
      ∀ o label type, cell o (.global label) type →
        CountsAs type (T.globalsAfter i label) (s.globals label) := by
    intro hop hsame
    have hkept : T.globalsAfter i = T.globals := by
      unfold Tagged.globalsAfter
      split
      · exact absurd ‹_› hop
      · rfl
    rw [hkept, hsame]
    exact hglobals
  -- an instruction that goes on to the next one with other cells
  have hstep : ∀ c : List Scalar, next = some ⟨σ.owner, c⟩ → i.op ≠ .store → s.rest = rest →
      s.base = T.state.base → s.frames = T.state.frames → s.globals = T.state.globals →
        Fills (c ++ below) s.stack (T.tagsAfter i s) →
          ∃ below τ, Agrees frames cell ann below τ (T.after i s) := by
    intro c hc hop hrest hbase' hframes hsame hfills'
    refine ⟨below, ⟨σ.owner, c⟩, hrest ▸ hnext _ hc, hbase'.trans hbase, hfills', ?_,
      hglobals' hop hsame⟩
    exact hframes ▸ hcalled
  -- a jump that is taken keeps the cells
  have hlands : ∀ {c : Condition}, i.op = .jump c → ∀ l,
      landing? (ann.map Prod.fst) i = some l → s = { T.state with rest := l } →
        (∃ below τ, Agrees frames cell ann below τ (T.after i s)) ∨
          AtHalt (ann.map Prod.fst) s := by
    rintro c hop l hl rfl
    rcases stampedAt_landing h hreg hmem (by simp [hop, Op.isJump]) hl with hat | hhalt
    · refine .inl ⟨below, σ, hat, hbase, ?_, hcalled, hglobals' (by simp [hop]) rfl⟩
      simpa [Tagged.after, Tagged.tagsAfter, hop] using hfills
    · exact .inr hhalt
  cases hlegal with
  | load hop hread =>
      obtain ⟨v, hv, rfl⟩ := (execute_load hop).1 he
      refine .inl (hstep _ rfl (by simp [hop]) rfl rfl rfl rfl ?_)
      simp only [Tagged.tagsAfter, hop]
      exact .cons (ha.counts_of_reads hfit hread hv) hfills
  | @store o w type hop hcell =>
      obtain ⟨v, stack, hstack, hwrite⟩ := (execute_store hop).1 he
      obtain ⟨tag, tags, htags, hcounts, hfills⟩ := (hstack ▸ hfills).exists_cons
      obtain ⟨hfills', hglobals'⟩ := fills_of_write (s := { T.state with rest, stack }) hfit hcell
        hop htags hcounts hbase hfills hcalled hglobals hwrite
      have hkept := (State.write_eq_ok hwrite).1
      refine .inl ⟨below, ⟨o, w ++ frameCells frames o⟩, ?_, ?_, hfills', ?_, hglobals'⟩
      · exact (congrArg State.rest hkept).symm ▸ hnext _ rfl
      · exact (congrArg State.base hkept).trans hbase
      · exact (congrArg State.frames hkept).symm ▸ hcalled
  | pop hop =>
      obtain ⟨v, stack, hstack, rfl⟩ := (execute_pop hop).1 he
      obtain ⟨tag, tags, htags, -, hfills⟩ := (hstack ▸ hfills).exists_cons
      refine .inl (hstep _ rfl (by simp [hop]) rfl rfl rfl rfl ?_)
      simpa [Tagged.tagsAfter, hop, htags] using hfills
  | arith hop =>
      obtain ⟨a, b, v, stack, hstack, -, rfl⟩ := (execute_arith hop).1 he
      obtain ⟨tag, tags, htags, -, hfills⟩ := (hstack ▸ hfills).exists_cons
      obtain ⟨tag', tags', rfl, -, hfills⟩ := hfills.exists_cons
      refine .inl (hstep _ rfl (by simp [hop]) rfl rfl rfl rfl ?_)
      simpa [Tagged.tagsAfter, hop, htags] using Fills.cons (.inl rfl) hfills
  | toFloat hop =>
      obtain ⟨v, stack, hstack, rfl⟩ := (execute_toFloat hop).1 he
      obtain ⟨tag, tags, htags, -, hfills⟩ := (hstack ▸ hfills).exists_cons
      refine .inl (hstep _ rfl (by simp [hop]) rfl rfl rfl rfl ?_)
      simpa [Tagged.tagsAfter, hop, htags] using Fills.cons (.inl rfl) hfills
  | toInt hop =>
      obtain ⟨v, stack, hstack, rfl⟩ := (execute_toInt hop).1 he
      obtain ⟨tag, tags, htags, -, hfills⟩ := (hstack ▸ hfills).exists_cons
      refine .inl (hstep _ rfl (by simp [hop]) rfl rfl rfl rfl ?_)
      simpa [Tagged.tagsAfter, hop, htags] using Fills.cons (.inl rfl) hfills
  | goto hop =>
      obtain ⟨-, l, hl, rfl⟩ | ⟨hc, -⟩ := (execute_jump hop).1 he
      · exact hlands hop l hl rfl
      · cases hc
  | branch hop =>
      obtain ⟨-, l, hl, rfl⟩ | ⟨-, rfl⟩ := (execute_jump hop).1 he
      · exact hlands hop l hl rfl
      · refine .inl (hstep _ rfl (by simp [hop]) rfl rfl rfl rfl ?_)
        simpa [Tagged.tagsAfter, hop] using hfills
  | call hop hname =>
      obtain ⟨name, l, hname', hl, rfl⟩ := (execute_call hop).1 he
      cases hname.symm.trans hname'
      refine .inl ⟨_, _, stampedAt_callee h hl, hfills.length.1, ?_, ?_,
        hglobals' (by simp [hop]) rfl⟩
      · simpa [Tagged.after, Tagged.tagsAfter, hop] using Fills.cons (.inl rfl) hfills
      · have hnew := Called.call (hnext _ rfl) rfl hcalled
        rwa [← hbase] at hnew
  | ret hop =>
      -- the caller has the cells that it had at the call
      obtain ⟨rest', base', calls, -, hframes, rfl⟩ := (execute_ret hop).1 he
      rw [show T.state.frames = (rest', base') :: calls from hframes] at hcalled
      cases hcalled with
      | @call _ o c c' below' _ _ hat hc hcaller =>
          refine .inl ⟨below', ⟨o, c⟩, hat, rfl, ?_, hcaller, hglobals' (by simp [hop]) rfl⟩
          generalize hstack : T.state.stack = stack at hfills
          generalize htags : T.tags = tags at hfills
          cases hfills with
          | cons _ hfills => simpa [Tagged.after, Tagged.tagsAfter, hop, hstack, htags] using hfills
  | halt hop => exact absurd hop hi
  | nop hop =>
      obtain rfl := (execute_still (.inl hop)).1 he
      refine .inl (hstep _ rfl (by simp [hop]) rfl rfl rfl rfl ?_)
      simpa [Tagged.tagsAfter, hop] using hfills
  | entry hop =>
      obtain rfl := (execute_still (.inr (.inr ⟨_, hop⟩))).1 he
      refine .inl (hstep _ rfl (by simp [hop]) rfl rfl rfl rfl ?_)
      simpa [Tagged.tagsAfter, hop] using hfills

/-- What counts as types from the top on. -/
theorem Agrees.counts (ha : Agrees frames cell ann below σ T) {j : Nat} {type : Scalar}
    (hj : σ.cells[j]? = some type) : T.Counts j type := by
  refine ha.fills.counts ?_
  rw [List.getElem?_append_left (List.getElem?_eq_some_iff.1 hj).1]
  exact hj

/-- **Where the types are right the next instruction is type-safe.** -/
theorem Agrees.typeSafe (hfit : Fitting frames cell) (h : WellStamped frames cell ann)
    (ha : Agrees frames cell ann below σ T) : TypeSafe cell (ann.map Prod.fst) T := by
  obtain ⟨-, i, suf, -, hrest⟩ := id ha.place
  obtain ⟨next, hlegal, -, -, before, hcode, howner⟩ := legal_of_stampedAt h (hrest ▸ ha.place)
  have hi : ∀ {j rest}, T.state.rest = j :: rest → j = i := fun hj =>
    (List.cons.inj (hj.symm.trans hrest)).1
  constructor
  case consumed =>
    intro j rest hj k type hk
    rw [hi hj] at hk
    exact ha.counts (hlegal.consumed hk)
  case stored =>
    refine ⟨before, hrest ▸ hcode, fun j rest hj hop => ?_⟩
    rw [hi hj] at hop ⊢
    have hhome : i.home (homes none before) = homes none before :=
      home_eq fun name hname => by simp [hop] at hname
    obtain ⟨type, hcell, htop⟩ := hlegal.stored hop
    rw [howner, hhome] at hcell
    exact ⟨⟨type, hcell⟩, fun type' hcell' => hfit.unique hcell hcell' ▸ ha.counts htop⟩
  case passed =>
    intro j rest name hj hop hname k type hk
    rw [hi hj] at hop hname
    obtain ⟨c, hcells⟩ := hlegal.passed hop hname
    obtain ⟨_, ⟨⟩, hhas⟩ := hfit.frame hk
    refine ha.counts ?_
    rw [hcells, List.append_cons,
      List.getElem?_append_left (List.getElem?_eq_some_iff.1 hhas.of_nat).1]
    exact hhas.of_nat

/-- A halt asks for nothing. -/
theorem typeSafe_of_atHalt {code : List Instr} (h : AtHalt code T.state) :
    TypeSafe cell code T := by
  obtain ⟨before, i, suf, hcode, hrest, hhalt⟩ := h
  have hop : ∀ {j rest}, T.state.rest = j :: rest → j.op = .halt := fun hj =>
    (List.cons.inj (hj.symm.trans hrest)).1 ▸ hhalt
  refine ⟨fun j rest hj k type hk => ?_, ⟨before, hrest ▸ hcode, fun j rest hj hstore => ?_⟩,
    fun j rest name hj hcall => ?_⟩
  · rw [hop hj] at hk
    cases hk
  · cases (hop hj).symm.trans hstore
  · cases (hop hj).symm.trans hcall

/-- A run starts without cells. -/
theorem agrees_start (h : WellStamped frames cell ann) :
    Agrees frames cell ann [] ⟨none, []⟩ (.start (ann.map Prod.fst)) := by
  obtain ⟨i, rest, rfl⟩ := h.start
  exact ⟨⟨[], i, rest, rfl, rfl⟩, rfl, .nil, .main, fun _ _ _ _ => .inr rfl⟩

/-- **Code with right stamps is type-safe** in every run. -/
theorem typeSafe_of_wellStamped (hfit : Fitting frames cell) (h : WellStamped frames cell ann)
    (hreg : Regular (ann.map Prod.fst)) (hT : Produces (ann.map Prod.fst) T) :
    TypeSafe cell (ann.map Prod.fst) T := by
  have hrun : (∃ below σ, Agrees frames cell ann below σ T) ∨
      AtHalt (ann.map Prod.fst) T.state := by
    induction hT with
    | start => exact .inl ⟨[], ⟨none, []⟩, agrees_start h⟩
    | @step T i rest s hT hrest hstep ih =>
        have hhalt : i.op ≠ .halt := by
          intro hop
          simp [Machine.step, hrest, hop] at hstep
        rcases ih with ⟨below, σ, ha⟩ | ⟨before, j, suf, -, hj, hop⟩
        · simp only [Machine.step, hrest, if_neg hhalt] at hstep
          split at hstep
          · case h_1 t he =>
            cases hstep
            exact ha.execute hfit h hreg hrest hhalt he
          · cases hstep
        · exact absurd ((List.cons.inj (hj.symm.trans hrest)).1 ▸ hop) hhalt
  rcases hrun with ⟨below, σ, ha⟩ | hhalt
  · exact ha.typeSafe hfit h
  · exact typeSafe_of_atHalt hhalt

end Runs

end Machine

end StackLang
