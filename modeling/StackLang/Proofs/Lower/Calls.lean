/-
**What lowered code refers to.**

An instruction refers to a function, to the cell of a variable or to a place in the frame.  The
calls of lowered code are those of the trees it is made for, the cells are those of symbols, and the
functions with code are those that calls go to.

Main definitions:

* `callees`, `entries` — the functions that code calls, and those whose code is in it;
* `Instr.IsPlaced` — the cells of an instruction are those of symbols, and its remark is one line;
* `Targeted`, `Linked` — all jumps have targets, and these are instructions.

Main results:

* `Lower.Emits.mem_callees`, `Lower.EmitsUnit.mem_callees` — the calls of lowered code are those of
  its trees;
* `Lower.EmitsUnit.mem_callees_iff` — the code of a unit has the functions that it calls;
* `Lower.EmitsUnit.allPlaced`, `Lower.EmitsUnit.linked` — its instructions are placed, and its jumps
  go to instructions.
-/

import StackLang.Proofs.Lower.Levels
import StackLang.Proofs.Text.Listing
import StackLang.Proofs.Typing.Calls

set_option relaxedAutoImplicit false
set_option autoImplicit false

namespace StackLang

/-! ### Functions in code -/

/-- The function that an instruction calls. -/
def Op.callee? (op : Op) (operand : Operand) : Option String :=
  match op, operand with
  | .call, .label name => some name
  | _, _ => none

/-- The function that starts with an instruction. -/
def Op.starts? : Op → Option String
  | .entry name => some name
  | _ => none

/-- Whether the instruction is neither a call nor target code. -/
def Op.isFree : Op → Bool
  | .call | .assembly _ => false
  | _ => true

/-- The functions that code calls, in order. -/
def callees (is : List Instr) : List String := is.filterMap fun i => i.op.callee? i.operand

/-- The functions whose code is here, in order. -/
def entries (is : List Instr) : List String := is.filterMap fun i => i.op.starts?

section Lists

variable {is js : List Instr} {i : Instr} {name : String}

@[simp] theorem callees_nil : callees [] = [] := rfl

@[simp] theorem callees_append : callees (is ++ js) = callees is ++ callees js :=
  List.filterMap_append

/-- An instruction other than a call calls nothing. -/
theorem callees_cons_of_isFree (h : i.op.isFree = true) : callees (i :: is) = callees is := by
  have hnone : i.op.callee? i.operand = none := by
    unfold Op.callee?
    split
    · simp_all [Op.isFree]
    · rfl
  simp only [callees, List.filterMap_cons, hnone]

theorem callees_call {id : Nat} :
    callees (.plain id .call (.label name) :: is) = name :: callees is := rfl

theorem mem_callees : name ∈ callees is ↔ ∃ i ∈ is, i.op = .call ∧ i.operand = .label name := by
  have hcallee : ∀ i : Instr,
      i.op.callee? i.operand = some name ↔ i.op = .call ∧ i.operand = .label name := by
    intro i
    unfold Op.callee?
    split <;> simp_all
  simp only [callees, List.mem_filterMap, hcallee]

@[simp] theorem entries_nil : entries [] = [] := rfl

theorem entries_cons : entries (i :: is) = i.op.starts?.toList ++ entries is := by
  rw [entries, List.filterMap_cons]
  cases i.op.starts? <;> rfl

@[simp] theorem entries_append : entries (is ++ js) = entries is ++ entries js :=
  List.filterMap_append

theorem mem_entries : name ∈ entries is ↔ ∃ i ∈ is, i.op = .entry name := by
  have hentry : ∀ i : Instr, i.op.starts? = some name ↔ i.op = .entry name := by
    intro i
    unfold Op.starts?
    split <;> simp_all
  simp only [entries, List.mem_filterMap, hentry]

end Lists

/-! ### Cells and remarks -/

/-- An operand without a name and without a place. -/
def Operand.isValue : Operand → Bool
  | none | immediate .. => true
  | _ => false

/-- What an instruction refers to exists: calls, and only they, name functions; a cell is that of a
symbol; a place in the frame is among the first `w + 1` on its side.  The remark is one line, and
there is no target code. -/
structure Instr.IsPlaced (w : Nat) (ss : Symbols) (i : Instr) : Prop where
  noAssembly : ∀ text, i.op ≠ .assembly text
  callee : i.op = .call → ∃ name, i.operand = .label name
  label : ∀ name, i.operand = .label name → i.op = .call
  cell : ∀ l, i.operand = .global l → ∃ (k : Nat) (s : Symbol), ss[k]? = some s ∧
    s.storage = .global l
  place : ∀ offset, i.operand = .frame offset → offset.natAbs ≤ 4 * (w + 1)
  remark : ∀ text, i.comment = some text → Text.IsOneLine text.toList

theorem ne_call_of_isFree {op : Op} (h : op.isFree = true) : op ≠ .call := by
  rintro rfl
  cases h

theorem ne_assembly_of_isFree {op : Op} (h : op.isFree = true) (text : String) :
    op ≠ .assembly text := by
  rintro rfl
  cases h

namespace Instr.IsPlaced

variable {w : Nat} {ss : Symbols}

/-- An instruction that refers to nothing. -/
theorem ofValue {id : Nat} {op : Op} {operand : Operand} {target : Option Target}
    {comment : Option String} (hop : op.isFree = true) (hoperand : operand.isValue = true)
    (hcomment : ∀ text, comment = some text → Text.IsOneLine text.toList) :
    Instr.IsPlaced w ss ⟨id, op, operand, target, comment⟩ := by
  refine ⟨ne_assembly_of_isFree hop, fun h => absurd h (ne_call_of_isFree hop), ?_, ?_, ?_,
    hcomment⟩
  all_goals
    rintro _ rfl
    cases hoperand

/-- An instruction on the cell of a variable. -/
theorem ofCell {id : Nat} {op : Op} {target : Option Target} {comment : Option String} {k : Nat}
    {s : Symbol} {cell : Operand} (hop : op.isFree = true) (hs : ss[k]? = some s)
    (hplaced : s.IsPlaced w) (hcell : s.storage.cell? = some cell)
    (hcomment : ∀ text, comment = some text → Text.IsOneLine text.toList) :
    Instr.IsPlaced w ss ⟨id, op, cell, target, comment⟩ := by
  have hasm := ne_assembly_of_isFree hop
  have hcall := ne_call_of_isFree hop
  cases hstorage : s.storage with
  | nowhere =>
      rw [hstorage] at hcell
      cases hcell
  | frame offset =>
      rw [hstorage] at hcell
      cases hcell
      refine ⟨hasm, fun h => absurd h hcall, nofun, nofun, ?_, hcomment⟩
      rintro _ ⟨⟩
      have := hplaced.place offset hstorage
      omega
  | global l =>
      rw [hstorage] at hcell
      cases hcell
      refine ⟨hasm, fun h => absurd h hcall, nofun, ?_, nofun, hcomment⟩
      rintro _ ⟨⟩
      exact ⟨k, s, hs, hstorage⟩

/-- An instruction that refers to the same things. -/
theorem congr {i j : Instr} (h : i.IsPlaced w ss) (hop : j.op = i.op)
    (hoperand : j.operand = i.operand) (hcomment : j.comment = i.comment) : j.IsPlaced w ss :=
  ⟨hop ▸ h.noAssembly, by rw [hop, hoperand]; exact h.callee, by rw [hop, hoperand]; exact h.label,
    hoperand ▸ h.cell, hoperand ▸ h.place, hcomment ▸ h.remark⟩

/-- A call of a function. -/
theorem ofCall {id : Nat} {name : String} : Instr.IsPlaced w ss (.plain id .call (.label name)) :=
  ⟨nofun, fun _ => ⟨name, rfl⟩, fun _ _ => rfl, nofun, nofun, nofun⟩

end Instr.IsPlaced

/-- A name of the source is one line, and so is a remark with one. -/
theorem isOneLine_remark {front : String} {s : Symbol} {w : Nat} (hplaced : s.IsPlaced w)
    (hstorage : s.storage ≠ .nowhere) (hfront : Text.IsOneLine front.toList) :
    Text.IsOneLine (front ++ s.sourceName).toList := by
  rw [String.toList_append, Text.IsOneLine, List.forall_mem_append]
  refine ⟨hfront, fun c hc => ?_⟩
  have hpart := (hplaced.name hstorage).isNamePart c hc
  constructor
  · rintro rfl
    exact absurd hpart (by decide)
  · rintro rfl
    exact absurd hpart (by decide)

/-! ### Jumps -/

/-- All jumps have targets. -/
def Targeted (is : List Instr) : Prop := ∀ i ∈ is, i.op.isJump = true → i.target ≠ none

/-- All jumps have targets, and these are instructions. -/
structure Linked (is : List Instr) : Prop where
  targeted : Targeted is
  target : ∀ i ∈ is, ∀ t, i.target = some t → ∃ k, t = .instr k ∧ k ∈ is.map Instr.id

section Targeted

variable {is js : List Instr} {i : Instr}

@[simp] theorem targeted_nil : Targeted [] := List.forall_mem_nil _

@[simp] theorem targeted_cons :
    Targeted (i :: is) ↔ (i.op.isJump = true → i.target ≠ none) ∧ Targeted is :=
  List.forall_mem_cons

@[simp] theorem targeted_append : Targeted (is ++ js) ↔ Targeted is ∧ Targeted js :=
  List.forall_mem_append

end Targeted

namespace Lower

/-! ### Expressions -/

/-- The trees of a piece. -/
def Piece.trees : Piece → List (Node Note)
  | .node x | .value x | .converted x _ | .test x _ => [x]
  | .statements xs | .arguments xs => xs

/-- The functions that the calls of some trees go to. -/
def calledNames (ss : Symbols) (xs : List (Node Note)) : List String :=
  (Node.calledAll xs).filterMap fun k => (ss[k]?).map Symbol.emittedName

section Names

variable {ss : Symbols} {x : Node Note} {xs : List (Node Note)}

@[simp] theorem calledNames_nil : calledNames ss [] = [] := rfl

theorem calledNames_cons :
    calledNames ss (x :: xs) = calledNames ss [x] ++ calledNames ss xs := by
  simp [calledNames, Node.calledAll]

theorem calledNames_of_called (h : x.called = []) : calledNames ss [x] = [] := by
  simp [calledNames, Node.calledAll, h]

theorem calledNames_assign {n : Note} {l r : Node Note} :
    calledNames ss [.binary n .assign l r] = calledNames ss [r] := by
  simp [calledNames, Node.calledAll, Node.called]

theorem calledNames_binary {n : Note} {op : BinaryOp} {l r : Node Note} (hop : op ≠ .assign) :
    calledNames ss [.binary n op l r] = calledNames ss [l] ++ calledNames ss [r] := by
  simp [calledNames, Node.calledAll, Node.called, hop]

theorem calledNames_unary {n : Note} {op : UnaryOp} :
    calledNames ss [.unary n op x] = calledNames ss [x] := by
  simp [calledNames, Node.calledAll, Node.called]

theorem calledNames_cond {n : Note} {c t : Node Note} :
    calledNames ss [.cond n c t none] = calledNames ss [c] ++ calledNames ss [t] := by
  simp [calledNames, Node.calledAll, Node.called]

theorem calledNames_condElse {n : Note} {c t e : Node Note} :
    calledNames ss [.cond n c t (some e)]
      = calledNames ss [c] ++ calledNames ss [t] ++ calledNames ss [e] := by
  simp [calledNames, Node.calledAll, Node.called]

theorem calledNames_loop {n : Note} {c b : Node Note} :
    calledNames ss [.loop n c b] = calledNames ss [c] ++ calledNames ss [b] := by
  simp [calledNames, Node.calledAll, Node.called]

theorem calledNames_returnValue {n : Note} :
    calledNames ss [.returnValue n x] = calledNames ss [x] := by
  simp [calledNames, Node.calledAll, Node.called]

theorem calledNames_block {n : Note} : calledNames ss [.block n xs] = calledNames ss xs := by
  simp [calledNames, Node.calledAll, Node.called]

theorem mem_calledNames {name : String} : name ∈ calledNames ss xs ↔
    ∃ k ∈ Node.calledAll xs, ∃ s : Symbol, ss[k]? = some s ∧ s.emittedName = name := by
  simp [calledNames, List.mem_filterMap]

theorem mem_calledNames_iff {name : String} :
    name ∈ calledNames ss xs ↔ ∃ x ∈ xs, name ∈ calledNames ss [x] := by
  induction xs with
  | nil => simp
  | cons x xs ih => rw [calledNames_cons, List.mem_append, ih, List.exists_mem_cons_iff]

end Names

section Pieces

variable {symbols : Symbols} {site : Site} {piece : Piece} {k k' : Nat} {code : List Instr}

theorem callees_copies (k n : Nat) {op : Op} {operand : Operand} (hop : op.isFree = true) :
    callees (copies k n op operand) = [] := by
  induction n generalizing k with
  | zero => rfl
  | succ n ih =>
      rw [copies_succ, callees_cons_of_isFree hop]
      exact ih (k + 1)

@[simp] theorem callees_conversion (k : Nat) (s t : Scalar) : callees (conversion k s t) = [] := by
  cases s <;> cases t <;> rfl

@[simp] theorem callees_verdict (k : Nat) (c : Condition) : callees (verdict k c) = [] := rfl

theorem called_of_loopJump? {x : Node Note} {toHead : Bool} (h : x.loopJump? = some toHead) :
    x.called = [] := by
  cases x <;> cases h <;> simp [Node.called]

theorem called_of_isSilent {x : Node Note} (h : x.isSilent = true) : x.called = [] := by
  cases x <;> cases h <;> simp [Node.called]

theorem called_of_isEndless {x : Node Note} (h : isEndless x = true) : x.called = [] := by
  cases x with
  | literal => simp [Node.called]
  | _ => cases h

/-- **The calls of a stretch of lowered code are those of its trees.** -/
theorem Emits.mem_callees (h : Emits symbols site piece k code k') (name : String) :
    name ∈ callees code ↔ name ∈ calledNames symbols piece.trees := by
  induction h with
  | @call site n f as k k₁ a s hs has ih =>
      have hnode : (n.symbol.bind fun k => symbols[k]?) = some s := hs
      obtain ⟨j, hj, hs⟩ := Option.bind_eq_some_iff.1 hnode
      have hnames : calledNames symbols [.call n f as]
          = calledNames symbols as ++ [s.emittedName] := by
        simp [calledNames, Node.calledAll, Node.called, hj, hs]
      rw [List.cons_append, callees_cons_of_isFree rfl, callees_append, callees_call,
        callees_copies _ _ rfl, Piece.trees, hnames, List.mem_append, List.mem_append, ih,
        Piece.trees]
  | assign _ _ _ _ ih =>
      rw [callees_append, callees_cons_of_isFree rfl, callees_cons_of_isFree rfl, callees_nil,
        List.append_nil, ih, Piece.trees, Piece.trees, calledNames_assign]
  | @comparison site n op l r k k₁ k₂ a b s t c hc _ _ _ _ ihl ihr =>
      have hop : op ≠ .assign := by
        rintro rfl
        cases hc
      rw [callees_append, callees_append, callees_cons_of_isFree rfl, callees_verdict,
        List.append_nil, Piece.trees, calledNames_binary hop, List.mem_append, List.mem_append,
        ihl, ihr, Piece.trees, Piece.trees]
  | @arith site n op l r k k₁ k₂ a b type arith harith _ _ _ ihl ihr =>
      have hop : op ≠ .assign := by
        rintro rfl
        cases harith
      rw [callees_append, callees_append, callees_cons_of_isFree rfl, callees_nil,
        List.append_nil, Piece.trees, calledNames_binary hop, List.mem_append, List.mem_append,
        ihl, ihr, Piece.trees, Piece.trees]
  | plus _ ih => rw [ih, Piece.trees, Piece.trees, calledNames_unary]
  | minus _ _ ih =>
      rw [List.cons_append, callees_cons_of_isFree rfl, callees_append, callees_cons_of_isFree rfl,
        callees_nil, List.append_nil, ih, Piece.trees, Piece.trees, calledNames_unary]
  | not _ ih =>
      rw [callees_append, callees_verdict, List.append_nil, ih, Piece.trees, Piece.trees,
        calledNames_unary]
  | cond _ _ _ ihc iht =>
      rw [callees_append, callees_append, callees_cons_of_isFree rfl, callees_cons_of_isFree rfl,
        callees_cons_of_isFree rfl, callees_cons_of_isFree rfl, callees_nil, List.append_nil,
        Piece.trees, calledNames_cond, List.mem_append, List.mem_append, ihc, iht, Piece.trees,
        Piece.trees]
  | condElse _ _ _ _ ihc iht ihe =>
      rw [callees_append, callees_append, callees_append, callees_cons_of_isFree rfl,
        callees_cons_of_isFree rfl, callees_cons_of_isFree rfl, callees_nil, List.append_nil,
        Piece.trees, calledNames_condElse, List.mem_append, List.mem_append, List.mem_append,
        List.mem_append, ihc, iht, ihe, Piece.trees, Piece.trees, Piece.trees]
  | endless hc _ ih =>
      rw [List.cons_append, callees_cons_of_isFree rfl, callees_append, callees_cons_of_isFree rfl,
        callees_cons_of_isFree rfl, callees_cons_of_isFree rfl, callees_cons_of_isFree rfl,
        callees_nil, List.append_nil, ih, Piece.trees, Piece.trees, calledNames_loop,
        calledNames_of_called (called_of_isEndless hc), List.nil_append]
  | loop _ _ _ ihc ihb =>
      rw [List.cons_append, List.cons_append, callees_cons_of_isFree rfl, callees_append,
        callees_append, callees_cons_of_isFree rfl, callees_cons_of_isFree rfl,
        callees_cons_of_isFree rfl, callees_cons_of_isFree rfl, callees_nil, List.append_nil,
        Piece.trees, calledNames_loop, List.mem_append, List.mem_append, ihc, ihb, Piece.trees,
        Piece.trees]
  | idleJump hx => rw [Piece.trees, calledNames_of_called (called_of_loopJump? hx), callees_nil]
  | loopJump hx =>
      rw [Piece.trees, calledNames_of_called (called_of_loopJump? hx), callees_append,
        callees_copies _ _ rfl, callees_cons_of_isFree rfl, callees_nil, List.append_nil]
  | returnValue _ ih =>
      rw [callees_append, callees_append, callees_copies _ _ rfl, callees_cons_of_isFree rfl,
        callees_nil, List.append_nil, List.nil_append, ih, Piece.trees, Piece.trees,
        calledNames_returnValue]
  | block _ ih => rw [ih, Piece.trees, Piece.trees, calledNames_block]
  | silent hx => rw [Piece.trees, calledNames_of_called (called_of_isSilent hx), callees_nil]
  | whole _ _ ih => exact ih
  | padded _ _ ih =>
      rw [callees_append, callees_cons_of_isFree rfl, callees_nil, List.append_nil]
      exact ih
  | converted _ _ ih =>
      rw [callees_append, callees_conversion, List.append_nil]
      exact ih
  | test _ ih =>
      rw [callees_append, callees_cons_of_isFree rfl, callees_cons_of_isFree rfl, callees_nil,
        List.append_nil]
      exact ih
  | lastStatement _ ih => exact ih
  | droppedStatement _ _ _ ihx ihxs =>
      rw [callees_append, callees_cons_of_isFree rfl, Piece.trees, calledNames_cons,
        List.mem_append, List.mem_append, ihx, ihxs, Piece.trees, Piece.trees]
  | bareStatement _ _ _ ihx ihxs =>
      rw [callees_append, Piece.trees, calledNames_cons, List.mem_append, List.mem_append, ihx,
        ihxs, Piece.trees, Piece.trees]
  | argument _ _ ihxs ihx =>
      rw [callees_append, Piece.trees, calledNames_cons, List.mem_append, List.mem_append, ihx,
        ihxs, Piece.trees, Piece.trees, or_comm]
  -- the other pieces are leaves: neither they nor their code call anything
  | _ => exact iff_of_false nofun nofun

/-! ### Cells of an expression -/

/-- All instructions of a stretch are placed. -/
def AllPlaced (w : Nat) (ss : Symbols) (code : List Instr) : Prop := ∀ i ∈ code, i.IsPlaced w ss

section Placed

variable {w : Nat} {ss : Symbols} {a b : List Instr} {i : Instr}

theorem AllPlaced.append (ha : AllPlaced w ss a) (hb : AllPlaced w ss b) :
    AllPlaced w ss (a ++ b) := List.forall_mem_append.2 ⟨ha, hb⟩

theorem AllPlaced.cons (hi : i.IsPlaced w ss) (ha : AllPlaced w ss a) : AllPlaced w ss (i :: a) :=
  List.forall_mem_cons.2 ⟨hi, ha⟩

theorem AllPlaced.nil : AllPlaced w ss [] := List.forall_mem_nil _

/-- Instructions without remarks that refer to nothing. -/
theorem allPlaced_plain {id : Nat} {op : Op} {operand : Operand} (hop : op.isFree = true)
    (hoperand : operand.isValue = true) : (Instr.plain id op operand).IsPlaced w ss :=
  .ofValue hop hoperand nofun

theorem allPlaced_jump {id : Nat} {c : Condition} {target : Option Target} :
    (Instr.jump id c target).IsPlaced w ss := .ofValue rfl rfl nofun

theorem allPlaced_copies {k n : Nat} {op : Op} {operand : Operand} (hop : op.isFree = true)
    (hoperand : operand.isValue = true) : AllPlaced w ss (copies k n op operand) := by
  induction n generalizing k with
  | zero => exact .nil
  | succ n ih =>
      rw [copies_succ]
      exact .cons (allPlaced_plain hop hoperand) ih

theorem allPlaced_conversion {k : Nat} {s t : Scalar} : AllPlaced w ss (conversion k s t) := by
  cases s <;> cases t
  · exact .nil
  · exact .cons (allPlaced_plain rfl rfl) .nil
  · exact .cons (allPlaced_plain rfl rfl) .nil
  · exact .nil

theorem allPlaced_verdict {k : Nat} {c : Condition} : AllPlaced w ss (verdict k c) :=
  .cons (allPlaced_plain rfl rfl) <| .cons allPlaced_jump <|
    .cons (allPlaced_plain rfl rfl) <| .cons allPlaced_jump <|
    .cons (allPlaced_plain rfl rfl) <| .cons (allPlaced_plain rfl rfl) .nil

theorem isValue_zero (type : Scalar) : (Operand.zero type).isValue = true := by
  cases type <;> rfl

theorem isValue_ofLiteral (v : Literal) : (Operand.ofLiteral v).isValue = true := by
  cases v <;> rfl

end Placed

/-- **What a stretch of lowered code refers to exists**, if there is no target code in its trees. -/
theorem Emits.allPlaced {w : Nat}
    (hss : ∀ (k : Nat) (s : Symbol), symbols[k]? = some s → s.IsPlaced w)
    (h : Emits symbols site piece k code k')
    (hasm : ∀ x ∈ piece.trees, x.Every fun y => y.isAssembly = false) :
    AllPlaced w symbols code := by
  have hvariable : ∀ {x : Node Note} {s : Symbol} {cell : Operand}, x.symbol? symbols = some s →
      s.storage.cell? = some cell → ∃ k : Nat, symbols[k]? = some s ∧ s.IsPlaced w ∧
        s.storage ≠ .nowhere := by
    intro x s cell hs hcell
    obtain ⟨k, -, hk⟩ := Option.bind_eq_some_iff.1 hs
    refine ⟨k, hk, hss k s hk, fun hstorage => ?_⟩
    rw [hstorage] at hcell
    cases hcell
  induction h with
  | literal =>
      exact .cons (allPlaced_plain rfl (isValue_ofLiteral _)) .nil
  | @identifier site n x k s cell hs hcell =>
      obtain ⟨j, hj, hplaced, hstorage⟩ := hvariable hs hcell
      refine .cons (.ofCell rfl hj hplaced hcell fun text htext => ?_) .nil
      unfold Symbol.loadRemark at htext
      split at htext <;> cases htext
      exact isOneLine_remark hplaced hstorage (by simp [Text.IsOneLine])
  | @assign site n l r k k₁ a type s cell _ hs hcell _ ih =>
      simp only [Piece.trees, List.forall_mem_singleton, Node.every_binary] at hasm ih
      obtain ⟨j, hj, hplaced, hstorage⟩ := hvariable hs hcell
      refine (ih hasm.2.2).append (.cons ?_ (.cons ?_ .nil))
      all_goals
        refine .ofCell rfl hj hplaced hcell fun text htext => ?_
        cases htext
        exact isOneLine_remark hplaced hstorage (by simp [Text.IsOneLine])
  | comparison _ _ _ _ _ ihl ihr =>
      simp only [Piece.trees, List.forall_mem_singleton, Node.every_binary] at hasm ihl ihr
      exact .append (.append (ihl hasm.2.1) (ihr hasm.2.2))
        (.cons (allPlaced_plain rfl rfl) allPlaced_verdict)
  | arith _ _ _ _ ihl ihr =>
      simp only [Piece.trees, List.forall_mem_singleton, Node.every_binary] at hasm ihl ihr
      exact .append (.append (ihl hasm.2.1) (ihr hasm.2.2))
        (.cons (allPlaced_plain rfl rfl) .nil)
  | plus _ ih =>
      simp only [Piece.trees, List.forall_mem_singleton, Node.every_unary] at hasm ih
      exact ih hasm.2
  | minus _ _ ih =>
      simp only [Piece.trees, List.forall_mem_singleton, Node.every_unary] at hasm ih
      exact .append (.cons (allPlaced_plain rfl (isValue_zero _)) (ih hasm.2))
        (.cons (allPlaced_plain rfl rfl) .nil)
  | not _ ih =>
      simp only [Piece.trees, List.forall_mem_singleton, Node.every_unary] at hasm ih
      exact (ih hasm.2).append allPlaced_verdict
  | call _ _ ih =>
      simp only [Piece.trees, List.forall_mem_singleton, Node.every_call] at hasm ih
      refine .append (.cons (.ofValue rfl rfl ?_) (ih hasm.2.2))
        (.cons .ofCall (allPlaced_copies rfl rfl))
      rintro _ ⟨⟩
      simp [Text.IsOneLine]
  | cond _ _ _ ihc iht =>
      simp only [Piece.trees, List.forall_mem_singleton, Node.every_cond] at hasm ihc iht
      refine .append (.append (ihc hasm.2.1) (iht hasm.2.2.1)) ?_
      exact .cons allPlaced_jump <|
        .cons (allPlaced_plain rfl rfl) <|
        .cons (allPlaced_plain rfl (isValue_zero _)) <|
        .cons (allPlaced_plain rfl rfl) .nil
  | condElse _ _ _ _ ihc iht ihe =>
      simp only [Piece.trees, List.forall_mem_singleton, Node.every_cond] at hasm ihc iht ihe
      refine .append (.append (.append (ihc hasm.2.1) (iht hasm.2.2.1)) ?_) ?_
      · exact .cons allPlaced_jump <|
          .cons (allPlaced_plain rfl rfl) (ihe (hasm.2.2.2 _ rfl))
      · exact .cons (allPlaced_plain rfl rfl) .nil
  | endless _ _ ih =>
      simp only [Piece.trees, List.forall_mem_singleton, Node.every_loop] at hasm ih
      refine .append (.cons (allPlaced_plain rfl rfl) (ih hasm.2.2)) ?_
      exact .cons (allPlaced_plain rfl rfl) <| .cons allPlaced_jump <|
        .cons (allPlaced_plain rfl rfl) <| .cons (allPlaced_plain rfl rfl) .nil
  | loop _ _ _ ihc ihb =>
      simp only [Piece.trees, List.forall_mem_singleton, Node.every_loop] at hasm ihc ihb
      refine .append (.append (.cons (allPlaced_plain rfl rfl) (ihc hasm.2.1))
        (ihb hasm.2.2)) ?_
      exact .cons (allPlaced_plain rfl rfl) <| .cons allPlaced_jump <|
        .cons (allPlaced_plain rfl rfl) <| .cons (allPlaced_plain rfl rfl) .nil
  | idleJump => exact .nil
  | loopJump => exact .append (allPlaced_copies rfl rfl) (.cons allPlaced_jump .nil)
  | returnValue _ ih =>
      simp only [Piece.trees, List.forall_mem_singleton, Node.every_returnValue] at hasm ih
      exact .append (.append (allPlaced_copies rfl rfl) (ih hasm.2))
        (.cons allPlaced_jump .nil)
  | block _ ih =>
      simp only [Piece.trees, List.forall_mem_singleton, Node.every_block] at hasm ih
      exact ih hasm.2
  | @assembly site n text =>
      simp only [Piece.trees, List.forall_mem_singleton] at hasm
      -- target code was ruled out
      have hself := hasm.self
      cases hself
  | nop => exact .cons (allPlaced_plain rfl rfl) .nil
  | silent => exact .nil
  | whole _ _ ih => exact ih hasm
  | padded _ _ ih => exact (ih hasm).append (.cons (allPlaced_plain rfl rfl) .nil)
  | converted _ _ ih => exact (ih hasm).append allPlaced_conversion
  | test _ ih =>
      exact (ih hasm).append (.cons (allPlaced_plain rfl rfl) (.cons allPlaced_jump .nil))
  | noStatement => exact .cons (allPlaced_plain rfl rfl) .nil
  | lastStatement _ ih => exact ih hasm
  | droppedStatement _ _ _ ihx ihxs =>
      simp only [Piece.trees, List.forall_mem_singleton] at ihx
      rw [Piece.trees, List.forall_mem_cons] at hasm
      exact (ihx hasm.1).append (.cons (allPlaced_plain rfl rfl) (ihxs hasm.2))
  | bareStatement _ _ _ ihx ihxs =>
      simp only [Piece.trees, List.forall_mem_singleton] at ihx
      rw [Piece.trees, List.forall_mem_cons] at hasm
      exact (ihx hasm.1).append (ihxs hasm.2)
  | noArgument => exact .nil
  | argument _ _ ihxs ihx =>
      simp only [Piece.trees, List.forall_mem_singleton] at ihx
      rw [Piece.trees, List.forall_mem_cons] at hasm
      exact (ihxs hasm.2).append (ihx hasm.1)

end Pieces

/-! ### Functions and units -/

section Resolved

variable {w k : Nat} {ss : Symbols} {a : List Instr}

@[simp] theorem comment_resolveInstr (i : Instr) :
    (Code.resolveInstr k i).comment = i.comment := by
  unfold Code.resolveInstr
  split <;> rfl

@[simp] theorem callees_resolved : callees (resolved k a) = callees a := by
  simp [callees, resolved, List.filterMap_map]

@[simp] theorem entries_resolved : entries (resolved k a) = entries a := by
  simp [entries, resolved, List.filterMap_map]

theorem AllPlaced.resolved (h : AllPlaced w ss a) : AllPlaced w ss (resolved k a) := by
  intro _ hj
  obtain ⟨i, hi, rfl⟩ := List.mem_map.1 hj
  exact (h i hi).congr (op_resolveInstr i) (operand_resolveInstr i) (comment_resolveInstr i)

end Resolved

theorem entries_copies (k n : Nat) {op : Op} {operand : Operand} (hop : op.starts? = none) :
    entries (copies k n op operand) = [] := by
  induction n generalizing k with
  | zero => rfl
  | succ n ih =>
      rw [copies_succ, entries_cons]
      simp [Instr.plain, hop, ih]

@[simp] theorem entries_conversion (k : Nat) (s t : Scalar) : entries (conversion k s t) = [] := by
  cases s <;> cases t <;> rfl

@[simp] theorem entries_verdict (k : Nat) (c : Condition) : entries (verdict k c) = [] := rfl

/-- No function starts inside of an expression. -/
theorem Emits.entries_eq_nil {symbols : Symbols} {site : Site} {piece : Piece} {k k' : Nat}
    {code : List Instr} (h : Emits symbols site piece k code k') : entries code = [] := by
  have hpop : Op.pop.starts? = none := rfl
  induction h with
  | _ => simp [entries_cons, entries_copies _ _ hpop, Op.starts?, Instr.plain, Instr.jump, *]

/-! #### Targets -/

theorem targeted_copies (k n : Nat) {op : Op} {operand : Operand} (hop : op.isJump = false) :
    Targeted (copies k n op operand) := by
  induction n generalizing k with
  | zero => exact targeted_nil
  | succ n ih =>
      rw [copies_succ, targeted_cons]
      exact ⟨fun h => absurd (hop.symm.trans h) Bool.false_ne_true, ih (k + 1)⟩

@[simp] theorem targeted_conversion (k : Nat) (s t : Scalar) : Targeted (conversion k s t) := by
  cases s <;> cases t <;> simp [conversion, Instr.plain, Op.isJump]

@[simp] theorem targeted_verdict (k : Nat) (c : Condition) : Targeted (verdict k c) := by
  simp [verdict, Instr.plain, Instr.jump, Op.isJump]

/-- The jumps of an expression have targets. -/
theorem Emits.targeted {symbols : Symbols} {site : Site} {piece : Piece} {k k' : Nat}
    {code : List Instr} (h : Emits symbols site piece k code k') : Targeted code := by
  have hpop : Op.pop.isJump = false := rfl
  induction h with
  | _ => simp [targeted_copies _ _ hpop, Op.isJump, Instr.plain, Instr.jump, *]

section Units

variable {t : Typing} {items : List (Node Mark)} {r : Round} {ss : Symbols} {f : Inferred}
  {is : List Instance} {k k' w : Nat} {code : List Instr}

/-! #### Functions that are called -/

theorem EmitsFunction.mem_callees (h : EmitsFunction ss f k code k') (name : String) :
    name ∈ callees code ↔ name ∈ calledNames ss [f.body] := by
  cases h with
  | mk hbody =>
      rw [callees_resolved, callees_append, callees_append, List.cons_append,
        callees_cons_of_isFree rfl, callees_append, callees_copies _ _ rfl,
        callees_cons_of_isFree rfl, callees_copies _ _ rfl, callees_cons_of_isFree rfl,
        callees_nil, List.append_nil, List.append_nil, List.nil_append, hbody.mem_callees,
        Piece.trees]

theorem EmitsFunction.entries_eq (h : EmitsFunction ss f k code k') : entries code = [f.name] := by
  cases h with
  | mk hbody =>
      rw [entries_resolved, List.cons_append, entries_append, entries_append, entries_cons,
        entries_append, entries_copies _ _ rfl, hbody.entries_eq_nil, entries_cons,
        entries_copies _ _ rfl]
      rfl

theorem EmitsFunctions.mem_callees (h : EmitsFunctions r is k code k') (name : String) :
    name ∈ callees code ↔ ∃ i ∈ is, ∃ f, r.inferred.find? (fun f => f.name = i.name) = some f ∧
      name ∈ calledNames r.symbols [f.body] := by
  induction h with
  | nil => simp
  | @cons i is f k k₁ k₂ a b hfound hf _ ih =>
      have hfirst : (∃ g, r.inferred.find? (fun f => f.name = i.name) = some g ∧
          name ∈ calledNames r.symbols [g.body]) ↔ name ∈ calledNames r.symbols [f.body] := by
        simp [hfound]
      rw [callees_append, List.mem_append, hf.mem_callees, ih, List.exists_mem_cons_iff, hfirst]

theorem EmitsFunctions.entries_eq (h : EmitsFunctions r is k code k') :
    entries code = is.map Instance.name := by
  induction h with
  | nil => rfl
  | @cons i is f k k₁ k₂ a b hfound hf _ ih =>
      have hname : f.name = i.name := by simpa using List.find?_some hfound
      rw [entries_append, hf.entries_eq, ih, hname]
      rfl

/-- **The functions in the code of a unit** are the instances that calls go to. -/
theorem EmitsUnit.entries_eq (h : EmitsUnit t code k) :
    entries code = (reached t.round).map Instance.name := by
  cases h with
  | mk _ hbody hfunctions =>
      simp [entries_cons, hbody.entries_eq_nil, hfunctions.entries_eq, Op.starts?, Instr.plain]

theorem calledNames_filter (xs : List (Node Note)) :
    calledNames ss (xs.filter fun x => !x.isDefinition) = calledNames ss xs := by
  induction xs with
  | nil => rfl
  | cons x xs ih =>
      rw [calledNames_cons]
      cases hx : x.isDefinition with
      | true =>
          rw [List.filter_cons_of_neg (by simp [hx]), ih,
            calledNames_of_called (Node.called_of_isDefinition hx), List.nil_append]
      | false => rw [List.filter_cons_of_pos (by simp [hx]), calledNames_cons, ih]

/-- **The calls in the code of a unit** are those of its statements and of the functions in it. -/
theorem EmitsUnit.mem_callees {n : Note} {ys : List (Node Note)} (hroot : t.root = .unit n ys)
    (h : EmitsUnit t code k) (name : String) :
    name ∈ callees code ↔ name ∈ calledNames t.round.symbols ys ∨
      ∃ i ∈ reached t.round, ∃ f, t.round.inferred.find? (fun f => f.name = i.name) = some f ∧
        name ∈ calledNames t.round.symbols [f.body] := by
  cases h with
  | mk hroot' hbody hfunctions =>
      obtain ⟨rfl, rfl⟩ := Node.unit.inj (hroot.symm.trans hroot')
      rw [callees_append, callees_resolved, callees_append, callees_cons_of_isFree rfl, callees_nil,
        List.append_nil, List.mem_append, hbody.mem_callees, hfunctions.mem_callees, Piece.trees,
        calledNames_filter]

/-- The calls of a tree that is resolved go to instances. -/
theorem exists_of_mem_called {var : Nat → Prop} {fn : Nat → Nat → Prop} {x : Node Note}
    (h : Resolved var fn x) {j : Nat} (hj : j ∈ x.called) : ∃ n, fn j n := by
  have hall : ∀ {xs : List (Node Note)}, (∀ x ∈ xs, j ∈ x.called → ∃ n, fn j n) →
      j ∈ Node.calledAll xs → ∃ n, fn j n := by
    intro xs hxs hj
    induction xs with
    | nil => cases hj
    | cons x xs ih =>
        rw [List.forall_mem_cons] at hxs
        exact (List.mem_append.1 hj).elim hxs.1 (ih hxs.2)
  induction h with
  | assign _ _ _ _ _ ih => exact ih (by simpa [Node.called] using hj)
  | binary _ hop _ _ ihl ihr =>
      rw [Node.called, if_neg hop] at hj
      exact (List.mem_append.1 hj).elim ihl ihr
  | unary _ _ ih => exact ih (by simpa [Node.called] using hj)
  | call _ hsymbol hk _ ih =>
      rw [Node.called, hsymbol, List.mem_append] at hj
      rcases hj with hj | hj
      · exact hall ih hj
      · obtain rfl : j = _ := by simpa using hj
        exact ⟨_, hk⟩
  | @cond _ c t e _ _ _ _ ihc iht ihe =>
      cases e with
      | none =>
          rw [Node.called] at hj
          exact (List.mem_append.1 hj).elim ihc iht
      | some e =>
          rw [Node.called, List.append_assoc] at hj
          exact (List.mem_append.1 hj).elim ihc fun hj =>
            (List.mem_append.1 hj).elim iht (ihe e rfl)
  | loop _ _ _ ihc ihb =>
      rw [Node.called] at hj
      exact (List.mem_append.1 hj).elim ihc ihb
  | returnValue _ _ ih => exact ih (by simpa [Node.called] using hj)
  | block _ _ ih => exact hall ih (by simpa [Node.called] using hj)
  | _ => simp [Node.called] at hj

/-- A call of a tree that is resolved goes to an instance with code. -/
theorem mem_reached_of_called {var : Nat → Prop} {x : Node Note}
    (hx : Resolved var t.round.IsInstance x) {name : String}
    (hname : name ∈ calledNames t.round.symbols [x]) : IsReached t name := by
  obtain ⟨j, hj, s, hs, rfl⟩ := mem_calledNames.1 hname
  obtain ⟨n, hn⟩ := exists_of_mem_called hx (by simpa [Node.calledAll] using hj)
  exact isReached_of_isInstance hn hs

/-- A symbol that an instance with code is bound to is used, and has the name of the instance. -/
theorem exists_symbol_of_reached (ht : t.Sound items) {i : Instance} (hi : i ∈ reached t.round) :
    ∃ (k : Nat) (s : Symbol), t.round.symbols[k]? = some s ∧ s.used = true ∧
      s.emittedName = i.name := by
  obtain ⟨hmade, hused⟩ := List.mem_filter.1 hi
  cases hlookup : t.round.globals.lookup i.name with
  | none => simp [hlookup] at hused
  | some k =>
      obtain ⟨s, hs, hbound⟩ := ht.round.globals _ _ (Scope.lookup_mem hlookup)
      rw [hlookup, Option.bind_some, hs] at hused
      obtain ⟨f, -, hcopy⟩ := ht.round.instances.made i hmade
      -- only instances are bound to names with a decoration
      have hname : ¬ IsSourceName i.name := hcopy.name ▸ not_isSourceName_decorate _ _
      cases hbound with
      | defined hn => exact absurd hn hname
      | cell hn => exact absurd hn hname
      | made _ _ hemitted => exact ⟨k, s, hs, hused, hemitted⟩

/-- An inferred instance has code if the calls of the trees are accounted for. -/
theorem exists_reached_of_inferred (ht : t.Sound items) {cs : List Nat}
    (hr : t.round.Accounts w cs) (hf : f ∈ t.round.inferred) :
    ∃ i ∈ reached t.round, t.round.inferred.find? (fun g => g.name = i.name) = some f := by
  have hperm := ht.perm_inferred
  have hqueued : f.name ∈ t.round.instances.queued := hperm.mem_iff.2 (List.mem_map_of_mem hf)
  obtain ⟨i, hi, hname⟩ := ht.round.instances.queued _ hqueued
  obtain ⟨k, s, hk, hs, hused⟩ := hr.queued _ hqueued
  refine ⟨i, List.mem_filter.2 ⟨hi, ?_⟩, ?_⟩
  · rw [hname, hk, Option.bind_some, hs]
    exact hused
  · -- inferred instances of one name are one
    have hnodup := hperm.nodup ht.round.instances.nodup_queued
    obtain ⟨g, hg⟩ := Option.isSome_iff_exists.1
      (List.find?_isSome (p := fun g : Inferred => decide (g.name = i.name)).2
        ⟨f, hf, decide_eq_true hname.symm⟩)
    have hgname : g.name = i.name := by simpa using List.find?_some hg
    rw [hg, List.inj_on_of_nodup_map hnodup (List.mem_of_find?_eq_some hg) hf
      (hgname.trans hname)]

/-- **The functions in the code of a unit are those that it calls.** -/
theorem EmitsUnit.mem_callees_iff (ht : t.Sound items) {n : Note} {ys : List (Node Note)}
    (hroot : t.root = .unit n ys)
    (hr : t.round.Accounts w (Node.calledAll ys ++ Infer.calledInferred t.round))
    (h : EmitsUnit t code k) (name : String) : name ∈ callees code ↔ name ∈ entries code := by
  have hreached : name ∈ entries code ↔ IsReached t name := by
    rw [h.entries_eq, List.mem_map]
    rfl
  rw [hreached, h.mem_callees hroot]
  constructor
  · rintro (hname | ⟨i, hi, f, hfound, hname⟩)
    · -- a definition among the items has no calls of its own
      rw [← calledNames_filter] at hname
      obtain ⟨_, _, hroot', -, hresolved⟩ := ht.root
      obtain ⟨rfl, rfl⟩ := Node.unit.inj (hroot.symm.trans hroot')
      obtain ⟨x, hx, hname⟩ := mem_calledNames_iff.1 hname
      obtain ⟨hx, hdefinition⟩ := List.mem_filter.1 hx
      exact mem_reached_of_called (hresolved x hx (by simpa using hdefinition)) hname
    · exact mem_reached_of_called
        (ht.round.inferred f (List.mem_of_find?_eq_some hfound)).body hname
  · rintro ⟨i, hi, rfl⟩
    obtain ⟨k, s, hs, hused, hemitted⟩ := exists_symbol_of_reached ht hi
    -- a used symbol is called by a statement of the unit or from an instance
    rcases List.mem_append.1 (hr.used k s hs hused) with hk | hk
    · exact .inl (mem_calledNames.2 ⟨k, hk, s, hs, hemitted⟩)
    · obtain ⟨f, hf, hk⟩ := List.mem_flatMap.1 hk
      obtain ⟨j, hj, hfound⟩ := exists_reached_of_inferred ht hr hf
      refine .inr ⟨j, hj, f, hfound, mem_calledNames.2 ⟨k, ?_, s, hs, hemitted⟩⟩
      simpa [Node.calledAll] using hk

/-! #### Cells and jumps -/

theorem EmitsFunction.allPlaced
    (hss : ∀ (k : Nat) (s : Symbol), ss[k]? = some s → s.IsPlaced w)
    (hasm : f.body.Every fun y => y.isAssembly = false) (hparams : f.params.length ≤ w)
    (h : EmitsFunction ss f k code k') : AllPlaced w ss code := by
  cases h with
  | @mk a k₁ comment hbody hcomment =>
      refine AllPlaced.resolved (.append (.append (.append (.cons ?_ (allPlaced_copies rfl rfl))
        (hbody.allPlaced hss (by simpa [Piece.trees] using hasm)))
        (.cons ?_ (allPlaced_copies rfl rfl))) (.cons (allPlaced_plain rfl rfl) .nil))
      · exact allPlaced_plain rfl rfl
      · refine ⟨nofun, nofun, nofun, nofun, ?_, ?_⟩
        · rintro _ ⟨⟩
          omega
        · rintro _ htext
          rw [hcomment] at htext
          cases htext
          simp [Text.IsOneLine]

theorem EmitsFunctions.allPlaced
    (hss : ∀ (k : Nat) (s : Symbol), r.symbols[k]? = some s → s.IsPlaced w)
    (hinferred : ∀ f ∈ r.inferred,
      (f.body.Every fun y => y.isAssembly = false) ∧ f.params.length ≤ w)
    (h : EmitsFunctions r is k code k') : AllPlaced w r.symbols code := by
  induction h with
  | nil => exact .nil
  | cons hfound hf _ ih =>
      obtain ⟨hasm, hparams⟩ := hinferred _ (List.mem_of_find?_eq_some hfound)
      exact (hf.allPlaced hss hasm hparams).append ih

/-- An inferred instance has no more parameters than the unit has names. -/
theorem length_params_le (ht : t.Sound items) {mark : Mark} (hf : f ∈ t.round.inferred) :
    f.params.length ≤ (Node.unit mark items).nameCount := by
  obtain ⟨i, hi, -, hparams, -⟩ := (ht.round.inferred f hf).made
  obtain ⟨g, hg, hcopy⟩ := ht.round.instances.made i hi
  rw [← hparams, hcopy.params]
  exact (Nat.le_add_right _ _).trans (Node.nameCount_definitions hg)

/-- **What the code of a unit without target code refers to exists.** -/
theorem EmitsUnit.allPlaced (ht : t.Sound items) {mark : Mark}
    (hasm : (Node.unit mark items).hasAssembly = false)
    (hss : ∀ (k : Nat) (s : Symbol), t.round.symbols[k]? = some s →
      s.IsPlaced (Node.unit mark items).nameCount) (h : EmitsUnit t code k) :
    AllPlaced (Node.unit mark items).nameCount t.round.symbols code := by
  have hasm := (Node.every_unit.1 (Node.hasAssembly_eq_false.1 hasm)).2
  cases h with
  | @mk n ys k₁ k₂ a b hroot hbody hfunctions =>
      obtain ⟨n', ys', hroot', hshape, -⟩ := ht.root
      obtain ⟨rfl, rfl⟩ := Node.unit.inj (hroot.symm.trans hroot')
      refine .append (AllPlaced.resolved (.append (hbody.allPlaced hss fun y hy => ?_)
        (.cons (allPlaced_plain rfl rfl) .nil))) (hfunctions.allPlaced hss fun f hf => ⟨?_, ?_⟩)
      · obtain ⟨x, hx, hxy⟩ := exists_item hshape (List.mem_filter.1 hy).1
        exact every_isAssembly_of_shape hxy (hasm x hx)
      · obtain ⟨m, p, b, hb, hbshape⟩ := ht.exists_define hf
        exact every_isAssembly_of_shape hbshape (Node.every_define.1 (hasm _ hb)).2.2
      · exact length_params_le ht hf

theorem ne_epilogue_of_mem_resolved {a : List Instr} {i : Instr} (hi : i ∈ resolved k a) :
    i.target ≠ some .epilogue := by
  obtain ⟨j, -, rfl⟩ := List.mem_map.1 hi
  rw [target_resolveInstr]
  split
  · exact nofun
  · assumption

theorem EmitsFunctions.ne_epilogue (h : EmitsFunctions r is k code k') {i : Instr}
    (hi : i ∈ code) : i.target ≠ some .epilogue := by
  induction h with
  | nil => cases hi
  | cons _ hf _ ih =>
      rcases List.mem_append.1 hi with hi | hi
      · cases hf with
        | mk => exact ne_epilogue_of_mem_resolved hi
      · exact ih hi

theorem Targeted.resolved {a : List Instr} (h : Targeted a) : Targeted (Lower.resolved k a) := by
  intro _ hj hop
  obtain ⟨i, hi, rfl⟩ := List.mem_map.1 hj
  rw [target_resolveInstr]
  split
  · exact nofun
  · exact h i hi (by simpa using hop)

theorem EmitsFunction.targeted (h : EmitsFunction ss f k code k') : Targeted code := by
  cases h with
  | mk hbody =>
      have hload : Op.load.isJump = false := rfl
      have hpop : Op.pop.isJump = false := rfl
      refine Targeted.resolved ?_
      simp [targeted_copies _ _ hload, targeted_copies _ _ hpop, hbody.targeted, Op.isJump,
        Instr.plain]

theorem EmitsFunctions.targeted (h : EmitsFunctions r is k code k') : Targeted code := by
  induction h with
  | nil => exact targeted_nil
  | cons _ hf _ ih => exact targeted_append.2 ⟨hf.targeted, ih⟩

theorem EmitsUnit.targeted (h : EmitsUnit t code k) : Targeted code := by
  cases h with
  | mk _ hbody hfunctions =>
      refine targeted_append.2 ⟨Targeted.resolved ?_, hfunctions.targeted⟩
      simp [hbody.targeted, Op.isJump, Instr.plain]

/-- **All jumps in the code of a unit go to its instructions.** -/
theorem EmitsUnit.linked (h : EmitsUnit t code k) : Linked code := by
  refine ⟨h.targeted, fun i hi target htarget => ?_⟩
  have hne : i.target ≠ some .epilogue := by
    cases h with
    | mk _ _ hfunctions =>
        rcases List.mem_append.1 hi with hi | hi
        · exact ne_epilogue_of_mem_resolved hi
        · exact hfunctions.ne_epilogue hi
  cases target with
  | epilogue => exact absurd htarget hne
  | instr m =>
      refine ⟨m, rfl, ?_⟩
      obtain ⟨j, hj, rfl, -⟩ := (h.tidy.targets i hi m htarget).resolve_left id
      exact List.mem_map_of_mem hj

/-- The code of a unit has a halt. -/
theorem EmitsUnit.exists_halt (h : EmitsUnit t code k) : ∃ i ∈ code, i.op = .halt := by
  cases h with
  | @mk n ys k₁ k₂ a b =>
      refine ⟨Code.resolveInstr k₁ (.plain k₁ .halt .none), ?_, by simp [Instr.plain]⟩
      exact List.mem_append_left _ (List.mem_map_of_mem (by simp))

end Units

end Lower

end StackLang
