/-
**The shape of lowered code.**

What lowering makes for an expression, described construct by construct as a list of instructions
with the identities it takes.  Properties of lowered code are proved along this description, and the
order in which the instructions were made is left behind.

Main definitions:

* `Lower.Piece` — what a stretch of code is made for;
* `Lower.Emits` — the code of a piece.

Main results:

* `Lower.emits_expression`, `Lower.emits_statements`, `Lower.emits_arguments` — lowering makes the
  code that is described.
-/

import StackLang.Code.Lower
import StackLang.Proofs.Step

set_option relaxedAutoImplicit false
set_option autoImplicit false

namespace StackLang

/-- The operand that is the cell of a variable. -/
def Storage.cell? : Storage → Option Operand
  | .frame offset => some (.frame offset)
  | .global label => some (.global label)
  | .nowhere => none

/-- The remark behind the push of a variable, which only variables of functions have. -/
def Symbol.loadRemark (s : Symbol) : Option String :=
  match s.storage with
  | .frame _ => some ("load " ++ s.sourceName)
  | _ => none

/-- For a jump out of a loop, whether it goes to the head. -/
def Node.loopJump? {α : Type} : Node α → Option Bool
  | .breakLoop _ => some false
  | .continueLoop _ => some true
  | _ => none

/-- Whether the tree has no code at all. -/
def Node.isSilent {α : Type} : Node α → Bool
  | .define .. | .prototype .. => true
  | _ => false

/-- The symbol that a name or a call resolves to. -/
def Node.symbol? (symbols : Symbols) (x : Node Note) : Option Symbol :=
  x.note.symbol.bind fun k => symbols[k]?

namespace Lower

open Step

/-! ### Stretches of code -/

/-- The same instruction a number of times. -/
def copies (k n : Nat) (op : Op) (operand : Operand) : List Instr :=
  (List.range' k n).map fun j => .plain j op operand

/-- The change of the top cell from one type to another. -/
def conversion (k : Nat) : Scalar → Scalar → List Instr
  | .int, .float => [.plain k .toFloat .none]
  | .float, .int => [.plain k .toInt .none]
  | _, _ => []

/-- The top cell is dropped, and whether the condition holds of it is pushed. -/
def verdict (k : Nat) (c : Condition) : List Instr :=
  [.plain k .pop .none, .jump (k + 3) c (some (.instr (k + 1))), .plain (k + 4) .load (.int 0),
    .jump (k + 5) .always (some (.instr (k + 2))), .plain (k + 1) .load (.int 1),
    .plain (k + 2) .nop .none]

/-- What a stretch of code is made for. -/
inductive Piece where
  /-- A tree, whose value stays only where it leaves a cell. -/
  | node (x : Node Note)
  /-- A tree, which leaves its value. -/
  | value (x : Node Note)
  /-- A tree, which leaves its value as one of a type. -/
  | converted (x : Node Note) (type : Scalar)
  /-- A condition, with a jump to a place for where it fails. -/
  | test (x : Node Note) (target : Nat)
  | statements (xs : List (Node Note))
  | arguments (xs : List (Node Note))

/-- **The code of a piece**, with the identities from the first number to before the last. -/
inductive Emits (symbols : Symbols) : Site → Piece → Nat → List Instr → Nat → Prop where
  | literal {site : Site} {n : Note} {v : Literal} {k : Nat} :
      Emits symbols site (.node (.literal n v)) k [.plain k .load (.ofLiteral v)] (k + 1)
  | identifier {site : Site} {n : Note} {x : String} {k : Nat} {s : Symbol} {cell : Operand}
      (hs : (Node.identifier n x).symbol? symbols = some s)
      (hcell : s.storage.cell? = some cell) :
      Emits symbols site (.node (.identifier n x)) k [⟨k, .load, cell, none, s.loadRemark⟩] (k + 1)
  | assign {site : Site} {n : Note} {l r : Node Note} {k k₁ : Nat} {a : List Instr} {type : Scalar}
      {s : Symbol} {cell : Operand}
      (htype : l.note.type = some type) (hs : l.symbol? symbols = some s)
      (hcell : s.storage.cell? = some cell)
      (hr : Emits symbols site (.converted r type) k a k₁) :
      Emits symbols site (.node (.binary n .assign l r)) k
        (a ++ [⟨k₁, .store, cell, none, some ("store " ++ s.sourceName)⟩,
          ⟨k₁ + 1, .load, cell, none, some ("load " ++ s.sourceName)⟩]) (k₁ + 2)
  | comparison {site : Site} {n : Note} {op : BinaryOp} {l r : Node Note} {k k₁ k₂ : Nat}
      {a b : List Instr} {s t : Scalar} {c : Condition}
      (hc : Condition.ofComparison? op = some c) (hs : l.note.type = some s)
      (ht : r.note.type = some t) (hl : Emits symbols site (.converted l (s.join t)) k a k₁)
      (hr : Emits symbols (site.deeper 1) (.converted r (s.join t)) k₁ b k₂) :
      Emits symbols site (.node (.binary n op l r)) k
        (a ++ b ++ .plain k₂ (.arith .sub (s.join t)) .none :: verdict (k₂ + 1) c) (k₂ + 7)
  | arith {site : Site} {n : Note} {op : BinaryOp} {l r : Node Note} {k k₁ k₂ : Nat}
      {a b : List Instr} {type : Scalar} {arith : ArithOp}
      (hop : ArithOp.ofBinary? op = some arith) (htype : n.type = some type)
      (hl : Emits symbols site (.converted l type) k a k₁)
      (hr : Emits symbols (site.deeper 1) (.converted r type) k₁ b k₂) :
      Emits symbols site (.node (.binary n op l r)) k
        (a ++ b ++ [.plain k₂ (.arith arith type) .none]) (k₂ + 1)
  | plus {site : Site} {n : Note} {x : Node Note} {k k₁ : Nat} {a : List Instr}
      (hx : Emits symbols site (.value x) k a k₁) :
      Emits symbols site (.node (.unary n .plus x)) k a k₁
  | minus {site : Site} {n : Note} {x : Node Note} {k k₁ : Nat} {a : List Instr} {type : Scalar}
      (htype : n.type = some type)
      (hx : Emits symbols (site.deeper 1) (.value x) (k + 1) a k₁) :
      Emits symbols site (.node (.unary n .minus x)) k
        (.plain k .load (.zero type) :: a ++ [.plain k₁ (.arith .sub type) .none]) (k₁ + 1)
  | not {site : Site} {n : Note} {x : Node Note} {k k₁ : Nat} {a : List Instr}
      (hx : Emits symbols site (.value x) k a k₁) :
      Emits symbols site (.node (.unary n .not x)) k (a ++ verdict k₁ .equal) (k₁ + 6)
  | call {site : Site} {n : Note} {f : Node Note} {as : List (Node Note)} {k k₁ : Nat}
      {a : List Instr} {s : Symbol}
      (hs : (Node.call n f as).symbol? symbols = some s)
      (has : Emits symbols (site.deeper 1) (.arguments as) (k + 1) a k₁) :
      Emits symbols site (.node (.call n f as)) k
        (⟨k, .load, .int 0, none, some "return slot"⟩ :: a
          ++ .plain k₁ .call (.label s.emittedName) :: copies (k₁ + 1) as.length .pop .none)
        (k₁ + 1 + as.length)
  | cond {site : Site} {n : Note} {c t : Node Note} {k k₁ k₂ : Nat} {a b : List Instr}
      {type : Scalar} (htype : n.type = some type)
      (hc : Emits symbols site (.test c k) (k + 2) a k₁)
      (ht : Emits symbols site (.converted t type) k₁ b k₂) :
      Emits symbols site (.node (.cond n c t none)) k
        (a ++ b ++ [.jump k₂ .always (some (.instr (k + 1))), .plain k .nop .none,
          .plain (k₂ + 1) .load (.zero type), .plain (k + 1) .nop .none]) (k₂ + 2)
  | condElse {site : Site} {n : Note} {c t e : Node Note} {k k₁ k₂ k₃ : Nat}
      {a b d : List Instr} {type : Scalar} (htype : n.type = some type)
      (hc : Emits symbols site (.test c k) (k + 2) a k₁)
      (ht : Emits symbols site (.converted t type) k₁ b k₂)
      (he : Emits symbols site (.converted e type) (k₂ + 1) d k₃) :
      Emits symbols site (.node (.cond n c t (some e))) k
        (a ++ b ++ .jump k₂ .always (some (.instr (k + 1))) :: .plain k .nop .none :: d
          ++ [.plain (k + 1) .nop .none]) k₃
  | endless {site : Site} {n : Note} {c b : Node Note} {k k₁ : Nat} {a : List Instr}
      (hc : isEndless c = true)
      (hb : Emits symbols ⟨some ⟨k, k + 1, site.depth⟩, site.depth⟩ (.value b) (k + 2) a k₁) :
      Emits symbols site (.node (.loop n c b)) k
        (.plain k .nop .none :: a ++ [.plain k₁ .pop .none,
          .jump (k₁ + 1) .always (some (.instr k)), .plain (k + 1) .nop .none,
          .plain (k₁ + 2) .load (.int 0)]) (k₁ + 3)
  | loop {site : Site} {n : Note} {c b : Node Note} {k k₁ k₂ : Nat} {a d : List Instr}
      (hc : isEndless c = false)
      (htest :
        Emits symbols ⟨some ⟨k, k + 1, site.depth⟩, site.depth⟩ (.test c (k + 1)) (k + 2) a k₁)
      (hb : Emits symbols ⟨some ⟨k, k + 1, site.depth⟩, site.depth⟩ (.value b) k₁ d k₂) :
      Emits symbols site (.node (.loop n c b)) k
        (.plain k .nop .none :: a ++ d ++ [.plain k₂ .pop .none,
          .jump (k₂ + 1) .always (some (.instr k)), .plain (k + 1) .nop .none,
          .plain (k₂ + 2) .load (.int 0)]) (k₂ + 3)
  /-- Outside of loops there is nothing to leave. -/
  | idleJump {site : Site} {x : Node Note} {toHead : Bool} {k : Nat}
      (hx : x.loopJump? = some toHead) (hloop : site.loop = none) :
      Emits symbols site (.node x) k [] k
  | loopJump {site : Site} {x : Node Note} {toHead : Bool} {k : Nat} {l : LoopSite}
      (hx : x.loopJump? = some toHead) (hloop : site.loop = some l) :
      Emits symbols site (.node x) k
        (copies k (site.depth - l.depth) .pop .none
          ++ [.jump (k + (site.depth - l.depth)) .always
            (some (.instr (if toHead then l.head else l.exit)))])
        (k + (site.depth - l.depth) + 1)
  | returnValue {site : Site} {n : Note} {v : Node Note} {k k₁ : Nat} {a : List Instr}
      (hv : Emits symbols { site with depth := 0 } (.value v) (k + site.depth) a k₁) :
      Emits symbols site (.node (.returnValue n v)) k
        (copies k site.depth .pop .none ++ a ++ [.jump k₁ .always (some .epilogue)]) (k₁ + 1)
  | block {site : Site} {n : Note} {xs : List (Node Note)} {k k₁ : Nat} {a : List Instr}
      (hxs : Emits symbols site (.statements xs) k a k₁) :
      Emits symbols site (.node (.block n xs)) k a k₁
  | assembly {site : Site} {n : Note} {text : String} {k : Nat} :
      Emits symbols site (.node (.assembly n text)) k [.plain k (.assembly text) .none] (k + 1)
  | nop {site : Site} {n : Note} {k : Nat} :
      Emits symbols site (.node (.nop n)) k [.plain k .load (.int 0)] (k + 1)
  | silent {site : Site} {x : Node Note} {k : Nat} (hx : x.isSilent = true) :
      Emits symbols site (.node x) k [] k
  | whole {site : Site} {x : Node Note} {k k₁ : Nat} {a : List Instr} (hx : x.yieldsCell = true)
      (h : Emits symbols site (.node x) k a k₁) : Emits symbols site (.value x) k a k₁
  | padded {site : Site} {x : Node Note} {k k₁ : Nat} {a : List Instr} (hx : x.yieldsCell = false)
      (h : Emits symbols site (.node x) k a k₁) :
      Emits symbols site (.value x) k (a ++ [.plain k₁ .load (.int 0)]) (k₁ + 1)
  | converted {site : Site} {x : Node Note} {k k₁ : Nat} {a : List Instr} {s type : Scalar}
      (hs : x.note.type = some s) (h : Emits symbols site (.value x) k a k₁) :
      Emits symbols site (.converted x type) k (a ++ conversion k₁ s type)
        (k₁ + (conversion k₁ s type).length)
  | test {site : Site} {x : Node Note} {k k₁ target : Nat} {a : List Instr}
      (h : Emits symbols site (.value x) k a k₁) :
      Emits symbols site (.test x target) k
        (a ++ [.plain k₁ .pop .none, .jump (k₁ + 1) .equal (some (.instr target))]) (k₁ + 2)
  | noStatement {site : Site} {k : Nat} :
      Emits symbols site (.statements []) k [.plain k .load (.int 0)] (k + 1)
  | lastStatement {site : Site} {x : Node Note} {k k₁ : Nat} {a : List Instr}
      (hx : Emits symbols site (.value x) k a k₁) : Emits symbols site (.statements [x]) k a k₁
  | droppedStatement {site : Site} {x y : Node Note} {xs : List (Node Note)} {k k₁ k₂ : Nat}
      {a b : List Instr} (hyields : x.yieldsCell = true)
      (hx : Emits symbols site (.node x) k a k₁)
      (hxs : Emits symbols site (.statements (y :: xs)) (k₁ + 1) b k₂) :
      Emits symbols site (.statements (x :: y :: xs)) k (a ++ .plain k₁ .pop .none :: b) k₂
  | bareStatement {site : Site} {x y : Node Note} {xs : List (Node Note)} {k k₁ k₂ : Nat}
      {a b : List Instr} (hyields : x.yieldsCell = false)
      (hx : Emits symbols site (.node x) k a k₁)
      (hxs : Emits symbols site (.statements (y :: xs)) k₁ b k₂) :
      Emits symbols site (.statements (x :: y :: xs)) k (a ++ b) k₂
  | noArgument {site : Site} {k : Nat} : Emits symbols site (.arguments []) k [] k
  | argument {site : Site} {x : Node Note} {xs : List (Node Note)} {k k₁ k₂ : Nat}
      {a b : List Instr} (hxs : Emits symbols site (.arguments xs) k a k₁)
      (hx : Emits symbols (site.deeper xs.length) (.value x) k₁ b k₂) :
      Emits symbols site (.arguments (x :: xs)) k (a ++ b) k₂

/-! ### Steps of lowering -/

section Steps

variable {k k' : Nat} {code : List Instr}

theorem fresh_eq_ok {j : Nat} : fresh k = .ok (j, k') ↔ j = k ∧ k' = k + 1 := by
  change Except.ok (k, k + 1) = _ ↔ _
  rw [Except.ok.injEq, Prod.mk.injEq]
  exact and_congr eq_comm eq_comm

theorem instr_eq_ok {op : Op} {operand : Operand} :
    instr op operand k = .ok (code, k') ↔ code = [.plain k op operand] ∧ k' = k + 1 := by
  simp only [instr, bind_eq_ok, fresh_eq_ok, pure_eq_ok]
  constructor
  · rintro ⟨_, _, ⟨rfl, rfl⟩, rfl, rfl⟩
    exact ⟨rfl, rfl⟩
  · rintro ⟨rfl, rfl⟩
    exact ⟨_, _, ⟨rfl, rfl⟩, rfl, rfl⟩

theorem remarked_eq_ok {op : Op} {operand : Operand} {comment : String} :
    remarked op operand comment k = .ok (code, k') ↔
      code = [⟨k, op, operand, none, some comment⟩] ∧ k' = k + 1 := by
  simp only [remarked, bind_eq_ok, fresh_eq_ok, pure_eq_ok]
  constructor
  · rintro ⟨_, _, ⟨rfl, rfl⟩, rfl, rfl⟩
    exact ⟨rfl, rfl⟩
  · rintro ⟨rfl, rfl⟩
    exact ⟨_, _, ⟨rfl, rfl⟩, rfl, rfl⟩

theorem jump_eq_ok {c : Condition} {target : Target} :
    jump c target k = .ok (code, k') ↔ code = [.jump k c (some target)] ∧ k' = k + 1 := by
  simp only [jump, bind_eq_ok, fresh_eq_ok, pure_eq_ok]
  constructor
  · rintro ⟨_, _, ⟨rfl, rfl⟩, rfl, rfl⟩
    exact ⟨rfl, rfl⟩
  · rintro ⟨rfl, rfl⟩
    exact ⟨_, _, ⟨rfl, rfl⟩, rfl, rfl⟩

theorem copies_succ (k n : Nat) (op : Op) (operand : Operand) :
    copies k (n + 1) op operand = .plain k op operand :: copies (k + 1) n op operand := rfl

theorem times_eq_ok {n : Nat} {op : Op} {operand : Operand} :
    times n op operand k = .ok (code, k') ↔ code = copies k n op operand ∧ k' = k + n := by
  induction n generalizing k k' code with
  | zero => exact pure_eq_ok
  | succ n ih =>
      simp only [times, bind_eq_ok, instr_eq_ok, pure_eq_ok, ih, copies_succ]
      constructor
      · rintro ⟨_, _, ⟨rfl, rfl⟩, _, _, ⟨rfl, rfl⟩, rfl, rfl⟩
        exact ⟨rfl, by omega⟩
      · rintro ⟨rfl, rfl⟩
        exact ⟨_, _, ⟨rfl, rfl⟩, _, _, ⟨rfl, rfl⟩, rfl, by omega⟩

theorem convert_eq_ok {s t : Scalar} :
    convert s t k = .ok (code, k') ↔
      code = conversion k s t ∧ k' = k + (conversion k s t).length := by
  cases s <;> cases t
  · exact pure_eq_ok
  · exact instr_eq_ok
  · exact instr_eq_ok
  · exact pure_eq_ok

/-- Behind a pop, what pushes a truth value completes the verdict. -/
theorem verdict_of_truth {c : Condition} (h : truth c (k + 1) = .ok (code, k')) :
    .plain k .pop .none :: code = verdict k c ∧ k + 6 = k' := by
  simp only [truth, bind_eq_ok, fresh_eq_ok, jump_eq_ok, instr_eq_ok, pure_eq_ok] at h
  obtain ⟨_, _, ⟨rfl, rfl⟩, _, _, ⟨rfl, rfl⟩, _, _, ⟨rfl, rfl⟩, _, _, ⟨rfl, rfl⟩, _, _,
    ⟨rfl, rfl⟩, rfl, rfl⟩ := h
  exact ⟨rfl, rfl⟩

theorem typeOf_eq_ok {x : Node Note} {type : Scalar} :
    typeOf x k = .ok (type, k') ↔ x.note.type = some type ∧ k' = k := by
  cases hx : x.note.type with
  | none => simp [typeOf, hx, throw_ne_ok]
  | some s =>
      simp only [typeOf, hx, pure_eq_ok, Option.some.injEq]
      exact and_congr_left fun _ => eq_comm

theorem symbolOf_eq_ok {symbols : Symbols} {x : Node Note} {s : Symbol} :
    symbolOf symbols x k = .ok (s, k') ↔ x.symbol? symbols = some s ∧ k' = k := by
  rw [symbolOf, Node.symbol?]
  cases hx : x.note.symbol.bind fun k => symbols[k]? with
  | none => simp [throw_ne_ok]
  | some s' =>
      simp only [pure_eq_ok, Option.some.injEq]
      exact and_congr_left fun _ => eq_comm

theorem cellOf_eq_ok {s : Symbol} {cell : Operand} :
    cellOf s k = .ok (cell, k') ↔ s.storage.cell? = some cell ∧ k' = k := by
  cases hs : s.storage with
  | nowhere => simp [cellOf, hs, Storage.cell?, throw_ne_ok]
  | frame offset =>
      simp only [cellOf, hs, Storage.cell?, pure_eq_ok, Option.some.injEq]
      exact and_congr_left fun _ => eq_comm
  | global label =>
      simp only [cellOf, hs, Storage.cell?, pure_eq_ok, Option.some.injEq]
      exact and_congr_left fun _ => eq_comm

end Steps

/-! ### Lowering makes this code -/

section Lowering

variable {symbols : Symbols} {site : Site} {k k' : Nat} {code : List Instr}

theorem Emits.of_eq {piece : Piece} {a b : List Instr} {k₁ k₂ : Nat}
    (h : Emits symbols site piece k a k₁) (hab : a = b) (hk : k₁ = k₂) :
    Emits symbols site piece k b k₂ := hab ▸ hk ▸ h

theorem emits_pad {x : Node Note} {k₁ : Nat} {a : List Instr}
    (hx : Emits symbols site (.node x) k a k₁) (h : pad x a k₁ = .ok (code, k')) :
    Emits symbols site (.value x) k code k' := by
  cases hy : x.yieldsCell with
  | true =>
      simp only [pad, hy, if_true, pure_eq_ok] at h
      obtain ⟨rfl, rfl⟩ := h
      exact .whole hy hx
  | false =>
      simp only [pad, hy, Bool.false_eq_true, if_false, bind_eq_ok, instr_eq_ok, pure_eq_ok] at h
      obtain ⟨_, _, ⟨rfl, rfl⟩, rfl, rfl⟩ := h
      exact .padded hy hx

theorem emits_name {n : Note} {x : String}
    (h : name symbols (.identifier n x) k = .ok (code, k')) :
    Emits symbols site (.node (.identifier n x)) k code k' := by
  simp only [name, bind_eq_ok, symbolOf_eq_ok, cellOf_eq_ok] at h
  obtain ⟨s, _, ⟨hs, rfl⟩, cell, _, ⟨hcell, rfl⟩, h⟩ := h
  cases hstorage : s.storage <;> simp only [hstorage, remarked_eq_ok, instr_eq_ok] at h
  all_goals
    obtain ⟨rfl, rfl⟩ := h
    refine (Emits.identifier hs hcell).of_eq ?_ rfl
    simp [Symbol.loadRemark, hstorage, Instr.plain]

theorem emits_loopJump {x : Node Note} {toHead : Bool} (hx : x.loopJump? = some toHead)
    (h : loopJump site toHead k = .ok (code, k')) : Emits symbols site (.node x) k code k' := by
  cases hloop : site.loop with
  | none =>
      simp only [loopJump, hloop, pure_eq_ok] at h
      obtain ⟨rfl, rfl⟩ := h
      exact .idleJump hx hloop
  | some l =>
      simp only [loopJump, hloop, bind_eq_ok, times_eq_ok, jump_eq_ok, pure_eq_ok] at h
      obtain ⟨_, _, ⟨rfl, rfl⟩, _, _, ⟨rfl, rfl⟩, rfl, rfl⟩ := h
      exact .loopJump hx hloop

theorem isComparison_eq (op : BinaryOp) :
    op.isComparison = (Condition.ofComparison? op).isSome := by
  cases op <;> rfl

theorem ofBinary?_isSome {op : BinaryOp} (hop : op ≠ .assign)
    (hc : Condition.ofComparison? op = none) : ∃ arith, ArithOp.ofBinary? op = some arith := by
  cases op <;> simp [Condition.ofComparison?, ArithOp.ofBinary?] at hop hc ⊢

mutual

/-- **Lowering an expression makes its code.** -/
theorem emits_expression (symbols : Symbols) (site : Site) (x : Node Note) {k k' : Nat}
    {code : List Instr} (h : expression symbols site x k = .ok (code, k')) :
    Emits symbols site (.node x) k code k' := by
  cases x with
  | literal n v =>
      rw [expression, instr_eq_ok] at h
      obtain ⟨rfl, rfl⟩ := h
      exact .literal
  | identifier n x =>
      rw [expression] at h
      exact emits_name h
  | binary n op l r =>
      rw [expression] at h
      by_cases hop : op = .assign
      · subst hop
        simp only [if_true, bind_eq_ok, pure_eq_ok, typeOf_eq_ok, convert_eq_ok, store,
          symbolOf_eq_ok, cellOf_eq_ok, remarked_eq_ok, and_assoc, exists_and_left,
          exists_eq_left] at h
        obtain ⟨type, htype, a, k₁, hr, b, k₂, hpad, s, hs, _, _, ⟨v, hv, cell, hcell, rfl, rfl⟩,
          rfl, rfl⟩ := h
        exact .assign htype hv hcell (.converted hs (emits_pad (emits_expression _ _ r hr) hpad))
      · cases hc : Condition.ofComparison? op with
        | some c =>
            simp only [if_neg hop, isComparison_eq, hc, Option.isSome_some, if_true, bind_eq_ok,
              pure_eq_ok, typeOf_eq_ok, convert_eq_ok, instr_eq_ok, and_assoc, exists_and_left,
              exists_eq_left] at h
            obtain ⟨s, hs, t, ht, a, k₁, hl, a', k₂, hpad, b, k₃, hr, b', k₄, hpad', d, _, hd, rfl,
              rfl⟩ := h
            obtain ⟨hverdict, hk⟩ := verdict_of_truth hd
            refine (Emits.comparison hc hs ht
              (.converted hs (emits_pad (emits_expression _ _ l hl) hpad))
              (.converted ht (emits_pad (emits_expression _ _ r hr) hpad'))).of_eq ?_ hk
            simp [← hverdict]
        | none =>
            obtain ⟨arith, harith⟩ := ofBinary?_isSome hop hc
            simp only [if_neg hop, isComparison_eq, hc, Option.isSome_none, Bool.false_eq_true,
              if_false, bind_eq_ok, pure_eq_ok, typeOf_eq_ok, convert_eq_ok, instr_eq_ok, harith,
              Option.getD_some, and_assoc, exists_and_left, exists_eq_left] at h
            obtain ⟨s, hs, t, ht, type, htype, a, k₁, hl, a', k₂, hpad, b, k₃, hr, b', k₄, hpad',
              rfl, rfl⟩ := h
            exact (Emits.arith harith htype
              (.converted hs (emits_pad (emits_expression _ _ l hl) hpad))
              (.converted ht (emits_pad (emits_expression _ _ r hr) hpad'))).of_eq (by simp) rfl
  | unary n op x =>
      cases op with
      | plus =>
          simp only [expression, bind_eq_ok] at h
          obtain ⟨a, _, hx, hpad⟩ := h
          exact .plus (emits_pad (emits_expression _ _ x hx) hpad)
      | minus =>
          simp only [expression, bind_eq_ok, pure_eq_ok, typeOf_eq_ok, instr_eq_ok, and_assoc,
            exists_and_left, exists_eq_left] at h
          obtain ⟨type, htype, a, k₁, hx, b, k₂, hpad, rfl, rfl⟩ := h
          exact .minus htype (emits_pad (emits_expression _ _ x hx) hpad)
      | not =>
          simp only [expression, bind_eq_ok, pure_eq_ok, instr_eq_ok, and_assoc, exists_and_left,
            exists_eq_left] at h
          obtain ⟨a, k₁, hx, b, k₂, hpad, d, _, hd, rfl, rfl⟩ := h
          obtain ⟨hverdict, hk⟩ := verdict_of_truth hd
          refine (Emits.not (emits_pad (emits_expression _ _ x hx) hpad)).of_eq ?_ hk
          simp [← hverdict]
  | call n f as =>
      simp only [expression, bind_eq_ok, pure_eq_ok, symbolOf_eq_ok, remarked_eq_ok, instr_eq_ok,
        times_eq_ok, and_assoc, exists_and_left, exists_eq_left] at h
      obtain ⟨s, hs, a, k₁, has, rfl, rfl⟩ := h
      exact (Emits.call hs (emits_arguments _ _ as has)).of_eq (by simp) rfl
  | cond n c t e =>
      cases e with
      | none =>
          simp only [expression, bind_eq_ok, pure_eq_ok, typeOf_eq_ok, fresh_eq_ok, instr_eq_ok,
            jump_eq_ok, convert_eq_ok, and_assoc, exists_and_left, exists_eq_left] at h
          obtain ⟨type, htype, a, k₁, hc, a', k₂, hpad, b, k₃, ht, b', k₄, hpad', s, hs, rfl,
            rfl⟩ := h
          exact (Emits.cond htype (.test (emits_pad (emits_expression _ _ c hc) hpad))
            (.converted hs (emits_pad (emits_expression _ _ t ht) hpad'))).of_eq (by simp) rfl
      | some e =>
          simp only [expression, bind_eq_ok, pure_eq_ok, typeOf_eq_ok, fresh_eq_ok, instr_eq_ok,
            jump_eq_ok, convert_eq_ok, and_assoc, exists_and_left, exists_eq_left] at h
          obtain ⟨type, htype, a, k₁, hc, a', k₂, hpad, b, k₃, ht, b', k₄, hpad', s, hs, d, k₅, he,
            d', k₆, hpad'', s', hs', rfl, rfl⟩ := h
          exact (Emits.condElse htype (.test (emits_pad (emits_expression _ _ c hc) hpad))
            (.converted hs (emits_pad (emits_expression _ _ t ht) hpad'))
            (.converted hs' (emits_pad (emits_expression _ _ e he) hpad''))).of_eq (by simp) rfl
  | loop n c body =>
      cases hc : isEndless c with
      | true =>
          simp only [expression, hc, if_true, bind_eq_ok, pure_eq_ok, fresh_eq_ok, instr_eq_ok,
            jump_eq_ok, and_assoc, exists_and_left, exists_eq_left] at h
          obtain ⟨a, k₁, hb, a', k₂, hpad, rfl, rfl⟩ := h
          exact (Emits.endless hc (emits_pad (emits_expression _ _ body hb) hpad)).of_eq (by simp)
            rfl
      | false =>
          simp only [expression, hc, Bool.false_eq_true, if_false, bind_eq_ok, pure_eq_ok,
            fresh_eq_ok, instr_eq_ok, jump_eq_ok, and_assoc, exists_and_left, exists_eq_left] at h
          obtain ⟨a, k₁, hc', a', k₂, hpad, b, k₃, hb, b', k₄, hpad', rfl, rfl⟩ := h
          exact (Emits.loop hc (.test (emits_pad (emits_expression _ _ c hc') hpad))
            (emits_pad (emits_expression _ _ body hb) hpad')).of_eq (by simp) rfl
  | breakLoop n =>
      rw [expression] at h
      exact emits_loopJump rfl h
  | continueLoop n =>
      rw [expression] at h
      exact emits_loopJump rfl h
  | returnValue n v =>
      simp only [expression, bind_eq_ok, times_eq_ok, jump_eq_ok, pure_eq_ok, and_assoc,
        exists_and_left, exists_eq_left] at h
      obtain ⟨a, k₁, hv, b, k₂, hpad, rfl, rfl⟩ := h
      exact .returnValue (emits_pad (emits_expression _ _ v hv) hpad)
  | define n p b =>
      rw [expression, pure_eq_ok] at h
      obtain ⟨rfl, rfl⟩ := h
      exact .silent rfl
  | prototype n f ps =>
      rw [expression, pure_eq_ok] at h
      obtain ⟨rfl, rfl⟩ := h
      exact .silent rfl
  | block n xs =>
      rw [expression] at h
      exact .block (emits_statements _ _ xs h)
  | assembly n text =>
      rw [expression, instr_eq_ok] at h
      obtain ⟨rfl, rfl⟩ := h
      exact .assembly
  | unit n xs =>
      rw [expression] at h
      exact absurd h throw_ne_ok
  | nop n =>
      rw [expression, instr_eq_ok] at h
      obtain ⟨rfl, rfl⟩ := h
      exact .nop

/-- Lowering statements makes their code. -/
theorem emits_statements (symbols : Symbols) (site : Site) (xs : List (Node Note)) {k k' : Nat}
    {code : List Instr} (h : statements symbols site xs k = .ok (code, k')) :
    Emits symbols site (.statements xs) k code k' := by
  match xs with
  | [] =>
      rw [statements, instr_eq_ok] at h
      obtain ⟨rfl, rfl⟩ := h
      exact .noStatement
  | [x] =>
      simp only [statements, bind_eq_ok] at h
      obtain ⟨a, _, hx, hpad⟩ := h
      exact .lastStatement (emits_pad (emits_expression _ _ x hx) hpad)
  | x :: y :: xs =>
      cases hyields : x.yieldsCell with
      | true =>
          simp only [statements, hyields, if_true, bind_eq_ok, pure_eq_ok, instr_eq_ok, and_assoc,
            exists_and_left, exists_eq_left] at h
          obtain ⟨a, k₁, hx, b, k₂, hxs, rfl, rfl⟩ := h
          exact (Emits.droppedStatement hyields (emits_expression _ _ x hx)
            (emits_statements _ _ (y :: xs) hxs)).of_eq (by simp) rfl
      | false =>
          simp only [statements, hyields, Bool.false_eq_true, if_false, bind_eq_ok, pure_eq_ok,
            and_assoc, exists_and_left, exists_eq_left] at h
          obtain ⟨a, k₁, hx, b, k₂, hxs, rfl, rfl⟩ := h
          exact (Emits.bareStatement hyields (emits_expression _ _ x hx)
            (emits_statements _ _ (y :: xs) hxs)).of_eq (by simp) rfl

/-- Lowering arguments makes their code. -/
theorem emits_arguments (symbols : Symbols) (site : Site) (xs : List (Node Note)) {k k' : Nat}
    {code : List Instr} (h : arguments symbols site xs k = .ok (code, k')) :
    Emits symbols site (.arguments xs) k code k' := by
  match xs with
  | [] =>
      rw [arguments, pure_eq_ok] at h
      obtain ⟨rfl, rfl⟩ := h
      exact .noArgument
  | x :: xs =>
      simp only [arguments, bind_eq_ok, pure_eq_ok] at h
      obtain ⟨a, k₁, hxs, b, k₂, hx, b', _, hpad, rfl, rfl⟩ := h
      exact .argument (emits_arguments _ _ xs hxs) (emits_pad (emits_expression _ _ x hx) hpad)

end

end Lowering

/-! ### Functions and units -/

/-- Code with the end of its function known. -/
def resolved (epilogue : Nat) (is : List Instr) : List Instr :=
  is.map (Code.resolveInstr epilogue)

/-- **The code of a function**, around that of its body. -/
inductive EmitsFunction (symbols : Symbols) (f : Inferred) (k : Nat) : List Instr → Nat → Prop where
  | mk {a : List Instr} {k₁ : Nat} {comment : Option String}
      (hbody : Emits symbols .top (.value f.body) (k + 1 + f.scope.locals) a k₁)
      (hcomment : comment = some "return value") :
      EmitsFunction symbols f k
        (resolved k₁ (.plain k (.entry f.name) .none
          :: copies (k + 1) f.scope.locals .load (.int 0) ++ a
          ++ ⟨k₁, .store, .frame (4 + 4 * f.params.length), none, comment⟩
            :: copies (k₁ + 1) f.scope.locals .pop .none
          ++ [.plain (k₁ + 1 + f.scope.locals) .ret .none]))
        (k₁ + 1 + f.scope.locals + 1)

/-- The code of the functions that some instances stand for. -/
inductive EmitsFunctions (r : Round) : List Instance → Nat → List Instr → Nat → Prop where
  | nil {k : Nat} : EmitsFunctions r [] k [] k
  | cons {i : Instance} {is : List Instance} {f : Inferred} {k k₁ k₂ : Nat} {a b : List Instr}
      (hfound : r.inferred.find? (fun f => f.name = i.name) = some f)
      (hf : EmitsFunction r.symbols f k a k₁) (his : EmitsFunctions r is k₁ b k₂) :
      EmitsFunctions r (i :: is) k (a ++ b) k₂

/-- **The code of a unit**: its statements, the halt, and its functions. -/
inductive EmitsUnit (t : Typing) : List Instr → Nat → Prop where
  | mk {n : Note} {items : List (Node Note)} {k k' : Nat} {a b : List Instr}
      (hroot : t.root = .unit n items)
      (hbody :
        Emits t.round.symbols .top (.statements (items.filter fun x => !x.isDefinition)) 0 a k)
      (hfunctions : EmitsFunctions t.round (reached t.round) (k + 1) b k') :
      EmitsUnit t (resolved k (a ++ [.plain k .halt .none]) ++ b) k'

theorem emits_function {symbols : Symbols} {f : Inferred} {k k' : Nat} {code : List Instr}
    (h : function symbols f k = .ok (code, k')) : EmitsFunction symbols f k code k' := by
  simp only [function, bind_eq_ok, pure_eq_ok, instr_eq_ok, times_eq_ok, fresh_eq_ok, and_assoc,
    exists_and_left, exists_eq_left] at h
  obtain ⟨a, k₁, hbody, a', k₂, hpad, rfl, rfl⟩ := h
  have := @EmitsFunction.mk symbols f k _ _ (some "return value")
    (emits_pad (emits_expression _ _ f.body hbody) hpad) rfl
  simpa [Instr.withComment, Instr.plain, resolved] using this

theorem emits_functions {r : Round} {is : List Instance} {k k' : Nat} {code : List Instr}
    (h : functions r is k = .ok (code, k')) : EmitsFunctions r is k code k' := by
  induction is generalizing k k' code with
  | nil =>
      rw [functions, pure_eq_ok] at h
      obtain ⟨rfl, rfl⟩ := h
      exact .nil
  | cons i is ih =>
      rw [functions] at h
      cases hfound : r.inferred.find? fun f => f.name = i.name with
      | none =>
          rw [hfound] at h
          exact absurd h throw_ne_ok
      | some f =>
          simp only [hfound, bind_eq_ok, pure_eq_ok] at h
          obtain ⟨a, k₁, hf, b, k₂, his, rfl, rfl⟩ := h
          exact .cons hfound (emits_function hf) (ih his)

theorem emits_unit {t : Typing} {k' : Nat} {code : List Instr}
    (h : unit t 0 = .ok (code, k')) : EmitsUnit t code k' := by
  cases hroot : t.root with
  | unit n items =>
      simp only [unit, hroot, main, bind_eq_ok, pure_eq_ok, fresh_eq_ok, and_assoc, exists_and_left,
        exists_eq_left] at h
      obtain ⟨_, _, ⟨a, k₁, hbody, rfl, rfl⟩, b, k₂, hfunctions, rfl, rfl⟩ := h
      exact .mk hroot (emits_statements _ _ _ hbody) (emits_functions hfunctions)
  | _ =>
      simp only [unit, hroot] at h
      exact absurd h throw_ne_ok

end Lower

/-- **Lowering a typed unit makes the code of a unit.** -/
theorem Typing.emits_lower {t : Typing} {c : Code} (h : t.lower = .ok c) :
    ∃ k, Lower.EmitsUnit t c.instrs k := by
  rw [Typing.lower] at h
  cases hu : (Lower.unit t).run 0 with
  | error e =>
      rw [hu] at h
      cases h
  | ok p =>
      obtain ⟨instrs, fresh⟩ := p
      rw [hu] at h
      cases h
      exact ⟨fresh, Lower.emits_unit hu⟩

end StackLang
