/-
**Lowered code computes the values of trees.**

A run through the code of an expression pushes the value of the expression, and leaves the variables
that evaluation leaves.  The proof goes along the levels of evaluation, with one lemma for each sort
of tree; a loop is at its head again on a lower level, and so is the body of a function that is
called.

Main definitions:

* `Eval.Direct` — a resolved tree on integers without jumps and target code;
* `Eval.Serves` — the code holds the functions that calls go to;
* `Eval.Simulated` — what is evaluated on a number of levels is what the code does.

Main results:

* `Eval.reaches_return` — a call runs through the body of the function and back;
* `Eval.simulated` — code computes values, on any number of levels.
-/

import StackLang.Proofs.Eval.Runs
import StackLang.Proofs.Lower.Regular

set_option relaxedAutoImplicit false
set_option autoImplicit false

namespace StackLang

namespace Eval

open Lower Machine

variable {r : Round} {prog : List Instr} {scope : Option Scope} {params n : Nat} {site : Site}
  {k k' : Nat} {code : List Instr} {e e' e'' : Env} {v : Int32} {x : Node Note}
  {xs : List (Node Note)}

/-! ### Trees on integers without jumps -/

/-- A resolved tree on integers, without jumps and target code. -/
structure Direct (r : Round) (scope : Option Scope) (x : Node Note) : Prop where
  resolved : Resolved (IsVisible r.symbols scope) r.IsInstance x
  straight : x.IsStraight
  integer : x.IsInteger

namespace Direct

theorem type_eq (h : Direct r scope x) {s : Scalar} (hs : x.note.type = some s) : s = .int := by
  cases s with
  | int => rfl
  | float => exact absurd hs h.integer.self

theorem yieldsCell (h : Direct r scope x) : x.yieldsCell = true := by
  have hstraight := h.straight.self
  cases h.resolved <;> first | rfl | cases hstraight

section Parts

variable {m : Note}

theorem binary {op : BinaryOp} {l y : Node Note} (h : Direct r scope (.binary m op l y))
    (hop : op ≠ .assign) : Direct r scope l ∧ Direct r scope y := by
  obtain ⟨-, hl, hy⟩ := Node.every_binary.1 h.straight
  obtain ⟨-, hl', hy'⟩ := Node.every_binary.1 h.integer
  cases h.resolved with
  | assign => exact absurd rfl hop
  | binary _ _ hrl hry => exact ⟨⟨hrl, hl, hl'⟩, ⟨hry, hy, hy'⟩⟩

theorem assign {l y : Node Note} (h : Direct r scope (.binary m .assign l y)) :
    (∃ n name k, l = .identifier n name ∧ n.symbol = some k ∧ IsVisible r.symbols scope k ∧
      n.type = some .int) ∧ Direct r scope y := by
  obtain ⟨-, -, hy⟩ := Node.every_binary.1 h.straight
  obtain ⟨-, hl', hy'⟩ := Node.every_binary.1 h.integer
  cases h.resolved with
  | @assign _ n name _ k _ htype hsymbol hk hr =>
      refine ⟨⟨n, name, k, rfl, hsymbol, hk, ?_⟩, hr, hy, hy'⟩
      obtain ⟨type, htype⟩ := Option.ne_none_iff_exists'.1 htype
      cases type with
      | int => exact htype
      | float => exact absurd htype hl'.self
  | binary _ hop => exact absurd rfl hop

theorem unary {op : UnaryOp} {y : Node Note} (h : Direct r scope (.unary m op y)) :
    Direct r scope y := by
  cases h.resolved with
  | unary _ hy => exact ⟨hy, (Node.every_unary.1 h.straight).2, (Node.every_unary.1 h.integer).2⟩

theorem call {f : Node Note} {as : List (Node Note)} (h : Direct r scope (.call m f as)) :
    (∃ k, m.symbol = some k ∧ r.IsInstance k as.length) ∧ ∀ y ∈ as, Direct r scope y := by
  cases h.resolved with
  | call _ hsymbol hk has =>
      exact ⟨⟨_, hsymbol, hk⟩, fun y hy => ⟨has y hy, (Node.every_call.1 h.straight).2.2 y hy,
        (Node.every_call.1 h.integer).2.2 y hy⟩⟩

theorem cond {c t : Node Note} {y : Option (Node Note)} (h : Direct r scope (.cond m c t y)) :
    Direct r scope c ∧ Direct r scope t ∧ ∀ z, y = some z → Direct r scope z := by
  obtain ⟨-, hc, ht, hy⟩ := Node.every_cond.1 h.straight
  obtain ⟨-, hc', ht', hy'⟩ := Node.every_cond.1 h.integer
  cases h.resolved with
  | cond _ hrc hrt hry =>
      exact ⟨⟨hrc, hc, hc'⟩, ⟨hrt, ht, ht'⟩, fun z hz => ⟨hry z hz, hy z hz, hy' z hz⟩⟩

theorem loop {c b : Node Note} (h : Direct r scope (.loop m c b)) :
    Direct r scope c ∧ Direct r scope b := by
  obtain ⟨-, hc, hb⟩ := Node.every_loop.1 h.straight
  obtain ⟨-, hc', hb'⟩ := Node.every_loop.1 h.integer
  cases h.resolved with
  | loop _ hrc hrb => exact ⟨⟨hrc, hc, hc'⟩, ⟨hrb, hb, hb'⟩⟩

theorem block {ys : List (Node Note)} (h : Direct r scope (.block m ys)) :
    ∀ y ∈ ys, Direct r scope y := by
  cases h.resolved with
  | block _ hys =>
      exact fun y hy => ⟨hys y hy, (Node.every_block.1 h.straight).2 y hy,
        (Node.every_block.1 h.integer).2 y hy⟩

end Parts

end Direct

/-- The code of a value is that of its tree. -/
theorem node_of_value (hx : Direct r scope x) (h : Emits r.symbols site (.value x) k code k') :
    Emits r.symbols site (.node x) k code k' := by
  cases h with
  | whole _ h => exact h
  | padded hno _ => exact absurd hx.yieldsCell (by simp [hno])

/-- Integers need no conversion. -/
theorem node_of_converted (hx : Direct r scope x)
    (h : Emits r.symbols site (.converted x .int) k code k') :
    Emits r.symbols site (.node x) k code k' := by
  cases h with
  | converted hs h =>
      cases hx.type_eq hs
      exact (node_of_value hx h).of_eq (List.append_nil _).symm rfl

/-! ### Operators -/

/-- A condition holds of a difference if the relation of its operator holds of it and zero. -/
theorem holds_eq {op : BinaryOp} {c : Condition} (h : Condition.ofComparison? op = some c)
    (d : Int32) : c.holds d = op.holdsInt d 0 := by
  cases op <;> cases h <;> rfl

theorem value?_comparison {op : BinaryOp} {c : Condition} (h : Condition.ofComparison? op = some c)
    {a b : Int32} (hv : op.value? a b = some v) : v = if c.holds (a - b) then 1 else 0 := by
  rw [holds_eq h]
  cases op <;> cases h <;> exact (Option.some.inj hv).symm

/-- Arithmetic of the machine is that of integers. -/
theorem compute_of_value? {op : BinaryOp} {arith : ArithOp} (h : ArithOp.ofBinary? op = some arith)
    {a b : Int32} (hv : op.value? a b = some v) :
    compute arith .int a.toUInt32 b.toUInt32 = .ok v.toUInt32 := by
  cases op <;> cases h
  all_goals simp only [BinaryOp.value?, BinaryOp.isComparison, Bool.false_eq_true, if_false,
    BinaryOp.evalInt?, Option.some.injEq, Option.ite_none_left_eq_some] at hv
  · rw [compute, Int32.toInt32_toUInt32, Int32.toInt32_toUInt32, hv]
  · rw [compute, Int32.toInt32_toUInt32, Int32.toInt32_toUInt32, hv]
  · rw [compute, Int32.toInt32_toUInt32, Int32.toInt32_toUInt32, hv]
  · rw [compute, Int32.toInt32_toUInt32, Int32.toInt32_toUInt32, if_neg hv.1, hv.2]

/-- A comparison tests the wrapped difference of its operands. -/
theorem runs_verdict_sub {host : Host} {is js : List Instr} {us : List Int32} {a b : Int32}
    {c : Condition} (hnodup : (prog.map Instr.id).Nodup) (hl : Runs prog host is e us e' (a :: us))
    (hr : Runs prog host js e' (a :: us) e'' (b :: a :: us)) :
    Runs prog host (is ++ js ++ .plain k (.arith .sub .int) .none :: verdict (k + 1) c) e us e''
      ((if c.holds (a - b) then 1 else 0) :: us) := by
  have hdifference : compute .sub .int a.toUInt32 b.toUInt32 = .ok (a - b).toUInt32 := by
    rw [compute, Int32.toInt32_toUInt32, Int32.toInt32_toUInt32]
  exact (hl.append hr).append (.cons (fun _ => .arith rfl hdifference) (Runs.verdict hnodup _ _ _))

/-- Evaluation of an operator on two values. -/
theorem expression_binary {m : Note} {op : BinaryOp} {l y : Node Note} (hop : op ≠ .assign) :
    expression r (n + 1) (.binary m op l y) e = some (v, e') ↔
      ∃ a e₁ b, expression r n l e = some (a, e₁) ∧ expression r n y e₁ = some (b, e') ∧
        op.value? a b = some v := by
  cases op
  case assign => exact absurd rfl hop
  all_goals
    simp only [expression, Option.bind_eq_bind, Option.bind_eq_some_iff, Prod.exists,
      Option.pure_def, Option.some.injEq, Prod.mk.injEq]
    constructor
    · rintro ⟨a, e₁, hl, b, e₂, hy, w, hw, rfl, rfl⟩
      exact ⟨a, e₁, b, hl, hy, hw⟩
    · rintro ⟨a, e₁, b, hl, hy, hw⟩
      exact ⟨a, e₁, hl, b, e', hy, v, hw, rfl, rfl⟩

/-! ### Calls -/

/-- The code holds the functions that calls go to, and tells its instructions apart. -/
structure Serves (r : Round) (prog : List Instr) : Prop where
  nodup : (prog.map Instr.id).Nodup
  distinct : ∀ (j k : Nat) (s t : Symbol) (l : String), r.symbols[j]? = some s →
    r.symbols[k]? = some t → s.storage = .global l → t.storage = .global l → j = k
  callee : ∀ k m, r.IsInstance k m → ∃ (s : Symbol) (f : Inferred), r.symbols[k]? = some s ∧
    r.inferred.find? (fun f => f.name = s.emittedName) = some f ∧ f.params.length = m ∧
    InferredWell r f ∧ f.body.IsStraight ∧ f.body.IsInteger ∧
    ∃ j j' is pre rest, EmitsFunction r.symbols f j is j' ∧ prog = pre ++ is ++ rest ∧
      callee? s.emittedName prog = some (is ++ rest)

section Routine

variable {f : Inferred} {j : Nat} {comment : Option String} {a pre rest back : List Instr}
  {vs : List Int32} {slot : UInt32} {low : List UInt32} {base : Nat}
  {frames : List (List Instr × Nat)} {s : State} {values : Nat → Int32}

/-- What a function does before its body: there is a zero for each local variable. -/
def prologue (f : Inferred) (j : Nat) : List Instr :=
  .plain j (.entry f.name) .none :: copies (j + 1) f.scope.locals .load (.int 0)

/-- What a function does behind its body: the value goes below the arguments, and the local
variables are dropped. -/
def epilogue (f : Inferred) (k : Nat) (comment : Option String) : List Instr :=
  ⟨k, .store, .frame (4 + 4 * f.params.length), none, comment⟩
    :: copies (k + 1) f.scope.locals .pop .none ++ [.plain (k + 1 + f.scope.locals) .ret .none]

/-- Where the body of `f` runs. -/
def hostOf (r : Round) (f : Inferred) : Host := ⟨r.symbols, some f.scope, f.params.length⟩

/-- What lies below the values of the body of `f`, when the value goes to the top of `low`. -/
def groundOf (f : Inferred) (low : List UInt32) (frames : List (List Instr × Nat)) : Ground :=
  ⟨[], f.params.length + 1 + f.scope.locals, low, frames⟩

/-- **A call reaches the body of the function**, with the arguments and zeros in the frame. -/
theorem reaches_body (hf : InferredWell r f) (hvs : vs.length = f.params.length)
    (hs : s.rest = prologue f j ++ rest) (hstack : s.stack = 0 :: vs.map Int32.toUInt32 ++ low)
    (hbase : s.base = vs.length + low.length) (hframes : s.frames = frames)
    (hglobals : HoldsGlobals r.symbols values s.globals) :
    ∃ t, Reaches prog s t ∧ t.rest = rest ∧
      Stands (hostOf r f) (groundOf f low frames) ⟨values, f.scope.enter f.params vs⟩ [] t := by
  have hentry : Reaches prog s { s with
      rest
      stack := List.replicate f.scope.locals 0 ++ s.stack } := by
    rw [prologue, List.cons_append] at hs
    exact (reaches_still hs (.inr ⟨_, rfl⟩)).trans
      (reaches_pushes (j + 1) _ (fun _ => rfl) rfl)
  refine ⟨_, hentry, rfl, hframes, ?_, _, ?_, ?_, holds_enter hf hglobals hvs⟩
  · simp only [hbase, hvs, groundOf, hostOf]
    omega
  · simp only [groundOf, List.length_append, List.length_reverse, List.length_map, hvs,
      List.length_cons, List.length_replicate]
    omega
  · simp [hstack, groundOf]

/-- **A function returns** with the value of its body in the cell below the arguments. -/
theorem reaches_return (hs : s.rest = epilogue f k comment ++ rest)
    (h : Stands (hostOf r f) (groundOf f (slot :: low) ((back, base) :: frames)) e [v] s) :
    ∃ t args, Reaches prog s t ∧ t.rest = back ∧ t.stack = args ++ v.toUInt32 :: low ∧
      args.length = f.params.length ∧ t.base = base ∧ t.frames = frames ∧
      HoldsGlobals r.symbols e.globals t.globals := by
  obtain ⟨cells, hlength, hstack, hholds⟩ := h.stack
  have hbase := h.base
  simp only [groundOf, hostOf, List.append_nil, List.map_cons, List.map_nil, List.cons_append,
    List.nil_append, List.length_cons] at hlength hstack hbase
  rw [epilogue, List.cons_append, List.cons_append, List.append_assoc] at hs
  -- the frame is the local variables, the return cell and the arguments
  obtain ⟨vars, args, ret, hcells, hvars, hargs⟩ : ∃ (vars args : List UInt32) (ret : UInt32),
      cells.reverse = vars ++ ret :: args ∧ vars.length = f.scope.locals ∧
        args.length = f.params.length := by
    have hdrop : (cells.reverse.drop f.scope.locals).length = f.params.length + 1 := by
      simp only [List.length_drop, List.length_reverse, hlength]
      omega
    obtain ⟨ret, args, hret⟩ := List.exists_cons_of_length_eq_add_one hdrop
    refine ⟨cells.reverse.take f.scope.locals, args, ret, ?_, ?_, ?_⟩
    · rw [← hret, List.take_append_drop]
    · rw [List.length_take, List.length_reverse, hlength]
      omega
    · rw [hret, List.length_cons] at hdrop
      omega
  rw [hcells] at hstack
  rw [← hvars] at hs
  -- the cell of the value is the one below the arguments
  have hplace : (4 + 4 * (f.params.length : Int)).tdiv 4 = f.params.length + 1 := by
    have hfactor : 4 + 4 * (f.params.length : Int) = 4 * (f.params.length + 1) := by ring
    rw [hfactor, Int.mul_tdiv_cancel_left _ (by decide)]
  let popped : State := { s with
    rest := copies (k + 1) vars.length .pop .none
      ++ ([.plain (k + 1 + vars.length) .ret .none] ++ rest)
    stack := vars ++ ret :: args ++ slot :: low }
  obtain ⟨i, -, hlt, hwrite⟩ := @write_of_lies (f.params.length + 1) [slot]
    (4 + 4 * f.params.length) slot popped (vars ++ ret :: args) low v.toUInt32
    (by simp [popped]) (by simp only [popped, hbase]; omega) ⟨0, by rw [hplace]; simp, rfl⟩
  have hi : i = 0 := by simpa using hlt
  simp only [hi, List.set_cons_zero, List.reverse_singleton, List.append_assoc, List.cons_append,
    List.nil_append] at hwrite
  have hstore :
      Reaches prog s { popped with stack := vars ++ ret :: (args ++ v.toUInt32 :: low) } :=
    reaches_store hs rfl hstack hwrite
  obtain ⟨flag, hpops⟩ := @reaches_pops prog ([.plain (k + 1 + vars.length) .ret .none] ++ rest)
    { popped with stack := vars ++ ret :: (args ++ v.toUInt32 :: low) } (k + 1) vars
    (ret :: (args ++ v.toUInt32 :: low)) rfl rfl
  have hret := @reaches_ret prog rest { popped with
      rest := [.plain (k + 1 + vars.length) .ret .none] ++ rest
      stack := ret :: (args ++ v.toUInt32 :: low)
      flag } _ ret (args ++ v.toUInt32 :: low) back base frames rfl rfl rfl
    (by simp only [popped, hbase, List.length_append, List.length_cons, hargs]; omega) h.frames
  exact ⟨_, args, (hstore.trans hpops).trans hret, rfl, rfl, hargs, rfl, rfl, hholds.globals⟩

/-- **A call pushes the value of the body**, and its arguments are gone. -/
theorem leads_call {host : Host} {name : String} {us : List Int32} {k₁ : Nat}
    (hhost : host.symbols = r.symbols) (hf : InferredWell r f)
    (hvs : vs.length = f.params.length)
    (hprog : prog = pre ++ (prologue f j ++ a ++ epilogue f k₁ comment) ++ rest)
    (hcallee : callee? name prog
      = some (prologue f j ++ a ++ epilogue f k₁ comment ++ rest))
    (hbody : Runs prog (hostOf r f) a ⟨e.globals, f.scope.enter f.params vs⟩ [] e' [v])
    (back : List Instr) :
    Leads prog host (.plain k .call (.label name) :: copies (k + 1) vs.length .pop .none ++ back) e
      (vs ++ 0 :: us) back ⟨e'.globals, e.locals⟩ (v :: us) := by
  intro g s hs h
  obtain ⟨cells, hlength, hstack, hholds⟩ := h.stack
  let low : List UInt32 := us.map Int32.toUInt32 ++ g.waiting ++ cells.reverse ++ g.below
  have hstack : s.stack = vs.map Int32.toUInt32 ++ 0 :: low := by
    have hzero : (0 : Int32).toUInt32 = 0 := rfl
    simp [hstack, low, hzero]
  have hcall := reaches_call hs rfl rfl hcallee
  obtain ⟨t, hst, ht, htstands⟩ := @reaches_body r prog f j (a ++ epilogue f k₁ comment ++ rest) vs
    (0 :: low) ((copies (k + 1) vs.length .pop .none ++ back, s.base) :: s.frames) { s with
      rest := prologue f j ++ a ++ epilogue f k₁ comment ++ rest
      stack := 0 :: s.stack
      base := s.stack.length
      frames := (copies (k + 1) vs.length .pop .none ++ back, s.base) :: s.frames } e.globals hf hvs
    (by simp) (by simp [hstack]) (by simp [hstack]) rfl (hhost ▸ hholds.globals)
  obtain ⟨u, htu, hu, hustands⟩ := hbody (pre ++ prologue f j) (epilogue f k₁ comment ++ rest)
    (by simp [hprog]) _ t (by simpa using ht) htstands
  obtain ⟨w, args, huw, hw, hwstack, hargs, hwbase, hwframes, hwglobals⟩ :=
    @reaches_return r prog _ _ _ _ _ _ _ _ _ _ _ _ hu hustands
  rw [hvs, ← hargs] at hw
  obtain ⟨flag, hpops⟩ := @reaches_pops prog _ _ (k + 1) _ _ hw hwstack
  refine ⟨_, ((hcall.trans hst).trans (htu.trans huw)).trans hpops, rfl, ?_, ?_, cells, hlength, ?_,
    ?_, hholds.locals⟩
  · exact hwframes.trans h.frames
  · exact hwbase.trans h.base
  · simp [low]
  · rw [hhost]
    exact hwglobals

end Routine

/-! ### Code without returns -/

/-- The trees of a piece. -/
def trees : Lower.Piece → List (Node Note)
  | .node x | .value x | .converted x _ | .test x _ => [x]
  | .statements xs | .arguments xs => xs

/-- No jump of the code is a return, and no function starts in it. -/
def Enclosed (is : List Instr) : Prop :=
  ∀ i ∈ is, i.target ≠ some .epilogue ∧ ∀ name, i.op ≠ .entry name

@[simp] theorem enclosed_nil : Enclosed [] := by simp [Enclosed]

@[simp] theorem enclosed_cons {i : Instr} {is : List Instr} :
    Enclosed (i :: is) ↔
      (i.target ≠ some .epilogue ∧ ∀ name, i.op ≠ .entry name) ∧ Enclosed is := by
  simp [Enclosed]

@[simp] theorem enclosed_append {is js : List Instr} :
    Enclosed (is ++ js) ↔ Enclosed is ∧ Enclosed js := by
  simp only [Enclosed, List.mem_append, or_imp, forall_and]
  tauto

@[simp] theorem enclosed_copies (j m : Nat) {op : Op} (operand : Operand)
    (hop : ∀ name, op ≠ .entry name) : Enclosed (copies j m op operand) := by
  intro i hi
  obtain ⟨_, -, rfl⟩ := List.mem_map.1 hi
  exact ⟨by simp [Instr.plain], hop⟩

@[simp] theorem enclosed_conversion (j : Nat) (s t : Scalar) :
    Enclosed (conversion j s t) := by
  cases s <;> cases t <;> simp [conversion, Instr.plain]

@[simp] theorem enclosed_verdict (j : Nat) (c : Condition) : Enclosed (verdict j c) := by
  simp [verdict, Instr.plain, Instr.jump]

/-- **Code of straight trees is enclosed.** -/
theorem enclosed_of_emits {symbols : Symbols} {piece : Lower.Piece}
    (h : Emits symbols site piece k code k') (hpiece : ∀ x ∈ trees piece, x.IsStraight) :
    Enclosed code := by
  induction h with
  | returnValue =>
      have hself := (hpiece _ (List.mem_singleton.2 rfl)).self
      cases hself
  | _ =>
      -- the parts are straight, and no instruction of their surroundings returns
      simp_all [trees, Node.IsStraight, or_imp, forall_and, Instr.plain, Instr.jump]

/-- The end of the function is not needed where nothing returns. -/
theorem resolved_eq {is : List Instr} (h : Enclosed is) : Lower.resolved k is = is := by
  refine (List.map_congr_left fun i hi => ?_).trans (List.map_id' is)
  rw [Code.resolveInstr, if_neg (h i hi).1]

theorem emitsFunction_straight {symbols : Symbols} {f : Inferred} {j j' : Nat}
    (h : EmitsFunction symbols f j code j') (hf : f.body.IsStraight) : ∃ k₁ comment a,
      Emits symbols .top (.value f.body) (j + 1 + f.scope.locals) a k₁ ∧
      code = prologue f j ++ a ++ epilogue f k₁ comment := by
  cases h with
  | @mk a k₁ comment hbody =>
      have ha := enclosed_of_emits hbody (by simpa [trees] using hf)
      refine ⟨k₁, comment, a, hbody, ?_⟩
      have hrest : Enclosed (copies (j + 1) f.scope.locals .load (.int 0) ++ a
          ++ epilogue f k₁ comment) := by
        simp [epilogue, Instr.plain, ha]
      have hresolved := @resolved_eq k₁ _ hrest
      simp only [epilogue, List.append_assoc, List.cons_append] at hresolved
      simp only [prologue, epilogue, List.append_assoc, List.cons_append]
      exact congrArg _ hresolved

/-! ### The simulation -/

/-- **What is evaluated on `n` levels is what the code does.** -/
structure Simulated (r : Round) (prog : List Instr) (n : Nat) : Prop where
  expression {scope : Option Scope} {site : Site} {x : Node Note} {k k' : Nat} {code : List Instr}
    {e e' : Env} {v : Int32} (params : Nat) (happart : Apart r.symbols scope)
    (hx : Direct r scope x) (hcode : Emits r.symbols site (.node x) k code k')
    (hv : expression r n x e = some (v, e')) :
    Runs prog ⟨r.symbols, scope, params⟩ code e [] e' [v]
  statements {scope : Option Scope} {site : Site} {xs : List (Node Note)} {k k' : Nat}
    {code : List Instr} {e e' : Env} {v : Int32} (params : Nat) (happart : Apart r.symbols scope)
    (hxs : ∀ x ∈ xs, Direct r scope x) (hcode : Emits r.symbols site (.statements xs) k code k')
    (hv : statements r n xs e = some (v, e')) :
    Runs prog ⟨r.symbols, scope, params⟩ code e [] e' [v]
  arguments {scope : Option Scope} {site : Site} {xs : List (Node Note)} {k k' : Nat}
    {code : List Instr} {e e' : Env} {vs : List Int32} (params : Nat)
    (happart : Apart r.symbols scope) (hxs : ∀ x ∈ xs, Direct r scope x)
    (hcode : Emits r.symbols site (.arguments xs) k code k')
    (hv : arguments r n xs e = some (vs, e')) :
    Runs prog ⟨r.symbols, scope, params⟩ code e [] e' vs

theorem length_of_arguments {vs : List Int32} (h : arguments r n xs e = some (vs, e')) :
    vs.length = xs.length := by
  induction n generalizing xs vs e' with
  | zero => cases h
  | succ n ih =>
      cases xs with
      | nil =>
          cases h
          rfl
      | cons x xs =>
          simp only [arguments, Option.bind_eq_bind, Option.bind_eq_some_iff, Prod.exists,
            Option.pure_def, Option.some.injEq, Prod.mk.injEq] at h
          obtain ⟨vs, e₁, hvs, v, e₂, -, rfl, -⟩ := h
          rw [List.length_cons, List.length_cons, ih hvs]

/-- A condition that is never tested is not zero. -/
theorem value_of_isEndless (h : isEndless x = true) (hv : expression r n x e = some (v, e')) :
    v ≠ 0 ∧ e = e' := by
  cases n with
  | zero => cases hv
  | succ n =>
      unfold isEndless at h
      split at h
      · cases hv
        exact ⟨by simpa using h, rfl⟩
      · cases h

/-- The code of a test is that of its condition, a pop and a jump. -/
theorem exists_of_test {target : Nat} (h : Emits r.symbols site (.test x target) k code k') :
    ∃ k₁ a, Emits r.symbols site (.value x) k a k₁ ∧
      code = a ++ [.plain k₁ .pop .none, .jump (k₁ + 1) .equal (some (.instr target))] := by
  cases h with
  | test h => exact ⟨_, _, h, rfl⟩

section Simulation

variable {m : Note} (ih : Simulated r prog n) (happart : Apart r.symbols scope)

include ih happart

theorem runs_assign {l y : Node Note} (hx : Direct r scope (.binary m .assign l y))
    (hcode : Emits r.symbols site (.node (.binary m .assign l y)) k code k')
    (hv : expression r (n + 1) (.binary m .assign l y) e = some (v, e')) :
    Runs prog ⟨r.symbols, scope, params⟩ code e [] e' [v] := by
  obtain ⟨⟨nl, name, kl, rfl, hsymbol, hk, htype⟩, hy⟩ := hx.assign
  simp only [expression, Option.bind_eq_bind, Option.bind_eq_some_iff, Prod.exists, Option.pure_def,
    Option.some.injEq, Prod.mk.injEq] at hv
  obtain ⟨w, e₁, hvalue, j, hj, e₂, hwrite, rfl, rfl⟩ := hv
  cases hj.symm.trans hsymbol
  cases hcode with
  | assign htype' hs hcell hr =>
      cases htype.symm.trans htype'
      rw [Node.symbol?, hj, Option.bind_some] at hs
      refine (ih.expression params happart hy (node_of_converted hy hr) hvalue).append ?_
      exact (Runs.assign happart rfl rfl hk hs hcell hwrite).append
        (Runs.read rfl rfl hk hs hcell (Env.read_of_write hwrite))
  | comparison hc => cases hc
  | arith hop => cases hop
  | idleJump hx => cases hx
  | loopJump hx => cases hx
  | silent hx => cases hx

theorem runs_binary (hnodup : (prog.map Instr.id).Nodup) {op : BinaryOp} {l y : Node Note}
    (hop : op ≠ .assign) (hx : Direct r scope (.binary m op l y))
    (hcode : Emits r.symbols site (.node (.binary m op l y)) k code k')
    (hv : expression r (n + 1) (.binary m op l y) e = some (v, e')) :
    Runs prog ⟨r.symbols, scope, params⟩ code e [] e' [v] := by
  obtain ⟨hl, hy⟩ := hx.binary hop
  obtain ⟨a, e₁, b, hla, hyb, hvalue⟩ := (expression_binary hop).1 hv
  cases hcode with
  | assign => exact absurd rfl hop
  | comparison hc hs ht hcl hcy =>
      cases hl.type_eq hs
      cases hy.type_eq ht
      rw [value?_comparison hc hvalue]
      exact runs_verdict_sub hnodup (ih.expression params happart hl (node_of_converted hl hcl) hla)
        ((ih.expression params happart hy (node_of_converted hy hcy) hyb).more [a])
  | arith harith htype hcl hcy =>
      cases hx.type_eq htype
      refine ((ih.expression params happart hl (node_of_converted hl hcl) hla).append
        ((ih.expression params happart hy (node_of_converted hy hcy) hyb).more [a])).append ?_
      exact .single fun _ => .arith rfl (compute_of_value? harith hvalue)
  | idleJump hx => cases hx
  | loopJump hx => cases hx
  | silent hx => cases hx

theorem runs_unary (hnodup : (prog.map Instr.id).Nodup) {op : UnaryOp} {y : Node Note}
    (hx : Direct r scope (.unary m op y))
    (hcode : Emits r.symbols site (.node (.unary m op y)) k code k')
    (hv : expression r (n + 1) (.unary m op y) e = some (v, e')) :
    Runs prog ⟨r.symbols, scope, params⟩ code e [] e' [v] := by
  have hy := hx.unary
  cases hcode with
  | plus hcy => exact ih.expression params happart hy (node_of_value hy hcy) hv
  | minus htype hcy =>
      cases hx.type_eq htype
      simp only [expression, Option.bind_eq_bind, Option.bind_eq_some_iff, Prod.exists,
        Option.pure_def, Option.some.injEq, Prod.mk.injEq] at hv
      obtain ⟨w, e₁, hvalue, rfl, rfl⟩ := hv
      have hdifference : compute .sub .int (0 : Int32).toUInt32 w.toUInt32
          = .ok (0 - w).toUInt32 := by
        rw [compute, Int32.toInt32_toUInt32, Int32.toInt32_toUInt32]
      refine ((Runs.int _ 0 none).append
        ((ih.expression params happart hy (node_of_value hy hcy) hvalue).more [0])).append ?_
      exact .single fun _ => .arith rfl hdifference
  | not hcy =>
      simp only [expression, Option.bind_eq_bind, Option.bind_eq_some_iff, Prod.exists,
        Option.pure_def, Option.some.injEq, Prod.mk.injEq] at hv
      obtain ⟨w, e₁, hvalue, rfl, rfl⟩ := hv
      refine (ih.expression params happart hy (node_of_value hy hcy) hvalue).append ?_
      have htruth : (if w = 0 then (1 : Int32) else 0)
          = if Condition.equal.holds w then 1 else 0 := by
        simp [Condition.holds]
      rw [htruth]
      exact Runs.verdict hnodup _ _ _
  | idleJump hx => cases hx
  | loopJump hx => cases hx
  | silent hx => cases hx

theorem runs_cond (hnodup : (prog.map Instr.id).Nodup) {c t : Node Note}
    (hx : Direct r scope (.cond m c t none))
    (hcode : Emits r.symbols site (.node (.cond m c t none)) k code k')
    (hv : expression r (n + 1) (.cond m c t none) e = some (v, e')) :
    Runs prog ⟨r.symbols, scope, params⟩ code e [] e' [v] := by
  obtain ⟨hc, ht, -⟩ := hx.cond
  simp only [expression, Option.bind_eq_bind, Option.bind_eq_some_iff, Prod.exists] at hv
  obtain ⟨w, e₁, hw, hv⟩ := hv
  cases hcode with
  | @cond _ _ _ _ _ k₁ k₂ a b type htype hcode hct =>
      cases hx.type_eq htype
      obtain ⟨k₀, a, hcc, rfl⟩ := exists_of_test hcode
      have hcondition := ih.expression params happart hc (node_of_value hc hcc) hw
      by_cases hzero : w = 0
      · rw [if_pos hzero, Option.pure_def, Option.some.injEq, Prod.mk.injEq] at hv
        obtain ⟨rfl, rfl⟩ := hv
        have hno : Runs prog ⟨r.symbols, scope, params⟩ [.plain k .nop .none,
            .plain (k₂ + 1) .load (.int 0), .plain (k + 1) .nop .none] e₁ [] e₁ [0] :=
          .cons (fun _ => .nop rfl) ((Runs.int _ 0 none).append (.single fun _ => .nop rfl))
        have hskip := @Runs.skip prog (b ++ [.jump k₂ .always (some (.instr (k + 1)))]) _ _ _ _ _ _
          (.plain k₀ .pop .none) (.jump (k₀ + 1) .equal (some (.instr k))) w .equal hnodup _ rfl rfl
          (by simp [hzero, Condition.holds]) rfl hno
        exact (hcondition.append hskip).of_eq (by simp [Operand.zero])
      · rw [if_neg hzero] at hv
        have hpass : Runs prog ⟨r.symbols, scope, params⟩ [.plain k₀ .pop .none,
            .jump (k₀ + 1) .equal (some (.instr k))] e₁ [w] e₁ [] :=
          .pass rfl rfl (by simp [hzero, Condition.holds])
        have hend :
            Runs prog ⟨r.symbols, scope, params⟩ [.plain (k + 1) .nop .none] e' [v] e' [v] :=
          .single fun _ => .nop rfl
        have hleave := @Runs.goto prog [.plain k .nop .none, .plain (k₂ + 1) .load (.int 0)] _ _ _ _
          _ _ (.jump k₂ .always (some (.instr (k + 1)))) hnodup _ rfl rfl hend
        have hyes := ih.expression params happart ht (node_of_converted ht hct) hv
        exact ((hcondition.append hpass).append (hyes.append hleave)).of_eq (by simp [Operand.zero])
  | idleJump hx => cases hx
  | loopJump hx => cases hx
  | silent hx => cases hx

theorem runs_condElse (hnodup : (prog.map Instr.id).Nodup) {c t y : Node Note}
    (hx : Direct r scope (.cond m c t (some y)))
    (hcode : Emits r.symbols site (.node (.cond m c t (some y))) k code k')
    (hv : expression r (n + 1) (.cond m c t (some y)) e = some (v, e')) :
    Runs prog ⟨r.symbols, scope, params⟩ code e [] e' [v] := by
  obtain ⟨hc, ht, hy⟩ := hx.cond
  have hy := hy y rfl
  simp only [expression, Option.bind_eq_bind, Option.bind_eq_some_iff, Prod.exists] at hv
  obtain ⟨w, e₁, hw, hv⟩ := hv
  cases hcode with
  | @condElse _ _ _ _ _ _ k₁ k₂ k₃ a b d type htype hcode hct hcy =>
      cases hx.type_eq htype
      obtain ⟨k₀, a, hcc, rfl⟩ := exists_of_test hcode
      have hcondition := ih.expression params happart hc (node_of_value hc hcc) hw
      have hend : Runs prog ⟨r.symbols, scope, params⟩ [.plain (k + 1) .nop .none] e' [v] e' [v] :=
        .single fun _ => .nop rfl
      by_cases hzero : w = 0
      · rw [if_pos hzero] at hv
        have hother := ih.expression params happart hy (node_of_converted hy hcy) hv
        have hno : Runs prog ⟨r.symbols, scope, params⟩ (.plain k .nop .none
            :: (d ++ [.plain (k + 1) .nop .none])) e₁ [] e' [v] :=
          .cons (fun _ => .nop rfl) (hother.append hend)
        have hskip := @Runs.skip prog (b ++ [.jump k₂ .always (some (.instr (k + 1)))]) _ _ _ _ _ _
          (.plain k₀ .pop .none) (.jump (k₀ + 1) .equal (some (.instr k))) w .equal hnodup _ rfl rfl
          (by simp [hzero, Condition.holds]) rfl hno
        exact (hcondition.append hskip).of_eq (by simp)
      · rw [if_neg hzero] at hv
        have hpass : Runs prog ⟨r.symbols, scope, params⟩ [.plain k₀ .pop .none,
            .jump (k₀ + 1) .equal (some (.instr k))] e₁ [w] e₁ [] :=
          .pass rfl rfl (by simp [hzero, Condition.holds])
        have hleave := @Runs.goto prog (.plain k .nop .none :: d) _ _ _ _
          _ _ (.jump k₂ .always (some (.instr (k + 1)))) hnodup _ rfl rfl hend
        have hyes := ih.expression params happart ht (node_of_converted ht hct) hv
        exact ((hcondition.append hpass).append (hyes.append hleave)).of_eq (by simp)
  | idleJump hx => cases hx
  | loopJump hx => cases hx
  | silent hx => cases hx

theorem runs_loop (hnodup : (prog.map Instr.id).Nodup) {c b : Node Note}
    (hx : Direct r scope (.loop m c b))
    (hcode : Emits r.symbols site (.node (.loop m c b)) k code k')
    (hv : expression r (n + 1) (.loop m c b) e = some (v, e')) :
    Runs prog ⟨r.symbols, scope, params⟩ code e [] e' [v] := by
  obtain ⟨hc, hb⟩ := hx.loop
  have hagain := fun {e₂ : Env} (hv : expression r n (.loop m c b) e₂ = some (v, e')) =>
    ih.expression params happart hx hcode hv
  simp only [expression, Option.bind_eq_bind, Option.bind_eq_some_iff, Prod.exists] at hv
  obtain ⟨w, e₁, hw, hv⟩ := hv
  cases hcode with
  | @endless _ _ _ _ _ k₁ a hendless hcb =>
      obtain ⟨hzero, rfl⟩ := value_of_isEndless hendless hw
      rw [if_neg hzero] at hv
      simp only [Option.bind_eq_some_iff, Prod.exists] at hv
      obtain ⟨w', e₂, hbody, hv⟩ := hv
      have hturn : Runs prog ⟨r.symbols, scope, params⟩
          (.plain k .nop .none :: (a ++ [.plain k₁ .pop .none])) e [] e₂ [] :=
        .cons (fun _ => .nop rfl) ((ih.expression params happart hb (node_of_value hb hcb)
          hbody).append (.single fun _ => .pop rfl))
      have hback := @Runs.back prog (a ++ [.plain k₁ .pop .none])
        [.plain (k + 1) .nop .none, .plain (k₁ + 2) .load (.int 0)] _ _ _ _ _ _ _
        (.jump (k₁ + 1) .always (some (.instr k))) hnodup (.plain k .nop .none) rfl rfl hturn
        ((hagain hv).of_eq (by simp))
      exact hback.of_eq (by simp)
  | @loop _ _ _ _ _ k₁ k₂ a d hendless hcode hcb =>
      obtain ⟨k₀, a, hcc, rfl⟩ := exists_of_test hcode
      have hcondition := ih.expression params happart hc (node_of_value hc hcc) hw
      have hhead : Runs prog ⟨r.symbols, scope, params⟩ (.plain k .nop .none :: a) e [] e₁ [w] :=
        .cons (fun _ => .nop rfl) hcondition
      by_cases hzero : w = 0
      · rw [if_pos hzero, Option.pure_def, Option.some.injEq, Prod.mk.injEq] at hv
        obtain ⟨rfl, rfl⟩ := hv
        have hexit : Runs prog ⟨r.symbols, scope, params⟩ [.plain (k + 1) .nop .none,
            .plain (k₂ + 2) .load (.int 0)] e₁ [] e₁ [0] :=
          .cons (fun _ => .nop rfl) (Runs.int _ 0 none)
        have hskip := @Runs.skip prog (d ++ [.plain k₂ .pop .none,
          .jump (k₂ + 1) .always (some (.instr k))]) _ _ _ _ _ _
          (.plain k₀ .pop .none) (.jump (k₀ + 1) .equal (some (.instr (k + 1)))) w .equal hnodup _
          rfl rfl (by simp [hzero, Condition.holds]) rfl hexit
        exact (hhead.append hskip).of_eq (by simp)
      · rw [if_neg hzero] at hv
        simp only [Option.bind_eq_some_iff, Prod.exists] at hv
        obtain ⟨w', e₂, hbody, hv⟩ := hv
        have hpass : Runs prog ⟨r.symbols, scope, params⟩ [.plain k₀ .pop .none,
            .jump (k₀ + 1) .equal (some (.instr (k + 1)))] e₁ [w] e₁ [] :=
          .pass rfl rfl (by simp [hzero, Condition.holds])
        have hdrop : Runs prog ⟨r.symbols, scope, params⟩ [.plain k₂ .pop .none] e₂ [w'] e₂ [] :=
          .single fun _ => .pop rfl
        have hturn := ((hhead.append hpass).append
          ((ih.expression params happart hb (node_of_value hb hcb) hbody).append hdrop))
        have hback := @Runs.back prog (a ++ [.plain k₀ .pop .none,
          .jump (k₀ + 1) .equal (some (.instr (k + 1)))] ++ (d ++ [.plain k₂ .pop .none]))
          [.plain (k + 1) .nop .none, .plain (k₂ + 2) .load (.int 0)] _ _ _ _ _ _ _
          (.jump (k₂ + 1) .always (some (.instr k))) hnodup (.plain k .nop .none) rfl rfl
          (hturn.of_eq (by simp)) ((hagain hv).of_eq (by simp))
        exact hback.of_eq (by simp)
  | idleJump hx => cases hx
  | loopJump hx => cases hx
  | silent hx => cases hx

theorem runs_call (hserves : Serves r prog) {f : Node Note} {as : List (Node Note)}
    (hx : Direct r scope (.call m f as))
    (hcode : Emits r.symbols site (.node (.call m f as)) k code k')
    (hv : expression r (n + 1) (.call m f as) e = some (v, e')) :
    Runs prog ⟨r.symbols, scope, params⟩ code e [] e' [v] := by
  obtain ⟨⟨kf, hsymbol, hk⟩, has⟩ := hx.call
  simp only [expression, Option.bind_eq_bind, Option.bind_eq_some_iff, Prod.exists, Option.pure_def,
    Option.some.injEq, Prod.mk.injEq] at hv
  obtain ⟨vs, e₁, hvs, j, hj, s, hs, g, hg, w, e₂, hw, rfl, rfl⟩ := hv
  cases hj.symm.trans hsymbol
  obtain ⟨s', g', hs', hg', hparams, hwell, hstraight, hinteger, j, j', is, pre, rest, hcode',
    hprog, hcallee⟩ := hserves.callee kf _ hk
  cases hs.symm.trans hs'
  cases hg.symm.trans hg'
  obtain ⟨k₁, comment, a, hbody, rfl⟩ := emitsFunction_straight hcode' hstraight
  have hdirect : Direct r (some g.scope) g.body := ⟨hwell.body, hstraight, hinteger⟩
  have happart' : Apart r.symbols (some g.scope) :=
    ⟨hserves.distinct, fun _ hsc => Option.some.inj hsc ▸ hwell.scope⟩
  have hruns := ih.expression g.params.length happart' hdirect (node_of_value hdirect hbody) hw
  cases hcode with
  | call hs'' hcas =>
      rw [Node.symbol?, Node.note, hsymbol, Option.bind_some, hs] at hs''
      cases hs''
      have hlength : vs.length = as.length := length_of_arguments hvs
      have harguments := (ih.arguments params happart has hcas hvs).more [0]
      refine ((Runs.int _ 0 _).append harguments).append ?_
      rw [← hlength]
      exact fun _ back _ =>
        leads_call rfl hwell (hlength.trans hparams.symm) hprog hcallee hruns back
  | idleJump hx => cases hx
  | loopJump hx => cases hx
  | silent hx => cases hx

theorem runs_expression (hserves : Serves r prog) (hx : Direct r scope x)
    (hcode : Emits r.symbols site (.node x) k code k')
    (hv : expression r (n + 1) x e = some (v, e')) :
    Runs prog ⟨r.symbols, scope, params⟩ code e [] e' [v] := by
  have hnodup := hserves.nodup
  cases x with
  | literal m lit =>
      cases lit with
      | int w =>
          cases hv
          cases hcode with
          | literal => exact Runs.int _ _ none
          | idleJump hx => cases hx
          | loopJump hx => cases hx
          | silent hx => cases hx
      | float w => cases hv
  | identifier m name =>
      simp only [expression, Option.bind_eq_bind, Option.bind_eq_some_iff, Option.pure_def,
        Option.some.injEq, Prod.mk.injEq] at hv
      obtain ⟨j, hj, w, hw, rfl, rfl⟩ := hv
      cases hx.resolved with
      | identifier _ hsymbol hk =>
          cases hj.symm.trans hsymbol
          cases hcode with
          | identifier hs hcell =>
              rw [Node.symbol?, Node.note, hsymbol, Option.bind_some] at hs
              exact Runs.read rfl rfl hk hs hcell hw
          | idleJump hx => cases hx
          | loopJump hx => cases hx
          | silent hx => cases hx
  | binary m op l y =>
      by_cases hop : op = .assign
      · subst hop
        exact runs_assign ih happart hx hcode hv
      · exact runs_binary ih happart hnodup hop hx hcode hv
  | unary m op y => exact runs_unary ih happart hnodup hx hcode hv
  | call m f as => exact runs_call ih happart hserves hx hcode hv
  | cond m c t y =>
      cases y with
      | none => exact runs_cond ih happart hnodup hx hcode hv
      | some y => exact runs_condElse ih happart hnodup hx hcode hv
  | loop m c b => exact runs_loop ih happart hnodup hx hcode hv
  | block m ys =>
      cases hcode with
      | block hys => exact ih.statements params happart hx.block hys hv
      | idleJump hx => cases hx
      | loopJump hx => cases hx
      | silent hx => cases hx
  | nop m =>
      cases hv
      cases hcode with
      | nop => exact Runs.int _ _ none
      | idleJump hx => cases hx
      | loopJump hx => cases hx
      | silent hx => cases hx
  | _ => cases hv

theorem runs_statements (hxs : ∀ x ∈ xs, Direct r scope x)
    (hcode : Emits r.symbols site (.statements xs) k code k')
    (hv : statements r (n + 1) xs e = some (v, e')) :
    Runs prog ⟨r.symbols, scope, params⟩ code e [] e' [v] := by
  cases hcode with
  | noStatement =>
      cases hv
      exact Runs.int _ _ none
  | lastStatement hx =>
      have hdirect := hxs _ (List.mem_singleton.2 rfl)
      exact ih.expression params happart hdirect (node_of_value hdirect hx) hv
  | droppedStatement hyields hx hcxs =>
      rw [List.forall_mem_cons] at hxs
      simp only [statements, Option.bind_eq_bind, Option.bind_eq_some_iff, Prod.exists] at hv
      obtain ⟨w, e₁, hw, hv⟩ := hv
      exact (ih.expression params happart hxs.1 hx hw).append
        (.cons (fun _ => .pop rfl) (ih.statements params happart hxs.2 hcxs hv))
  | bareStatement hyields =>
      rw [List.forall_mem_cons] at hxs
      exact absurd hxs.1.yieldsCell (by simp [hyields])

theorem runs_arguments {vs : List Int32} (hxs : ∀ x ∈ xs, Direct r scope x)
    (hcode : Emits r.symbols site (.arguments xs) k code k')
    (hv : arguments r (n + 1) xs e = some (vs, e')) :
    Runs prog ⟨r.symbols, scope, params⟩ code e [] e' vs := by
  cases hcode with
  | noArgument =>
      cases hv
      exact .nil
  | argument hcxs hx =>
      rw [List.forall_mem_cons] at hxs
      simp only [arguments, Option.bind_eq_bind, Option.bind_eq_some_iff, Prod.exists,
        Option.pure_def, Option.some.injEq, Prod.mk.injEq] at hv
      obtain ⟨ws, e₁, hws, w, e₂, hw, rfl, rfl⟩ := hv
      exact (ih.arguments params happart hxs.2 hcxs hws).append
        ((ih.expression params happart hxs.1 (node_of_value hxs.1 hx) hw).more ws)

end Simulation

/-- **Code computes values**, on any number of levels. -/
theorem simulated (hserves : Serves r prog) (n : Nat) : Simulated r prog n := by
  induction n with
  | zero =>
      constructor
      · intro _ _ _ _ _ _ _ _ _ _ _ _ _ hv
        cases hv
      · intro _ _ _ _ _ _ _ _ _ _ _ _ _ hv
        cases hv
      · intro _ _ _ _ _ _ _ _ _ _ _ _ _ hv
        cases hv
  | succ n ih =>
      exact ⟨fun _ happart => runs_expression ih happart hserves,
        fun _ happart => runs_statements ih happart, fun _ happart => runs_arguments ih happart⟩

end Eval

end StackLang
