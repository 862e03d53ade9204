/-
**What the jumps of lowered code were made for.**

Every instruction of an expression was made for some construct, which stands inside others.  Lowered
code is traced by writing down these constructs beside each instruction.  In traced code a jump made
for a `break` or a `continue` goes to the exit or to the head of the innermost loop among the
constructs around it, and a jump made for a `return` goes to the end of the function, which for the
statements of a unit is the halt.

Main definitions:

* `Lower.Traced`, `Lower.Weaves` — instructions with the constructs they were made for;
* `Lower.LoopCode` — the code of a loop inside traced code;
* `Lower.GoesWithLoop`, `Lower.Controlled` — where the jumps of traced code go;
* `Lower.FunctionControl`, `Lower.UnitControl` — the same for the code of functions and units.

Main results:

* `Lower.Weaves.goesWithLoop` — jumps stay at the innermost loop;
* `Lower.EmitsFunction.control`, `Lower.EmitsUnit.control` — lowered code can be traced, and its
  jumps go where they should.
-/

import StackLang.Proofs.Lower.Regular

set_option relaxedAutoImplicit false
set_option autoImplicit false

namespace StackLang

/-- Whether the tree is a loop. -/
def Node.isLoop {α : Type} : Node α → Bool
  | .loop .. => true
  | _ => false

namespace Lower

/-! ### Traced code -/

/-- An instruction, and the constructs that it was made for, the innermost one first. -/
abbrev Traced := Instr × List (Node Note)

/-- Instructions that were made for the same constructs. -/
def made (up : List (Node Note)) (is : List Instr) : List Traced := is.map fun i => (i, up)

/-- The trees below the root that have code inside that of the root, in the order of their code. -/
def parts : Node Note → List (Node Note)
  | .binary _ .assign _ r => [r]
  | .binary _ _ l r => [l, r]
  | .unary _ _ x => [x]
  | .call _ _ as => as.reverse
  | .cond _ c t none => [c, t]
  | .cond _ c t (some e) => [c, t, e]
  | .loop _ c b => if isEndless c then [b] else [c, b]
  | .returnValue _ v => [v]
  | .block _ xs => xs
  | _ => []

/-- The loop around what is directly below a tree whose code starts with the identity `k`. -/
def loopInside (x : Node Note) (k : Nat) (site : Site) : Option LoopSite :=
  if x.isLoop then some ⟨k, k + 1, site.depth⟩ else site.loop

/-- **Code traced to trees**: the code of some trees below the constructs `up`, each traced to its
own parts, with instructions between that were made for the innermost of these constructs. -/
inductive Weaves (symbols : Symbols) :
    Option LoopSite → List (Node Note) → List (Node Note) → List Traced → Prop where
  | made {loop : Option LoopSite} {up : List (Node Note)} (is : List Instr) :
      Weaves symbols loop up [] (made up is)
  | part {site : Site} {up xs : List (Node Note)} {x : Node Note} {k k' : Nat} (is : List Instr)
      {T T' : List Traced} (hx : Emits symbols site (.node x) k (T.map Prod.fst) k')
      (hparts : Weaves symbols (loopInside x k site) (x :: up) (parts x) T)
      (hrest : Weaves symbols site.loop up xs T') :
      Weaves symbols site.loop up (x :: xs) (made up is ++ (T ++ T'))

/-- **The code of the loop `w`** inside traced code, with the constructs `outer` around it: from the
head on, to the exit and the push behind it. -/
inductive LoopCode (symbols : Symbols) (w : Node Note) (outer : List (Node Note))
    (T : List Traced) : Traced → List Traced → Traced → Prop where
  | mk {site : Site} {k k' : Nat} {before after inside : List Traced} {head exit push : Traced}
      (hcode : Emits symbols site (.node w) k
        ((head :: (inside ++ [exit, push])).map Prod.fst) k')
      (htrace : T = before ++ (head :: (inside ++ [exit, push]) ++ after))
      (hwithin : ∀ p ∈ head :: (inside ++ [exit, push]), (w :: outer) <:+ p.2) :
      LoopCode symbols w outer T head inside exit

/-- **A jump made for a `break` or a `continue` goes to the exit or to the head of the innermost
loop around it**, whose code it is in. -/
inductive GoesWithLoop (symbols : Symbols) (T : List Traced) (toHead : Bool) : Traced → Prop where
  | mk {i : Instr} {y w : Node Note} {inner outer : List (Node Note)} {inside : List Traced}
      {head exit : Traced} (hw : w.isLoop = true) (hinner : ∀ z ∈ inner, z.isLoop = false)
      (hcode : LoopCode symbols w outer T head inside exit)
      (hmem : (i, y :: (inner ++ w :: outer)) ∈ inside)
      (htarget : i.target = some (.instr (if toHead then head.1.id else exit.1.id))) :
      GoesWithLoop symbols T toHead (i, y :: (inner ++ w :: outer))

section Weaving

variable {symbols : Symbols} {loop : Option LoopSite} {up xs ys : List (Node Note)}
  {T T' : List Traced} {site : Site} {x y : Node Note} {k k' : Nat} {code : List Instr}

@[simp] theorem map_fst_made (up : List (Node Note)) (is : List Instr) :
    (made up is).map Prod.fst = is := by
  simp [made, Function.comp_def]

theorem eq_of_mem_made {is : List Instr} {p : Traced} (h : p ∈ made up is) : p.2 = up := by
  obtain ⟨i, -, rfl⟩ := List.mem_map.1 h
  rfl

theorem made_append (up : List (Node Note)) (is js : List Instr) :
    made up (is ++ js) = made up is ++ made up js :=
  List.map_append

/-- Everything is made for what is below the constructs. -/
theorem Weaves.suffix (h : Weaves symbols loop up xs T) : ∀ p ∈ T, up <:+ p.2 := by
  induction h with
  | made is =>
      intro p hp
      rw [eq_of_mem_made hp]
  | @part site up xs x k k' is T T' hx _ _ ihparts ihrest =>
      intro p hp
      simp only [List.mem_append] at hp
      rcases hp with hp | hp | hp
      · rw [eq_of_mem_made hp]
      · exact (List.suffix_cons x up).trans (ihparts p hp)
      · exact ihrest p hp

/-- Code of the same constructs can stand side by side. -/
theorem Weaves.append (h : Weaves symbols loop up xs T) (h' : Weaves symbols loop up ys T') :
    Weaves symbols loop up (xs ++ ys) (T ++ T') := by
  induction h with
  | @made loop up is =>
      cases h' with
      | made js =>
          rw [← made_append]
          exact .made (is ++ js)
      | part js hx hparts hrest =>
          rw [← List.append_assoc, ← made_append]
          exact .part (is ++ js) hx hparts hrest
  | part is hx hparts _ _ ihrest =>
      rw [List.append_assoc, List.append_assoc]
      exact .part is hx hparts (ihrest h')

/-! ### Jumps out of loops -/

/-- The code of a loop: its head, its exit, and a push. -/
theorem Emits.exists_loop (h : Emits symbols site (.node x) k code k') (hx : x.isLoop = true) :
    ∃ inside, code = .plain k .nop .none
      :: (inside ++ [.plain (k + 1) .nop .none, .plain (k' - 1) .load (.int 0)]) := by
  obtain ⟨n, c, b, rfl⟩ : ∃ n c b, x = .loop n c b := by
    cases x <;> first | exact ⟨_, _, _, rfl⟩ | cases hx
  cases h with
  | @endless _ _ _ _ _ k₁ a =>
      exact ⟨a ++ [.plain k₁ .pop .none, .jump (k₁ + 1) .always (some (.instr k))], by simp⟩
  | @loop _ _ _ _ _ k₁ k₂ a d =>
      exact ⟨a ++ d ++ [.plain k₂ .pop .none, .jump (k₂ + 1) .always (some (.instr k))], by simp⟩
  | idleJump hother | loopJump hother | silent hother => cases hother

/-- The jump of a `break` or a `continue` goes to the end that the surroundings name. -/
theorem Emits.target_of_loopJump (h : Emits symbols site (.node y) k code k') {toHead : Bool}
    (hy : y.loopJump? = some toHead) {i : Instr} (hi : i ∈ code) (hop : i.op.isJump = true) :
    ∃ l, site.loop = some l ∧ i.target = some (.instr (if toHead then l.head else l.exit)) := by
  cases h with
  | idleJump | silent => cases hi
  | @loopJump _ _ toHead' _ l hjump hloop =>
      obtain rfl : toHead' = toHead := Option.some.inj (hjump.symm.trans hy)
      refine ⟨l, hloop, ?_⟩
      rcases List.mem_append.1 hi with hi | hi
      · obtain ⟨j, -, rfl⟩ := List.mem_map.1 hi
        cases hop
      · rw [List.mem_singleton.1 hi]
        rfl
  | _ => cases hy

theorem GoesWithLoop.mono {toHead : Bool} {p : Traced} (h : GoesWithLoop symbols T toHead p)
    (before after : List Traced) : GoesWithLoop symbols (before ++ (T ++ after)) toHead p := by
  obtain ⟨hw, hinner, hcode, hmem, htarget⟩ := h
  cases hcode with
  | @mk _ _ _ before' after' _ _ _ _ hcode htrace hwithin =>
      refine .mk hw hinner (@LoopCode.mk _ _ _ _ _ _ _ (before ++ before') (after' ++ after)
        _ _ _ _ hcode ?_ hwithin) hmem htarget
      rw [htrace]
      simp

/-- Traced code of a loop: what is between its head and its exit. -/
theorem Emits.exists_split (h : Emits symbols site (.node x) k (T.map Prod.fst) k')
    (hx : x.isLoop = true) : ∃ head inside exit push, T = head :: (inside ++ [exit, push]) ∧
      head.1 = .plain k .nop .none ∧ exit.1 = .plain (k + 1) .nop .none ∧
      push.1 = .plain (k' - 1) .load (.int 0) := by
  obtain ⟨inside, heq⟩ := h.exists_loop hx
  obtain ⟨head, T, rfl, hhead, heq⟩ := List.map_eq_cons_iff.1 heq
  obtain ⟨inside, last, rfl, -, heq⟩ := List.map_eq_append_iff.1 heq
  obtain ⟨exit, last, rfl, hexit, heq⟩ := List.map_eq_cons_iff.1 heq
  obtain ⟨push, last, rfl, hpush, heq⟩ := List.map_eq_cons_iff.1 heq
  obtain rfl := List.map_eq_nil_iff.1 heq
  exact ⟨head, inside, exit, push, rfl, hhead, hexit, hpush⟩

/-- **A jump goes with the loop**: with one inside the traced code if there is one around the jump,
and otherwise with the one that the surroundings name. -/
theorem Weaves.goes (h : Weaves symbols loop up xs T) {i : Instr} {rel : List (Node Note)}
    {toHead : Bool} (hmem : (i, y :: (rel ++ up)) ∈ T) (hy : y.loopJump? = some toHead)
    (hop : i.op.isJump = true) :
    ((∀ z ∈ rel, z.isLoop = false) ∧
      ∃ l, loop = some l ∧ i.target = some (.instr (if toHead then l.head else l.exit))) ∨
    GoesWithLoop symbols T toHead (i, y :: (rel ++ up)) := by
  induction h generalizing rel with
  | made is =>
      -- these instructions were made for none of the trees
      have hlength := congrArg List.length (eq_of_mem_made hmem)
      simp at hlength
      omega
  | @part site up xs x k k' is T T' hx hparts hrest ihparts ihrest =>
      simp only [List.mem_append] at hmem
      rcases hmem with hmem | hmem | hmem
      · have hlength := congrArg List.length (eq_of_mem_made hmem)
        simp at hlength
        omega
      · -- the tree is the last of the constructs that the trace adds
        obtain ⟨front, hfront⟩ := hparts.suffix _ hmem
        have hfront : front ++ [x] = y :: rel :=
          List.append_cancel_right (show front ++ [x] ++ up = y :: rel ++ up by simpa using hfront)
        rcases List.eq_nil_or_concat rel with rfl | ⟨rel, z, rfl⟩
        · -- it is the jump itself
          have hself : front ++ [x] = [] ++ [y] := hfront
          obtain rfl := List.singleton_inj.1 (List.append_inj_right' hself rfl)
          obtain ⟨l, hl, htarget⟩ := hx.target_of_loopJump hy
            (List.mem_map_of_mem (f := Prod.fst) hmem) hop
          exact .inl ⟨nofun, l, hl, htarget⟩
        · rw [List.concat_eq_append, ← List.cons_append] at hfront
          obtain rfl := List.singleton_inj.1 (List.append_inj_right' hfront rfl)
          rw [List.concat_eq_append, List.append_assoc, List.singleton_append] at hmem ⊢
          rcases ihparts hmem with ⟨hrel, l, hl, htarget⟩ | hgoes
          · by_cases hloop : x.isLoop = true
            · -- it is the innermost loop, and the jump is in its code
              rw [loopInside, if_pos hloop, Option.some.injEq] at hl
              obtain ⟨head, inside, exit, push, rfl, hhead, hexit, hpush⟩ := hx.exists_split hloop
              refine .inr (.mk hloop hrel (.mk hx rfl hparts.suffix) ?_ ?_)
              · simp only [List.mem_cons, List.mem_append, List.not_mem_nil, or_false] at hmem
                rcases hmem with rfl | hmem | rfl | rfl
                · rw [show i.op = .nop from congrArg Instr.op hhead] at hop
                  cases hop
                · exact hmem
                · rw [show i.op = .nop from congrArg Instr.op hexit] at hop
                  cases hop
                · rw [show i.op = .load from congrArg Instr.op hpush] at hop
                  cases hop
              · rw [htarget, ← hl, hhead, hexit]
                rfl
            · rw [loopInside, if_neg hloop] at hl
              refine .inl ⟨fun z hz => ?_, l, hl, htarget⟩
              rcases List.mem_append.1 hz with hz | hz
              · exact hrel z hz
              · rw [List.mem_singleton.1 hz]
                simpa using hloop
          · exact .inr (hgoes.mono _ _)
      · rcases ihrest hmem with hgoes | hgoes
        · exact .inl hgoes
        · have := hgoes.mono (Lower.made up is ++ T) []
          exact .inr (by simpa using this)

/-- **Jumps go to the innermost loop** in traced code without surroundings. -/
theorem Weaves.goesWithLoop (h : Weaves symbols none [] xs T) {p : Traced} (hp : p ∈ T)
    (hup : p.2 = y :: up) {toHead : Bool} (hy : y.loopJump? = some toHead)
    (hop : p.1.op.isJump = true) : GoesWithLoop symbols T toHead p := by
  obtain ⟨i, up'⟩ := p
  obtain rfl : up' = y :: up := hup
  rw [← List.append_nil up] at hp ⊢
  rcases h.goes hp hy hop with ⟨-, l, hl, -⟩ | hgoes
  · cases hl
  · exact hgoes

/-! ### Traces of lowered code -/

/-- A jump made for a `return` goes to the end of the function. -/
def Leaves (p : Traced) : Prop :=
  ∀ n v up, p.2 = .returnValue n v :: up → p.1.op.isJump = true → p.1.target = some .epilogue

/-- Whether the tree is a return. -/
def isReturn : Node Note → Bool
  | .returnValue .. => true
  | _ => false

/-- Code that can be traced to some trees, such that returns leave the function. -/
def Woven (symbols : Symbols) (loop : Option LoopSite) (up xs : List (Node Note))
    (code : List Instr) : Prop :=
  ∃ T, T.map Prod.fst = code ∧ Weaves symbols loop up xs T ∧ ∀ p ∈ T, Leaves p

namespace Woven

variable {a b : List Instr}

theorem made (h : ∀ i ∈ a, Leaves (i, up)) : Woven symbols loop up [] a := by
  refine ⟨Lower.made up a, map_fst_made up a, .made a, fun p hp => ?_⟩
  obtain ⟨i, hi, rfl⟩ := List.mem_map.1 hp
  exact h i hi

/-- What a construct other than a return makes itself. -/
theorem own (hx : isReturn x = false) (a : List Instr) : Woven symbols loop (x :: up) [] a := by
  refine made fun i _ n v up' hup _ => ?_
  cases hup
  cases hx

/-- Instructions that are no jumps, made for any construct. -/
theorem still (h : ∀ i ∈ a, i.op.isJump = false) : Woven symbols loop up [] a :=
  made fun i hi _ _ _ _ hop => by simp [h i hi] at hop

theorem append (ha : Woven symbols loop up xs a) (hb : Woven symbols loop up ys b) :
    Woven symbols loop up (xs ++ ys) (a ++ b) := by
  obtain ⟨T, rfl, hT, hleaves⟩ := ha
  obtain ⟨T', rfl, hT', hleaves'⟩ := hb
  exact ⟨T ++ T', List.map_append, hT.append hT', List.forall_mem_append.2 ⟨hleaves, hleaves'⟩⟩

/-- The code of a tree, as a part of what is around it. -/
theorem node (hx : Emits symbols site (.node x) k code k')
    (h : Woven symbols (loopInside x k site) (x :: up) (parts x) code) :
    Woven symbols site.loop up [x] code := by
  obtain ⟨T, rfl, hT, hleaves⟩ := h
  have hweaves : Weaves symbols site.loop up [x] (Lower.made up [] ++ (T ++ Lower.made up [])) :=
    .part [] hx hT (.made [])
  exact ⟨T, rfl, by simpa [Lower.made] using hweaves, hleaves⟩

end Woven

/-- What can be traced of the code of a piece.  The jump of a test is its own, so it is none that a
return makes. -/
def Piece.Woven (symbols : Symbols) (site : Site) (k : Nat) (code : List Instr) : Piece → Prop
  | .node x => ∀ up, Lower.Woven symbols (loopInside x k site) (x :: up) (parts x) code
  | .value x | .converted x _ => ∀ up, Lower.Woven symbols site.loop up [x] code
  | .test x _ => ∀ y up, isReturn y = false → Lower.Woven symbols site.loop (y :: up) [x] code
  | .statements xs => ∀ up, Lower.Woven symbols site.loop up xs code
  | .arguments xs => ∀ up, Lower.Woven symbols site.loop up xs.reverse code

theorem isJump_copies (k n : Nat) {op : Op} {operand : Operand} (hop : op.isJump = false) :
    ∀ i ∈ copies k n op operand, i.op.isJump = false := by
  intro i hi
  obtain ⟨j, -, rfl⟩ := List.mem_map.1 hi
  exact hop

theorem isJump_conversion (k : Nat) (s t : Scalar) :
    ∀ i ∈ conversion k s t, i.op.isJump = false := by
  cases s <;> cases t <;> simp [conversion, Instr.plain, Op.isJump]

theorem parts_binary {n : Note} {op : BinaryOp} {l r : Node Note} (hop : op ≠ .assign) :
    parts (.binary n op l r) = [l, r] := by
  cases op <;> first | rfl | exact absurd rfl hop

/-- **Lowered code can be traced.** -/
theorem Emits.woven {piece : Piece} (h : Emits symbols site piece k code k') :
    piece.Woven symbols site k code := by
  have hpop : ∀ k, (Instr.plain k .pop .none).op.isJump = false := fun _ => rfl
  have hzero : ∀ k, (Instr.plain k .load (.int 0)).op.isJump = false := fun _ => rfl
  induction h with
  | literal | identifier | nop | assembly => exact fun up => .own rfl _
  | @idleJump _ x _ _ hx | @loopJump _ x _ _ _ hx | @silent _ x _ hx =>
      intro up
      cases x <;> first | exact .own rfl _ | cases hx
  | assign _ _ _ _ ih => exact fun up => (ih _).append (.own rfl _)
  | comparison hop _ _ _ _ ihl ihr | arith hop _ _ _ ihl ihr =>
      intro up
      rw [parts_binary (by rintro rfl; cases hop)]
      exact ((ihl _).append (ihr _)).append (.own rfl _)
  | plus _ ih => exact fun up => ih _
  | not _ ih => exact fun up => (ih _).append (.own rfl _)
  | minus _ _ ih => exact fun up => ((Woven.own rfl [_]).append (ih _)).append (.own rfl _)
  | call _ _ ih =>
      intro up
      rw [parts, ← List.append_nil (List.reverse _)]
      exact ((Woven.own rfl [_]).append (ih _)).append (.own rfl _)
  | cond _ _ _ ihc iht =>
      exact fun up => ((ihc _ _ rfl).append (iht _)).append (.own rfl _)
  | condElse _ _ _ _ ihc iht ihe =>
      exact fun up => (((ihc _ _ rfl).append (iht _)).append
        ((Woven.own rfl [_, _]).append (ihe _))).append (.own rfl _)
  | endless hc _ ih =>
      intro up
      rw [parts, if_pos hc]
      exact ((Woven.own rfl [_]).append (ih _)).append (.own rfl _)
  | loop hc _ _ ihc ihb =>
      intro up
      rw [parts, if_neg (by simp [hc])]
      exact (((Woven.own rfl [_]).append (ihc _ _ rfl)).append (ihb _)).append (.own rfl _)
  | returnValue _ ih =>
      refine fun up => ((Woven.still (isJump_copies _ _ rfl)).append (ih _)).append (.made ?_)
      exact List.forall_mem_singleton.2 fun _ _ _ _ _ => rfl
  | block _ ih => exact fun up => ih _
  | whole _ hx ih => exact fun up => .node hx (ih up)
  | padded _ hx ih =>
      exact fun up => (Woven.node hx (ih up)).append
        (.still (List.forall_mem_singleton.2 (hzero _)))
  | converted _ _ ih => exact fun up => (ih up).append (.still (isJump_conversion _ _ _))
  | test _ ih => exact fun y up hy => (ih _).append (.own hy _)
  | noStatement => exact fun up => .still (List.forall_mem_singleton.2 (hzero _))
  | lastStatement _ ih => exact ih
  | droppedStatement _ hx _ ihx ihxs =>
      exact fun up => (Woven.node hx (ihx up)).append
        ((Woven.still (List.forall_mem_singleton.2 (hpop _))).append (ihxs up))
  | bareStatement _ hx _ ihx ihxs => exact fun up => (Woven.node hx (ihx up)).append (ihxs up)
  | noArgument => exact fun up => .still (List.forall_mem_nil _)
  | argument _ _ ihxs ihx =>
      intro up
      rw [List.reverse_cons]
      exact (ihxs up).append (ihx up)

end Weaving

/-! ### Functions and units -/

/-- **Control in the traced code of some trees**, with the end `last` of their function behind it:
jumps made for `break` and `continue` go with the innermost loop, and those made for `return` go to
the end when it is known. -/
structure Controlled (symbols : Symbols) (xs : List (Node Note)) (last : Nat) (T : List Traced) :
    Prop where
  weaves : Weaves symbols none [] xs T
  loopJump : ∀ p ∈ T, ∀ y up toHead, p.2 = y :: up → y.loopJump? = some toHead →
    p.1.op.isJump = true → GoesWithLoop symbols T toHead p
  returnJump : ∀ p ∈ T, ∀ n v up, p.2 = .returnValue n v :: up → p.1.op.isJump = true →
    (Code.resolveInstr last p.1).target = some (.instr last)

/-- **Control in the code of a function**: its end, to which returns go, is the store of the value
behind the body. -/
inductive FunctionControl (symbols : Symbols) (f : Inferred) : List Instr → Prop where
  | mk {first store ret : Instr} {zeros drops : List Instr} {T : List Traced}
      (hfirst : first.op = .entry f.name) (hzeros : ∀ i ∈ zeros, i.op = .load)
      (hbody : Controlled symbols [f.body] store.id T)
      (hstore : store.op = .store) (hdrops : ∀ i ∈ drops, i.op = .pop) (hret : ret.op = .ret) :
      FunctionControl symbols f
        (resolved store.id (first :: zeros ++ T.map Prod.fst ++ store :: drops ++ [ret]))

/-- **Control in the code of a unit**: returns of its statements go to the halt, and its functions
follow. -/
inductive UnitControl (t : Typing) : List Instr → Prop where
  | mk {n : Note} {items : List (Node Note)} {halt : Instr} {T : List Traced}
      {codes : List (List Instr)} (hroot : t.root = .unit n items)
      (hbody : Controlled t.round.symbols (items.filter fun x => !x.isDefinition) halt.id T)
      (hhalt : halt.op = .halt)
      (hfunctions : List.Forall₂ (fun i code => ∃ f, f.name = i.name ∧ f ∈ t.round.inferred ∧
        FunctionControl t.round.symbols f code) (reached t.round) codes) :
      UnitControl t (resolved halt.id (T.map Prod.fst ++ [halt]) ++ codes.flatten)

section Units

variable {symbols : Symbols} {t : Typing} {r : Round} {f : Inferred} {is : List Instance}
  {k k' : Nat} {code : List Instr} {xs : List (Node Note)}

theorem Woven.exists_controlled (h : Woven symbols none [] xs code) (last : Nat) :
    ∃ T, T.map Prod.fst = code ∧ Controlled symbols xs last T := by
  obtain ⟨T, rfl, hT, hleaves⟩ := h
  refine ⟨T, rfl, hT, fun p hp y up toHead hup hy hop => hT.goesWithLoop hp hup hy hop,
    fun p hp n v up hup hop => ?_⟩
  rw [target_resolveInstr, if_pos (hleaves p hp n v up hup hop)]

theorem EmitsFunction.control (h : EmitsFunction symbols f k code k') :
    FunctionControl symbols f code := by
  cases h with
  | @mk a k₁ comment hbody =>
      obtain ⟨T, rfl, hT⟩ := (hbody.woven []).exists_controlled k₁
      have hcopies : ∀ k n op operand, ∀ i ∈ copies k n op operand, i.op = op := by
        intro k n op operand i hi
        obtain ⟨j, -, rfl⟩ := List.mem_map.1 hi
        rfl
      exact @FunctionControl.mk _ _ (.plain k (.entry f.name) .none)
        ⟨k₁, .store, .frame (4 + 4 * f.params.length), none, comment⟩ _ _ _ _ rfl
        (hcopies _ _ _ _) hT rfl (hcopies _ _ _ _) rfl

theorem EmitsFunctions.control (h : EmitsFunctions r is k code k') :
    ∃ codes : List (List Instr), codes.flatten = code ∧
      List.Forall₂ (fun i code => ∃ f, f.name = i.name ∧ f ∈ r.inferred ∧
        FunctionControl r.symbols f code) is codes := by
  induction h with
  | nil => exact ⟨[], rfl, .nil⟩
  | @cons i is f k k₁ k₂ a b hfound hf _ ih =>
      obtain ⟨codes, rfl, hcodes⟩ := ih
      have hname : f.name = i.name := by simpa using List.find?_some hfound
      exact ⟨a :: codes, rfl, .cons ⟨f, hname, List.mem_of_find?_eq_some hfound, hf.control⟩ hcodes⟩

/-- **The jumps in the code of a unit go where the constructs they were made for say.** -/
theorem EmitsUnit.control (h : EmitsUnit t code k) : UnitControl t code := by
  cases h with
  | @mk n items k₁ k' a b hroot hbody hfunctions =>
      obtain ⟨T, rfl, hT⟩ := (hbody.woven []).exists_controlled k₁
      obtain ⟨codes, rfl, hcodes⟩ := hfunctions.control
      exact @UnitControl.mk _ _ _ (.plain k₁ .halt .none) _ _ hroot hT rfl hcodes

end Units

end Lower

end StackLang
