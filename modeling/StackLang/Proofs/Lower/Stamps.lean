/-
**Lowered code has known types of cells.**

The cells that wait for their operators have the types of the trees that they come from, so the
code of a well typed tree has stamps.  Two things can upset them, both around `return`.  What is
returned from inside of a function is not converted, so its type has to be that of the result.  And
a jump out of a loop finds other cells than were waiting at the loop, if it stands in a returned
value, for which the waiting cells were dropped.

Main definitions:

* `Node.returnsFit` — neither happens in a tree;
* `waits` — the stamp of a place where cells of some types wait above the frame;
* `Lower.Conforms` — the stamps of a stretch of lowered code are right;
* `Lower.Stands` — which cells wait around a piece of a tree;
* `Lower.Setting`, `Lower.Setting.Bears` — what is known where code is made, and that the code of a
  piece has stamps there.

Main results:

* `Lower.Setting.Bears.loop`, … — the stamps of a construct are put together from those of its
  parts, one lemma for each construct;
* `Lower.Emits.stamped` — stretches of lowered code have stamps if their returns fit.
-/

import StackLang.Proofs.Lower.Levels
import StackLang.Proofs.Stamps
import StackLang.Proofs.Typing.Consistent

set_option relaxedAutoImplicit false
set_option autoImplicit false

namespace StackLang

/-! ### Returns -/

namespace Node

/-- The type of the value. -/
def scalar (x : Node Note) : Scalar := x.note.type.getD .int

/-- The types of some trees, all of which have one. -/
theorem map_scalar_eq {xs : List (Node Note)} {types : List Scalar}
    (h : xs.map (fun x => x.note.type) = types.map some) : xs.map scalar = types := by
  have hscalar : xs.map scalar = (xs.map fun x => x.note.type).map (·.getD .int) := by
    rw [List.map_map]
    rfl
  simp [hscalar, h, Function.comp_def]

mutual

/-- **What is returned from inside of a tree has the type of the result**, if there is one, and no
jump leaves a loop whose waiting cells a return has dropped.  Around the tree is a loop at which
cells waited if `loop` says so, and there is nothing in `loop` where these cells are gone.  Cells
wait for the value of the tree if `waiting` says so. -/
def returnsFit (result : Option Scalar) (loop : Option Bool) (waiting : Bool) : Node Note → Bool
  | .binary _ op l r =>
    if op = .assign then returnsFit result loop waiting r
    else returnsFit result loop waiting l && returnsFit result loop true r
  | .unary _ op x => returnsFit result loop (waiting || op = .minus) x
  | .call _ _ as => allReturnsFit result loop true as
  | .cond _ c t e =>
    returnsFit result loop waiting c && returnsFit result loop waiting t
      && optionReturnsFit result loop waiting e
  | .loop _ c b =>
    returnsFit result (some waiting) waiting c && returnsFit result (some waiting) waiting b
  | .breakLoop _ | .continueLoop _ => loop.isSome
  | .returnValue _ v =>
    result.all (fun type => !v.yieldsCell || v.note.type = some type)
      && returnsFit result (loop.filter fun waited => !waited) false v
  | .block _ is | .unit _ is => allReturnsFit result loop waiting is
  | .literal .. | .identifier .. | .prototype .. | .assembly .. | .nop .. | .define .. => true

/-- `Node.returnsFit` for each of some trees. -/
def allReturnsFit (result : Option Scalar) (loop : Option Bool) (waiting : Bool) :
    List (Node Note) → Bool
  | [] => true
  | x :: xs => returnsFit result loop waiting x && allReturnsFit result loop waiting xs

/-- `Node.returnsFit` for a tree that may be missing. -/
def optionReturnsFit (result : Option Scalar) (loop : Option Bool) (waiting : Bool) :
    Option (Node Note) → Bool
  | none => true
  | some x => returnsFit result loop waiting x

end

theorem allReturnsFit_iff {result : Option Scalar} {loop : Option Bool} {waiting : Bool}
    {xs : List (Node Note)} : allReturnsFit result loop waiting xs = true ↔
      ∀ x ∈ xs, x.returnsFit result loop waiting = true := by
  induction xs with
  | nil => simp [allReturnsFit]
  | cons x xs ih => simp [allReturnsFit, ih]

/-- Where the returns fit, a jump leaves a loop whose waiting cells are known. -/
theorem exists_waited {x : Node Note} {toHead : Bool} {result : Option Scalar}
    {loop : Option Bool} {waiting : Bool} (hx : x.loopJump? = some toHead)
    (h : x.returnsFit result loop waiting = true) : ∃ waited, loop = some waited := by
  cases x with
  | breakLoop | continueLoop =>
      rw [returnsFit] at h
      exact Option.isSome_iff_exists.1 h
  | _ => cases hx

/-- What is returned has the type of the result. -/
theorem scalar_eq_of_returned {v : Node Note} {result : Option Scalar}
    (h : result.all (fun type => !v.yieldsCell || v.note.type = some type) = true)
    (hyields : v.yieldsCell = true) : v.scalar = result.getD v.scalar := by
  cases result with
  | none => rfl
  | some type =>
      have htype : v.note.type = some type := by simpa [hyields] using h
      rw [scalar, htype]
      rfl

end Node

/-- The stamp of a place in the function `o` where cells of the types `w` wait above the frame. -/
def waits (frames : String → FrameTypes) (o : Option String) (w : List Scalar) : Stamp :=
  ⟨o, w ++ frameCells frames o⟩

namespace Lower

/-! ### Stamps of stretches -/

/-- **The stamps of a stretch of code are right** between two stamps.  Its jumps go to the end of
the function where the cells are as they have to be there, to places that the surroundings provide,
or to instructions of the stretch. -/
structure Conforms (frames : String → FrameTypes) (cell : CellTyping) (o : Option String)
    (leave : Stamp → Prop) (outs : Nat → Stamp → Prop) (ann : List Stamped) (start stop : Stamp) :
    Prop where
  first : Stamp.head ann (some stop) = some start
  chained : Stamp.Chained frames cell o ann (some stop)
  noEntry : ∀ p ∈ ann, ∀ name, p.1.op ≠ .entry name
  targets : ∀ p ∈ ann, p.1.op.isJump = true →
    (p.1.target = some .epilogue ∧ leave p.2) ∨
      ∃ k, p.1.target = some (.instr k) ∧ (outs k p.2 ∨ ∃ q ∈ ann, q.1.id = k ∧ q.2 = p.2)

namespace Conforms

variable {frames : String → FrameTypes} {cell : CellTyping} {o : Option String}
  {leave : Stamp → Prop} {outs outs' : Nat → Stamp → Prop} {xs ys : List Stamped} {σ τ υ : Stamp}
  {i : Instr} {w : List Scalar} {type : Scalar}

theorem nil : Conforms frames cell o leave outs [] σ σ :=
  ⟨rfl, trivial, by simp, by simp⟩

theorem homes_eq (h : Conforms frames cell o leave outs xs σ τ) :
    homes o (xs.map Prod.fst) = o := by
  have hentry := h.noEntry
  clear h
  induction xs with
  | nil => rfl
  | cons p xs ih =>
      rw [List.map_cons, homes_cons, home_eq (hentry p List.mem_cons_self)]
      exact ih fun q hq => hentry q (List.mem_cons_of_mem _ hq)

/-- Places of the stretch itself need not be provided. -/
theorem close (h : Conforms frames cell o leave outs' xs σ τ)
    (houts : ∀ k υ, outs' k υ → outs k υ ∨ ∃ q ∈ xs, q.1.id = k ∧ q.2 = υ) :
    Conforms frames cell o leave outs xs σ τ := by
  refine ⟨h.first, h.chained, h.noEntry, fun p hp hop => ?_⟩
  rcases h.targets p hp hop with hend | ⟨k, hk, hout | hin⟩
  · exact .inl hend
  · exact .inr ⟨k, hk, houts k p.2 hout⟩
  · exact .inr ⟨k, hk, .inr hin⟩

theorem mono (h : Conforms frames cell o leave outs' xs σ τ)
    (houts : ∀ k υ, outs' k υ → outs k υ) : Conforms frames cell o leave outs xs σ τ :=
  h.close fun k υ hk => .inl (houts k υ hk)

theorem append (hxs : Conforms frames cell o leave outs xs σ τ)
    (hys : Conforms frames cell o leave outs ys τ υ) :
    Conforms frames cell o leave outs (xs ++ ys) σ υ := by
  refine ⟨?_, ?_, ?_, ?_⟩
  · rw [Stamp.head_append, hys.first]
    exact hxs.first
  · rw [Stamp.chained_append_iff, hys.first, hxs.homes_eq]
    exact ⟨hxs.chained, hys.chained⟩
  · exact List.forall_mem_append.2 ⟨hxs.noEntry, hys.noEntry⟩
  · intro p hp hop
    rcases List.mem_append.1 hp with hp | hp
    · rcases hxs.targets p hp hop with hend | ⟨k, hk, hout | ⟨q, hq, hqk⟩⟩
      · exact .inl hend
      · exact .inr ⟨k, hk, .inl hout⟩
      · exact .inr ⟨k, hk, .inr ⟨q, List.mem_append_left _ hq, hqk⟩⟩
    · rcases hys.targets p hp hop with hend | ⟨k, hk, hout | ⟨q, hq, hqk⟩⟩
      · exact .inl hend
      · exact .inr ⟨k, hk, .inl hout⟩
      · exact .inr ⟨k, hk, .inr ⟨q, List.mem_append_right _ hq, hqk⟩⟩

/-- An instruction that is no jump. -/
theorem plain (hlegal : Stamp.Legal frames cell i σ (some τ)) (howner : σ.owner = o)
    (hjump : i.op.isJump = false) (hentry : ∀ name, i.op ≠ .entry name) :
    Conforms frames cell o leave outs [(i, σ)] σ τ := by
  refine ⟨rfl, ⟨?_, hlegal, trivial⟩, ?_, ?_⟩
  · rw [home_eq hentry]
    exact howner
  · simpa using hentry
  · simp [hjump]

/-- A jump to a place that is provided. -/
theorem jump (k : Nat) {m : Nat} {c : Condition} (hc : c = .always ∨ τ = waits frames o w)
    (hout : outs m (waits frames o w)) :
    Conforms frames cell o leave outs [(.jump k c (some (.instr m)), waits frames o w)]
      (waits frames o w) τ := by
  refine ⟨rfl, ⟨rfl, ?_, trivial⟩, ?_, ?_⟩
  · rcases hc with rfl | rfl
    · exact .goto rfl
    · exact .branch rfl
  · simp [Instr.jump]
  · simpa [Instr.jump, Op.isJump] using .inl hout

/-- A jump to the end of the function. -/
theorem toEnd (k : Nat) (h : leave (waits frames o w)) :
    Conforms frames cell o leave outs [(.jump k .always (some .epilogue), waits frames o w)]
      (waits frames o w) τ := by
  refine ⟨rfl, ⟨rfl, .goto rfl, trivial⟩, ?_, ?_⟩
  · simp [Instr.jump]
  · simpa [Instr.jump] using fun _ => h

/-! ### Single instructions -/

theorem load (k : Nat) (comment : Option String) {operand : Operand}
    (h : Stamp.Reads frames cell (waits frames o w) operand type) :
    Conforms frames cell o leave outs [(⟨k, .load, operand, none, comment⟩, waits frames o w)]
      (waits frames o w) (waits frames o (type :: w)) :=
  plain (.load rfl h) rfl rfl (by simp)

theorem store (k : Nat) (comment : Option String) {operand : Operand}
    (h : cell o operand type) :
    Conforms frames cell o leave outs
      [(⟨k, .store, operand, none, comment⟩, waits frames o (type :: w))]
      (waits frames o (type :: w)) (waits frames o w) :=
  plain (.store rfl h) rfl rfl (by simp)

theorem pop (k : Nat) :
    Conforms frames cell o leave outs [(.plain k .pop .none, waits frames o (type :: w))]
      (waits frames o (type :: w)) (waits frames o w) :=
  plain (.pop rfl) rfl rfl (by simp [Instr.plain])

theorem arith (k : Nat) (op : ArithOp) :
    Conforms frames cell o leave outs
      [(.plain k (.arith op type) .none, waits frames o (type :: type :: w))]
      (waits frames o (type :: type :: w)) (waits frames o (type :: w)) :=
  plain (.arith rfl) rfl rfl (by simp [Instr.plain])

theorem nop (k : Nat) :
    Conforms frames cell o leave outs [(.plain k .nop .none, waits frames o w)]
      (waits frames o w) (waits frames o w) :=
  plain (.nop rfl) rfl rfl (by simp [Instr.plain])

theorem call (k : Nat) {name : String} :
    Conforms frames cell o leave outs
      [(.plain k .call (.label name),
        waits frames o ((frames name).params ++ (frames name).result :: w))]
      (waits frames o ((frames name).params ++ (frames name).result :: w))
      (waits frames o ((frames name).params ++ (frames name).result :: w)) := by
  refine plain ?_ rfl rfl (by simp [Instr.plain])
  rw [waits, List.append_assoc, List.cons_append]
  exact .call rfl rfl

/-- A zero can be pushed as either type. -/
theorem reads_zero (type' : Scalar) : Stamp.Reads frames cell σ (.zero type') type := by
  cases type' <;> exact .zero

theorem reads_literal (v : Literal) : Stamp.Reads frames cell σ (.ofLiteral v) v.scalar := by
  cases v <;> exact .immediate

/-! ### Stretches -/

/-- Cells are dropped one after the other. -/
theorem drops (k : Nat) (u : List Scalar) {c : List Scalar} :
    ∃ ann, ann.map Prod.fst = copies k u.length .pop .none ∧
      Conforms frames cell o leave outs ann ⟨o, u ++ c⟩ ⟨o, c⟩ := by
  induction u generalizing k with
  | nil => exact ⟨[], rfl, nil⟩
  | cons type u ih =>
      obtain ⟨ann, hann, h⟩ := ih (k + 1)
      exact ⟨(.plain k .pop .none, ⟨o, type :: (u ++ c)⟩) :: ann,
        by rw [List.length_cons, copies_succ, ← hann]; rfl,
        (plain (.pop rfl) rfl rfl (by simp [Instr.plain])).append h⟩

theorem pops (k : Nat) (u : List Scalar) :
    ∃ ann, ann.map Prod.fst = copies k u.length .pop .none ∧
      Conforms frames cell o leave outs ann (waits frames o (u ++ w)) (waits frames o w) := by
  rw [waits, List.append_assoc]
  exact drops k u

/-- Zeros are pushed one after the other, as cells of any types. -/
theorem zeros (k : Nat) (u : List Scalar) {c : List Scalar} :
    ∃ ann, ann.map Prod.fst = copies k u.length .load (.int 0) ∧
      Conforms frames cell o leave outs ann ⟨o, c⟩ ⟨o, u.reverse ++ c⟩ := by
  induction u generalizing k c with
  | nil => exact ⟨[], rfl, nil⟩
  | cons type u ih =>
      obtain ⟨ann, hann, h⟩ := @ih (k + 1) (type :: c)
      refine ⟨(.plain k .load (.int 0), ⟨o, c⟩) :: ann,
        by rw [List.length_cons, copies_succ, ← hann]; rfl, ?_⟩
      rw [List.reverse_cons, List.append_assoc]
      exact (plain (.load rfl (reads_zero .int)) rfl rfl (by simp [Instr.plain])).append h

theorem conversion (k : Nat) (s t : Scalar) :
    ∃ ann, ann.map Prod.fst = Lower.conversion k s t ∧
      Conforms frames cell o leave outs ann (waits frames o (s :: w))
        (waits frames o (t :: w)) := by
  cases s <;> cases t
  · exact ⟨[], rfl, nil⟩
  · exact ⟨[(_, waits frames o (.int :: w))], rfl, plain (.toFloat rfl) rfl rfl (by simp)⟩
  · exact ⟨[(_, waits frames o (.float :: w))], rfl, plain (.toInt rfl) rfl rfl (by simp)⟩
  · exact ⟨[], rfl, nil⟩

/-- A pop and a jump that tests its cell. -/
theorem test (k j : Nat) {m : Nat} {c : Condition} (hout : outs m (waits frames o w)) :
    Conforms frames cell o leave outs [(.plain k .pop .none, waits frames o (type :: w)),
      (.jump j c (some (.instr m)), waits frames o w)] (waits frames o (type :: w))
      (waits frames o w) :=
  (pop k).append (jump j (.inr rfl) hout)

theorem verdict (k : Nat) (c : Condition) :
    ∃ ann, ann.map Prod.fst = Lower.verdict k c ∧
      Conforms frames cell o leave outs ann (waits frames o (type :: w))
        (waits frames o (.int :: w)) := by
  -- the two places inside are the push of the one and the end
  let inside := fun m υ => (m = k + 1 ∧ υ = waits frames o w) ∨
    (m = k + 2 ∧ υ = waits frames o (.int :: w))
  have h : Conforms frames cell o leave inside _ (waits frames o (type :: w))
      (waits frames o (.int :: w)) :=
    (test k (k + 3) (c := c) (.inl ⟨rfl, rfl⟩)).append
      ((load (k + 4) none (reads_zero .int)).append
        ((jump (k + 5) (.inl rfl) (.inr ⟨rfl, rfl⟩)).append
          ((load (k + 1) none (reads_literal (.int 1))).append (nop (k + 2)))))
  refine ⟨_, ?_, h.close fun m υ hm => .inr ?_⟩
  · rfl
  · rcases hm with ⟨rfl, rfl⟩ | ⟨rfl, rfl⟩ <;> simp [Instr.plain, Instr.jump, Literal.scalar]

end Conforms

/-! ### Pieces -/

/-- A well typed tree without target code, whose returns fit. -/
structure Checked (var : String → Nat → Scalar → Prop)
    (fn : String → List Scalar → Nat → Scalar → Prop) (result : Option Scalar)
    (loop : Option Bool) (waiting : Bool) (x : Node Note) : Prop where
  typed : WellTyped var fn x
  returns : x.returnsFit result loop waiting = true
  noAssembly : x.Every fun y => y.isAssembly = false

namespace Piece

/-- The trees of the piece are checked where they stand. -/
def Checks (var : String → Nat → Scalar → Prop) (fn : String → List Scalar → Nat → Scalar → Prop)
    (result : Option Scalar) (loop : Option Bool) (waiting : Bool) : Piece → Prop
  | .node x | .value x | .converted x _ | .test x _ => Checked var fn result loop waiting x
  | .statements xs => ∀ x ∈ xs, Checked var fn result loop waiting x
  | .arguments xs => ∀ x ∈ xs, Checked var fn result loop true x

/-- The types of the cells that the piece leaves.  A value that is none is a zero, of any type. -/
def Leaves : Piece → List Scalar → Prop
  | .node x, types => types = if x.yieldsCell then [x.scalar] else []
  | .value x, types => ∃ type, types = [type] ∧ (x.yieldsCell = true → x.scalar = type)
  | .converted _ type, types => types = [type]
  | .test .., types => types = []
  | .statements xs, types => types = [(Node.listType xs).getD .int]
  | .arguments xs, types => types = xs.map Node.scalar

/-- A tree with a cell leaves one of its type. -/
theorem Leaves.eq_singleton {x : Node Note} {types : List Scalar} {type : Scalar}
    (h : (Piece.node x).Leaves types) (hyields : x.yieldsCell = true)
    (htype : x.note.type = some type) : types = [type] := by
  rw [Leaves, if_pos hyields, Node.scalar, htype] at h
  exact h

/-- A jump leaves no cell. -/
theorem Leaves.eq_nil {x : Node Note} {toHead : Bool} {types : List Scalar}
    (h : (Piece.node x).Leaves types) (hx : x.loopJump? = some toHead) : types = [] := by
  cases x with
  | breakLoop | continueLoop => exact h
  | _ => cases hx

end Piece

/-- **Which cells wait around a piece**: cells of the types `w` for its value, and cells of the
types `lw` at the loop around it, which are still there where `loop` says whether any waited. -/
structure Stands (site : Site) (lw w : List Scalar) (loop : Option Bool) (waiting : Bool) :
    Prop where
  depth : w.length = site.depth
  marked : w ≠ [] → waiting = true
  bottom : ∀ l, site.loop = some l → lw.length = l.depth
  kept : ∀ waited, loop = some waited → site.loop ≠ none →
    (∃ u, w = u ++ lw) ∧ (lw ≠ [] → waited = true)

namespace Stands

variable {site : Site} {lw w : List Scalar} {loop : Option Bool} {waiting : Bool}

theorem top : Stands .top [] [] (some false) false :=
  ⟨rfl, by simp, by simp [Site.top], by simp [Site.top]⟩

theorem deeper (h : Stands site lw w loop waiting) (u : List Scalar) :
    Stands (site.deeper u.length) lw (u ++ w) loop true := by
  refine ⟨?_, by simp, h.bottom, fun waited hwaited hloop => ?_⟩
  · rw [List.length_append, h.depth, Nat.add_comm]
    rfl
  · obtain ⟨⟨v, rfl⟩, hmarked⟩ := h.kept waited hwaited hloop
    exact ⟨⟨u ++ v, (List.append_assoc ..).symm⟩, hmarked⟩

/-- At a loop the waiting cells are those of the loop. -/
theorem inside (h : Stands site lw w loop waiting) (head exit : Nat) :
    Stands ⟨some ⟨head, exit, site.depth⟩, site.depth⟩ w w (some waiting) waiting := by
  refine ⟨h.depth, h.marked, ?_, ?_⟩
  · rintro l ⟨⟩
    exact h.depth
  · rintro waited ⟨⟩ -
    exact ⟨⟨[], rfl⟩, h.marked⟩

/-- A return drops what waits. -/
theorem dropped (h : Stands site lw w loop waiting) :
    Stands { site with depth := 0 } lw [] (loop.filter fun waited => !waited) false := by
  refine ⟨rfl, by simp, h.bottom, fun waited hwaited hloop => ?_⟩
  obtain ⟨hkept, hnot⟩ := Option.filter_eq_some_iff.1 hwaited
  obtain ⟨-, hmarked⟩ := h.kept waited hkept hloop
  have hnil : lw = [] := by
    by_contra hne
    rw [hmarked hne] at hnot
    cases hnot
  exact ⟨⟨[], by rw [hnil]; rfl⟩, fun hne => absurd hnil hne⟩

end Stands

/-- What is known where the code of a function is made, or the code outside of functions: the frames
and the types of places, the function itself, the stamps with which a jump may go to its end, what
names and calls stand for, and the type of the result, if anyone looks at it. -/
structure Setting where
  frames : String → FrameTypes
  cell : CellTyping
  owner : Option String
  leave : Stamp → Prop
  var : String → Nat → Scalar → Prop
  fn : String → List Scalar → Nat → Scalar → Prop
  result : Option Scalar

namespace Setting

/-- **Frames and places are as the symbols say**, and the end of the function takes the result. -/
structure Suits (S : Setting) (symbols : Symbols) : Prop where
  names : ∀ {x : String} {k : Nat} {type : Scalar} {s : Symbol} {operand : Operand},
    S.var x k type → symbols[k]? = some s → s.storage.cell? = some operand →
      S.cell S.owner operand type
  calls : ∀ {f : String} {types : List Scalar} {k : Nat} {type : Scalar} {s : Symbol},
    S.fn f types k type → symbols[k]? = some s →
      (S.frames s.emittedName).params = types ∧ (S.frames s.emittedName).result = type
  leaves : ∀ type, (∀ r, S.result = some r → type = r) → S.leave (waits S.frames S.owner [type])

/-- The places that the surroundings of a piece provide, with their stamps: the two ends of the
loop, and for a test the place to go to. -/
def offered (S : Setting) (site : Site) (piece : Piece) (lw w : List Scalar) (k : Nat)
    (υ : Stamp) : Prop :=
  (∃ l, site.loop = some l ∧ (k = l.head ∨ k = l.exit) ∧ υ = waits S.frames S.owner lw) ∨
    ∃ x, piece = .test x k ∧ υ = waits S.frames S.owner w

/-- **The code of a piece has stamps**, wherever the piece stands. -/
def Bears (S : Setting) (site : Site) (piece : Piece) (code : List Instr) : Prop :=
  ∀ (lw w : List Scalar) (loop : Option Bool) (waiting : Bool) (types : List Scalar),
    piece.Checks S.var S.fn S.result loop waiting → Stands site lw w loop waiting →
      piece.Leaves types → ∃ ann, ann.map Prod.fst = code ∧
        Conforms S.frames S.cell S.owner S.leave (S.offered site piece lw w) ann
          (waits S.frames S.owner w) (waits S.frames S.owner (types ++ w))

/-- The surroundings of a part provide what those of the whole do, unless a test adds a place. -/
theorem offered_mono {S : Setting} {site site' : Site} {piece piece' : Piece}
    {lw w w' : List Scalar} (hloop : site'.loop = site.loop)
    (hpiece : ∀ x m, piece' ≠ .test x m) (k : Nat) (υ : Stamp)
    (h : S.offered site' piece' lw w' k υ) : S.offered site piece lw w k υ := by
  rcases h with h | ⟨x, h, -⟩
  · exact .inl (hloop ▸ h)
  · exact absurd h (hpiece x k)

end Setting

/-- A part stands in a stretch with the places that the part relies on. -/
theorem Conforms.within {S : Setting} {site : Site} {piece : Piece} {lw w : List Scalar}
    {outs : Nat → Stamp → Prop} {ann : List Stamped} {σ τ : Stamp}
    (h : Conforms S.frames S.cell S.owner S.leave (S.offered site piece lw w) ann σ τ)
    (hloop : ∀ l, site.loop = some l → ∀ m, m = l.head ∨ m = l.exit →
      outs m (waits S.frames S.owner lw))
    (htest : ∀ x m, piece = .test x m → outs m (waits S.frames S.owner w)) :
    Conforms S.frames S.cell S.owner S.leave outs ann σ τ := by
  refine h.mono ?_
  rintro m υ (⟨l, hl, hm, rfl⟩ | ⟨x, hx, rfl⟩)
  · exact hloop l hl m hm
  · exact htest x m hx

namespace Setting.Bears

variable {S : Setting} {symbols : Symbols} {site : Site} {k k₁ k₂ : Nat} {a b d : List Instr}

/-! #### Operators -/

theorem literal {n : Note} {v : Literal} :
    S.Bears site (.node (.literal n v)) [.plain k .load (.ofLiteral v)] := by
  intro lw w loop waiting types hok hs htypes
  obtain ⟨htyped, -, -⟩ := hok
  cases htyped with
  | literal hn =>
      obtain rfl : types = [v.scalar] := htypes.eq_singleton rfl hn
      exact ⟨_, rfl, .load k none (Conforms.reads_literal v)⟩

theorem identifier (hS : S.Suits symbols) {n : Note} {x : String} {s : Symbol}
    {operand : Operand} (hsymbol : (Node.identifier n x).symbol? symbols = some s)
    (hcell : s.storage.cell? = some operand) :
    S.Bears site (.node (.identifier n x)) [⟨k, .load, operand, none, s.loadRemark⟩] := by
  intro lw w loop waiting types hok hs htypes
  obtain ⟨htyped, -, -⟩ := hok
  cases htyped with
  | @identifier n x j type hj hx hn =>
      obtain rfl : types = [type] := htypes.eq_singleton rfl hn
      rw [Node.symbol?, Node.note, hj] at hsymbol
      exact ⟨_, rfl, .load k _ (.cell w (hS.names hx hsymbol hcell))⟩

/-- An assignment leaves the cell of the variable. -/
theorem assign (hS : S.Suits symbols) {n : Note} {l r : Node Note} {type : Scalar} {s : Symbol}
    {operand : Operand} (htype : l.note.type = some type) (hsymbol : l.symbol? symbols = some s)
    (hcell : s.storage.cell? = some operand) (ih : S.Bears site (.converted r type) a) :
    S.Bears site (.node (.binary n .assign l r))
      (a ++ [⟨k₁, .store, operand, none, some ("store " ++ s.sourceName)⟩,
        ⟨k₁ + 1, .load, operand, none, some ("load " ++ s.sourceName)⟩]) := by
  intro lw w loop waiting types hok hs htypes
  obtain ⟨htyped, hreturns, hasm⟩ := hok
  cases htyped with
  | binary hop => exact absurd rfl hop
  | @assign n m x r j type' hj hx hm hn hr' =>
      obtain rfl : type' = type := Option.some.inj (hm.symm.trans htype)
      obtain rfl : types = [type'] := htypes.eq_singleton rfl hn
      rw [Node.every_binary] at hasm
      rw [Node.symbol?, Node.note, hj] at hsymbol
      have hplace := hS.names hx hsymbol hcell
      obtain ⟨ann, hann, hfit⟩ := ih lw w loop waiting [type']
        ⟨hr', by simpa [Node.returnsFit] using hreturns, hasm.2.2⟩ hs rfl
      refine ⟨_, ?_, (hfit.mono (offered_mono rfl (by simp))).append
        ((Conforms.store k₁ (some ("store " ++ s.sourceName)) hplace).append
          (.load (k₁ + 1) (some ("load " ++ s.sourceName)) (.cell w hplace)))⟩
      rw [List.map_append, hann]
      rfl

theorem comparison {n : Note} {op : BinaryOp} {l r : Node Note} {s t : Scalar} {c : Condition}
    (hc : Condition.ofComparison? op = some c) (ihl : S.Bears site (.converted l (s.join t)) a)
    (ihr : S.Bears (site.deeper 1) (.converted r (s.join t)) b) :
    S.Bears site (.node (.binary n op l r))
      (a ++ b ++ .plain k₂ (.arith .sub (s.join t)) .none :: verdict (k₂ + 1) c) := by
  intro lw w loop waiting types hok hs htypes
  obtain ⟨htyped, hreturns, hasm⟩ := hok
  cases htyped with
  | assign => cases hc
  | binary hop hl' hr' _ _ hn =>
      have hcomparison : op.isComparison = true := by simp [isComparison_eq, hc]
      rw [if_pos hcomparison] at hn
      obtain rfl := htypes.eq_singleton rfl hn
      simp only [Node.returnsFit, if_neg hop, Bool.and_eq_true] at hreturns
      rw [Node.every_binary] at hasm
      obtain ⟨ann, hann, hfit⟩ := ihl lw w loop waiting [s.join t]
        ⟨hl', hreturns.1, hasm.2.1⟩ hs rfl
      obtain ⟨ann', hann', hfit'⟩ := ihr lw _ loop true [s.join t]
        ⟨hr', hreturns.2, hasm.2.2⟩ (hs.deeper [s.join t]) rfl
      obtain ⟨ann'', hann'', hfit''⟩ := @Conforms.verdict S.frames S.cell S.owner S.leave
        (S.offered site (.node (.binary n op l r)) lw w) w (s.join t) (k₂ + 1) c
      refine ⟨_, ?_, ((hfit.mono (offered_mono rfl (by simp))).append
        (hfit'.mono (offered_mono rfl (by simp)))).append
          ((Conforms.arith k₂ .sub).append hfit'')⟩
      rw [List.map_append, List.map_append, hann, hann', List.map_append, hann'']
      rfl

theorem arith {n : Note} {op : BinaryOp} {l r : Node Note} {type : Scalar} {arith : ArithOp}
    (hop' : ArithOp.ofBinary? op = some arith) (htype : n.type = some type)
    (ihl : S.Bears site (.converted l type) a)
    (ihr : S.Bears (site.deeper 1) (.converted r type) b) :
    S.Bears site (.node (.binary n op l r)) (a ++ b ++ [.plain k₂ (.arith arith type) .none]) := by
  intro lw w loop waiting types hok hs htypes
  obtain ⟨htyped, hreturns, hasm⟩ := hok
  cases htyped with
  | assign => cases hop'
  | binary hop hl' hr' =>
      obtain rfl : types = [type] := htypes.eq_singleton rfl htype
      simp only [Node.returnsFit, if_neg hop, Bool.and_eq_true] at hreturns
      rw [Node.every_binary] at hasm
      obtain ⟨ann, hann, hfit⟩ := ihl lw w loop waiting [type]
        ⟨hl', hreturns.1, hasm.2.1⟩ hs rfl
      obtain ⟨ann', hann', hfit'⟩ := ihr lw _ loop true [type]
        ⟨hr', hreturns.2, hasm.2.2⟩ (hs.deeper [type]) rfl
      refine ⟨_, ?_, ((hfit.mono (offered_mono rfl (by simp))).append
        (hfit'.mono (offered_mono rfl (by simp)))).append (Conforms.arith k₂ arith)⟩
      rw [List.map_append, List.map_append, hann, hann']
      rfl

theorem plus {n : Note} {x : Node Note} (ih : S.Bears site (.value x) a) :
    S.Bears site (.node (.unary n .plus x)) a := by
  intro lw w loop waiting types hok hs htypes
  obtain ⟨htyped, hreturns, hasm⟩ := hok
  cases htyped with
  | @unary _ _ _ type hx' hsx hn =>
      obtain rfl : types = [type] := htypes.eq_singleton rfl hn
      obtain ⟨ann, hann, hfit⟩ := ih lw w loop waiting [type]
        ⟨hx', by simpa [Node.returnsFit] using hreturns, (Node.every_unary.1 hasm).2⟩ hs
          ⟨type, rfl, fun _ => by simp [Node.scalar, hsx]⟩
      exact ⟨ann, hann, hfit.mono (offered_mono rfl (by simp))⟩

theorem minus {n : Note} {x : Node Note} {type : Scalar} (htype : n.type = some type)
    (ih : S.Bears (site.deeper 1) (.value x) a) :
    S.Bears site (.node (.unary n .minus x))
      (.plain k .load (.zero type) :: a ++ [.plain k₁ (.arith .sub type) .none]) := by
  intro lw w loop waiting types hok hs htypes
  obtain ⟨htyped, hreturns, hasm⟩ := hok
  cases htyped with
  | @unary _ _ _ type' hx' hsx hn =>
      obtain rfl : type' = type := Option.some.inj (hn.symm.trans htype)
      obtain rfl : types = [type'] := htypes.eq_singleton rfl hn
      obtain ⟨ann, hann, hfit⟩ := ih lw _ loop true [type']
        ⟨hx', by simpa [Node.returnsFit] using hreturns, (Node.every_unary.1 hasm).2⟩
          (hs.deeper [type']) ⟨type', rfl, fun _ => by simp [Node.scalar, hsx]⟩
      refine ⟨_, ?_, ((Conforms.load k none (Conforms.reads_zero type')).append
        (hfit.mono (offered_mono rfl (by simp)))).append (Conforms.arith k₁ .sub)⟩
      rw [List.map_append, List.map_append, hann]
      rfl

theorem not {n : Note} {x : Node Note} (ih : S.Bears site (.value x) a) :
    S.Bears site (.node (.unary n .not x)) (a ++ verdict k₁ .equal) := by
  intro lw w loop waiting types hok hs htypes
  obtain ⟨htyped, hreturns, hasm⟩ := hok
  cases htyped with
  | @unary _ _ _ type hx' hsx hn =>
      obtain rfl : types = [.int] := htypes.eq_singleton rfl hn
      obtain ⟨ann, hann, hfit⟩ := ih lw w loop waiting [type]
        ⟨hx', by simpa [Node.returnsFit] using hreturns, (Node.every_unary.1 hasm).2⟩ hs
          ⟨type, rfl, fun _ => by simp [Node.scalar, hsx]⟩
      obtain ⟨ann', hann', hfit'⟩ := @Conforms.verdict S.frames S.cell S.owner S.leave
        (S.offered site (.node (.unary n .not x)) lw w) w type k₁ .equal
      refine ⟨_, ?_, (hfit.mono (offered_mono rfl (by simp))).append hfit'⟩
      rw [List.map_append, hann, hann']

/-- The arguments of a call and the cell for its result have the types of the function. -/
theorem call (hS : S.Suits symbols) {n : Note} {f : Node Note} {as : List (Node Note)} {s : Symbol}
    (hsymbol : (Node.call n f as).symbol? symbols = some s)
    (ih : S.Bears (site.deeper 1) (.arguments as) a) :
    S.Bears site (.node (.call n f as))
      (⟨k, .load, .int 0, none, some "return slot"⟩ :: a
        ++ .plain k₁ .call (.label s.emittedName) :: copies (k₁ + 1) as.length .pop .none) := by
  intro lw w loop waiting types hok hs htypes
  obtain ⟨htyped, hreturns, hasm⟩ := hok
  cases htyped with
  | @call _ m f _ args j type has' hargs hj hf hn =>
      obtain rfl : types = [type] := htypes.eq_singleton rfl hn
      rw [Node.symbol?, Node.note, hj] at hsymbol
      obtain ⟨rfl, rfl⟩ := hS.calls hf hsymbol
      rw [Node.returnsFit, Node.allReturnsFit_iff] at hreturns
      rw [Node.every_call] at hasm
      have hscalars : as.map Node.scalar = (S.frames s.emittedName).params :=
        Node.map_scalar_eq hargs
      obtain ⟨ann, hann, hfit⟩ := ih lw _ loop true (S.frames s.emittedName).params
        (fun x hx => ⟨has' x hx, hreturns x hx, hasm.2.2 x hx⟩)
          (hs.deeper [(S.frames s.emittedName).result]) hscalars.symm
      obtain ⟨ann', hann', hfit'⟩ := @Conforms.pops S.frames S.cell S.owner S.leave
        (S.offered site (.node (.call n (.identifier m f) as)) lw w)
          ((S.frames s.emittedName).result :: w) (k₁ + 1) (S.frames s.emittedName).params
      rw [← hscalars, List.length_map] at hann'
      refine ⟨_, ?_, ((Conforms.load k (some "return slot") (Conforms.reads_zero .int)).append
        (hfit.mono (offered_mono rfl (by simp)))).append
          ((Conforms.call k₁).append hfit')⟩
      rw [List.map_append, List.map_append, hann, List.map_append, hann']
      rfl

/-! #### Control -/

/-- Without a second branch there is a zero instead of its value. -/
theorem cond {n : Note} {c t : Node Note} {type : Scalar} (htype : n.type = some type)
    (ihc : S.Bears site (.test c k) a) (iht : S.Bears site (.converted t type) b) :
    S.Bears site (.node (.cond n c t none))
      (a ++ b ++ [.jump k₂ .always (some (.instr (k + 1))), .plain k .nop .none,
        .plain (k₂ + 1) .load (.zero type), .plain (k + 1) .nop .none]) := by
  intro lw w loop waiting types hok hs htypes
  obtain ⟨htyped, hreturns, hasm⟩ := hok
  cases htyped with
  | cond hc' ht' hn =>
      obtain rfl : types = [type] := htypes.eq_singleton rfl htype
      simp only [Node.returnsFit, Bool.and_eq_true] at hreturns
      rw [Node.every_cond] at hasm
      obtain ⟨ann, hann, hfit⟩ := ihc lw w loop waiting []
        ⟨hc', hreturns.1.1, hasm.2.1⟩ hs rfl
      obtain ⟨ann', hann', hfit'⟩ := iht lw w loop waiting [type]
        ⟨ht', hreturns.1.2, hasm.2.2.1⟩ hs rfl
      -- the two places inside are the targets of the test and of the jump behind the branch
      let inside := fun m υ => (m = k ∧ υ = waits S.frames S.owner w) ∨
        (m = k + 1 ∧ υ = waits S.frames S.owner (type :: w)) ∨
          S.offered site (.node (.cond n c t none)) lw w m υ
      have hfit₁ : Conforms S.frames S.cell S.owner S.leave inside ann _ _ := hfit.within
        (fun l hl m hm => .inr (.inr (.inl ⟨l, hl, hm, rfl⟩))) fun x m hx => by
          cases hx
          exact .inl ⟨rfl, rfl⟩
      have hfit₂ : Conforms S.frames S.cell S.owner S.leave inside ann' _ _ :=
        hfit'.mono fun m υ hm => .inr (.inr (offered_mono rfl (by simp) m υ hm))
      refine ⟨_, ?_, ((hfit₁.append hfit₂).append ((Conforms.jump k₂ (.inl rfl)
        (.inr (.inl ⟨rfl, rfl⟩))).append ((Conforms.nop k).append
          ((Conforms.load (k₂ + 1) none (Conforms.reads_zero type)).append
            (Conforms.nop (k + 1)))))).close fun m υ hm => ?_⟩
      · rw [List.map_append, List.map_append, hann, hann']
        rfl
      · rcases hm with ⟨rfl, rfl⟩ | ⟨rfl, rfl⟩ | hm
        · exact .inr ⟨(.plain m .nop .none, waits S.frames S.owner w), by simp, rfl, rfl⟩
        · exact .inr ⟨(.plain (k + 1) .nop .none, waits S.frames S.owner (type :: w)), by simp,
            rfl, rfl⟩
        · exact .inl hm

theorem condElse {n : Note} {c t e : Node Note} {type : Scalar} (htype : n.type = some type)
    (ihc : S.Bears site (.test c k) a) (iht : S.Bears site (.converted t type) b)
    (ihe : S.Bears site (.converted e type) d) :
    S.Bears site (.node (.cond n c t (some e)))
      (a ++ b ++ .jump k₂ .always (some (.instr (k + 1))) :: .plain k .nop .none :: d
        ++ [.plain (k + 1) .nop .none]) := by
  intro lw w loop waiting types hok hs htypes
  obtain ⟨htyped, hreturns, hasm⟩ := hok
  cases htyped with
  | condElse hc' ht' he' _ _ hn =>
      obtain rfl : types = [type] := htypes.eq_singleton rfl htype
      simp only [Node.returnsFit, Bool.and_eq_true, Node.optionReturnsFit] at hreturns
      rw [Node.every_cond] at hasm
      obtain ⟨ann, hann, hfit⟩ := ihc lw w loop waiting []
        ⟨hc', hreturns.1.1, hasm.2.1⟩ hs rfl
      obtain ⟨ann', hann', hfit'⟩ := iht lw w loop waiting [type]
        ⟨ht', hreturns.1.2, hasm.2.2.1⟩ hs rfl
      obtain ⟨ann'', hann'', hfit''⟩ := ihe lw w loop waiting [type]
        ⟨he', hreturns.2, hasm.2.2.2 e rfl⟩ hs rfl
      let inside := fun m υ => (m = k ∧ υ = waits S.frames S.owner w) ∨
        (m = k + 1 ∧ υ = waits S.frames S.owner (type :: w)) ∨
          S.offered site (.node (.cond n c t (some e))) lw w m υ
      have hfit₁ : Conforms S.frames S.cell S.owner S.leave inside ann _ _ := hfit.within
        (fun l hl m hm => .inr (.inr (.inl ⟨l, hl, hm, rfl⟩))) fun x m hx => by
          cases hx
          exact .inl ⟨rfl, rfl⟩
      have hfit₂ : Conforms S.frames S.cell S.owner S.leave inside ann' _ _ :=
        hfit'.mono fun m υ hm => .inr (.inr (offered_mono rfl (by simp) m υ hm))
      have hfit₃ : Conforms S.frames S.cell S.owner S.leave inside ann'' _ _ :=
        hfit''.mono fun m υ hm => .inr (.inr (offered_mono rfl (by simp) m υ hm))
      refine ⟨_, ?_, (((hfit₁.append hfit₂).append ((Conforms.jump k₂ (.inl rfl)
        (.inr (.inl ⟨rfl, rfl⟩))).append ((Conforms.nop k).append hfit₃))).append
          (Conforms.nop (k + 1))).close fun m υ hm => ?_⟩
      · simp only [List.map_append, hann, hann', hann'']
        rfl
      · rcases hm with ⟨rfl, rfl⟩ | ⟨rfl, rfl⟩ | hm
        · exact .inr ⟨(.plain m .nop .none, waits S.frames S.owner w), by simp, rfl, rfl⟩
        · exact .inr ⟨(.plain (k + 1) .nop .none, waits S.frames S.owner (type :: w)), by simp,
            rfl, rfl⟩
        · exact .inl hm

/-- A loop leaves the cells that wait as they are. -/
theorem endless {n : Note} {c b : Node Note}
    (ih : S.Bears ⟨some ⟨k, k + 1, site.depth⟩, site.depth⟩ (.value b) a) :
    S.Bears site (.node (.loop n c b))
      (.plain k .nop .none :: a ++ [.plain k₁ .pop .none,
        .jump (k₁ + 1) .always (some (.instr k)), .plain (k + 1) .nop .none,
        .plain (k₁ + 2) .load (.int 0)]) := by
  intro lw w loop waiting types hok hs htypes
  obtain ⟨htyped, hreturns, hasm⟩ := hok
  cases htyped with
  | loop hc' hb' hn =>
      obtain rfl : types = [.int] := htypes.eq_singleton rfl hn
      simp only [Node.returnsFit, Bool.and_eq_true] at hreturns
      rw [Node.every_loop] at hasm
      obtain ⟨ann, hann, hfit⟩ := ih w w (some waiting) waiting [b.scalar]
        ⟨hb', hreturns.2, hasm.2.2⟩ (hs.inside k (k + 1)) ⟨_, rfl, fun _ => rfl⟩
      let inside := fun m υ => (m = k ∨ m = k + 1) ∧ υ = waits S.frames S.owner w
      have hfit' : Conforms S.frames S.cell S.owner S.leave inside ann _ _ := hfit.within
        (fun l hl m hm => by
          cases hl
          exact ⟨hm, rfl⟩)
        (by simp)
      refine ⟨_, ?_, (((Conforms.nop k).append hfit').append ((Conforms.pop k₁).append
        ((Conforms.jump (k₁ + 1) (.inl rfl) ⟨.inl rfl, rfl⟩).append
          ((Conforms.nop (k + 1)).append
            (Conforms.load (k₁ + 2) none (Conforms.reads_zero .int)))))).close
              fun m υ hm => .inr ?_⟩
      · simp only [List.map_append, hann]
        rfl
      · rcases hm with ⟨rfl | rfl, rfl⟩
        · exact ⟨(.plain m .nop .none, waits S.frames S.owner w), by simp, rfl, rfl⟩
        · exact ⟨(.plain (k + 1) .nop .none, waits S.frames S.owner w), by simp, rfl, rfl⟩

theorem loop {n : Note} {c b : Node Note}
    (ihc : S.Bears ⟨some ⟨k, k + 1, site.depth⟩, site.depth⟩ (.test c (k + 1)) a)
    (ihb : S.Bears ⟨some ⟨k, k + 1, site.depth⟩, site.depth⟩ (.value b) d) :
    S.Bears site (.node (.loop n c b))
      (.plain k .nop .none :: a ++ d ++ [.plain k₂ .pop .none,
        .jump (k₂ + 1) .always (some (.instr k)), .plain (k + 1) .nop .none,
        .plain (k₂ + 2) .load (.int 0)]) := by
  intro lw w loop waiting types hok hs htypes
  obtain ⟨htyped, hreturns, hasm⟩ := hok
  cases htyped with
  | loop hc' hb' hn =>
      obtain rfl : types = [.int] := htypes.eq_singleton rfl hn
      simp only [Node.returnsFit, Bool.and_eq_true] at hreturns
      rw [Node.every_loop] at hasm
      obtain ⟨ann, hann, hfit⟩ := ihc w w (some waiting) waiting []
        ⟨hc', hreturns.1, hasm.2.1⟩ (hs.inside k (k + 1)) rfl
      obtain ⟨ann', hann', hfit'⟩ := ihb w w (some waiting) waiting [b.scalar]
        ⟨hb', hreturns.2, hasm.2.2⟩ (hs.inside k (k + 1)) ⟨_, rfl, fun _ => rfl⟩
      let inside := fun m υ => (m = k ∨ m = k + 1) ∧ υ = waits S.frames S.owner w
      have hfit₁ : Conforms S.frames S.cell S.owner S.leave inside ann _ _ := hfit.within
        (fun l hl m hm => by
          cases hl
          exact ⟨hm, rfl⟩)
        fun x m hx => by
          cases hx
          exact ⟨.inr rfl, rfl⟩
      have hfit₂ : Conforms S.frames S.cell S.owner S.leave inside ann' _ _ := hfit'.within
        (fun l hl m hm => by
          cases hl
          exact ⟨hm, rfl⟩)
        (by simp)
      refine ⟨_, ?_, ((((Conforms.nop k).append hfit₁).append hfit₂).append
        ((Conforms.pop k₂).append ((Conforms.jump (k₂ + 1) (.inl rfl) ⟨.inl rfl, rfl⟩).append
          ((Conforms.nop (k + 1)).append
            (Conforms.load (k₂ + 2) none (Conforms.reads_zero .int)))))).close
              fun m υ hm => .inr ?_⟩
      · simp only [List.map_append, hann, hann']
        rfl
      · rcases hm with ⟨rfl | rfl, rfl⟩
        · exact ⟨(.plain m .nop .none, waits S.frames S.owner w), by simp, rfl, rfl⟩
        · exact ⟨(.plain (k + 1) .nop .none, waits S.frames S.owner w), by simp, rfl, rfl⟩

theorem idleJump {x : Node Note} {toHead : Bool} (hx : x.loopJump? = some toHead) :
    S.Bears site (.node x) [] := by
  intro lw w loop waiting types hok hs htypes
  obtain rfl := htypes.eq_nil hx
  exact ⟨[], rfl, .nil⟩

/-- The cells that wait at the loop are still there, and the jump drops the others. -/
theorem loopJump {x : Node Note} {toHead : Bool} {l : LoopSite}
    (hx : x.loopJump? = some toHead) (hloop : site.loop = some l) :
    S.Bears site (.node x)
      (copies k (site.depth - l.depth) .pop .none
        ++ [.jump (k + (site.depth - l.depth)) .always
          (some (.instr (if toHead then l.head else l.exit)))]) := by
  intro lw w loop waiting types hok hs htypes
  obtain rfl := htypes.eq_nil hx
  -- the cells that wait at the loop are still there, and the jump drops the others
  obtain ⟨waited, hwaited⟩ := Node.exists_waited hx hok.returns
  obtain ⟨⟨u, rfl⟩, -⟩ := hs.kept waited hwaited (by simp [hloop])
  have hu : site.depth - l.depth = u.length := by
    rw [← hs.depth, ← hs.bottom l hloop, List.length_append, Nat.add_sub_cancel]
  obtain ⟨ann, hann, hfit⟩ := @Conforms.pops S.frames S.cell S.owner S.leave
    (S.offered site (.node x) lw (u ++ lw)) lw k u
  have hends : (if toHead then l.head else l.exit) = l.head ∨
      (if toHead then l.head else l.exit) = l.exit := by
    cases toHead
    · exact .inr rfl
    · exact .inl rfl
  rw [hu]
  refine ⟨_, ?_, hfit.append (Conforms.jump (k + u.length) (.inl rfl)
    (.inl ⟨l, hloop, hends, rfl⟩))⟩
  rw [List.map_append, hann]
  rfl

/-- What is returned is left for the end of the function. -/
theorem returnValue (hS : S.Suits symbols) {n : Note} {v : Node Note}
    (ih : S.Bears { site with depth := 0 } (.value v) a) :
    S.Bears site (.node (.returnValue n v))
      (copies k site.depth .pop .none ++ a ++ [.jump k₁ .always (some .epilogue)]) := by
  intro lw w loop waiting types hok hs htypes
  obtain ⟨htyped, hreturns, hasm⟩ := hok
  cases htyped with
  | returnValue hv' hn =>
      obtain rfl : types = [] := by simpa [Piece.Leaves, Node.yieldsCell] using htypes
      simp only [Node.returnsFit, Bool.and_eq_true] at hreturns
      obtain ⟨hresult, hreturns⟩ := hreturns
      obtain ⟨ann, hann, hfit⟩ := ih lw [] _ false [S.result.getD v.scalar]
        ⟨hv', hreturns, (Node.every_returnValue.1 hasm).2⟩ hs.dropped
          ⟨_, rfl, Node.scalar_eq_of_returned hresult⟩
      obtain ⟨ann', hann', hfit'⟩ := @Conforms.pops S.frames S.cell S.owner S.leave
        (S.offered site (.node (.returnValue n v)) lw w) [] k w
      rw [hs.depth] at hann'
      rw [List.append_nil] at hfit'
      refine ⟨_, ?_, (hfit'.append (hfit.mono (offered_mono rfl (by simp)))).append
        (Conforms.toEnd k₁ (hS.leaves _ fun r hr => by rw [hr]; rfl))⟩
      rw [List.map_append, List.map_append, hann, hann']
      rfl

theorem block {n : Note} {xs : List (Node Note)} (ih : S.Bears site (.statements xs) a) :
    S.Bears site (.node (.block n xs)) a := by
  intro lw w loop waiting types hok hs htypes
  obtain ⟨htyped, hreturns, hasm⟩ := hok
  cases htyped with
  | block hxs' hn =>
      have hall := Node.allReturnsFit_iff.1 hreturns
      obtain ⟨ann, hann, hfit⟩ := ih lw w loop waiting types
        (fun x hx => ⟨hxs' x hx, hall x hx, (Node.every_block.1 hasm).2 x hx⟩) hs
          (by simpa [Piece.Leaves, Node.yieldsCell, Node.scalar, Node.note, hn] using htypes)
      exact ⟨ann, hann, hfit.mono (offered_mono rfl (by simp))⟩

theorem assembly {n : Note} {text : String} :
    S.Bears site (.node (.assembly n text)) [.plain k (.assembly text) .none] := by
  intro lw w loop waiting types hok hs htypes
  exact absurd hok.noAssembly.self (by simp [Node.isAssembly])

theorem nop {n : Note} : S.Bears site (.node (.nop n)) [.plain k .load (.int 0)] := by
  intro lw w loop waiting types hok hs htypes
  obtain ⟨type, rfl⟩ : ∃ type, types = [type] :=
    ⟨_, by simpa [Piece.Leaves, Node.yieldsCell] using htypes⟩
  exact ⟨_, rfl, .load k none (Conforms.reads_zero .int)⟩

theorem silent {x : Node Note} (hx : x.isSilent = true) : S.Bears site (.node x) [] := by
  intro lw w loop waiting types hok hs htypes
  have htyped := hok.typed
  cases htyped <;> cases hx

/-! #### Values, statements and arguments -/

theorem whole {x : Node Note} (hx : x.yieldsCell = true) (ih : S.Bears site (.node x) a) :
    S.Bears site (.value x) a := by
  intro lw w loop waiting types hok hs htypes
  obtain ⟨type, rfl, htype⟩ := htypes
  obtain ⟨ann, hann, hfit⟩ := ih lw w loop waiting [type] hok hs
    (by rw [Piece.Leaves, hx, if_pos rfl, htype hx])
  exact ⟨ann, hann, hfit.mono (offered_mono rfl (by simp))⟩

theorem padded {x : Node Note} (hx : x.yieldsCell = false) (ih : S.Bears site (.node x) a) :
    S.Bears site (.value x) (a ++ [.plain k₁ .load (.int 0)]) := by
  intro lw w loop waiting types hok hs htypes
  obtain ⟨type, rfl, -⟩ := htypes
  obtain ⟨ann, hann, hfit⟩ := ih lw w loop waiting [] hok hs (by simp [Piece.Leaves, hx])
  refine ⟨_, ?_, (hfit.mono (offered_mono rfl (by simp))).append
    (Conforms.load k₁ none (Conforms.reads_zero .int))⟩
  rw [List.map_append, hann]
  rfl

theorem converted {x : Node Note} {s type : Scalar} (hsx : x.note.type = some s)
    (ih : S.Bears site (.value x) a) :
    S.Bears site (.converted x type) (a ++ conversion k₁ s type) := by
  intro lw w loop waiting types hok hs htypes
  obtain rfl : types = [type] := htypes
  obtain ⟨ann, hann, hfit⟩ := ih lw w loop waiting [s] hok hs
    ⟨s, rfl, fun _ => by simp [Node.scalar, hsx]⟩
  obtain ⟨ann', hann', hfit'⟩ := @Conforms.conversion S.frames S.cell S.owner S.leave
    (S.offered site (.converted x type) lw w) w k₁ s type
  refine ⟨_, ?_, (hfit.mono (offered_mono rfl (by simp))).append hfit'⟩
  rw [List.map_append, hann, hann']

theorem test {x : Node Note} {target : Nat} (ih : S.Bears site (.value x) a) :
    S.Bears site (.test x target)
      (a ++ [.plain k₁ .pop .none, .jump (k₁ + 1) .equal (some (.instr target))]) := by
  intro lw w loop waiting types hok hs htypes
  obtain rfl : types = [] := htypes
  obtain ⟨ann, hann, hfit⟩ := ih lw w loop waiting [x.scalar] hok hs ⟨_, rfl, fun _ => rfl⟩
  refine ⟨_, ?_, (hfit.mono (offered_mono rfl (by simp))).append
    (Conforms.test k₁ (k₁ + 1) (c := .equal) (.inr ⟨x, rfl, rfl⟩))⟩
  rw [List.map_append, hann]
  rfl

theorem noStatement : S.Bears site (.statements []) [.plain k .load (.int 0)] := by
  intro lw w loop waiting types hok hs htypes
  obtain rfl : types = [.int] := htypes
  exact ⟨_, rfl, .load k none (Conforms.reads_zero .int)⟩

theorem lastStatement {x : Node Note} (ih : S.Bears site (.value x) a) :
    S.Bears site (.statements [x]) a := by
  intro lw w loop waiting types hok hs htypes
  obtain rfl := htypes
  obtain ⟨ann, hann, hfit⟩ := ih lw w loop waiting [(Node.listType [x]).getD .int]
    (hok _ List.mem_cons_self) hs
      ⟨_, rfl, fun hyields => by simp [Node.listType, hyields, Node.scalar]⟩
  exact ⟨ann, hann, hfit.mono (offered_mono rfl (by simp))⟩

theorem droppedStatement {x y : Node Note} {xs : List (Node Note)} (hyields : x.yieldsCell = true)
    (ihx : S.Bears site (.node x) a) (ihxs : S.Bears site (.statements (y :: xs)) b) :
    S.Bears site (.statements (x :: y :: xs)) (a ++ .plain k₁ .pop .none :: b) := by
  intro lw w loop waiting types hok hs htypes
  obtain ⟨ann, hann, hfit⟩ := ihx lw w loop waiting [x.scalar] (hok _ List.mem_cons_self) hs
    (by simp [Piece.Leaves, hyields])
  obtain ⟨ann', hann', hfit'⟩ := ihxs lw w loop waiting types
    (fun z hz => hok z (List.mem_cons_of_mem _ hz)) hs htypes
  refine ⟨_, ?_, (hfit.mono (offered_mono rfl (by simp))).append
    ((Conforms.pop k₁).append (hfit'.mono (offered_mono rfl (by simp))))⟩
  rw [List.map_append, List.map_append, hann, hann']
  rfl

theorem bareStatement {x y : Node Note} {xs : List (Node Note)} (hyields : x.yieldsCell = false)
    (ihx : S.Bears site (.node x) a) (ihxs : S.Bears site (.statements (y :: xs)) b) :
    S.Bears site (.statements (x :: y :: xs)) (a ++ b) := by
  intro lw w loop waiting types hok hs htypes
  obtain ⟨ann, hann, hfit⟩ := ihx lw w loop waiting [] (hok _ List.mem_cons_self) hs
    (by simp [Piece.Leaves, hyields])
  obtain ⟨ann', hann', hfit'⟩ := ihxs lw w loop waiting types
    (fun z hz => hok z (List.mem_cons_of_mem _ hz)) hs htypes
  refine ⟨_, ?_, (hfit.mono (offered_mono rfl (by simp))).append
    (hfit'.mono (offered_mono rfl (by simp)))⟩
  rw [List.map_append, hann, hann']

theorem noArgument : S.Bears site (.arguments []) [] := by
  intro lw w loop waiting types hok hs htypes
  obtain rfl : types = [] := htypes
  exact ⟨[], rfl, .nil⟩

theorem argument {x : Node Note} {xs : List (Node Note)} (ihxs : S.Bears site (.arguments xs) a)
    (ihx : S.Bears (site.deeper xs.length) (.value x) b) :
    S.Bears site (.arguments (x :: xs)) (a ++ b) := by
  intro lw w loop waiting types hok hs htypes
  obtain rfl : types = x.scalar :: xs.map Node.scalar := htypes
  obtain ⟨ann, hann, hfit⟩ := ihxs lw w loop waiting (xs.map Node.scalar)
    (fun z hz => hok z (List.mem_cons_of_mem _ hz)) hs rfl
  have hdeeper := hs.deeper (xs.map Node.scalar)
  rw [List.length_map] at hdeeper
  obtain ⟨ann', hann', hfit'⟩ := ihx lw _ loop true [x.scalar]
    (hok _ List.mem_cons_self) hdeeper ⟨_, rfl, fun _ => rfl⟩
  refine ⟨_, ?_, (hfit.mono (offered_mono rfl (by simp))).append
    (hfit'.mono (offered_mono rfl (by simp)))⟩
  rw [List.map_append, hann, hann']

end Setting.Bears

/-- **Stretches of lowered code have stamps** if the returns of their trees fit. -/
theorem Emits.stamped {S : Setting} {symbols : Symbols} (hS : S.Suits symbols) {site : Site}
    {piece : Piece} {k k' : Nat} {code : List Instr} (h : Emits symbols site piece k code k') :
    S.Bears site piece code := by
  induction h with
  | literal => exact .literal
  | identifier hsymbol hcell => exact .identifier hS hsymbol hcell
  | assign htype hsymbol hcell _ ih => exact .assign hS htype hsymbol hcell ih
  | comparison hc _ _ _ _ ihl ihr => exact .comparison hc ihl ihr
  | arith hop htype _ _ ihl ihr => exact .arith hop htype ihl ihr
  | plus _ ih => exact .plus ih
  | minus htype _ ih => exact .minus htype ih
  | not _ ih => exact .not ih
  | call hsymbol _ ih => exact .call hS hsymbol ih
  | cond htype _ _ ihc iht => exact .cond htype ihc iht
  | condElse htype _ _ _ ihc iht ihe => exact .condElse htype ihc iht ihe
  | endless _ _ ih => exact .endless ih
  | loop _ _ _ ihc ihb => exact .loop ihc ihb
  | idleJump hx _ => exact .idleJump hx
  | loopJump hx hloop => exact .loopJump hx hloop
  | returnValue _ ih => exact .returnValue hS ih
  | block _ ih => exact .block ih
  | assembly => exact .assembly
  | nop => exact .nop
  | silent hx => exact .silent hx
  | whole hx _ ih => exact .whole hx ih
  | padded hx _ ih => exact .padded hx ih
  | converted hs _ ih => exact .converted hs ih
  | test _ ih => exact .test ih
  | noStatement => exact .noStatement
  | lastStatement _ ih => exact .lastStatement ih
  | droppedStatement hyields _ _ ihx ihxs => exact .droppedStatement hyields ihx ihxs
  | bareStatement hyields _ _ ihx ihxs => exact .bareStatement hyields ihx ihxs
  | noArgument => exact .noArgument
  | argument _ _ ihxs ihx => exact .argument ihxs ihx

end Lower

end StackLang
