/-
**Lowered code has known stack levels.**

Lowering counts the cells that wait for their operators, and before each instruction of an
expression there are as many cells above the frame as it has counted.  Only the jumps out of loops
can upset this, where they would have to drop more cells than there are.

Main definitions:

* `waiting` — the mark of a place where some cells wait above the frame;
* `Lower.Fits` — the marks of a stretch of lowered code are right;
* `Lower.Surroundings`, `Lower.Surroundings.Bears` — what is known where code is made, and that the
  code of a piece has marks there;
* `Typing.layout` — the frames of the functions of a typed unit.

Main results:

* `Lower.Surroundings.Bears.loop`, … — the marks of a construct are put together from those of its
  parts, one lemma for each construct;
* `Lower.Emits.leveled` — stretches of lowered code have marks if their jumps fit;
* `Lower.EmitsUnit.leveled` — and so has the code of a unit.
-/

import StackLang.Proofs.Levels
import StackLang.Proofs.Lower.Regular
import StackLang.Proofs.Tree.Fold
import StackLang.Proofs.Tree.Jumps
import StackLang.Proofs.Typing.Infer

set_option relaxedAutoImplicit false
set_option autoImplicit false

namespace StackLang

/-- The mark of a place in the function `o` where `d` cells wait above the frame. -/
def waiting (layout : String → Layout) (o : Option String) (d : Nat) : Spot :=
  ⟨o, frameSize layout o + d, false⟩

namespace Lower

/-! ### Marks of stretches -/

/-- **The marks of a stretch of code are right** between two marks.  Its jumps go to the end of the
function, to places that the surroundings provide or to instructions of the stretch, and it calls
functions that are known. -/
structure Fits (layout : String → Layout) (o : Option String) (known : String → Prop)
    (outs : Nat → Spot → Prop) (ann : List Marked) (start stop : Spot) : Prop where
  first : headSpot ann (some stop) = some start
  chained : Chained layout o ann (some stop)
  noEntry : ∀ p ∈ ann, ∀ name, p.1.op ≠ .entry name
  targets : ∀ p ∈ ann, p.1.op.isJump = true →
    (p.1.target = some .epilogue ∧ p.2 = waiting layout o 1) ∨
      ∃ k, p.1.target = some (.instr k) ∧ (outs k p.2 ∨ ∃ q ∈ ann, q.1.id = k ∧ q.2 = p.2)
  calls : ∀ p ∈ ann, p.1.op = .call → ∀ name, p.1.operand = .label name → known name

namespace Fits

variable {layout : String → Layout} {o : Option String} {known : String → Prop}
  {outs outs' : Nat → Spot → Prop} {xs ys : List Marked} {σ τ υ : Spot} {i : Instr}

theorem nil : Fits layout o known outs [] σ σ :=
  ⟨rfl, trivial, by simp, by simp, by simp⟩

theorem homes_eq (h : Fits layout o known outs xs σ τ) : homes o (xs.map Prod.fst) = o := by
  have hentry := h.noEntry
  clear h
  induction xs with
  | nil => rfl
  | cons p xs ih =>
      rw [List.map_cons, homes_cons, home_eq (hentry p List.mem_cons_self)]
      exact ih fun q hq => hentry q (List.mem_cons_of_mem _ hq)

/-- Places of the stretch itself need not be provided. -/
theorem close (h : Fits layout o known outs' xs σ τ)
    (houts : ∀ k υ, outs' k υ → outs k υ ∨ ∃ q ∈ xs, q.1.id = k ∧ q.2 = υ) :
    Fits layout o known outs xs σ τ := by
  refine ⟨h.first, h.chained, h.noEntry, fun p hp hop => ?_, h.calls⟩
  rcases h.targets p hp hop with hend | ⟨k, hk, hout | hin⟩
  · exact .inl hend
  · exact .inr ⟨k, hk, houts k p.2 hout⟩
  · exact .inr ⟨k, hk, .inr hin⟩

theorem mono (h : Fits layout o known outs' xs σ τ) (houts : ∀ k υ, outs' k υ → outs k υ) :
    Fits layout o known outs xs σ τ :=
  h.close fun k υ hk => .inl (houts k υ hk)

theorem append (hxs : Fits layout o known outs xs σ τ) (hys : Fits layout o known outs ys τ υ) :
    Fits layout o known outs (xs ++ ys) σ υ := by
  refine ⟨?_, ?_, ?_, ?_, ?_⟩
  · rw [headSpot_append, hys.first]
    exact hxs.first
  · rw [chained_append, hys.first, hxs.homes_eq]
    exact ⟨hxs.chained, hys.chained⟩
  · intro p hp
    rcases List.mem_append.1 hp with hp | hp
    · exact hxs.noEntry p hp
    · exact hys.noEntry p hp
  · intro p hp hop
    rcases List.mem_append.1 hp with hp | hp
    · rcases hxs.targets p hp hop with hend | ⟨k, hk, hout | ⟨q, hq, hqk⟩⟩
      · exact .inl hend
      · exact .inr ⟨k, hk, .inl hout⟩
      · exact .inr ⟨k, hk, .inr ⟨q, List.mem_append_left _ hq, hqk⟩⟩
    · rcases hys.targets p hp hop with hend | ⟨k, hk, hout | ⟨q, hq, hqk⟩⟩
      · exact .inl hend
      · exact .inr ⟨k, hk, .inl hout⟩
      · exact .inr ⟨k, hk, .inr ⟨q, List.mem_append_right _ hq, hqk⟩⟩
  · intro p hp
    rcases List.mem_append.1 hp with hp | hp
    · exact hxs.calls p hp
    · exact hys.calls p hp

/-- An instruction that is neither a jump nor a call. -/
theorem plain (hlegal : Legal layout i σ (some τ)) (howner : σ.owner = o)
    (hjump : i.op.isJump = false) (hcall : i.op ≠ .call) (hentry : ∀ name, i.op ≠ .entry name) :
    Fits layout o known outs [(i, σ)] σ τ := by
  refine ⟨rfl, ⟨?_, hlegal, trivial⟩, ?_, ?_, ?_⟩
  · rw [home_eq hentry]
    exact howner
  · simpa using hentry
  · simp [hjump]
  · simp [hcall]

theorem cons (hlegal : Legal layout i σ (some τ)) (howner : σ.owner = o)
    (hjump : i.op.isJump = false) (hcall : i.op ≠ .call) (hentry : ∀ name, i.op ≠ .entry name)
    (h : Fits layout o known outs xs τ υ) : Fits layout o known outs ((i, σ) :: xs) σ υ :=
  (plain hlegal howner hjump hcall hentry).append h

/-- A jump to a place that is provided. -/
theorem jump (k : Nat) {m n : Nat} {c : Condition} (hc : c = .always ∨ τ = waiting layout o n)
    (hout : outs m (waiting layout o n)) :
    Fits layout o known outs [(.jump k c (some (.instr m)), waiting layout o n)]
      (waiting layout o n) τ := by
  refine ⟨rfl, ⟨rfl, ?_, trivial⟩, ?_, ?_, ?_⟩
  · rcases hc with rfl | rfl
    · exact .goto rfl
    · exact .branch rfl
  · simp [Instr.jump]
  · simpa [Instr.jump, Op.isJump] using .inl hout
  · simp [Instr.jump]

/-- A jump to the end of the function. -/
theorem leave (k : Nat) :
    Fits layout o known outs [(.jump k .always (some .epilogue), waiting layout o 1)]
      (waiting layout o 1) τ := by
  refine ⟨rfl, ⟨rfl, .goto rfl, trivial⟩, ?_, ?_, ?_⟩
  · simp [Instr.jump]
  · simp [Instr.jump]
  · simp [Instr.jump]

/-! ### Single instructions -/

theorem load (k : Nat) (comment : Option String) {n : Nat} {operand : Operand}
    (h : Readable layout o (frameSize layout o + n) operand) :
    Fits layout o known outs [(⟨k, .load, operand, none, comment⟩, waiting layout o n)]
      (waiting layout o n) (waiting layout o (n + 1)) :=
  plain (.load rfl h) rfl rfl nofun nofun

theorem store (k : Nat) (comment : Option String) {n : Nat} {operand : Operand}
    (h : Writable layout o (frameSize layout o + n) operand) :
    Fits layout o known outs [(⟨k, .store, operand, none, comment⟩, waiting layout o (n + 1))]
      (waiting layout o (n + 1)) (waiting layout o n) :=
  plain (.store rfl (Nat.le_add_right _ _) h) rfl rfl nofun nofun

theorem pop (k : Nat) {n : Nat} :
    Fits layout o known outs [(.plain k .pop .none, waiting layout o (n + 1))]
      (waiting layout o (n + 1)) (waiting layout o n) :=
  plain (.pop rfl (Nat.le_add_right _ _)) rfl rfl nofun nofun

theorem arith (k : Nat) (op : ArithOp) (type : Scalar) {n : Nat} :
    Fits layout o known outs [(.plain k (.arith op type) .none, waiting layout o (n + 2))]
      (waiting layout o (n + 2)) (waiting layout o (n + 1)) :=
  plain (.arith rfl (Nat.le_add_right _ _)) rfl rfl nofun nofun

theorem nop (k : Nat) {n : Nat} :
    Fits layout o known outs [(.plain k .nop .none, waiting layout o n)]
      (waiting layout o n) (waiting layout o n) :=
  plain (.nop rfl) rfl rfl nofun nofun

theorem call (k : Nat) {n : Nat} {name : String} (hknown : known name)
    (hn : (layout name).params + 1 ≤ n) :
    Fits layout o known outs [(.plain k .call (.label name), waiting layout o n)]
      (waiting layout o n) (waiting layout o n) := by
  refine ⟨rfl, ⟨rfl, .call rfl rfl ?_, trivial⟩, ?_, ?_, ?_⟩
  · omega
  · simp [Instr.plain]
  · simp [Instr.plain, Op.isJump]
  · simp [Instr.plain]
    exact hknown

theorem readable_immediate {n : Nat} (type : Scalar) : Readable layout o n (.zero type) := by
  cases type <;> exact .immediate

theorem readable_literal {n : Nat} (v : Literal) : Readable layout o n (.ofLiteral v) := by
  cases v <;> exact .immediate

/-! ### Stretches -/

/-- Cells are dropped one after the other. -/
theorem pops (k n d : Nat) : ∃ ann, ann.map Prod.fst = copies k n .pop .none ∧
    Fits layout o known outs ann (waiting layout o (d + n)) (waiting layout o d) := by
  induction n generalizing k with
  | zero => exact ⟨[], rfl, nil⟩
  | succ n ih =>
      obtain ⟨ann, hann, h⟩ := ih (k + 1)
      exact ⟨_ :: ann, by rw [copies_succ, ← hann]; rfl, (pop k).append h⟩

theorem conversion (k d : Nat) (s t : Scalar) :
    ∃ ann, ann.map Prod.fst = Lower.conversion k s t ∧
      Fits layout o known outs ann (waiting layout o (d + 1)) (waiting layout o (d + 1)) := by
  cases s <;> cases t
  · exact ⟨[], rfl, nil⟩
  · exact ⟨[(_, waiting layout o (d + 1))], rfl,
      plain (.convert (.inl rfl) (Nat.le_add_right _ _)) rfl rfl nofun nofun⟩
  · exact ⟨[(_, waiting layout o (d + 1))], rfl,
      plain (.convert (.inr rfl) (Nat.le_add_right _ _)) rfl rfl nofun nofun⟩
  · exact ⟨[], rfl, nil⟩

/-- A pop and a jump that tests its cell. -/
theorem test (k j : Nat) {m d : Nat} {c : Condition} (hout : outs m (waiting layout o d)) :
    Fits layout o known outs [(.plain k .pop .none, waiting layout o (d + 1)),
      (.jump j c (some (.instr m)), waiting layout o d)] (waiting layout o (d + 1))
      (waiting layout o d) :=
  (pop k).append (jump j (.inr rfl) hout)

theorem verdict (k d : Nat) (c : Condition) :
    ∃ ann, ann.map Prod.fst = Lower.verdict k c ∧
      Fits layout o known outs ann (waiting layout o (d + 1)) (waiting layout o (d + 1)) := by
  -- the two places inside are the push of the one and the end
  let inside := fun m υ => (m = k + 1 ∧ υ = waiting layout o d) ∨
    (m = k + 2 ∧ υ = waiting layout o (d + 1))
  have h : Fits layout o known inside _ (waiting layout o (d + 1)) (waiting layout o (d + 1)) :=
    (test k (k + 3) (c := c) (.inl ⟨rfl, rfl⟩)).append
      ((load (k + 4) none (readable_immediate .int)).append
        ((jump (k + 5) (.inl rfl) (.inr ⟨rfl, rfl⟩)).append
          ((load (k + 1) none (readable_literal (.int 1))).append (nop (k + 2)))))
  refine ⟨_, ?_, h.close fun m υ hm => .inr ?_⟩
  · rfl
  · rcases hm with ⟨rfl, rfl⟩ | ⟨rfl, rfl⟩ <;> simp [Instr.plain, Instr.jump]

end Fits

/-! ### Pieces -/

/-- A resolved tree without target code, whose jumps fit in some surroundings. -/
structure Settled (var : Nat → Prop) (fn : Nat → Nat → Prop) (site : Site) (x : Node Note) :
    Prop where
  resolved : Resolved var fn x
  fits : x.jumpsFit (site.loop.map LoopSite.depth) site.depth = true
  noAssembly : x.Every fun y => y.isAssembly = false

namespace Piece

/-- The trees of the piece are settled where they stand. -/
def Suits (var : Nat → Prop) (fn : Nat → Nat → Prop) (site : Site) : Piece → Prop
  | .node x | .value x | .converted x _ | .test x _ => Settled var fn site x
  | .statements xs => ∀ x ∈ xs, Settled var fn site x
  | .arguments xs => (∀ x ∈ xs, Resolved var fn x ∧ x.Every fun y => y.isAssembly = false) ∧
      Node.argumentsFit (site.loop.map LoopSite.depth) site.depth xs = true

/-- The number of cells that the piece leaves. -/
def gain : Piece → Nat
  | .node x => if x.yieldsCell then 1 else 0
  | .value _ | .converted .. | .statements _ => 1
  | .test .. => 0
  | .arguments xs => xs.length

end Piece

/-- The places that the surroundings of a piece provide, with their marks: the two ends of the loop,
and for a test the place to go to. -/
def provided (layout : String → Layout) (o : Option String) (site : Site) (piece : Piece) (k : Nat)
    (υ : Spot) : Prop :=
  (∃ l, site.loop = some l ∧ (k = l.head ∨ k = l.exit) ∧ υ = waiting layout o l.depth) ∨
    ∃ x, piece = .test x k ∧ υ = waiting layout o site.depth

/-- The surroundings of a part provide what those of the whole do, unless a test adds a place. -/
theorem provided_mono {layout : String → Layout} {o : Option String} {site site' : Site}
    {piece piece' : Piece} (hloop : site'.loop = site.loop)
    (hpiece : ∀ x m, piece' ≠ .test x m) (k : Nat) (υ : Spot)
    (h : provided layout o site' piece' k υ) : provided layout o site piece k υ := by
  rcases h with h | ⟨x, h, -⟩
  · exact .inl (hloop ▸ h)
  · exact absurd h (hpiece x k)

/-- The code of a piece has marks. -/
def HasLevels (layout : String → Layout) (o : Option String) (known : String → Prop) (site : Site)
    (piece : Piece) (code : List Instr) : Prop :=
  ∃ ann, ann.map Prod.fst = code ∧
    Fits layout o known (provided layout o site piece) ann (waiting layout o site.depth)
      (waiting layout o (site.depth + piece.gain))

/-- What is known where code is made: the frames, the function, the functions that can be called,
and what names and calls can stand for. -/
structure Surroundings where
  layout : String → Layout
  owner : Option String
  known : String → Prop
  var : Nat → Prop
  fn : Nat → Nat → Prop

namespace Surroundings

/-- **The frames are as the symbols say**: cells of variables can be written, and calls hand over as
many arguments as functions have parameters. -/
structure Agree (C : Surroundings) (symbols : Symbols) : Prop where
  writable : ∀ {k : Nat} {s : Symbol} {cell : Operand} {n : Nat}, C.var k →
    symbols[k]? = some s → s.storage.cell? = some cell →
      Writable C.layout C.owner (frameSize C.layout C.owner + n) cell
  calls : ∀ {k n : Nat} {s : Symbol}, C.fn k n → symbols[k]? = some s →
    (C.layout s.emittedName).params = n ∧ C.known s.emittedName

/-- The code of a piece has marks if its trees are settled where they stand. -/
def Bears (C : Surroundings) (site : Site) (piece : Piece) (code : List Instr) : Prop :=
  piece.Suits C.var C.fn site → HasLevels C.layout C.owner C.known site piece code

end Surroundings

namespace Surroundings.Bears

variable {C : Surroundings} {symbols : Symbols} {site : Site} {k k₁ k₂ : Nat}
  {a b d : List Instr}

/-! #### Operators -/

theorem literal {n : Note} {v : Literal} :
    C.Bears site (.node (.literal n v)) [.plain k .load (.ofLiteral v)] := by
  intro hok
  exact ⟨_, rfl, .load k none (Fits.readable_literal v)⟩

theorem identifier (hC : C.Agree symbols) {n : Note} {x : String} {s : Symbol}
    {cell : Operand} (hs : (Node.identifier n x).symbol? symbols = some s)
    (hcell : s.storage.cell? = some cell) :
    C.Bears site (.node (.identifier n x)) [⟨k, .load, cell, none, s.loadRemark⟩] := by
  intro hok
  obtain ⟨hr, -, -⟩ := hok
  cases hr with
  | @identifier n x j htype hsymbol hj =>
      rw [Node.symbol?, Node.note, hsymbol] at hs
      exact ⟨_, rfl, .load k _ (.cell (hC.writable hj hs hcell))⟩

theorem assign (hC : C.Agree symbols) {n : Note} {l r : Node Note} {type : Scalar} {s : Symbol}
    {cell : Operand} (hs : l.symbol? symbols = some s)
    (hcell : s.storage.cell? = some cell) (ih : C.Bears site (.converted r type) a) :
    C.Bears site (.node (.binary n .assign l r))
      (a ++ [⟨k₁, .store, cell, none, some ("store " ++ s.sourceName)⟩,
        ⟨k₁ + 1, .load, cell, none, some ("load " ++ s.sourceName)⟩]) := by
  intro hok
  obtain ⟨hres, hfits, hasm⟩ := hok
  cases hres with
  | binary _ hop => exact absurd rfl hop
  | @assign n m x r j _ _ hsymbol hj hres =>
      rw [Node.every_binary] at hasm
      rw [Node.symbol?, Node.note, hsymbol] at hs
      obtain ⟨ann, hann, hfit⟩ := ih ⟨hres, by simpa [Node.jumpsFit] using hfits, hasm.2.2⟩
      refine ⟨_, ?_, (hfit.mono (provided_mono rfl (by simp))).append
        ((Fits.store k₁ (some ("store " ++ s.sourceName)) (hC.writable hj hs hcell)).append
          (.load (k₁ + 1) (some ("load " ++ s.sourceName))
            (.cell (hC.writable hj hs hcell))))⟩
      rw [List.map_append, hann]
      rfl

theorem comparison {n : Note} {op : BinaryOp} {l r : Node Note} {s t : Scalar} {c : Condition}
    (hc : Condition.ofComparison? op = some c) (ihl : C.Bears site (.converted l (s.join t)) a)
    (ihr : C.Bears (site.deeper 1) (.converted r (s.join t)) b) :
    C.Bears site (.node (.binary n op l r))
      (a ++ b ++ .plain k₂ (.arith .sub (s.join t)) .none :: verdict (k₂ + 1) c) := by
  intro hok
  obtain ⟨hres, hfits, hasm⟩ := hok
  cases hres with
  | assign => cases hc
  | binary _ hop hresl hresr =>
      simp only [Node.jumpsFit, if_neg hop, Bool.and_eq_true] at hfits
      rw [Node.every_binary] at hasm
      obtain ⟨ann, hann, hfit⟩ := ihl ⟨hresl, hfits.1, hasm.2.1⟩
      obtain ⟨ann', hann', hfit'⟩ := ihr ⟨hresr, hfits.2, hasm.2.2⟩
      obtain ⟨ann'', hann'', hfit''⟩ := @Fits.verdict C.layout C.owner C.known
        (provided C.layout C.owner site (.node (.binary n op l r))) (k₂ + 1) site.depth c
      refine ⟨_, ?_, ((hfit.mono (provided_mono rfl (by simp))).append
        (hfit'.mono (provided_mono rfl (by simp)))).append
          ((Fits.arith k₂ .sub (s.join t)).append hfit'')⟩
      rw [List.map_append, List.map_append, hann, hann', List.map_append, hann'']
      rfl

theorem arith {n : Note} {op : BinaryOp} {l r : Node Note} {type : Scalar} {arith : ArithOp}
    (hop' : ArithOp.ofBinary? op = some arith)
    (ihl : C.Bears site (.converted l type) a)
    (ihr : C.Bears (site.deeper 1) (.converted r type) b) :
    C.Bears site (.node (.binary n op l r)) (a ++ b ++ [.plain k₂ (.arith arith type) .none]) := by
  intro hok
  obtain ⟨hres, hfits, hasm⟩ := hok
  cases hres with
  | assign => cases hop'
  | binary _ hop hresl hresr =>
      simp only [Node.jumpsFit, if_neg hop, Bool.and_eq_true] at hfits
      rw [Node.every_binary] at hasm
      obtain ⟨ann, hann, hfit⟩ := ihl ⟨hresl, hfits.1, hasm.2.1⟩
      obtain ⟨ann', hann', hfit'⟩ := ihr ⟨hresr, hfits.2, hasm.2.2⟩
      refine ⟨_, ?_, ((hfit.mono (provided_mono rfl (by simp))).append
        (hfit'.mono (provided_mono rfl (by simp)))).append (Fits.arith k₂ arith type)⟩
      rw [List.map_append, List.map_append, hann, hann']
      rfl

theorem plus {n : Note} {x : Node Note} (ih : C.Bears site (.value x) a) :
    C.Bears site (.node (.unary n .plus x)) a := by
  intro hok
  obtain ⟨hres, hfits, hasm⟩ := hok
  cases hres with
  | unary _ hresx =>
      obtain ⟨ann, hann, hfit⟩ := ih ⟨hresx, by simpa [Node.jumpsFit] using hfits,
        (Node.every_unary.1 hasm).2⟩
      exact ⟨ann, hann, hfit.mono (provided_mono rfl (by simp))⟩

theorem minus {n : Note} {x : Node Note} {type : Scalar}
    (ih : C.Bears (site.deeper 1) (.value x) a) :
    C.Bears site (.node (.unary n .minus x))
      (.plain k .load (.zero type) :: a ++ [.plain k₁ (.arith .sub type) .none]) := by
  intro hok
  obtain ⟨hres, hfits, hasm⟩ := hok
  cases hres with
  | unary _ hresx =>
      obtain ⟨ann, hann, hfit⟩ := ih ⟨hresx, by simpa [Node.jumpsFit, Site.deeper] using hfits,
        (Node.every_unary.1 hasm).2⟩
      have hfit₁ : Fits C.layout C.owner C.known
          (provided C.layout C.owner site (.node (.unary n .minus x))) ann _ _ :=
        hfit.mono (provided_mono rfl (by simp))
      refine ⟨_, ?_, ((Fits.load k none (Fits.readable_immediate type)).append hfit₁).append
        (Fits.arith k₁ .sub type)⟩
      rw [List.map_append, List.map_append, hann]
      rfl

theorem not {n : Note} {x : Node Note} (ih : C.Bears site (.value x) a) :
    C.Bears site (.node (.unary n .not x)) (a ++ verdict k₁ .equal) := by
  intro hok
  obtain ⟨hres, hfits, hasm⟩ := hok
  cases hres with
  | unary _ hresx =>
      obtain ⟨ann, hann, hfit⟩ := ih ⟨hresx, by simpa [Node.jumpsFit] using hfits,
        (Node.every_unary.1 hasm).2⟩
      obtain ⟨ann', hann', hfit'⟩ := @Fits.verdict C.layout C.owner C.known
        (provided C.layout C.owner site (.node (.unary n .not x))) k₁ site.depth .equal
      refine ⟨_, ?_, (hfit.mono (provided_mono rfl (by simp))).append hfit'⟩
      rw [List.map_append, hann, hann']

theorem call (hC : C.Agree symbols) {n : Note} {f : Node Note} {as : List (Node Note)} {s : Symbol}
    (hs : (Node.call n f as).symbol? symbols = some s)
    (ih : C.Bears (site.deeper 1) (.arguments as) a) :
    C.Bears site (.node (.call n f as))
      (⟨k, .load, .int 0, none, some "return slot"⟩ :: a
        ++ .plain k₁ .call (.label s.emittedName) :: copies (k₁ + 1) as.length .pop .none) := by
  intro hok
  obtain ⟨hres, hfits, hasm⟩ := hok
  cases hres with
  | @call _ _ _ j _ hsymbol hj hresas =>
      rw [Node.symbol?, Node.note, hsymbol] at hs
      obtain ⟨hparams, hknown⟩ := hC.calls hj hs
      rw [Node.every_call] at hasm
      obtain ⟨ann, hann, hfit⟩ := ih ⟨fun x hx => ⟨hresas x hx, hasm.2.2 x hx⟩, hfits⟩
      obtain ⟨ann', hann', hfit'⟩ := @Fits.pops C.layout C.owner C.known
        (provided C.layout C.owner site (.node (.call n f as))) (k₁ + 1) as.length (site.depth + 1)
      have hfit₁ : Fits C.layout C.owner C.known
          (provided C.layout C.owner site (.node (.call n f as))) ann _
          (waiting C.layout C.owner (site.depth + 1 + as.length)) :=
        hfit.mono (provided_mono rfl (by simp))
      refine ⟨_, ?_, ((Fits.load k (some "return slot")
        (Fits.readable_immediate .int)).append hfit₁).append
        ((Fits.call k₁ hknown ?_).append hfit')⟩
      · rw [List.map_append, List.map_append, hann, List.map_append, hann']
        rfl
      · rw [hparams]
        omega

/-! #### Control -/

theorem cond {n : Note} {c t : Node Note} {type : Scalar}
    (ihc : C.Bears site (.test c k) a) (iht : C.Bears site (.converted t type) b) :
    C.Bears site (.node (.cond n c t none))
      (a ++ b ++ [.jump k₂ .always (some (.instr (k + 1))), .plain k .nop .none,
        .plain (k₂ + 1) .load (.zero type), .plain (k + 1) .nop .none]) := by
  intro hok
  obtain ⟨hres, hfits, hasm⟩ := hok
  cases hres with
  | cond _ hresc hrest _ =>
      simp only [Node.jumpsFit, Bool.and_eq_true] at hfits
      rw [Node.every_cond] at hasm
      obtain ⟨ann, hann, hfit⟩ := ihc ⟨hresc, hfits.1.1, hasm.2.1⟩
      obtain ⟨ann', hann', hfit'⟩ := iht ⟨hrest, hfits.1.2, hasm.2.2.1⟩
      -- the two places inside are the targets of the test and of the jump behind the branch
      let inside := fun m υ => (m = k ∧ υ = waiting C.layout C.owner site.depth) ∨
        (m = k + 1 ∧ υ = waiting C.layout C.owner (site.depth + 1)) ∨
          provided C.layout C.owner site (.node (.cond n c t none)) m υ
      have hfit₁ : Fits C.layout C.owner C.known inside ann _ _ := hfit.mono fun m υ hm => by
        rcases hm with hm | ⟨x, hx, hυ⟩
        · exact .inr (.inr (.inl hm))
        · cases hx
          exact .inl ⟨rfl, hυ⟩
      have hfit₂ : Fits C.layout C.owner C.known inside ann' _ _ :=
        hfit'.mono fun m υ hm => .inr (.inr (provided_mono rfl (by simp) m υ hm))
      refine ⟨_, ?_, ((hfit₁.append hfit₂).append ((Fits.jump k₂ (.inl rfl)
        (.inr (.inl ⟨rfl, rfl⟩))).append ((Fits.nop k).append
          ((Fits.load (k₂ + 1) none (Fits.readable_immediate type)).append
            (Fits.nop (k + 1)))))).close fun m υ hm => ?_⟩
      · rw [List.map_append, List.map_append, hann, hann']
        rfl
      · rcases hm with ⟨rfl, rfl⟩ | ⟨rfl, rfl⟩ | hm
        · exact .inr ⟨(.plain m .nop .none, waiting C.layout C.owner site.depth), by simp, rfl, rfl⟩
        · exact .inr ⟨(.plain (k + 1) .nop .none, waiting C.layout C.owner (site.depth + 1)),
            by simp, rfl, rfl⟩
        · exact .inl hm

theorem condElse {n : Note} {c t e : Node Note} {type : Scalar}
    (ihc : C.Bears site (.test c k) a) (iht : C.Bears site (.converted t type) b)
    (ihe : C.Bears site (.converted e type) d) :
    C.Bears site (.node (.cond n c t (some e)))
      (a ++ b ++ .jump k₂ .always (some (.instr (k + 1))) :: .plain k .nop .none :: d
        ++ [.plain (k + 1) .nop .none]) := by
  intro hok
  obtain ⟨hres, hfits, hasm⟩ := hok
  cases hres with
  | cond _ hresc hrest hrese =>
      simp only [Node.jumpsFit, Bool.and_eq_true, Node.optionFits] at hfits
      rw [Node.every_cond] at hasm
      obtain ⟨ann, hann, hfit⟩ := ihc ⟨hresc, hfits.1.1, hasm.2.1⟩
      obtain ⟨ann', hann', hfit'⟩ := iht ⟨hrest, hfits.1.2, hasm.2.2.1⟩
      obtain ⟨ann'', hann'', hfit''⟩ := ihe ⟨hrese e rfl, hfits.2, hasm.2.2.2 e rfl⟩
      let inside := fun m υ => (m = k ∧ υ = waiting C.layout C.owner site.depth) ∨
        (m = k + 1 ∧ υ = waiting C.layout C.owner (site.depth + 1)) ∨
          provided C.layout C.owner site (.node (.cond n c t (some e))) m υ
      have hfit₁ : Fits C.layout C.owner C.known inside ann _ _ := hfit.mono fun m υ hm => by
        rcases hm with hm | ⟨x, hx, hυ⟩
        · exact .inr (.inr (.inl hm))
        · cases hx
          exact .inl ⟨rfl, hυ⟩
      have hfit₂ : Fits C.layout C.owner C.known inside ann' _ _ :=
        hfit'.mono fun m υ hm => .inr (.inr (provided_mono rfl (by simp) m υ hm))
      have hfit₃ : Fits C.layout C.owner C.known inside ann'' _ _ :=
        hfit''.mono fun m υ hm => .inr (.inr (provided_mono rfl (by simp) m υ hm))
      refine ⟨_, ?_, (((hfit₁.append hfit₂).append ((Fits.jump k₂ (.inl rfl)
        (.inr (.inl ⟨rfl, rfl⟩))).append ((Fits.nop k).append hfit₃))).append
          (Fits.nop (k + 1))).close fun m υ hm => ?_⟩
      · simp only [List.map_append, hann, hann', hann'']
        rfl
      · rcases hm with ⟨rfl, rfl⟩ | ⟨rfl, rfl⟩ | hm
        · exact .inr ⟨(.plain m .nop .none, waiting C.layout C.owner site.depth), by simp, rfl, rfl⟩
        · exact .inr ⟨(.plain (k + 1) .nop .none, waiting C.layout C.owner (site.depth + 1)),
            by simp [Piece.gain], rfl, rfl⟩
        · exact .inl hm

theorem endless {n : Note} {c b : Node Note}
    (ih : C.Bears ⟨some ⟨k, k + 1, site.depth⟩, site.depth⟩ (.value b) a) :
    C.Bears site (.node (.loop n c b))
      (.plain k .nop .none :: a ++ [.plain k₁ .pop .none,
        .jump (k₁ + 1) .always (some (.instr k)), .plain (k + 1) .nop .none,
        .plain (k₁ + 2) .load (.int 0)]) := by
  intro hok
  obtain ⟨hres, hfits, hasm⟩ := hok
  cases hres with
  | loop _ _ hresb =>
      simp only [Node.jumpsFit, Bool.and_eq_true] at hfits
      rw [Node.every_loop] at hasm
      obtain ⟨ann, hann, hfit⟩ := ih ⟨hresb, hfits.2, hasm.2.2⟩
      let inside := fun m υ => (m = k ∨ m = k + 1) ∧ υ = waiting C.layout C.owner site.depth
      have hfit' : Fits C.layout C.owner C.known inside ann _ _ := hfit.mono fun m υ hm => by
        rcases hm with ⟨l, hl, hm⟩ | ⟨x, hx, -⟩
        · cases hl
          exact hm
        · cases hx
      refine ⟨_, ?_, (((Fits.nop k).append hfit').append ((Fits.pop k₁).append
        ((Fits.jump (k₁ + 1) (.inl rfl) ⟨.inl rfl, rfl⟩).append ((Fits.nop (k + 1)).append
          (Fits.load (k₁ + 2) none (Fits.readable_immediate .int)))))).close
            fun m υ hm => .inr ?_⟩
      · simp only [List.map_append, hann]
        rfl
      · rcases hm with ⟨rfl | rfl, rfl⟩
        · exact ⟨(.plain m .nop .none, waiting C.layout C.owner site.depth), by simp, rfl, rfl⟩
        · exact ⟨(.plain (k + 1) .nop .none, waiting C.layout C.owner site.depth), by simp, rfl,
            rfl⟩

theorem loop {n : Note} {c b : Node Note}
    (ihc : C.Bears ⟨some ⟨k, k + 1, site.depth⟩, site.depth⟩ (.test c (k + 1)) a)
    (ihb : C.Bears ⟨some ⟨k, k + 1, site.depth⟩, site.depth⟩ (.value b) d) :
    C.Bears site (.node (.loop n c b))
      (.plain k .nop .none :: a ++ d ++ [.plain k₂ .pop .none,
        .jump (k₂ + 1) .always (some (.instr k)), .plain (k + 1) .nop .none,
        .plain (k₂ + 2) .load (.int 0)]) := by
  intro hok
  obtain ⟨hres, hfits, hasm⟩ := hok
  cases hres with
  | loop _ hresc hresb =>
      simp only [Node.jumpsFit, Bool.and_eq_true] at hfits
      rw [Node.every_loop] at hasm
      obtain ⟨ann, hann, hfit⟩ := ihc ⟨hresc, hfits.1, hasm.2.1⟩
      obtain ⟨ann', hann', hfit'⟩ := ihb ⟨hresb, hfits.2, hasm.2.2⟩
      let inside := fun m υ => (m = k ∨ m = k + 1) ∧ υ = waiting C.layout C.owner site.depth
      have hfit₁ : Fits C.layout C.owner C.known inside ann _ _ := hfit.mono fun m υ hm => by
        rcases hm with ⟨l, hl, hm⟩ | ⟨x, hx, hυ⟩
        · cases hl
          exact hm
        · cases hx
          exact ⟨.inr rfl, hυ⟩
      have hfit₂ : Fits C.layout C.owner C.known inside ann' _ _ := hfit'.mono fun m υ hm => by
        rcases hm with ⟨l, hl, hm⟩ | ⟨x, hx, -⟩
        · cases hl
          exact hm
        · cases hx
      refine ⟨_, ?_, ((((Fits.nop k).append hfit₁).append hfit₂).append ((Fits.pop k₂).append
        ((Fits.jump (k₂ + 1) (.inl rfl) ⟨.inl rfl, rfl⟩).append ((Fits.nop (k + 1)).append
          (Fits.load (k₂ + 2) none (Fits.readable_immediate .int)))))).close
            fun m υ hm => .inr ?_⟩
      · simp only [List.map_append, hann, hann']
        rfl
      · rcases hm with ⟨rfl | rfl, rfl⟩
        · exact ⟨(.plain m .nop .none, waiting C.layout C.owner site.depth), by simp, rfl, rfl⟩
        · exact ⟨(.plain (k + 1) .nop .none, waiting C.layout C.owner site.depth), by simp, rfl,
            rfl⟩

theorem idleJump {x : Node Note} {toHead : Bool} (hx : x.loopJump? = some toHead) :
    C.Bears site (.node x) [] := by
  intro hok
  refine ⟨[], rfl, ?_⟩
  cases x with
  | breakLoop => exact .nil
  | continueLoop => exact .nil
  | _ => cases hx

theorem loopJump {x : Node Note} {toHead : Bool} {l : LoopSite}
    (hx : x.loopJump? = some toHead) (hloop : site.loop = some l) :
    C.Bears site (.node x)
      (copies k (site.depth - l.depth) .pop .none
        ++ [.jump (k + (site.depth - l.depth)) .always
          (some (.instr (if toHead then l.head else l.exit)))]) := by
  intro hok
  obtain ⟨-, hfits, -⟩ := hok
  have hdepth : l.depth ≤ site.depth := by
    rw [hloop] at hfits
    cases x with
    | breakLoop => simpa [Node.jumpsFit] using hfits
    | continueLoop => simpa [Node.jumpsFit] using hfits
    | _ => cases hx
  obtain ⟨ann, hann, hfit⟩ := @Fits.pops C.layout C.owner C.known
    (provided C.layout C.owner site (.node x)) k (site.depth - l.depth) l.depth
  rw [Nat.add_sub_cancel' hdepth] at hfit
  have hends : (if toHead then l.head else l.exit) = l.head ∨
      (if toHead then l.head else l.exit) = l.exit := by
    cases toHead
    · exact .inr rfl
    · exact .inl rfl
  refine ⟨_, ?_, hfit.append (Fits.jump (k + (site.depth - l.depth)) (.inl rfl)
    (.inl ⟨l, hloop, hends, rfl⟩))⟩
  rw [List.map_append, hann]
  rfl

theorem returnValue {n : Note} {v : Node Note}
    (ih : C.Bears { site with depth := 0 } (.value v) a) :
    C.Bears site (.node (.returnValue n v))
      (copies k site.depth .pop .none ++ a ++ [.jump k₁ .always (some .epilogue)]) := by
  intro hok
  obtain ⟨hres, hfits, hasm⟩ := hok
  cases hres with
  | returnValue _ hresv =>
      obtain ⟨ann, hann, hfit⟩ := ih ⟨hresv, hfits, (Node.every_returnValue.1 hasm).2⟩
      obtain ⟨ann', hann', hfit'⟩ := @Fits.pops C.layout C.owner C.known
        (provided C.layout C.owner site (.node (.returnValue n v))) k site.depth 0
      rw [Nat.zero_add] at hfit'
      refine ⟨_, ?_, (hfit'.append (hfit.mono (provided_mono rfl (by simp)))).append
        (Fits.leave k₁)⟩
      rw [List.map_append, List.map_append, hann, hann']
      rfl

theorem block {n : Note} {xs : List (Node Note)} (ih : C.Bears site (.statements xs) a) :
    C.Bears site (.node (.block n xs)) a := by
  intro hok
  obtain ⟨hres, hfits, hasm⟩ := hok
  cases hres with
  | block _ hresxs =>
      have hall := Node.allFit_iff.1 hfits
      obtain ⟨ann, hann, hfit⟩ := ih fun x hx =>
        ⟨hresxs x hx, hall x hx, (Node.every_block.1 hasm).2 x hx⟩
      exact ⟨ann, hann, hfit.mono (provided_mono rfl (by simp))⟩

theorem assembly {n : Note} {text : String} :
    C.Bears site (.node (.assembly n text)) [.plain k (.assembly text) .none] := by
  intro hok
  exact absurd hok.noAssembly.self (by simp [Node.isAssembly])

theorem nop {n : Note} : C.Bears site (.node (.nop n)) [.plain k .load (.int 0)] := by
  intro hok
  exact ⟨_, rfl, .load k none (Fits.readable_immediate .int)⟩

theorem silent {x : Node Note} (hx : x.isSilent = true) : C.Bears site (.node x) [] := by
  intro hok
  have hres := hok.resolved
  cases hres <;> cases hx

/-! #### Values, statements and arguments -/

theorem whole {x : Node Note} (hx : x.yieldsCell = true) (ih : C.Bears site (.node x) a) :
    C.Bears site (.value x) a := by
  intro hok
  obtain ⟨ann, hann, hfit⟩ := ih hok
  rw [Piece.gain, hx, if_pos rfl] at hfit
  exact ⟨ann, hann, hfit.mono (provided_mono rfl (by simp))⟩

theorem padded {x : Node Note} (hx : x.yieldsCell = false) (ih : C.Bears site (.node x) a) :
    C.Bears site (.value x) (a ++ [.plain k₁ .load (.int 0)]) := by
  intro hok
  obtain ⟨ann, hann, hfit⟩ := ih hok
  simp only [Piece.gain, hx, Bool.false_eq_true, if_false] at hfit
  refine ⟨_, ?_, (hfit.mono (provided_mono rfl (by simp))).append
    (Fits.load k₁ none (Fits.readable_immediate .int))⟩
  rw [List.map_append, hann]
  rfl

theorem converted {x : Node Note} {s type : Scalar}
    (ih : C.Bears site (.value x) a) :
    C.Bears site (.converted x type) (a ++ conversion k₁ s type) := by
  intro hok
  obtain ⟨ann, hann, hfit⟩ := ih hok
  obtain ⟨ann', hann', hfit'⟩ := @Fits.conversion C.layout C.owner C.known
    (provided C.layout C.owner site (.converted x type)) k₁ site.depth s type
  refine ⟨_, ?_, (hfit.mono (provided_mono rfl (by simp))).append hfit'⟩
  rw [List.map_append, hann, hann']

theorem test {x : Node Note} {target : Nat} (ih : C.Bears site (.value x) a) :
    C.Bears site (.test x target)
      (a ++ [.plain k₁ .pop .none, .jump (k₁ + 1) .equal (some (.instr target))]) := by
  intro hok
  obtain ⟨ann, hann, hfit⟩ := ih hok
  refine ⟨_, ?_, (hfit.mono (provided_mono rfl (by simp))).append
    (Fits.test k₁ (k₁ + 1) (c := .equal) (.inr ⟨x, rfl, rfl⟩))⟩
  rw [List.map_append, hann]
  rfl

theorem noStatement : C.Bears site (.statements []) [.plain k .load (.int 0)] := by
  intro hok
  exact ⟨_, rfl, .load k none (Fits.readable_immediate .int)⟩

theorem lastStatement {x : Node Note} (ih : C.Bears site (.value x) a) :
    C.Bears site (.statements [x]) a := by
  intro hok
  obtain ⟨ann, hann, hfit⟩ := ih (hok _ List.mem_cons_self)
  exact ⟨ann, hann, hfit.mono (provided_mono rfl (by simp))⟩

theorem droppedStatement {x y : Node Note} {xs : List (Node Note)} (hyields : x.yieldsCell = true)
    (ihx : C.Bears site (.node x) a) (ihxs : C.Bears site (.statements (y :: xs)) b) :
    C.Bears site (.statements (x :: y :: xs)) (a ++ .plain k₁ .pop .none :: b) := by
  intro hok
  obtain ⟨ann, hann, hfit⟩ := ihx (hok _ List.mem_cons_self)
  obtain ⟨ann', hann', hfit'⟩ := ihxs fun z hz => hok z (List.mem_cons_of_mem _ hz)
  rw [Piece.gain, hyields, if_pos rfl] at hfit
  refine ⟨_, ?_, (hfit.mono (provided_mono rfl (by simp))).append
    ((Fits.pop k₁).append (hfit'.mono (provided_mono rfl (by simp))))⟩
  rw [List.map_append, List.map_append, hann, hann']
  rfl

theorem bareStatement {x y : Node Note} {xs : List (Node Note)} (hyields : x.yieldsCell = false)
    (ihx : C.Bears site (.node x) a) (ihxs : C.Bears site (.statements (y :: xs)) b) :
    C.Bears site (.statements (x :: y :: xs)) (a ++ b) := by
  intro hok
  obtain ⟨ann, hann, hfit⟩ := ihx (hok _ List.mem_cons_self)
  obtain ⟨ann', hann', hfit'⟩ := ihxs fun z hz => hok z (List.mem_cons_of_mem _ hz)
  simp only [Piece.gain, hyields, Bool.false_eq_true, if_false] at hfit
  refine ⟨_, ?_, (hfit.mono (provided_mono rfl (by simp))).append
    (hfit'.mono (provided_mono rfl (by simp)))⟩
  rw [List.map_append, hann, hann']

theorem noArgument : C.Bears site (.arguments []) [] := by
  intro hok
  exact ⟨[], rfl, .nil⟩

theorem argument {x : Node Note} {xs : List (Node Note)} (ihxs : C.Bears site (.arguments xs) a)
    (ihx : C.Bears (site.deeper xs.length) (.value x) b) :
    C.Bears site (.arguments (x :: xs)) (a ++ b) := by
  intro hok
  obtain ⟨hall, hfits⟩ := hok
  rw [List.forall_mem_cons] at hall
  simp only [Node.argumentsFit, Bool.and_eq_true] at hfits
  obtain ⟨ann, hann, hfit⟩ := ihxs ⟨hall.2, hfits.2⟩
  obtain ⟨ann', hann', hfit'⟩ := ihx ⟨hall.1.1, hfits.1, hall.1.2⟩
  refine ⟨_, ?_, (hfit.mono (provided_mono rfl (by simp))).append
    (hfit'.mono (provided_mono rfl (by simp)))⟩
  rw [List.map_append, hann, hann']

end Surroundings.Bears

/-- **Stretches of lowered code have marks** if the jumps of their trees fit. -/
theorem Emits.leveled {C : Surroundings} {symbols : Symbols} (hC : C.Agree symbols) {site : Site}
    {piece : Piece} {k k' : Nat} {code : List Instr} (h : Emits symbols site piece k code k') :
    C.Bears site piece code := by
  induction h with
  | literal => exact .literal
  | identifier hs hcell => exact .identifier hC hs hcell
  | assign _ hs hcell _ ih => exact .assign hC hs hcell ih
  | comparison hc _ _ _ _ ihl ihr => exact .comparison hc ihl ihr
  | arith hop _ _ _ ihl ihr => exact .arith hop ihl ihr
  | plus _ ih => exact .plus ih
  | minus _ _ ih => exact .minus ih
  | not _ ih => exact .not ih
  | call hs _ ih => exact .call hC hs ih
  | cond _ _ _ ihc iht => exact .cond ihc iht
  | condElse _ _ _ _ ihc iht ihe => exact .condElse ihc iht ihe
  | endless _ _ ih => exact .endless ih
  | loop _ _ _ ihc ihb => exact .loop ihc ihb
  | idleJump hx _ => exact .idleJump hx
  | loopJump hx hloop => exact .loopJump hx hloop
  | returnValue _ ih => exact .returnValue ih
  | block _ ih => exact .block ih
  | assembly => exact .assembly
  | nop => exact .nop
  | silent hx => exact .silent hx
  | whole hx _ ih => exact .whole hx ih
  | padded hx _ ih => exact .padded hx ih
  | converted _ _ ih => exact .converted ih
  | test _ ih => exact .test ih
  | noStatement => exact .noStatement
  | lastStatement _ ih => exact .lastStatement ih
  | droppedStatement hyields _ _ ihx ihxs => exact .droppedStatement hyields ihx ihxs
  | bareStatement hyields _ _ ihx ihxs => exact .bareStatement hyields ihx ihxs
  | noArgument => exact .noArgument
  | argument _ _ ihxs ihx => exact .argument ihxs ihx

/-! ### Functions and units -/

/-- **The marks of a stretch of code that nothing follows are right**: all its jumps go to
instructions of the stretch. -/
structure Sealed (layout : String → Layout) (known : String → Prop) (owner : Option String)
    (ann : List Marked) : Prop where
  chained : ∀ last, Chained layout owner ann last
  targets : ∀ p ∈ ann, p.1.op.isJump = true →
    ∃ q ∈ ann, p.1.targetId? = some q.1.id ∧ q.2 = p.2
  calls : ∀ p ∈ ann, p.1.op = .call → ∀ name, p.1.operand = .label name → known name

/-- Marked code with the end of its function known. -/
def resolvedMarks (epilogue : Nat) (ann : List Marked) : List Marked :=
  ann.map fun p => (Code.resolveInstr epilogue p.1, p.2)

section Units

variable {layout : String → Layout} {o : Option String} {known : String → Prop} {k : Nat}

theorem fst_resolvedMarks (k : Nat) (ann : List Marked) :
    (resolvedMarks k ann).map Prod.fst = resolved k (ann.map Prod.fst) := by
  simp [resolvedMarks, resolved, Function.comp_def]

/-- A mark stays right when the target of a jump becomes known. -/
theorem legal_congr {i j : Instr} {σ : Spot} {next : Option Spot} (hop : j.op = i.op)
    (hoperand : j.operand = i.operand) (h : Legal layout i σ next) : Legal layout j σ next := by
  cases h with
  | load hi hread => exact .load (hop.trans hi) (hoperand ▸ hread)
  | store hi hsize hwrite => exact .store (hop.trans hi) hsize (hoperand ▸ hwrite)
  | pop hi hsize => exact .pop (hop.trans hi) hsize
  | drop hi hn => exact .drop (hop.trans hi) hn
  | dup hi => exact .dup (hop.trans hi)
  | arith hi hsize => exact .arith (hop.trans hi) hsize
  | convert hi hsize => exact .convert (hi.imp hop.trans hop.trans) hsize
  | goto hi => exact .goto (hop.trans hi)
  | branch hi => exact .branch (hop.trans hi)
  | call hi hname hsize => exact .call (hop.trans hi) (hoperand.trans hname) hsize
  | ret hi => exact .ret (hop.trans hi)
  | halt hi => exact .halt (hop.trans hi)
  | nop hi => exact .nop (hop.trans hi)
  | entry hi => exact .entry (hop.trans hi)

theorem chained_resolvedMarks {owner : Option String} {ann : List Marked} {last : Option Spot}
    (h : Chained layout owner ann last) : Chained layout owner (resolvedMarks k ann) last := by
  induction ann generalizing owner with
  | nil => trivial
  | cons p ann ih =>
      obtain ⟨howner, hlegal, hrest⟩ := h
      have hhome : (Code.resolveInstr k p.1).home owner = p.1.home owner := by
        simp [Instr.home]
      have hhead : headSpot (resolvedMarks k ann) last = headSpot ann last := by
        cases ann <;> rfl
      refine ⟨howner.trans hhome.symm, ?_, ?_⟩
      · exact hhead ▸ legal_congr (op_resolveInstr _) (operand_resolveInstr _) hlegal
      · exact hhome ▸ ih hrest

theorem headSpot_resolvedMarks {ann : List Marked} {p : Marked} {last : Option Spot} :
    headSpot (resolvedMarks k (ann ++ [p])) last = headSpot ann (some p.2) := by
  cases ann <;> rfl

/-- **A stretch is sealed by an instruction that nothing follows** once the end of the function is
known. -/
theorem Fits.sealed {ann : List Marked} {σ τ : Spot} {i : Instr}
    (h : Fits layout o known (fun _ _ => False) ann σ τ) (hlast : ∀ next, Legal layout i τ next)
    (hτ : τ.owner = o) (hjump : i.op.isJump = false) (hcall : i.op ≠ .call)
    (hentry : ∀ name, i.op ≠ .entry name)
    (hk : ∃ q ∈ ann ++ [(i, τ)], q.1.id = k ∧ q.2 = waiting layout o 1) :
    ∃ ann', ann'.map Prod.fst = resolved k (ann.map Prod.fst ++ [i]) ∧
      (∀ last, headSpot ann' last = some σ) ∧ Sealed layout known o ann' := by
  refine ⟨resolvedMarks k (ann ++ [(i, τ)]), by simp [fst_resolvedMarks],
    fun last => headSpot_resolvedMarks.trans h.first,
    fun last => chained_resolvedMarks (chained_append.2 ⟨h.chained, ?_, hlast _, trivial⟩),
    fun p hp hop => ?_, fun p hp hop => ?_⟩
  · rw [h.homes_eq, home_eq hentry]
    exact hτ
  · obtain ⟨p, hp', rfl⟩ := List.mem_map.1 hp
    rcases List.mem_append.1 hp' with hmem | hmem
    · rcases h.targets p hmem (by simpa using hop) with
        ⟨hend, hmark⟩ | ⟨m, hm, hout | ⟨q, hq, hqm, hmark⟩⟩
      · obtain ⟨q, hq, hid, hqmark⟩ := hk
        exact ⟨_, List.mem_map_of_mem hq,
          by simp [Instr.targetId?, target_resolveInstr, hend, hid], hqmark.trans hmark.symm⟩
      · exact hout.elim
      · exact ⟨_, List.mem_map_of_mem (List.mem_append_left _ hq),
          by simp [Instr.targetId?, target_resolveInstr, hm, hqm], hmark⟩
    · rw [List.mem_singleton.1 hmem] at hop
      exact absurd hop (by simp [hjump])
  · obtain ⟨p, hp', rfl⟩ := List.mem_map.1 hp
    rw [op_resolveInstr] at hop
    simp only [operand_resolveInstr]
    rcases List.mem_append.1 hp' with hmem | hmem
    · exact h.calls p hmem hop
    · rw [List.mem_singleton.1 hmem] at hop
      exact absurd hop hcall

theorem Sealed.append {owner : Option String} {xs ys : List Marked}
    (hxs : Sealed layout known owner xs) (hys : ∀ owner, Sealed layout known owner ys) :
    Sealed layout known owner (xs ++ ys) := by
  refine ⟨fun last => chained_append.2 ⟨hxs.chained _, (hys _).chained last⟩, ?_, ?_⟩
  · intro p hp hop
    rcases List.mem_append.1 hp with hp | hp
    · obtain ⟨q, hq, hqp⟩ := hxs.targets p hp hop
      exact ⟨q, List.mem_append_left _ hq, hqp⟩
    · obtain ⟨q, hq, hqp⟩ := (hys none).targets p hp hop
      exact ⟨q, List.mem_append_right _ hq, hqp⟩
  · intro p hp
    rcases List.mem_append.1 hp with hp | hp
    · exact hxs.calls p hp
    · exact (hys none).calls p hp

/-- A function is entered with the cell for the result. -/
theorem Sealed.enter {owner : Option String} {name : String} {ann : List Marked} {i : Instr}
    (h : Sealed layout known (some name) ann)
    (hfirst : ∀ last, headSpot ann last = some ⟨some name, 1, false⟩) (hi : i.op = .entry name) :
    Sealed layout known owner ((i, ⟨some name, 1, false⟩) :: ann) := by
  have hhome : i.home owner = some name := by
    simp [Instr.home, hi]
  refine ⟨fun last => ⟨hhome.symm, hfirst last ▸ .entry hi, hhome ▸ h.chained last⟩,
    fun p hp hop => ?_, fun p hp hop => ?_⟩
  · rcases List.mem_cons.1 hp with rfl | hp
    · rw [hi] at hop
      cases hop
    · obtain ⟨q, hq, hqp⟩ := h.targets p hp hop
      exact ⟨q, List.mem_cons_of_mem _ hq, hqp⟩
  · rcases List.mem_cons.1 hp with rfl | hp
    · rw [hi] at hop
      cases hop
    · exact h.calls p hp hop

/-- Cells are made for the local variables. -/
theorem Fits.zeros {outs : Nat → Spot → Prop} (k n l : Nat) :
    ∃ ann, ann.map Prod.fst = copies k n .load (.int 0) ∧
      Fits layout o known outs ann ⟨o, l, false⟩ ⟨o, l + n, false⟩ := by
  induction n generalizing k l with
  | zero => exact ⟨[], rfl, .nil⟩
  | succ n ih =>
      obtain ⟨ann, hann, h⟩ := ih (k + 1) (l + 1)
      rw [Nat.add_right_comm] at h
      exact ⟨(.plain k .load (.int 0), ⟨o, l, false⟩) :: ann, by rw [copies_succ, ← hann]; rfl,
        .cons (.load rfl (Fits.readable_immediate .int)) rfl rfl nofun nofun h⟩

/-- The cells of the local variables are dropped. -/
theorem Fits.drops {outs : Nat → Spot → Prop} (k n : Nat) :
    ∃ ann, ann.map Prod.fst = copies k n .pop .none ∧
      Fits layout o known outs ann ⟨o, 1 + n, true⟩ ⟨o, 1, true⟩ := by
  induction n generalizing k with
  | zero => exact ⟨[], rfl, .nil⟩
  | succ n ih =>
      obtain ⟨ann, hann, h⟩ := ih (k + 1)
      exact ⟨(.plain k .pop .none, ⟨o, 1 + (n + 1), true⟩) :: ann,
        by rw [copies_succ, ← hann]; rfl,
        .cons (.drop rfl (Nat.le_add_right 1 n)) rfl rfl nofun nofun h⟩

end Units

end Lower

/-! ### The frames of a unit -/

/-- The frame of an inferred instance. -/
def Inferred.layout (f : Inferred) : Layout := ⟨f.params.length, f.scope.locals⟩

/-- **The frames of the functions of a typed unit**, by their names in the output. -/
def Typing.layout (t : Typing) (name : String) : Layout :=
  ((t.round.inferred.find? fun f => f.name = name).map Inferred.layout).getD ⟨0, 0⟩

namespace Lower

section Units

variable {t : Typing} {items : List (Node Mark)} {f : Inferred} {k k' : Nat} {code : List Instr}

theorem layout_of_find? {name : String}
    (h : t.round.inferred.find? (fun f => f.name = name) = some f) :
    t.layout name = f.layout := by
  rw [Typing.layout, h]
  rfl

/-- A function to which a call goes. -/
def IsReached (t : Typing) (name : String) : Prop := ∃ i ∈ reached t.round, i.name = name

theorem isReached_of_isInstance {n : Nat} {s : Symbol} (hk : t.round.IsInstance k n)
    (hs : t.round.symbols[k]? = some s) : IsReached t s.emittedName := by
  obtain ⟨s', i, hs', hused, hi, hname, -, hbound, -⟩ := hk
  rw [hs'] at hs
  cases hs
  refine ⟨i, List.mem_filter.2 ⟨hi, ?_⟩, hname⟩
  rw [hbound, Option.bind_some, hs']
  exact hused

/-- A call hands over as many arguments as the function has parameters. -/
theorem params_of_isInstance (ht : t.Sound items) {n : Nat} {s : Symbol}
    (hk : t.round.IsInstance k n) (hs : t.round.symbols[k]? = some s) :
    (t.layout s.emittedName).params = n ∧ IsReached t s.emittedName := by
  obtain ⟨s', f, hs', hfind, -, hlength, -⟩ := ht.exists_inferred hk
  rw [hs'] at hs
  cases hs
  exact ⟨by rw [layout_of_find? hfind]; exact hlength, isReached_of_isInstance hk hs'⟩

/-- The cells of the variables that a function sees can be written in it. -/
theorem writable_of_isVisible (hf : InferredWell t.round f) (hlayout : t.layout f.name = f.layout)
    {s : Symbol} {cell : Operand} {n : Nat}
    (hk : IsVisible t.round.symbols (some f.scope) k) (hs : t.round.symbols[k]? = some s)
    (hcell : s.storage.cell? = some cell) :
    Writable t.layout (some f.name) (frameSize t.layout (some f.name) + n) cell := by
  rcases hk with ⟨s', l, hs', hstorage⟩ | ⟨scope, hscope, name, hname⟩
  · rw [hs'] at hs
    cases hs
    rw [hstorage] at hcell
    cases hcell
    exact .global
  · cases hscope
    obtain ⟨-, s', offset, hs', -, hstorage, hout⟩ := hf.scope.bound name k hname
    rw [hs'] at hs
    cases hs
    rw [hstorage] at hcell
    cases hcell
    refine .frame (Nat.le_add_right _ _) ?_
    rw [hlayout]
    rcases hout with ⟨j, hj, rfl⟩ | ⟨j, hj, rfl⟩
    · rw [hf.params] at hj
      exact .inl ⟨j, hj.le, rfl⟩
    · exact .inr ⟨j, hj, rfl⟩

/-- The cells of the variables that the unit sees can be written outside of functions. -/
theorem writable_of_isGlobal {layout : String → Layout} {ss : Symbols} {s : Symbol}
    {cell : Operand} {n : Nat} (hk : IsVisible ss none k) (hs : ss[k]? = some s)
    (hcell : s.storage.cell? = some cell) : Writable layout none n cell := by
  rcases hk with ⟨s', l, hs', hstorage⟩ | ⟨scope, hscope, -⟩
  · rw [hs'] at hs
    cases hs
    rw [hstorage] at hcell
    cases hcell
    exact .global
  · cases hscope

/-- What is known where the body of an inferred instance is lowered. -/
def bodySurroundings (t : Typing) (f : Inferred) : Surroundings where
  layout := t.layout
  owner := some f.name
  known := IsReached t
  var := IsVisible t.round.symbols (some f.scope)
  fn := t.round.IsInstance

/-- What is known where the statements of the unit are lowered. -/
def unitSurroundings (t : Typing) : Surroundings where
  layout := t.layout
  owner := none
  known := IsReached t
  var := t.round.IsVariable
  fn := t.round.IsInstance

theorem agree_bodySurroundings (ht : t.Sound items) (hf : InferredWell t.round f)
    (hlayout : t.layout f.name = f.layout) : (bodySurroundings t f).Agree t.round.symbols where
  writable hk hs hcell := writable_of_isVisible hf hlayout hk hs hcell
  calls hk hs := params_of_isInstance ht hk hs

theorem agree_unitSurroundings (ht : t.Sound items) :
    (unitSurroundings t).Agree t.round.symbols where
  writable hk hs hcell := by
    change IsVisible t.round.symbols t.round.frame _ at hk
    rw [ht.noFrame] at hk
    exact writable_of_isGlobal hk hs hcell
  calls hk hs := params_of_isInstance ht hk hs

/-- **The code of a function has marks.** -/
theorem EmitsFunction.leveled (ht : t.Sound items) (hf : InferredWell t.round f)
    (hlayout : t.layout f.name = f.layout) (hfits : f.body.jumpsFit none 0 = true)
    (hasm : f.body.Every fun y => y.isAssembly = false)
    (h : EmitsFunction t.round.symbols f k code k') :
    ∃ ann, ann.map Prod.fst = code ∧ (∀ owner, Sealed t.layout (IsReached t) owner ann) ∧
      ∃ q ∈ ann, q.1.op = .entry f.name := by
  cases h with
  | @mk a k₁ comment hbody =>
      have hsize : frameSize t.layout (some f.name) = 1 + f.scope.locals := by
        rw [frameSize, hlayout]
        rfl
      obtain ⟨zeros, hzeros, hfit₀⟩ := @Fits.zeros t.layout (some f.name) (IsReached t)
        (fun _ _ => False) (k + 1) f.scope.locals 1
      obtain ⟨body, hbodycode, hfit₁⟩ :=
        hbody.leveled (agree_bodySurroundings ht hf hlayout) ⟨hf.body, hfits, hasm⟩
      obtain ⟨drops, hdrops, hfit₂⟩ := @Fits.drops t.layout (some f.name) (IsReached t)
        (fun _ _ => False) (k₁ + 1) f.scope.locals
      have hinner : Fits t.layout (some f.name) (IsReached t) (fun _ _ => False) body
          ⟨some f.name, 1 + f.scope.locals, false⟩
          ⟨some f.name, 1 + f.scope.locals + 1, false⟩ := by
        rw [← hsize]
        refine hfit₁.mono fun m υ hm => ?_
        rcases hm with ⟨l, hl, -⟩ | ⟨x, hx, -⟩
        · cases hl
        · cases hx
      have hstore : Legal t.layout ⟨k₁, .store, .frame (4 + 4 * f.params.length), none, comment⟩
          ⟨some f.name, 1 + f.scope.locals + 1, false⟩
          (some ⟨some f.name, 1 + f.scope.locals, true⟩) := by
        refine .store rfl hsize.le (.frame hsize.le (.inl ⟨f.params.length, ?_, ?_⟩))
        · rw [hlayout]
          exact le_rfl
        · omega
      obtain ⟨ann, hann, hfirst, hsealed⟩ := ((hfit₀.append hinner).append (.cons hstore rfl rfl
        (by simp) (by simp) hfit₂)).sealed (k := k₁)
          (i := .plain (k₁ + 1 + f.scope.locals) .ret .none) (fun _ => .ret rfl) rfl rfl
            (by simp [Instr.plain]) (by simp [Instr.plain])
            ⟨(⟨k₁, .store, .frame (4 + 4 * f.params.length), none, comment⟩,
              ⟨some f.name, 1 + f.scope.locals + 1, false⟩), by simp, rfl, by rw [waiting, hsize]⟩
      refine ⟨(.plain k (.entry f.name) .none, ⟨some f.name, 1, false⟩) :: ann, ?_,
        fun owner => hsealed.enter hfirst rfl, ⟨_, List.mem_cons_self, rfl⟩⟩
      rw [List.map_cons, hann]
      simp [hzeros, hbodycode, hdrops, resolved, Code.resolveInstr, Instr.plain]

/-- **The code of some functions has marks**, and each of them has its entry. -/
theorem EmitsFunctions.leveled (ht : t.Sound items)
    (hfits : ∀ f ∈ t.round.inferred, f.body.jumpsFit none 0 = true)
    (hasm : ∀ f ∈ t.round.inferred, f.body.Every fun y => y.isAssembly = false)
    {is : List Instance} (h : EmitsFunctions t.round is k code k') :
    ∃ ann, ann.map Prod.fst = code ∧ (∀ owner, Sealed t.layout (IsReached t) owner ann) ∧
      ∀ i ∈ is, ∃ q ∈ ann, q.1.op = .entry i.name := by
  induction h with
  | nil =>
      exact ⟨[], rfl, fun owner => ⟨fun _ => trivial, by simp, by simp⟩, by simp⟩
  | @cons i is f k k₁ k₂ a b hfound hf his ih =>
      have hmem := List.mem_of_find?_eq_some hfound
      have hname : f.name = i.name := by simpa using List.find?_some hfound
      have hlayout : t.layout f.name = f.layout := layout_of_find? (hname ▸ hfound)
      obtain ⟨ann, hann, hsealed, q, hq, hentry⟩ := hf.leveled ht (ht.round.inferred f hmem) hlayout
        (hfits f hmem) (hasm f hmem)
      obtain ⟨ann', hann', hsealed', hentries⟩ := ih
      refine ⟨ann ++ ann', by rw [List.map_append, hann, hann'],
        fun owner => (hsealed owner).append hsealed', fun j hj => ?_⟩
      rcases List.mem_cons.1 hj with rfl | hj
      · exact ⟨q, List.mem_append_left _ hq, hname ▸ hentry⟩
      · obtain ⟨q', hq', hentry'⟩ := hentries j hj
        exact ⟨q', List.mem_append_right _ hq', hentry'⟩

/-- An item has the shape of one of the unit, so what depends on shapes holds of it. -/
theorem exists_item {ys : List (Node Note)} (hshape : ys.map Node.shape = items.map Node.shape)
    {y : Node Note} (hy : y ∈ ys) : ∃ x ∈ items, y.shape = x.shape := by
  have hmem : y.shape ∈ items.map Node.shape := hshape ▸ List.mem_map_of_mem hy
  obtain ⟨x, hx, hxy⟩ := List.mem_map.1 hmem
  exact ⟨x, hx, hxy.symm⟩

/-- Whether there is target code in a tree is seen in a tree of the same shape. -/
theorem every_isAssembly_of_shape {α β : Type} {x : Node α} {y : Node β} (hxy : y.shape = x.shape)
    (h : x.Every fun z => z.isAssembly = false) : y.Every fun z => z.isAssembly = false := by
  rw [← Node.hasAssembly_eq_false, ← Node.hasAssembly_shape] at h ⊢
  rwa [hxy]

/-- **The code of a unit has marks** if the jumps of the unit fit. -/
theorem EmitsUnit.leveled (ht : t.Sound items) {mark : Mark}
    (hfits : (Node.unit mark items).jumpsFit none 0 = true)
    (hasm : (Node.unit mark items).hasAssembly = false) (h : EmitsUnit t code k) :
    ∃ ann, ann.map Prod.fst = code ∧ Leveled t.layout ann := by
  rw [Node.jumpsFit, Node.allFit_iff] at hfits
  have hasm := (Node.every_unit.1 (Node.hasAssembly_eq_false.1 hasm)).2
  cases h with
  | @mk n ys k k' a b hroot hbody hfunctions =>
      obtain ⟨n', ys', hroot', hshape, hresolved⟩ := ht.root
      obtain ⟨rfl, rfl⟩ := Node.unit.inj (hroot.symm.trans hroot')
      have hbodies : ∀ f ∈ t.round.inferred, f.body.jumpsFit none 0 = true ∧
          f.body.Every fun y => y.isAssembly = false := by
        intro f hf
        obtain ⟨m, p, b, hb, hbshape⟩ := ht.exists_define hf
        refine ⟨?_, every_isAssembly_of_shape hbshape (Node.every_define.1 (hasm _ hb)).2.2⟩
        rw [Node.jumpsFit_of_shape hbshape]
        have hfit := hfits _ hb
        rwa [Node.jumpsFit] at hfit
      have hitems : ∀ y ∈ ys.filter (fun x => !x.isDefinition),
          Settled t.round.IsVariable t.round.IsInstance .top y := by
        intro y hy
        obtain ⟨hy, hdefinition⟩ := List.mem_filter.1 hy
        obtain ⟨x, hx, hxy⟩ := exists_item hshape hy
        refine ⟨hresolved y hy (by simpa using hdefinition), ?_,
          every_isAssembly_of_shape hxy (hasm x hx)⟩
        rw [Node.jumpsFit_of_shape hxy]
        exact hfits x hx
      obtain ⟨functions, hcode, hsealed, hentries⟩ := hfunctions.leveled ht
        (fun f hf => (hbodies f hf).1) fun f hf => (hbodies f hf).2
      obtain ⟨ann, hann, hfit⟩ := hbody.leveled (agree_unitSurroundings ht) hitems
      have hinner : Fits t.layout none (IsReached t) (fun _ _ => False) ann ⟨none, 0, false⟩
          (waiting t.layout none 1) := by
        refine hfit.mono fun m υ hm => ?_
        rcases hm with ⟨l, hl, -⟩ | ⟨x, hx, -⟩
        · cases hl
        · cases hx
      obtain ⟨main, hmain, hfirst, hsealed'⟩ := hinner.sealed (k := k)
        (i := .plain k .halt .none) (fun _ => .halt rfl) rfl rfl nofun nofun
          ⟨(.plain k .halt .none, waiting t.layout none 1), by simp, rfl, rfl⟩
      have hunit := hsealed'.append hsealed
      refine ⟨main ++ functions, by rw [List.map_append, hmain, hann, hcode], hunit.chained none,
        ?_, hunit.targets, fun p hp hop name hname => ?_⟩
      · -- the statements and the halt are never without an instruction
        cases main with
        | nil => cases hfirst none
        | cons p main =>
            obtain ⟨i, σ⟩ := p
            cases hfirst none
            exact ⟨i, _, rfl⟩
      · obtain ⟨i, hi, rfl⟩ := hunit.calls p hp hop name hname
        obtain ⟨q, hq, hentry⟩ := hentries i hi
        exact ⟨q, List.mem_append_right _ hq, hentry⟩

end Units

end Lower

end StackLang
