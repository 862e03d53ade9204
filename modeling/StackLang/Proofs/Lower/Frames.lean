/-
**The code of a typed unit has known types of cells.**

The variables of a unit say what the frames of its functions look like: parameters above the return
cell, then the cell for the result, and local variables below.  With these frames the stamps of the
stretches of a unit fit together, from the entry of each function to its `RET`.

Main definitions:

* `Typing.Receives` — the cells that a variable or the result of a function stands for;
* `Typing.frameTypes` — the frames of the functions of a typed unit, with the types of their cells;
* `Typing.returnsFit` — the returns of a typed unit fit;
* `Lower.Enclosed` — the stamps of a stretch of code that nothing follows are right.

Main results:

* `Typing.fitting` — frames have room for the variables;
* `Lower.EmitsUnit.stamped` — the code of a unit has stamps if its returns fit.
-/

import StackLang.Proofs.Lower.Stamps
import StackLang.Proofs.Typing.Params

set_option relaxedAutoImplicit false
set_option autoImplicit false

namespace StackLang

/-! ### The frames of a unit -/

/-- The type of the variable that has the place in the frame, or that of integers if none has. -/
def Inferred.typeAt (ss : Symbols) (f : Inferred) (offset : Int) : Scalar :=
  (f.scope.names.findSome? fun p => (ss[p.2]?).bind fun s =>
    if s.storage = .frame offset then s.type else none).getD .int

/-- The types of the cells that an inferred instance works with. -/
def Inferred.frameTypes (r : Round) (f : Inferred) : FrameTypes where
  params := (List.range f.params.length).map fun j : Nat => f.typeAt r.symbols (4 * (j + 1))
  result := r.instances.returns f.name
  locals := (List.range f.scope.locals).map fun j : Nat => f.typeAt r.symbols (-4 * (j + 1))

namespace Typing

/-- **The frames of the functions of a typed unit**, by their names in the output. -/
def frameTypes (t : Typing) (name : String) : FrameTypes :=
  ((t.round.inferred.find? fun f => f.name = name).map (Inferred.frameTypes t.round)).getD
    ⟨[], .int, []⟩

/-- **The places of a typed unit receive cells of a type**: those of variables cells of the type of
the variable, and the place for the result of a function cells of the type that is recorded of it.
-/
inductive Receives (t : Typing) : CellTyping where
  | global {o : Option String} {k : Nat} {s : Symbol} {label : String} {type : Scalar}
      (hs : t.round.symbols[k]? = some s) (hstorage : s.storage = .global label)
      (htype : s.type = some type) : Receives t o (.global label) type
  | frame {f : Inferred} {k : Nat} {s : Symbol} {offset : Int} {type : Scalar}
      (hf : f ∈ t.round.inferred) (hk : f.scope.Binds k) (hs : t.round.symbols[k]? = some s)
      (hstorage : s.storage = .frame offset) (htype : s.type = some type) :
      Receives t (some f.name) (.frame offset) type
  | result {f : Inferred} (hf : f ∈ t.round.inferred) :
      Receives t (some f.name) (.frame (4 * (f.params.length + 1)))
        (t.round.instances.returns f.name)

/-- **The returns of a typed unit fit.**  A function returns cells of the type that is recorded of
it, and what is returned outside of functions is of no use to anyone. -/
def returnsFit (t : Typing) : Bool :=
  t.root.returnsFit none (some false) false &&
    t.round.inferred.all fun f =>
      f.body.returnsFit (some (t.round.instances.returns f.name)) (some false) false

end Typing

/-- The place of a variable has its type. -/
theorem Inferred.typeAt_eq {ss : Symbols} {f : Inferred} {k : Nat} {s : Symbol} {offset : Int}
    {type : Scalar} (hscope : f.scope.Sound ss) (hk : f.scope.Binds k) (hs : ss[k]? = some s)
    (hstorage : s.storage = .frame offset) (htype : s.type = some type) :
    f.typeAt ss offset = type := by
  rw [Inferred.typeAt]
  cases hfind : f.scope.names.findSome? fun p => (ss[p.2]?).bind fun s =>
      if s.storage = .frame offset then s.type else none with
  | none =>
      obtain ⟨name, hname⟩ := hk
      have hmissing := List.findSome?_eq_none_iff.1 hfind (name, k) hname
      rw [hs, Option.bind_some, if_pos hstorage, htype] at hmissing
      cases hmissing
  | some type' =>
      obtain ⟨p, hp, hfound⟩ := List.exists_of_findSome?_eq_some hfind
      obtain ⟨s', hs', hfound⟩ := Option.bind_eq_some_iff.1 hfound
      split at hfound
      · case isTrue hstorage' =>
          obtain rfl := hscope.distinct p.2 k s' s offset ⟨p.1, hp⟩ hk hs' hs hstorage' hstorage
          cases hs.symm.trans hs'
          exact Option.some.inj (hfound.symm.trans htype)
      · cases hfound

namespace Typing

variable {t : Typing} {items : List (Node Mark)} {f : Inferred} {name : String}

theorem frameTypes_of_find?
    (h : t.round.inferred.find? (fun f => f.name = name) = some f) :
    t.frameTypes name = f.frameTypes t.round := by
  rw [frameTypes, h]
  rfl

theorem frameTypes_eq (h : t.Consistent items) (hf : f ∈ t.round.inferred) :
    t.frameTypes f.name = f.frameTypes t.round := by
  obtain ⟨g, hfind⟩ := Option.isSome_iff_exists.1
    (List.find?_isSome (p := fun g : Inferred => decide (g.name = f.name)).2
      ⟨f, hf, decide_eq_true rfl⟩)
  obtain rfl : g = f := List.inj_on_of_nodup_map h.nodup (List.mem_of_find?_eq_some hfind) hf
    (by simpa using List.find?_some hfind)
  exact frameTypes_of_find? hfind

/-- **Frames have room for the variables**, each of its type. -/
theorem fitting (hsound : t.Sound items) (h : t.Consistent items) :
    Fitting t.frameTypes t.Receives := by
  refine ⟨?_, ?_, ?_⟩
  · intro o offset type hcell
    cases hcell with
    | @frame f k s offset type hf hk hs hstorage htype =>
        have hwell := hsound.round.inferred f hf
        have htypeAt := Inferred.typeAt_eq hwell.scope hk hs hstorage htype
        refine ⟨f.name, rfl, ?_⟩
        rw [frameTypes_eq h hf]
        obtain ⟨name, hname⟩ := hk
        obtain ⟨-, s', offset', hs', -, hstorage', hout⟩ := hwell.scope.bound name k hname
        cases hs.symm.trans hs'
        cases hstorage.symm.trans hstorage'
        rcases hout with ⟨j, hj, rfl⟩ | ⟨j, hj, rfl⟩
        · rw [hwell.params] at hj
          refine .inl ⟨j, ?_, rfl⟩
          rw [List.getElem?_append_left (by simpa [Inferred.frameTypes] using hj)]
          simp [Inferred.frameTypes, List.getElem?_range hj, ← htypeAt]
        · refine .inr ⟨j, ?_, rfl⟩
          simp [Inferred.frameTypes, List.getElem?_range hj, ← htypeAt]
    | @result f hf =>
        refine ⟨f.name, rfl, ?_⟩
        rw [frameTypes_eq h hf]
        exact .inl ⟨f.params.length, by simp [Inferred.frameTypes], rfl⟩
  · intro o o' label type type' hcell hcell'
    cases hcell with
    | global hs hstorage htype =>
        cases hcell' with
        | global hs' hstorage' htype' =>
            obtain rfl := hsound.round.distinct _ _ _ _ label hs hs' hstorage hstorage'
            cases hs.symm.trans hs'
            exact Option.some.inj (htype.symm.trans htype')
  · intro o operand type hcell
    cases hcell with
    | global => exact .inl ⟨_, rfl⟩
    | frame | result => exact .inr ⟨_, rfl⟩

/-- What a name of the unit stands for receives cells of its type. -/
theorem receives_of_global (hsound : t.Sound items) {o : Option String} {x : String} {k : Nat}
    {s : Symbol} {operand : Operand} {type : Scalar} (hx : t.round.globals.lookup x = some k)
    (hs : t.round.symbols[k]? = some s) (hvariable : s.definition = none)
    (htype : s.type = some type) (hcell : s.storage.cell? = some operand) :
    t.Receives o operand type := by
  obtain ⟨s', hs', hbound⟩ := hsound.round.globals x k (Scope.lookup_mem hx)
  cases hs.symm.trans hs'
  cases hbound with
  | defined _ _ _ hfunction => simp [hvariable] at hfunction
  | cell _ _ hstorage =>
      rw [hstorage] at hcell
      cases hcell
      exact .global hs hstorage htype
  | made _ _ _ hfunction => simp [hvariable] at hfunction

/-- **What a name stands for receives cells of its type.** -/
theorem receives_of_names (hsound : t.Sound items) (hf : f ∈ t.round.inferred) {x : String}
    {k : Nat} {type : Scalar} {s : Symbol} {operand : Operand}
    (hx : t.round.Names (some f.scope) x k type) (hs : t.round.symbols[k]? = some s)
    (hcell : s.storage.cell? = some operand) : t.Receives (some f.name) operand type := by
  obtain ⟨hlookup, s', hs', hvariable, htype⟩ := hx
  cases hs.symm.trans hs'
  rcases Option.or_eq_some_iff.1 hlookup with hlocal | ⟨-, hglobal⟩
  · have hk := Scope.lookup_mem hlocal
    obtain ⟨-, s', offset, hs', -, hstorage, -⟩ :=
      (hsound.round.inferred f hf).scope.bound x k hk
    cases hs.symm.trans hs'
    rw [hstorage] at hcell
    cases hcell
    exact .frame hf ⟨x, hk⟩ hs hstorage htype
  · exact receives_of_global hsound hglobal hs hvariable htype hcell

/-- The parameters of an instance have the types that it is for. -/
theorem params_frameTypes (hsound : t.Sound items) (hf : f ∈ t.round.inferred)
    (hparams : t.round.HasParams f) {i : Instance} (hi : i ∈ t.round.instances.made)
    (hname : i.name = f.name) : (f.frameTypes t.round).params = i.args := by
  have hwell := hsound.round.inferred f hf
  obtain ⟨i', hi', hname', hlength, htypes⟩ := hparams
  obtain rfl := List.inj_on_of_nodup_map hsound.round.instances.nodup hi' hi
    (hname'.trans hname.symm)
  refine List.ext_getElem (by simp [Inferred.frameTypes, hlength]) fun j hj hj' => ?_
  have hlt : j < f.params.length := hlength ▸ hj'
  obtain ⟨k, s, hk, hs, hstorage⟩ := hwell.param j f.params[j] (List.getElem?_eq_getElem hlt)
  obtain ⟨k', s', hk', hs', -, htype⟩ := htypes (f.params[j], i'.args[j])
    (List.mem_of_getElem? (i := j) (by rw [List.getElem?_zip_eq_some]; simp [hlt, hj']))
  cases hk.symm.trans hk'
  cases hs.symm.trans hs'
  simp only [Inferred.frameTypes, List.getElem_map, List.getElem_range]
  exact Inferred.typeAt_eq hwell.scope ⟨_, Scope.lookup_mem hk⟩ hs hstorage htype

/-- **A call counts on the types that the frame of its function has.** -/
theorem frameTypes_of_isCall (hsound : t.Sound items) (h : t.Consistent items)
    (hparams : ∀ f ∈ t.round.inferred, t.round.HasParams f)
    (hreturns : ∀ f ∈ t.round.inferred,
      f.body.note.type = some (t.round.instances.returns f.name))
    {f : String} {types : List Scalar} {k : Nat} {type : Scalar} {s : Symbol}
    (hcall : t.IsCall f types k type) (hs : t.round.symbols[k]? = some s) :
    (t.frameTypes s.emittedName).params = types ∧ (t.frameTypes s.emittedName).result = type := by
  obtain ⟨i, hbinds, g, hg, hname, htype⟩ := hcall
  have hemitted : s.emittedName = i.name := by
    obtain ⟨s', hs', hbound⟩ := hsound.round.globals i.name k (Scope.lookup_mem hbinds.bound)
    cases hs.symm.trans hs'
    have hdecorated : ¬ IsSourceName i.name := hbinds.name ▸ not_isSourceName_decorate _ _
    cases hbound with
    | defined hn => exact absurd hn hdecorated
    | cell hn => exact absurd hn hdecorated
    | made _ _ hemitted => exact hemitted
  rw [hemitted, ← hname, frameTypes_eq h hg]
  refine ⟨?_, Option.some.inj ((hreturns g hg).symm.trans htype)⟩
  rw [params_frameTypes hsound hg (hparams g hg) hbinds.made hname.symm, hbinds.args]

end Typing

namespace Lower

/-! ### Functions and units -/

section Enclosed

variable {frames : String → FrameTypes} {cell : CellTyping} {o owner : Option String}
  {leave : Stamp → Prop} {ann xs ys : List Stamped} {σ τ : Stamp} {i j : Instr} {k : Nat}

/-- **The stamps of a stretch of code that nothing follows are right**: all its jumps go to
instructions of the stretch. -/
structure Enclosed (frames : String → FrameTypes) (cell : CellTyping) (owner : Option String)
    (ann : List Stamped) : Prop where
  chained : ∀ last, Stamp.Chained frames cell owner ann last
  targets : ∀ p ∈ ann, p.1.op.isJump = true →
    ∃ q ∈ ann, p.1.targetId? = some q.1.id ∧ (q.2 = p.2 ∨ q.1.op = .halt)

/-- Stamped code with the end of its function known. -/
def resolvedStamps (epilogue : Nat) (ann : List Stamped) : List Stamped :=
  ann.map fun p => (Code.resolveInstr epilogue p.1, p.2)

theorem fst_resolvedStamps (k : Nat) (ann : List Stamped) :
    (resolvedStamps k ann).map Prod.fst = resolved k (ann.map Prod.fst) := by
  simp [resolvedStamps, resolved, Function.comp_def]

/-- A stamp stays right when the target of a jump becomes known. -/
theorem legalStamp_congr {next : Option Stamp} (hop : j.op = i.op)
    (hoperand : j.operand = i.operand) (h : Stamp.Legal frames cell i σ next) :
    Stamp.Legal frames cell j σ next := by
  cases h with
  | load hi hread => exact .load (hop.trans hi) (hoperand ▸ hread)
  | store hi hcell => exact .store (hop.trans hi) (hoperand ▸ hcell)
  | pop hi => exact .pop (hop.trans hi)
  | arith hi => exact .arith (hop.trans hi)
  | toFloat hi => exact .toFloat (hop.trans hi)
  | toInt hi => exact .toInt (hop.trans hi)
  | goto hi => exact .goto (hop.trans hi)
  | branch hi => exact .branch (hop.trans hi)
  | call hi hname => exact .call (hop.trans hi) (hoperand.trans hname)
  | ret hi => exact .ret (hop.trans hi)
  | halt hi => exact .halt (hop.trans hi)
  | nop hi => exact .nop (hop.trans hi)
  | entry hi => exact .entry (hop.trans hi)

theorem head_resolvedStamps {last : Option Stamp} :
    Stamp.head (resolvedStamps k ann) last = Stamp.head ann last := by
  cases ann <;> rfl

theorem chained_resolvedStamps {last : Option Stamp}
    (h : Stamp.Chained frames cell owner ann last) :
    Stamp.Chained frames cell owner (resolvedStamps k ann) last := by
  induction ann generalizing owner with
  | nil => trivial
  | cons p ann ih =>
      obtain ⟨howner, hlegal, hrest⟩ := h
      have hhome : (Code.resolveInstr k p.1).home owner = p.1.home owner := by
        simp [Instr.home]
      refine ⟨howner.trans hhome.symm, ?_, hhome ▸ ih hrest⟩
      exact (@head_resolvedStamps ann k last) ▸
        legalStamp_congr (op_resolveInstr _) (operand_resolveInstr _) hlegal

/-- **A stretch is enclosed by an instruction that nothing follows** once the end of the function is
known. -/
theorem Conforms.enclosed (h : Conforms frames cell o leave (fun _ _ => False) ann σ τ)
    (hlast : ∀ next, Stamp.Legal frames cell i τ next) (hτ : τ.owner = o)
    (hjump : i.op.isJump = false) (hentry : ∀ name, i.op ≠ .entry name)
    (hk : ∀ υ, leave υ →
      ∃ q ∈ ann ++ [(i, τ)], q.1.id = k ∧ (q.2 = υ ∨ q.1.op = .halt)) :
    ∃ ann', ann'.map Prod.fst = resolved k (ann.map Prod.fst ++ [i]) ∧
      (∀ last, Stamp.head ann' last = some σ) ∧ Enclosed frames cell o ann' := by
  have hfirst : ∀ last, Stamp.head (ann ++ [(i, τ)]) last = some σ := fun last => by
    rw [Stamp.head_append, Stamp.head_cons]
    exact h.first
  refine ⟨resolvedStamps k (ann ++ [(i, τ)]), by simp [fst_resolvedStamps],
    fun last => head_resolvedStamps.trans (hfirst last),
    fun last => chained_resolvedStamps
      (Stamp.chained_append_iff.2 ⟨h.chained, ?_, hlast _, trivial⟩),
    fun p hp hop => ?_⟩
  · rw [h.homes_eq, home_eq hentry]
    exact hτ
  · obtain ⟨p, hp', rfl⟩ := List.mem_map.1 hp
    rcases List.mem_append.1 hp' with hmem | hmem
    · rcases h.targets p hmem (by simpa using hop) with
        ⟨hend, hleave⟩ | ⟨m, hm, hout | ⟨q, hq, hqm, hsame⟩⟩
      · obtain ⟨q, hq, hid, hsame⟩ := hk _ hleave
        exact ⟨_, List.mem_map_of_mem hq,
          by simp [Instr.targetId?, target_resolveInstr, hend, hid], by simpa using hsame⟩
      · exact hout.elim
      · exact ⟨_, List.mem_map_of_mem (List.mem_append_left _ hq),
          by simp [Instr.targetId?, target_resolveInstr, hm, hqm], .inl hsame⟩
    · rw [List.mem_singleton.1 hmem] at hop
      exact absurd hop (by simp [hjump])

theorem Enclosed.append (hxs : Enclosed frames cell owner xs)
    (hys : ∀ owner, Enclosed frames cell owner ys) : Enclosed frames cell owner (xs ++ ys) := by
  refine ⟨fun last => Stamp.chained_append_iff.2 ⟨hxs.chained _, (hys _).chained last⟩, ?_⟩
  intro p hp hop
  rcases List.mem_append.1 hp with hp | hp
  · obtain ⟨q, hq, hqp⟩ := hxs.targets p hp hop
    exact ⟨q, List.mem_append_left _ hq, hqp⟩
  · obtain ⟨q, hq, hqp⟩ := (hys none).targets p hp hop
    exact ⟨q, List.mem_append_right _ hq, hqp⟩

/-- A function is entered with its return cell. -/
theorem Enclosed.enter {name : String} (h : Enclosed frames cell (some name) ann)
    (hfirst : ∀ last, Stamp.head ann last = some ⟨some name, [.int]⟩) (hi : i.op = .entry name) :
    Enclosed frames cell owner ((i, ⟨some name, [.int]⟩) :: ann) := by
  have hhome : i.home owner = some name := by
    simp [Instr.home, hi]
  refine ⟨fun last => ⟨hhome.symm, hfirst last ▸ .entry hi, hhome ▸ h.chained last⟩,
    fun p hp hop => ?_⟩
  rcases List.mem_cons.1 hp with rfl | hp
  · rw [hi] at hop
    cases hop
  · obtain ⟨q, hq, hqp⟩ := h.targets p hp hop
    exact ⟨q, List.mem_cons_of_mem _ hq, hqp⟩

end Enclosed

section Units

variable {t : Typing} {items : List (Node Mark)} {f : Inferred} {k k' : Nat} {code : List Instr}

/-- What lowering relies on in a typed unit without target code, whose returns fit. -/
structure Suitable (items : List (Node Mark)) (t : Typing) : Prop where
  sound : t.Sound items
  consistent : t.Consistent items
  params : ∀ f ∈ t.round.inferred, t.round.HasParams f
  returns : ∀ f ∈ t.round.inferred, f.body.note.type = some (t.round.instances.returns f.name)
  noAssembly : ∀ x ∈ items, x.Every fun y => y.isAssembly = false
  fits : t.returnsFit = true

/-- The body of an instance is checked against the type that is recorded of it. -/
theorem Suitable.body (h : Suitable items t) (hf : f ∈ t.round.inferred) :
    Checked (t.round.Names (some f.scope)) t.IsCall (some (t.round.instances.returns f.name))
      (some false) false f.body := by
  obtain ⟨m, p, b, hb, hshape⟩ := h.sound.exists_define hf
  have hfits := h.fits
  rw [Typing.returnsFit, Bool.and_eq_true, List.all_eq_true] at hfits
  exact ⟨(h.consistent.inferred f hf).1, hfits.2 f hf,
    every_isAssembly_of_shape hshape (Node.every_define.1 (h.noAssembly _ hb)).2.2⟩

/-- What is known where the body of an inferred instance is lowered. -/
def bodySetting (t : Typing) (f : Inferred) : Setting where
  frames := t.frameTypes
  cell := t.Receives
  owner := some f.name
  leave υ := υ = waits t.frameTypes (some f.name) [t.round.instances.returns f.name]
  var := t.round.Names (some f.scope)
  fn := t.IsCall
  result := some (t.round.instances.returns f.name)

/-- What is known where the statements of the unit are lowered: the halt takes any cells. -/
def rootSetting (t : Typing) : Setting where
  frames := t.frameTypes
  cell := t.Receives
  owner := none
  leave _ := True
  var := t.round.Names none
  fn := t.IsCall
  result := none

theorem suits_bodySetting (h : Suitable items t) (hf : f ∈ t.round.inferred) :
    (bodySetting t f).Suits t.round.symbols where
  names hx hs hcell := Typing.receives_of_names h.sound hf hx hs hcell
  calls hcall hs :=
    Typing.frameTypes_of_isCall h.sound h.consistent h.params h.returns hcall hs
  leaves _ htype := congrArg (fun type => waits t.frameTypes (some f.name) [type]) (htype _ rfl)

theorem suits_rootSetting (h : Suitable items t) : (rootSetting t).Suits t.round.symbols where
  names := by
    rintro x k type s operand ⟨hlookup, s', hs', hvariable, htype⟩ hs hcell
    cases hs.symm.trans hs'
    exact Typing.receives_of_global h.sound hlookup hs hvariable htype hcell
  calls hcall hs :=
    Typing.frameTypes_of_isCall h.sound h.consistent h.params h.returns hcall hs
  leaves _ _ := trivial

/-- Where there is no loop around, jumps stay in the stretch or go to the end of the function. -/
theorem Conforms.alone {S : Setting} {piece : Piece} {ann : List Stamped} {σ τ : Stamp}
    (h : Conforms S.frames S.cell S.owner S.leave (S.offered .top piece [] []) ann σ τ)
    (hpiece : ∀ x m, piece ≠ .test x m) :
    Conforms S.frames S.cell S.owner S.leave (fun _ _ => False) ann σ τ := by
  refine h.within ?_ fun x m hx => hpiece x m hx
  rintro l ⟨⟩

/-- **The code of a function has stamps.** -/
theorem EmitsFunction.stamped (h : Suitable items t) (hf : f ∈ t.round.inferred)
    (hcode : EmitsFunction t.round.symbols f k code k') :
    ∃ ann, ann.map Prod.fst = code ∧ ∀ owner, Enclosed t.frameTypes t.Receives owner ann := by
  cases hcode with
  | @mk a k₁ comment hbody =>
      let S := bodySetting t f
      let result := t.round.instances.returns f.name
      let locals := (f.frameTypes t.round).locals
      have hcells : frameCells t.frameTypes (some f.name) = locals.reverse ++ [.int] := by
        rw [frameCells, Typing.frameTypes_eq h.consistent hf]
        rfl
      have hlocals : locals.length = f.scope.locals := by
        simp [locals, Inferred.frameTypes]
      have hplace : t.Receives (some f.name) (.frame (4 + 4 * f.params.length)) result := by
        have heq : (4 + 4 * f.params.length : Int) = 4 * (f.params.length + 1) := by ring
        rw [heq]
        exact .result hf
      -- zeros for the local variables, the body, its store, and the drops of the local variables
      obtain ⟨zeros, hzeros, hfit₀⟩ := @Conforms.zeros S.frames S.cell S.owner S.leave
        (fun _ _ => False) (k + 1) locals [.int]
      obtain ⟨body, hbodycode, hfit₁⟩ := hbody.stamped (suits_bodySetting h hf) [] []
        (some false) false [result] (h.body hf) .top
        ⟨_, rfl, fun _ => by rw [Node.scalar, h.returns f hf]; rfl⟩
      obtain ⟨drops, hdrops, hfit₂⟩ := @Conforms.drops S.frames S.cell S.owner S.leave
        (fun _ _ => False) (k₁ + 1) locals.reverse [.int]
      have hfit₃ : Conforms S.frames S.cell S.owner S.leave (fun _ _ => False) _ _ _ :=
        Conforms.store (w := []) k₁ comment hplace
      rw [hlocals] at hzeros
      rw [List.length_reverse, hlocals] at hdrops
      rw [← hcells] at hfit₀ hfit₂
      obtain ⟨ann, hann, hfirst, henclosed⟩ := ((hfit₀.append (hfit₁.alone (by simp))).append
        (hfit₃.append hfit₂)).enclosed (k := k₁)
          (i := .plain (k₁ + 1 + f.scope.locals) .ret .none) (fun _ => .ret rfl) rfl rfl
            (by simp [Instr.plain]) (fun υ hυ => ⟨(⟨k₁, .store, .frame (4 + 4 * f.params.length),
              none, comment⟩, waits S.frames S.owner [result]), by simp, rfl, .inl (Eq.symm hυ)⟩)
      refine ⟨(.plain k (.entry f.name) .none, ⟨some f.name, [.int]⟩) :: ann, ?_,
        fun owner => henclosed.enter hfirst rfl⟩
      rw [List.map_cons, hann]
      simp [hzeros, hbodycode, hdrops, resolved, Code.resolveInstr, Instr.plain]

/-- **The code of some functions has stamps.** -/
theorem EmitsFunctions.stamped (h : Suitable items t) {is : List Instance}
    (hcode : EmitsFunctions t.round is k code k') :
    ∃ ann, ann.map Prod.fst = code ∧ ∀ owner, Enclosed t.frameTypes t.Receives owner ann := by
  induction hcode with
  | nil => exact ⟨[], rfl, fun owner => ⟨fun _ => trivial, by simp⟩⟩
  | @cons i is f k k₁ k₂ a b hfound hf his ih =>
      obtain ⟨ann, hann, henclosed⟩ := hf.stamped h (List.mem_of_find?_eq_some hfound)
      obtain ⟨ann', hann', henclosed'⟩ := ih
      exact ⟨ann ++ ann', by rw [List.map_append, hann, hann'],
        fun owner => (henclosed owner).append henclosed'⟩

/-- **The code of a unit has stamps** if its returns fit. -/
theorem EmitsUnit.stamped (h : Suitable items t) (hcode : EmitsUnit t code k) :
    ∃ ann, ann.map Prod.fst = code ∧ WellStamped t.frameTypes t.Receives ann := by
  cases hcode with
  | @mk n ys k k' a b hroot hbody hfunctions =>
      obtain ⟨mark, ys', hroot', hshape, htyped⟩ := h.consistent.root
      obtain ⟨rfl, rfl⟩ := Node.unit.inj (hroot.symm.trans hroot')
      have hfits := h.fits
      rw [Typing.returnsFit, Bool.and_eq_true, hroot, Node.returnsFit,
        Node.allReturnsFit_iff] at hfits
      have hitems : ∀ y ∈ ys.filter (fun x => !x.isDefinition),
          Checked (t.round.Names none) t.IsCall none (some false) false y := by
        intro y hy
        obtain ⟨hy, hdefinition⟩ := List.mem_filter.1 hy
        obtain ⟨x, hx, hxy⟩ := exists_item hshape hy
        exact ⟨htyped y hy (by simpa using hdefinition), hfits.1 y hy,
          every_isAssembly_of_shape hxy (h.noAssembly x hx)⟩
      obtain ⟨main, hmain, hfit⟩ := hbody.stamped (suits_rootSetting h) [] [] (some false) false _
        hitems .top rfl
      -- what is returned outside of functions ends at the halt, which shows any cell
      obtain ⟨ann, hann, hfirst, henclosed⟩ := (hfit.alone (by simp)).enclosed
        (k := k) (i := .plain k .halt .none) (fun _ => .halt rfl) rfl rfl (by simp [Instr.plain])
          (fun υ _ => ⟨_, List.mem_append_right _ List.mem_cons_self, rfl, .inr rfl⟩)
      obtain ⟨functions, hfunctions, henclosed'⟩ := hfunctions.stamped h
      have hunit := henclosed.append henclosed'
      refine ⟨ann ++ functions, by rw [List.map_append, hann, hmain, hfunctions],
        hunit.chained none, ?_, hunit.targets⟩
      cases ann with
      | nil => cases hfirst none
      | cons p ann =>
          obtain ⟨i, σ⟩ := p
          cases hfirst none
          exact ⟨i, _, rfl⟩

end Units

end Lower

end StackLang
