/-
**The references of a program close.**

A text on which inference succeeds has code, and no stage behind inference finds anything missing.
The jumps of its lines go to labels among them, its calls to functions, and its variables have
cells.  All these names are made with counts or by decoration, the three sorts in ways that differ,
so no name is defined twice.

Main definitions:

* `Code.LabelsMade` — labels with distinct counts, for distinct instructions;
* `Code.IsFinished` — what holds of code as it is written;
* `Line.name?`, `IsClosed` — the name that a line defines, and lines whose references close.

Main results:

* `Code.labelsMade_labelTargets` — the labels of jump targets are made like that;
* `Compile.exists_lower_of_infer` — what was inferred has code, and the code is as it should be;
* `Code.IsFinished.isClosed` — the references of such code close.
-/

import StackLang.Proofs.Discipline
import StackLang.Proofs.Lower.Total
import StackLang.Proofs.Peephole.Kept

set_option relaxedAutoImplicit false
set_option autoImplicit false

namespace StackLang

/-! ### Labels of jump targets -/

namespace Code

variable {labels : List (Nat × String)} {counters : Counters} {is : List Instr} {k n : Nat}
  {l : String}

/-- Labels made with the first `n` counts, no two of them alike or of one instruction. -/
structure LabelsMade (n : Nat) (labels : List (Nat × String)) : Prop where
  made : ∀ p ∈ labels, ∃ j < n, p.2 = jumpLabel j
  keys : (labels.map Prod.fst).Nodup
  names : (labels.map Prod.snd).Nodup

theorem LabelsMade.cons (h : LabelsMade n labels) (hk : labels.lookup k = none) :
    LabelsMade (n + 1) ((k, jumpLabel n) :: labels) := by
  constructor
  case made =>
    intro p hp
    rcases List.mem_cons.1 hp with rfl | hp
    · exact ⟨n, Nat.lt_succ_self n, rfl⟩
    · obtain ⟨j, hj, hname⟩ := h.made p hp
      exact ⟨j, by omega, hname⟩
  case keys =>
    refine List.nodup_cons.2 ⟨fun hmem => ?_, h.keys⟩
    obtain ⟨p, hp, hpk⟩ := List.mem_map.1 hmem
    have hne := List.lookup_eq_none_iff.1 hk p hp
    simp [hpk] at hne
  case names =>
    -- the labels before have smaller counts
    refine List.nodup_cons.2 ⟨fun hmem => ?_, h.names⟩
    obtain ⟨p, hp, hpn⟩ := List.mem_map.1 hmem
    obtain ⟨j, hj, hname⟩ := h.made p hp
    have hjn : j = n := jumpLabel_inj (hname.symm.trans hpn)
    omega

/-- An instruction has the only one of its label. -/
theorem LabelsMade.lookup_inj (h : LabelsMade n labels) {j : Nat} (hj : labels.lookup j = some l)
    (hk : labels.lookup k = some l) : j = k :=
  congrArg Prod.fst (List.inj_on_of_nodup_map h.names (mem_of_lookup hj) (mem_of_lookup hk) rfl)

theorem LabelsMade.exists_eq (h : LabelsMade n labels) (hk : labels.lookup k = some l) :
    ∃ j, l = jumpLabel j := by
  obtain ⟨j, -, hj⟩ := h.made _ (mem_of_lookup hk)
  exact ⟨j, hj⟩

/-- **The labels of jump targets** have distinct counts. -/
theorem labelsMade_labelTargets (h : LabelsMade counters.labels labels) :
    LabelsMade (labelTargets labels counters is).2.labels (labelTargets labels counters is).1 := by
  induction is generalizing labels counters with
  | nil => exact h
  | cons i is ih =>
      rw [labelTargets]
      cases i.targetId? with
      | none => exact ih h
      | some k =>
          cases hk : labels.lookup k with
          | some l =>
              simp only [hk]
              exact ih h
          | none =>
              simp only [hk]
              exact @ih _ counters.labelName.2 (h.cons hk)

/-- A label that was given stays. -/
theorem lookup_labelTargets (h : labels.lookup k = some l) :
    (labelTargets labels counters is).1.lookup k = some l := by
  induction is generalizing labels counters with
  | nil => exact h
  | cons i is ih =>
      rw [labelTargets]
      cases i.targetId? with
      | none => exact ih h
      | some j =>
          cases hj : labels.lookup j with
          | some l =>
              simp only [hj]
              exact ih h
          | none =>
              simp only [hj]
              refine ih ?_
              -- the new label is for an instruction that had none
              have hne : (k == j) = false := by
                rw [beq_eq_false_iff_ne]
                rintro rfl
                rw [h] at hj
                cases hj
              rw [List.lookup_cons, hne]
              exact h

/-- **Every jump target gets a label.** -/
theorem exists_lookup_labelTargets {i : Instr} (hi : i ∈ is) (hk : i.targetId? = some k) :
    ∃ l, (labelTargets labels counters is).1.lookup k = some l := by
  induction is generalizing labels counters with
  | nil => cases hi
  | cons j is ih =>
      rw [labelTargets]
      rcases List.mem_cons.1 hi with rfl | hi
      · rw [hk]
        cases hl : labels.lookup k with
        | some l =>
            simp only [hl]
            exact ⟨l, lookup_labelTargets hl⟩
        | none =>
            simp only [hl]
            exact ⟨_, lookup_labelTargets (List.lookup_cons_self ..)⟩
      · cases j.targetId? with
        | none => exact ih hi
        | some m =>
            cases hl : labels.lookup m with
            | some l =>
                simp only [hl]
                exact ih hi
            | none =>
                simp only [hl]
                exact ih hi

/-- The optimizer gives no labels. -/
theorem labels_optimizeFrom (fuel : Nat) (c : Code) (s : Peephole.Stats) :
    (c.optimizeFrom fuel s).1.labels = c.labels := by
  induction fuel generalizing c s with
  | zero => rfl
  | succ fuel ih =>
      rw [optimizeFrom]
      simp only
      split
      · rfl
      · rw [ih]
        rfl

theorem labels_optimize (c : Code) (s : Peephole.Stats) : (c.optimize s).1.labels = c.labels :=
  labels_optimizeFrom _ c s

/-! ### Code as it is written -/

/-- **What holds of the code of a unit as it is written**, with the typing of its items and frames
of at most `w` places on each side. -/
structure IsFinished (items : List (Node Mark)) (t : Typing) (w : Nat) (c : Code) : Prop where
  source : AreSource (Node.definitions items)
  sound : t.Sound items
  symbols : ∀ (k : Nat) (s : Symbol), t.round.symbols[k]? = some s → s.IsPlaced w
  placed : Lower.AllPlaced w t.round.symbols c.instrs
  regular : Machine.Regular c.instrs
  linked : Linked c.instrs
  called : ∀ name, name ∈ callees c.instrs ↔ name ∈ entries c.instrs
  entries : entries c.instrs = (Lower.reached t.round).map Instance.name
  halt : ∃ i ∈ c.instrs, i.op = .halt
  labels : c.labels = (labelTargets [] .zero c.instrs).1

end Code

namespace Compile

variable {fold optimize : Bool} {source : String} {t : Node Span} {typing : Typing} {c : Code}

theorem labels_finish (optimize : Bool) (h : c.labels = []) :
    (finish optimize c).1.labels
      = (Code.labelTargets [] .zero (finish optimize c).1.instrs).1 := by
  have hfinalize : ∀ c : Code, c.labels = [] →
      (c.finalize .zero).1.labels = (Code.labelTargets [] .zero (c.finalize .zero).1.instrs).1 := by
    intro c hc
    change (Code.labelTargets c.labels .zero c.splice.2.instrs).1 = _
    rw [hc]
    rfl
  cases optimize with
  | false => exact hfinalize c h
  | true => exact hfinalize (c.optimize .zero).1 (by rw [Code.labels_optimize, h])

/-- The unit that inference was run on, and what its typing is like. -/
theorem exists_sound_of_infer (ht : t.IsSource) (hinfer : (Document.ofTree t).infer = .ok typing) :
    ∃ mark items, (Document.ofTree t).root = .unit mark items ∧
      AreSource (Node.definitions items) ∧ typing.Sound items ∧ ∃ n ys, typing.root = .unit n ys ∧
        typing.round.Accounts (Document.ofTree t).root.nameCount
          (Node.calledAll ys ++ Infer.calledInferred typing.round) := by
  have hsource := Document.isSource_ofTree ht
  cases hroot : (Document.ofTree t).root with
  | unit mark items =>
      rw [hroot] at hsource
      have haccounts := Document.infer_accounts hroot hsource hinfer
      exact ⟨mark, items, rfl, Typing.areSource_definitions hsource,
        Document.infer_sound hroot hsource hinfer, hroot ▸ haccounts⟩
  | _ =>
      rw [hroot] at hsource
      cases hsource

/-- **What was inferred has code**, and the code as it is written is as it should be. -/
theorem exists_lower_of_infer (htree : tree source = .ok t) (hasm : t.hasAssembly = false)
    (hinfer : (Document.ofTree (prepare fold t)).infer = .ok typing) (optimize : Bool) :
    ∃ items c, typing.lower = .ok c ∧ (finish optimize c).1.IsFinished items typing
      (Document.ofTree (prepare fold t)).root.nameCount := by
  obtain ⟨mark, items, hroot, hsource, hsound, n, ys, hys, haccounts⟩ :=
    exists_sound_of_infer (isSource_prepare (isSource_tree htree)) hinfer
  obtain ⟨c, hc⟩ := hsound.exists_lower
  obtain ⟨k, hunit⟩ := Typing.emits_lower hc
  have himproved := improved_finish optimize hunit.regular
  have hfixed := Peephole.fixedPart_of_improved himproved
  have hasm' : (Node.unit mark items).hasAssembly = false := by
    have hshape : (Node.unit mark items).shape = (prepare fold t).shape :=
      hroot ▸ Node.shape_number (fun i s => (⟨i, s⟩ : Mark)) 0 _
    rw [← Node.hasAssembly_shape, hshape, Node.hasAssembly_shape]
    exact hasAssembly_prepare hasm
  have hplaced := hunit.allPlaced hsound hasm' (hroot ▸ haccounts.placed)
  rw [← hroot] at hplaced
  -- calls and entries are fixed, so what holds of the emitted code stays true
  have hcallees : callees (finish optimize c).1.instrs = callees c.instrs := by
    rw [callees_eq_fixedPart, hfixed, ← callees_eq_fixedPart]
  have hentries : entries (finish optimize c).1.instrs = entries c.instrs := by
    rw [entries_eq_fixedPart, hfixed, ← entries_eq_fixedPart]
  refine ⟨items, c, hc, hsource, hsound, haccounts.placed,
    Peephole.allPlaced_of_improved himproved hplaced,
    Peephole.regular_of_improved himproved hunit.regular,
    Peephole.linked_of_improved himproved hunit.regular hunit.linked, fun name => ?_, ?_, ?_, ?_⟩
  · rw [hcallees, hentries]
    exact hunit.mem_callees_iff hsound hys haccounts name
  · rw [hentries, hunit.entries_eq]
  · obtain ⟨i, hi, hop⟩ := hunit.exists_halt
    have hmem : (i.op, i.operand) ∈ fixedPart c.instrs :=
      mem_fixedPart.2 ⟨by rw [hop]; rfl, i, hi, rfl⟩
    rw [← hfixed] at hmem
    obtain ⟨-, j, hj, heq⟩ := mem_fixedPart.1 hmem
    exact ⟨j, hj, (congrArg Prod.fst heq).trans hop⟩
  · refine labels_finish optimize ?_
    rw [Typing.lower] at hc
    obtain ⟨p, -, hp⟩ := Step.except_bind_eq_ok.1 hc
    cases hp
    rfl

end Compile

/-! ### The lines of finished code -/

namespace Line

/-- The name of a label. -/
def label? : Line → Option String
  | label name => some name
  | _ => none

/-- The name of a function. -/
def function? : Line → Option String
  | entry name => some name
  | _ => none

/-- The name of a cell. -/
def cell? : Line → Option String
  | cell name => some name
  | _ => none

/-- The name that a line defines. -/
def name? : Line → Option String
  | label name | entry name | cell name => some name
  | instr .. => none

/-- The names that lines define, by sort. -/
theorem perm_names (ls : List Line) : (ls.filterMap name?).Perm
    (ls.filterMap label? ++ (ls.filterMap function? ++ ls.filterMap cell?)) := by
  induction ls with
  | nil => exact .nil
  | cons l ls ih =>
      cases l with
      | label name => exact ih.cons name
      | entry name => exact (ih.cons name).trans List.perm_middle.symm
      | instr op a remark => exact ih
      | cell name =>
          refine (ih.cons name).trans ?_
          simp only [← List.append_assoc]
          exact List.perm_middle.symm

end Line

namespace Code

variable {c : Code} {is : List Instr} {name : String}

theorem mem_bodyLines {i : Instr} {l : Line} : l ∈ c.bodyLines i ↔
    (∃ name, i.op = .entry name ∧ l = .entry name) ∨
      i.op.mnemonic? ≠ none ∧ l = .instr i.op (c.argumentOf i) i.remark? := by
  unfold bodyLines
  cases hop : i.op <;> simp [Op.mnemonic?]
  rename_i op type
  cases type <;> simp

theorem mem_listing {l : Line} : l ∈ c.listing ↔ ∃ i ∈ c.instrs,
    (∃ name, c.label? i.id = some name ∧ l = .label name) ∨ l ∈ c.bodyLines i := by
  simp only [listing, linesAt, List.mem_flatMap, List.mem_append, List.mem_map, Option.mem_toList,
    eq_comm]

/-- The labels in the text of code are those of its instructions. -/
theorem filterMap_label_listing (c : Code) :
    c.listing.filterMap Line.label? = c.instrs.filterMap fun i => c.label? i.id := by
  rw [listing]
  induction c.instrs with
  | nil => rfl
  | cons i is ih =>
      have hbody : (c.bodyLines i).filterMap Line.label? = [] := by
        refine List.filterMap_eq_nil_iff.2 fun l hl => ?_
        rcases mem_bodyLines.1 hl with ⟨name, -, rfl⟩ | ⟨-, rfl⟩ <;> rfl
      rw [List.flatMap_cons, List.filterMap_append, ih, linesAt, List.filterMap_append, hbody,
        List.append_nil, List.filterMap_cons]
      cases c.label? i.id <;> rfl

/-- The functions in the text of code are those that start in it. -/
theorem filterMap_entry_listing (c : Code) :
    c.listing.filterMap Line.function? = StackLang.entries c.instrs := by
  rw [listing]
  induction c.instrs with
  | nil => rfl
  | cons i is ih =>
      have hlabel : ((c.label? i.id).toList.map Line.label).filterMap Line.function? = [] := by
        cases c.label? i.id <;> rfl
      have hbody : (c.bodyLines i).filterMap Line.function? = i.op.starts?.toList := by
        unfold bodyLines
        cases i.op <;> rfl
      rw [List.flatMap_cons, List.filterMap_append, ih, linesAt, List.filterMap_append, hlabel,
        hbody, List.nil_append, entries_cons]

theorem filterMap_cell_listing (c : Code) : c.listing.filterMap Line.cell? = [] := by
  refine List.filterMap_eq_nil_iff.2 fun l hl => ?_
  obtain ⟨i, -, ⟨name, -, rfl⟩ | hl⟩ := mem_listing.1 hl
  · rfl
  · rcases mem_bodyLines.1 hl with ⟨name, -, rfl⟩ | ⟨-, rfl⟩ <;> rfl

end Code

/-! ### The lines of cells -/

namespace Symbols

variable {ss : Symbols}

theorem mem_cells {l : Line} : l ∈ ss.cells ↔ ∃ (k : Nat) (s : Symbol) (name : String),
    ss[k]? = some s ∧ s.emitted = false ∧ s.storage = .global name ∧ l = .cell name := by
  simp only [cells, List.mem_filterMap, Symbol.cellLine?_eq_some]
  constructor
  · rintro ⟨s, hs, name, hl⟩
    obtain ⟨k, hk⟩ := List.mem_iff_getElem?.1 hs
    exact ⟨k, s, name, by rwa [Array.getElem?_toList] at hk, hl⟩
  · rintro ⟨k, s, name, hs, hl⟩
    exact ⟨s, List.mem_iff_getElem?.2 ⟨k, by rwa [Array.getElem?_toList]⟩, name, hl⟩

/-- Cells with different labels have lines that define different names. -/
theorem nodup_cells (h : ∀ (j k : Nat) (s t : Symbol) (l : String), ss[j]? = some s →
    ss[k]? = some t → s.storage = .global l → t.storage = .global l → j = k) :
    (ss.cells.filterMap Line.cell?).Nodup := by
  have hstorage : ∀ (s : Symbol) (l : String),
      s.cellLine?.bind Line.cell? = some l → s.storage = .global l := by
    intro s l hl
    obtain ⟨line, hline, hl⟩ := Option.bind_eq_some_iff.1 hl
    obtain ⟨name, -, hs, rfl⟩ := Symbol.cellLine?_eq_some.1 hline
    cases hl
    exact hs
  rw [cells, List.filterMap_filterMap, List.Nodup, List.pairwise_filterMap,
    List.pairwise_iff_getElem]
  intro i j hi hj hij x hx y hy hxy
  subst hxy
  refine hij.ne (h i j _ _ x ?_ ?_ (hstorage _ _ hx) (hstorage _ _ hy))
  · rw [← Array.getElem?_toList, List.getElem?_eq_getElem hi]
  · rw [← Array.getElem?_toList, List.getElem?_eq_getElem hj]

end Symbols

/-! ### References -/

namespace Code.IsFinished

variable {items : List (Node Mark)} {t : Typing} {w : Nat} {c : Code}

theorem labelsMade (h : c.IsFinished items t w) : ∃ n, LabelsMade n c.labels := by
  rw [h.labels]
  exact ⟨_, labelsMade_labelTargets ⟨nofun, .nil, .nil⟩⟩

/-- The target of a jump has a label with a count, and is an instruction. -/
theorem exists_label (h : c.IsFinished items t w) {i : Instr} (hi : i ∈ c.instrs) {target : Target}
    (ht : i.target = some target) : ∃ k n, target = .instr k ∧ c.label? k = some (jumpLabel n) ∧
      k ∈ c.instrs.map Instr.id := by
  obtain ⟨k, rfl, hk⟩ := h.linked.target i hi target ht
  have htarget : i.targetId? = some k := by rw [Instr.targetId?, ht]
  obtain ⟨l, hl⟩ : ∃ l, c.labels.lookup k = some l := by
    rw [h.labels]
    exact exists_lookup_labelTargets hi htarget
  obtain ⟨n, hn⟩ := h.labelsMade
  obtain ⟨j, rfl⟩ := hn.exists_eq hl
  exact ⟨k, j, rfl, hl, hk⟩

/-- The functions in the code are instances of functions of the source. -/
theorem exists_decorate (h : c.IsFinished items t w) {name : String}
    (hname : name ∈ StackLang.entries c.instrs) :
    name ∈ t.round.instances.made.map Instance.name ∧
      ∃ base args, IsSourceName base ∧ name = decorate base args := by
  rw [h.entries] at hname
  obtain ⟨i, hi, rfl⟩ := List.mem_map.1 hname
  have hmade := (List.mem_filter.1 hi).1
  obtain ⟨f, hf, hcopy⟩ := h.sound.round.instances.made i hmade
  exact ⟨List.mem_map_of_mem hmade, f.name, i.args, (h.source f hf).1, hcopy.name⟩

theorem isPrintable (h : c.IsFinished items t w) : c.IsPrintable := by
  refine ⟨fun i hi => (h.placed i hi).noAssembly, fun i hi target ht => ?_⟩
  obtain ⟨k, n, rfl, hlabel, -⟩ := h.exists_label hi ht
  exact ⟨k, _, rfl, hlabel⟩

/-- What is written behind the name of an instruction: the label of its target, or its operand. -/
theorem argumentOf_cases (h : c.IsFinished items t w) {i : Instr} (hi : i ∈ c.instrs) :
    (∃ n, c.argumentOf i = .label (jumpLabel n) ∧ Line.label (jumpLabel n) ∈ c.listing) ∨
      i.op.isJump = false ∧ c.argumentOf i = i.operand := by
  cases ht : i.target with
  | none =>
      refine .inr ⟨?_, by simp [argumentOf, Instr.targetId?, ht]⟩
      exact Bool.eq_false_iff.2 fun hop => h.linked.targeted i hi hop ht
  | some target =>
      obtain ⟨k, n, rfl, hlabel, hk⟩ := h.exists_label hi ht
      obtain ⟨j, hj, rfl⟩ := List.mem_map.1 hk
      refine .inl ⟨n, by simp [argumentOf, Instr.targetId?, ht, hlabel], ?_⟩
      exact mem_listing.2 ⟨j, hj, .inl ⟨_, hlabel, rfl⟩⟩

/-- A line of an instruction is that of one in the code. -/
theorem exists_of_mem_listing {op : Op} {a : Operand} {remark : Option String}
    (h : Line.instr op a remark ∈ c.listing) :
    ∃ i ∈ c.instrs, i.op = op ∧ c.argumentOf i = a ∧ i.remark? = remark ∧ op.mnemonic? ≠ none := by
  obtain ⟨i, hi, ⟨name, -, hl⟩ | hl⟩ := mem_listing.1 h
  · cases hl
  · rcases mem_bodyLines.1 hl with ⟨name, -, hl⟩ | ⟨hop, hl⟩
    · cases hl
    · cases hl
      exact ⟨i, hi, rfl, rfl, rfl, hop⟩

end Code.IsFinished

/-- **The references of lines close.**  Each name is defined once; jumps go to labels, calls to
functions, and variables have cells; and the functions are the instances that calls go to. -/
structure IsClosed (instances : List String) (ls : List Line) : Prop where
  defined : (ls.filterMap Line.name?).Nodup
  jump : ∀ condition a remark, Line.instr (.jump condition) a remark ∈ ls →
    ∃ n, a = .label (jumpLabel n) ∧ Line.label (jumpLabel n) ∈ ls
  call : ∀ a remark, Line.instr .call a remark ∈ ls → ∃ name, a = .label name ∧ .entry name ∈ ls
  cell : ∀ op name remark, Line.instr op (.global name) remark ∈ ls → .cell name ∈ ls
  function : ∀ name, Line.entry name ∈ ls ↔
    name ∈ instances ∧ ∃ remark, Line.instr .call (.label name) remark ∈ ls

namespace Code.IsFinished

variable {items : List (Node Mark)} {t : Typing} {w : Nat} {c : Code}

theorem mem_listing_entry {name : String} :
    Line.entry name ∈ c.listing ↔ name ∈ StackLang.entries c.instrs := by
  rw [← filterMap_entry_listing, List.mem_filterMap]
  constructor
  · exact fun h => ⟨_, h, rfl⟩
  · rintro ⟨l, hl, hname⟩
    cases l <;> cases hname
    exact hl

/-- A line of a call is there for each function that is called. -/
theorem mem_listing_call (h : c.IsFinished items t w) {name : String} :
    (∃ remark, Line.instr .call (.label name) remark ∈ c.listing) ↔ name ∈ callees c.instrs := by
  rw [mem_callees]
  constructor
  · rintro ⟨remark, hl⟩
    obtain ⟨i, hi, hop, ha, -, -⟩ := exists_of_mem_listing hl
    have htarget : i.targetId? = none := h.regular.targetId? hi (by rw [hop]; rfl)
    exact ⟨i, hi, hop, by simpa [argumentOf, htarget] using ha⟩
  · rintro ⟨i, hi, hop, ha⟩
    have htarget : i.targetId? = none := h.regular.targetId? hi (by rw [hop]; rfl)
    refine ⟨i.remark?, mem_listing.2 ⟨i, hi, .inr (mem_bodyLines.2 (.inr ⟨?_, ?_⟩))⟩⟩
    · rw [hop]
      exact nofun
    · rw [hop, argumentOf, htarget, ha]

/-- **Each name is defined once.** -/
theorem nodup_names (h : c.IsFinished items t w) :
    ((c.listing ++ t.round.symbols.cells).filterMap Line.name?).Nodup := by
  have hcells : ∀ f : Line → Option String, (∀ name, f (.cell name) = none) →
      t.round.symbols.cells.filterMap f = [] := by
    intro f hf
    refine List.filterMap_eq_nil_iff.2 fun l hl => ?_
    obtain ⟨-, -, name, -, -, -, rfl⟩ := Symbols.mem_cells.1 hl
    exact hf name
  obtain ⟨n, hn⟩ := h.labelsMade
  have hlabel : ∀ name ∈ c.instrs.filterMap (fun i => c.label? i.id), ∃ j, name = jumpLabel j := by
    intro name hname
    obtain ⟨i, -, hi⟩ := List.mem_filterMap.1 hname
    exact hn.exists_eq hi
  have hcell : ∀ name ∈ t.round.symbols.cells.filterMap Line.cell?,
      ∃ b j, IsSourceName b ∧ name = globalLabel b j := by
    intro name hname
    obtain ⟨l, hl, hname⟩ := List.mem_filterMap.1 hname
    obtain ⟨k, s, name', hs, -, hstorage, rfl⟩ := Symbols.mem_cells.1 hl
    cases hname
    obtain ⟨b, j, hb, hname, -⟩ := h.sound.round.labels k s name hs hstorage
    exact ⟨b, j, hb, hname⟩
  refine (Line.perm_names _).nodup_iff.2 ?_
  simp only [List.filterMap_append, filterMap_label_listing, filterMap_entry_listing,
    filterMap_cell_listing, hcells Line.label? fun _ => rfl, hcells Line.function? fun _ => rfl,
    List.append_nil, List.nil_append, List.nodup_append]
  refine ⟨?_, ⟨?_, Symbols.nodup_cells h.sound.round.distinct, ?_⟩, ?_⟩
  · -- instructions have identities of their own, and labels belong to these
    refine List.pairwise_filterMap.2 ?_
    refine (List.pairwise_map.1 h.regular.nodup).imp ?_
    intro i j hij x hx y hy hxy
    subst hxy
    exact hij (hn.lookup_inj hx hy)
  · rw [h.entries]
    exact h.sound.round.instances.nodup.sublist ((List.filter_sublist).map _)
  · rintro name hname _ hname' rfl
    obtain ⟨-, base, args, hbase, rfl⟩ := h.exists_decorate hname
    obtain ⟨b, j, hb, heq⟩ := hcell _ hname'
    exact globalLabel_ne_decorate hb hbase j args heq.symm
  · rintro name hname name' hname' rfl
    obtain ⟨n, rfl⟩ := hlabel _ hname
    rcases List.mem_append.1 hname' with hname' | hname'
    · obtain ⟨-, base, args, hb, heq⟩ := h.exists_decorate hname'
      exact decorate_ne_jumpLabel hb args n heq.symm
    · obtain ⟨b, j, hb, heq⟩ := hcell _ hname'
      exact globalLabel_ne_jumpLabel hb j n heq.symm

/-- **The references of finished code close**, with the cells of its variables behind it. -/
theorem isClosed (h : c.IsFinished items t w) :
    IsClosed (t.round.instances.made.map Instance.name)
      (c.listing ++ t.round.symbols.cells) := by
  -- only cells stand behind the lines of the code
  have hcode : ∀ {l : Line}, (∀ name, l ≠ .cell name) →
      l ∈ c.listing ++ t.round.symbols.cells → l ∈ c.listing := by
    intro l hl hmem
    refine (List.mem_append.1 hmem).resolve_right fun hmem => ?_
    obtain ⟨-, -, name, -, -, -, rfl⟩ := Symbols.mem_cells.1 hmem
    exact hl name rfl
  constructor
  case defined => exact h.nodup_names
  case jump =>
    intro condition a remark hl
    obtain ⟨i, hi, hop, rfl, -⟩ := exists_of_mem_listing (hcode nofun hl)
    rcases h.argumentOf_cases hi with ⟨n, ha, hn⟩ | ⟨hjump, -⟩
    · exact ⟨n, ha, List.mem_append_left _ hn⟩
    · rw [hop] at hjump
      cases hjump
  case call =>
    intro a remark hl
    obtain ⟨i, hi, hop, rfl, -⟩ := exists_of_mem_listing (hcode nofun hl)
    have htarget : i.targetId? = none := h.regular.targetId? hi (by rw [hop]; rfl)
    obtain ⟨name, hname⟩ := (h.placed i hi).callee hop
    refine ⟨name, by simpa [argumentOf, htarget] using hname, List.mem_append_left _ ?_⟩
    rw [mem_listing_entry, ← h.called, mem_callees]
    exact ⟨i, hi, hop, hname⟩
  case cell =>
    intro op name remark hl
    obtain ⟨i, hi, -, ha, -⟩ := exists_of_mem_listing (hcode nofun hl)
    rcases h.argumentOf_cases hi with ⟨n, hn, -⟩ | ⟨-, hsame⟩
    · rw [hn] at ha
      cases ha
    · obtain ⟨k, s, hs, hstorage⟩ := (h.placed i hi).cell name (hsame.symm.trans ha)
      exact List.mem_append_right _
        (Symbols.mem_cells.2 ⟨k, s, name, hs, (h.symbols k s hs).emitted, hstorage, rfl⟩)
  case function =>
    intro name
    constructor
    · intro hl
      have hname := mem_listing_entry.1 (hcode nofun hl)
      obtain ⟨remark, hcall⟩ := h.mem_listing_call.2 ((h.called name).2 hname)
      exact ⟨(h.exists_decorate hname).1, remark, List.mem_append_left _ hcall⟩
    · rintro ⟨-, remark, hcall⟩
      refine List.mem_append_left _ (mem_listing_entry.2 ((h.called name).1 ?_))
      exact h.mem_listing_call.1 ⟨remark, hcode nofun hcall⟩

end Code.IsFinished

end StackLang
