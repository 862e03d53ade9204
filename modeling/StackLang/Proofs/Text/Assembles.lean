/-
**What stands between a program and its image.**

The lines of a program are lines of the assembler, and its references close.  So a program has an
image unless one of two things happens, of which the compiler rules out neither.  The assembler
takes labels that differ in case only for one label; the labels of variables and of jump targets
differ in their counts, but the names of functions are those of the source with the types of their
arguments, and two functions may have names that differ in case only.  And the assembler writes the
offset of a place in a frame into one byte, which a function with many parameters or variables goes
beyond.

Main definitions:

* `Code.FitsAssembler` — code without either;
* `Line.Encodes` — what becomes of a line that is read as it was written.

Main results:

* `Code.IsFinished.fitsAssembler` — what it takes of the source that a program has neither;
* `Compile.assembles` — **a program has an image exactly if it has neither**, and no other error is
  possible;
* `Compile.not_assembles_case` — two functions whose names differ in case only.
-/

import StackLang.Proofs.Assembly.Outcome
import StackLang.Proofs.Assembly.References
import StackLang.Proofs.Lower.Operands
import StackLang.Proofs.Text.Program

set_option relaxedAutoImplicit false
set_option autoImplicit false

namespace StackLang

open Text

/-! ### Names in capitals -/

section Capitals

variable {name name' base base' : String} {rest rest' : List Char} {j k n : Nat}
  {args args' : List Scalar}

theorem toList_toUpper (s : String) : s.toUpper.toList = s.toList.map Char.toUpper := by
  simp [String.toUpper]

/-- No other character is an at sign in capitals. -/
theorem toUpper_eq_at {c : Char} (h : c.toUpper = '@') : c = '@' := by
  by_cases hlower : c.isLower = true
  · have hcode : ∀ n < 123, 97 ≤ n → (Char.ofNat n).toUpper ≠ '@' := by decide +kernel
    simp only [Char.isLower, UInt32.le_iff_toNat_le, Bool.and_eq_true, decide_eq_true_eq] at hlower
    have hne := hcode c.toNat (Nat.lt_succ_of_le hlower.2) hlower.1
    rw [Char.ofNat_toNat] at hne
    exact absurd h hne
  · rwa [Char.toUpper_eq_of_not_isLower hlower] at h

theorem toUpper_of_isDigit {c : Char} (h : c.isDigit = true) : c.toUpper = c := by
  refine Char.toUpper_eq_of_not_isLower fun hlower => ?_
  simp only [Char.isLower, Char.isDigit, UInt32.le_iff_toNat_le, Bool.and_eq_true,
    decide_eq_true_eq, ge_iff_le] at h hlower
  exact absurd (hlower.1.trans h.2) (by decide)

theorem map_toUpper_digits (n : Nat) :
    (toString n).toList.map Char.toUpper = (toString n).toList := by
  obtain ⟨c, cs, hdigits, hall⟩ := exists_digits n
  rw [hdigits]
  conv_rhs => rw [← List.map_id (c :: cs)]
  exact List.map_congr_left fun d hd => toUpper_of_isDigit (hall d hd)

/-- Made names that are alike in capitals are so before and behind the at sign. -/
theorem toUpper_made (hb : IsSourceName base) (hb' : IsSourceName base')
    (hname : name.toList = base.toList ++ '@' :: rest)
    (hname' : name'.toList = base'.toList ++ '@' :: rest') (h : name.toUpper = name'.toUpper) :
    base.toUpper = base'.toUpper ∧ rest.map Char.toUpper = rest'.map Char.toUpper := by
  have hat : ∀ {b : String}, IsSourceName b → '@' ∉ b.toList.map Char.toUpper := by
    intro b hb hmem
    obtain ⟨c, hc, hcat⟩ := List.mem_map.1 hmem
    exact hb.at_notMem (toUpper_eq_at hcat ▸ hc)
  have hlist := congrArg String.toList h
  simp only [toList_toUpper, hname, hname', List.map_append, List.map_cons] at hlist
  obtain ⟨hbase, hrest⟩ := append_cons_inj (hat hb) (hat hb') hlist
  exact ⟨String.toList_inj.1 (by rw [toList_toUpper, toList_toUpper, hbase]), hrest⟩

theorem toUpper_jumpLabel_inj (h : (jumpLabel j).toUpper = (jumpLabel k).toUpper) : j = k := by
  obtain ⟨-, hrest⟩ := toUpper_made isSourceName_L isSourceName_L (toList_jumpLabel j)
    (toList_jumpLabel k) h
  rw [map_toUpper_digits, map_toUpper_digits] at hrest
  exact Nat.repr_injective (String.toList_inj.1 hrest)

theorem toUpper_globalLabel_inj (hb : IsSourceName base) (hb' : IsSourceName base')
    (h : (globalLabel base j).toUpper = (globalLabel base' k).toUpper) : j = k := by
  obtain ⟨-, hrest⟩ :=
    toUpper_made hb hb' (toList_globalLabel base j) (toList_globalLabel base' k) h
  rw [List.map_cons, List.map_cons, map_toUpper_digits, map_toUpper_digits] at hrest
  exact Nat.repr_injective (String.toList_inj.1 (List.cons.inj hrest).2)

/-- What stands behind the at sign keeps the sorts of names apart in capitals as well. -/
theorem toUpper_globalLabel_ne_decorate (hb : IsSourceName base) (hb' : IsSourceName base') :
    (globalLabel base k).toUpper ≠ (decorate base' args).toUpper := by
  intro h
  obtain ⟨-, hrest⟩ :=
    toUpper_made hb hb' (toList_globalLabel base k) (toList_decorate base' args) h
  exact absurd (List.cons.inj hrest).1 (by decide)

theorem toUpper_ne_jumpLabel {c : Char} (hb : IsSourceName base)
    (hname : name.toList = base.toList ++ '@' :: c :: rest) (hc : c.toUpper.isDigit = false) :
    name.toUpper ≠ (jumpLabel n).toUpper := by
  intro h
  obtain ⟨-, hrest⟩ := toUpper_made hb isSourceName_L hname (toList_jumpLabel n) h
  obtain ⟨d, ds, hdigits, hall⟩ := exists_digits n
  rw [map_toUpper_digits, hdigits] at hrest
  rw [List.map_cons] at hrest
  rw [(List.cons.inj hrest).1, hall d List.mem_cons_self] at hc
  cases hc

/-- The tags of types are in small letters. -/
theorem toLower_toUpper_tags (args : List Scalar) :
    ∀ c ∈ ("@@".intercalate (args.map Scalar.tag)).toList, c.toUpper.toLower = c := by
  have htag : ∀ a : Scalar, ∀ c ∈ a.tag.toList, c.toUpper.toLower = c := by
    intro a
    cases a <;> simp [Scalar.tag]
  induction args with
  | nil => simp
  | cons a as ih =>
      by_cases has : as = []
      · subst has
        rw [List.map_singleton, String.intercalate_singleton]
        exact htag a
      · rw [List.map_cons, String.intercalate_cons_of_ne_nil (by simpa using has)]
        simp only [String.toList_append, List.forall_mem_append]
        exact ⟨⟨htag a, by simp⟩, ih⟩

/-- **Functions that are alike in capitals** have such names in the source, and the same types of
arguments. -/
theorem toUpper_decorate_inj (hb : IsSourceName base) (hb' : IsSourceName base')
    (h : (decorate base args).toUpper = (decorate base' args').toUpper) :
    base.toUpper = base'.toUpper ∧ args = args' := by
  obtain ⟨hbase, hrest⟩ := toUpper_made hb hb' (toList_decorate base args)
    (toList_decorate base' args') h
  have hlower : ∀ as : List Scalar, (("@@".intercalate (as.map Scalar.tag)).toList.map
      Char.toUpper).map Char.toLower = ("@@".intercalate (as.map Scalar.tag)).toList := by
    intro as
    rw [List.map_map]
    conv_rhs => rw [← List.map_id ("@@".intercalate (as.map Scalar.tag)).toList]
    exact List.map_congr_left (toLower_toUpper_tags as)
  refine ⟨hbase, intercalate_tag_inj (String.toList_inj.1 ?_)⟩
  rw [← hlower args, ← hlower args', (List.cons.inj hrest).2]

end Capitals

/-! ### Lines in the assembler -/

/-- An instruction as it is written, with what stands behind its name: a jump goes to a label. -/
inductive Op.Takes : Op → Operand → Prop where
  | value {bits : UInt32} {type : Scalar} : Takes .load (.immediate bits type)
  | frame {op : Op} {offset : Int} (hop : op = .load ∨ op = .store) : Takes op (.frame offset)
  | global {op : Op} {label : String} (hop : op = .load ∨ op = .store) : Takes op (.global label)
  | call {name : String} : Takes .call (.label name)
  | jump {c : Condition} {label : String} : Takes (.jump c) (.label label)
  | bare {op : Op} (hop : op.isBare = true) (hjump : op.isJump = false) : Takes op .none

namespace Operand.IsReadAs

variable {o : Assembly.Operand} {name : String} {offset : Int}

theorem eq_frame (h : (frame offset).IsReadAs o) : o = .memory (.frame offset) := by
  unfold IsReadAs at h
  split at h <;> simp_all

theorem eq_global (h : (global name).IsReadAs o) : o = .memory (.label name 0) := by
  unfold IsReadAs at h
  split at h <;> simp_all

theorem eq_label (h : (label name).IsReadAs o) : o = .label name := by
  unfold IsReadAs at h
  split at h <;> simp_all

end Operand.IsReadAs

namespace Line

/-- The offset in the line, for a place in a frame. -/
def offset? : Line → Option Int
  | instr _ (.frame offset) _ => some offset
  | _ => none

/-- The name that the line refers to. -/
def reference? : Line → Option String
  | instr _ (.label name) _ | instr _ (.global name) _ => some name
  | _ => none

/-- An instruction of the line goes with what stands behind its name. -/
def IsTaken : Line → Prop
  | instr op a _ => op.Takes a
  | _ => True

/-- **What becomes of a line that is read as it was written**: it is encoded, and refers to nothing
but what the line does, unless its offset does not fit in one byte. -/
inductive Encodes (l : Line) : Except Assembly.Cause (Bool × List Assembly.Item) → Prop where
  | encoded {isInstruction : Bool} {items : List Assembly.Item}
      (hoffset : ∀ offset, l.offset? = some offset → -128 ≤ offset ∧ offset ≤ 127)
      (href : ∀ x ∈ items, ∀ name, x.reference? = some name → l.reference? = some name) :
      Encodes l (.ok (isInstruction, items))
  | outOfRange {offset : Int} (hoffset : l.offset? = some offset)
      (h : ¬ (-128 ≤ offset ∧ offset ≤ 127)) :
      Encodes l (.error (.outOfRange offset (-128) 127))

variable {l : Line} {scope : Option String} {number : Nat} {op : Op} {a : Operand}
  {remark : Option String}

/-- A line without an offset is encoded. -/
theorem Encodes.of_offset?_eq_none {isInstruction : Bool} {items : List Assembly.Item}
    (hoffset : l.offset? = none)
    (href : ∀ x ∈ items, ∀ name, x.reference? = some name → l.reference? = some name) :
    l.Encodes (.ok (isInstruction, items)) := by
  refine .encoded (fun offset h => ?_) href
  rw [hoffset] at h
  cases h

/-- What an instruction is encoded as, from its operand as it is read. -/
theorem encodingOf_instr (h : (instr op a remark).IsWell) :
    ∃ i parts, op.instruction? = some i ∧
      Assembly.SourceLine.parse (instr op a remark).text.toList = .ok parts ∧ parts.label = none ∧
      ∀ (scope : Option String) (number : Nat),
        (a = .none → Assembly.Row.encodingOf scope number parts
          = (Assembly.encode number i none).map (true, ·)) ∧
        ∀ o, a ≠ .none → Assembly.Operand.parse scope a.text.toList = .ok o →
          Assembly.Row.encodingOf scope number parts
            = (Assembly.encode number i (some o)).map (true, ·) := by
  obtain ⟨i, m, hi, hmnemonic, hparts⟩ := parse_instr h
  refine ⟨i, _, hi, hparts, rfl, fun scope number => ⟨fun ha => ?_, fun o ha ho => ?_⟩⟩
  · simp only [Assembly.Row.encodingOf, hmnemonic, ha, if_true]
    rfl
  · simp only [Assembly.Row.encodingOf, hmnemonic, ha, if_false]
    change (Assembly.Operand.parse scope a.text.toList >>= fun x => pure (some x)) >>= _ = _
    rw [ho]
    rfl

/-- **An instruction is encoded**, unless its offset does not fit. -/
theorem encodes_instr (h : (instr op a remark).IsWell) (htakes : op.Takes a) (hrange : a.InRange) :
    ∃ parts, Assembly.SourceLine.parse (instr op a remark).text.toList = .ok parts ∧
      parts.label = none ∧ ∀ (scope : Option String) (number : Nat),
        (instr op a remark).Encodes (Assembly.Row.encodingOf scope number parts) := by
  obtain ⟨i, parts, hi, hparts, hlabel, hencoding⟩ := encodingOf_instr h
  refine ⟨parts, hparts, hlabel, fun scope number => ?_⟩
  obtain ⟨hbare, hsupplied⟩ := hencoding scope number
  -- what a load or a store of a word makes of its operand
  have htransfer : op = .load ∨ op = .store → ∃ transfer, ∀ o,
      Assembly.encode number i o = Assembly.encodeMemory transfer .word number o := by
    rintro (rfl | rfl) <;> cases hi
    · exact ⟨.load, fun _ => rfl⟩
    · exact ⟨.store, fun _ => rfl⟩
  cases htakes with
  | @value bits type =>
      cases hi
      obtain ⟨n, hn, -, hleast, hgreatest⟩ := Operand.parse_immediate bits type scope
      have hcheck : Assembly.checkRange Assembly.Width.word.least Assembly.Width.word.greatest
          n.value = .ok () :=
        Assembly.checkRange_eq_ok_iff.2 ⟨hleast, by simp [Assembly.Width.greatest]; omega⟩
      rw [hsupplied _ (by simp) hn]
      simp only [Assembly.encode, Assembly.encodeMemory, Assembly.encodeValue,
        Assembly.Operand.value?, hcheck]
      exact .of_offset?_eq_none rfl (by simp [Assembly.opcodeWith, Assembly.Item.reference?])
  | @frame _ offset hop =>
      obtain ⟨transfer, hencode⟩ := htransfer hop
      obtain ⟨o, ho, hread⟩ :=
        @Operand.isReadAs_parse (.frame offset) (by simp) trivial hrange scope
      rw [hsupplied o (by simp) ho, hencode, Operand.IsReadAs.eq_frame hread]
      simp only [Assembly.encodeMemory]
      by_cases hoffset : -128 ≤ offset ∧ offset ≤ 127
      · rw [Assembly.checkRange_eq_ok_iff.2 hoffset]
        refine .encoded (fun _ h => ?_) (by simp [Assembly.opcodeWith, Assembly.Item.reference?])
        cases h
        exact hoffset
      · rw [Assembly.checkRange, if_neg hoffset]
        exact .outOfRange rfl hoffset
  | @global _ label hop =>
      obtain ⟨transfer, hencode⟩ := htransfer hop
      obtain ⟨o, ho, hread⟩ := @Operand.isReadAs_parse (.global label) (by simp) h.2.1 hrange scope
      rw [hsupplied o (by simp) ho, hencode, Operand.IsReadAs.eq_global hread]
      exact .of_offset?_eq_none rfl
        (by simp [Assembly.opcodeWith, Assembly.Item.reference?, reference?])
  | @call name =>
      cases hi
      obtain ⟨o, ho, hread⟩ := @Operand.isReadAs_parse (.label name) (by simp) h.2.1 hrange scope
      rw [hsupplied o (by simp) ho, Operand.IsReadAs.eq_label hread]
      exact .of_offset?_eq_none rfl
        (by simp [Assembly.opcodeWith, Assembly.Item.reference?, reference?])
  | @jump c label =>
      cases hi
      obtain ⟨o, ho, hread⟩ := @Operand.isReadAs_parse (.label label) (by simp) h.2.1 hrange scope
      rw [hsupplied o (by simp) ho, Operand.IsReadAs.eq_label hread]
      exact .of_offset?_eq_none rfl (by simp [Assembly.Item.reference?, reference?])
  | bare hop hjump =>
      rw [hbare rfl]
      -- each of these instructions is its opcode alone
      cases op with
      | jump c => cases hjump
      | load | store | call => cases hop
      | assembly | nop | entry => cases hi
      | arith op type =>
          cases type <;> cases hi <;>
            exact .of_offset?_eq_none rfl (by simp [Assembly.opcodeWith, Assembly.Item.reference?])
      | _ =>
          cases hi
          exact .of_offset?_eq_none rfl (by simp [Assembly.opcodeWith, Assembly.Item.reference?])

/-- **A line that was written is encoded**, unless its offset does not fit, and defines its name. -/
theorem encodes_of_isWell (h : l.IsWell) (htaken : l.IsTaken) (hrange : l.InRange) :
    ∃ parts, Assembly.SourceLine.parse l.text.toList = .ok parts ∧
      (∀ scope, parts.label.map (Assembly.qualify scope) = l.name?) ∧
      ∀ (scope : Option String) (number : Nat),
        l.Encodes (Assembly.Row.encodingOf scope number parts) := by
  cases l with
  | label name | entry name =>
      refine ⟨_, parse_label h, fun scope => congrArg some (IsMadeName.qualify h scope),
        fun scope number => ?_⟩
      exact .of_offset?_eq_none rfl (by simp)
  | instr op a remark =>
      obtain ⟨parts, hparts, hlabel, hencodes⟩ := encodes_instr h htaken hrange
      exact ⟨parts, hparts, fun scope => by rw [hlabel]; rfl, hencodes⟩
  | cell name =>
      refine ⟨_, parse_cell h, fun scope => congrArg some (IsMadeName.qualify h scope),
        fun scope number => ?_⟩
      have hreserve : Assembly.Row.encodingOf scope number
          ⟨some name.toList, some "RESD".toList, some "1".toList⟩ = .ok (false, [.reserved 4]) := by
        have hmnemonic : Assembly.Mnemonic.parse? "RESD".toList
            = some (.directive (.reserve .word)) := by decide
        have hnumber : Assembly.encodeReserve .word (some "1".toList) = .ok [.reserved 4] := by
          decide
        simp only [Assembly.Row.encodingOf, hmnemonic, hnumber, Except.map]
      rw [hreserve]
      exact .of_offset?_eq_none rfl (by simp [Assembly.Item.reference?])

/-- A line of a program, as the assembler takes it. -/
structure IsOffered (l : Line) : Prop where
  well : l.IsWell
  taken : l.IsTaken
  range : l.InRange

/-- The row of a line has its name and its encoding. -/
theorem IsOffered.of_read (h : l.IsOffered) {row : Assembly.Row} {scope' : Option String}
    (hrow : Assembly.Row.read scope number l.text.toList = .ok (row, scope')) :
    row.label = l.name? ∧ l.Encodes (.ok (row.isInstruction, row.encoding)) := by
  obtain ⟨parts, hparts, hlabel, hencodes⟩ := encodes_of_isWell h.well h.taken h.range
  simp only [Assembly.Row.read, hparts] at hrow
  specialize hencodes (Assembly.Row.scopeAfter scope parts.label) number
  cases hencoding : Assembly.Row.encodingOf (Assembly.Row.scopeAfter scope parts.label) number parts
    with
  | error cause =>
      rw [hencoding] at hrow
      cases hrow
  | ok encoding =>
      rw [hencoding] at hrow hencodes
      cases hrow
      exact ⟨hlabel scope, hencodes⟩

/-- **Why a line of a program is refused**: its name is taken, or its offset does not fit. -/
theorem IsOffered.of_refused (h : l.IsOffered) {a left : Assembly.Assembler} {e : Assembly.Error}
    (hline : a.assembleLine number l.text.toList = (left, some e)) :
    (∃ name, l.name? = some name ∧ name.toUpper ∈ a.defined ∧ e.cause = .duplicateLabel name) ∨
      ∃ offset, l.offset? = some offset ∧ ¬ (-128 ≤ offset ∧ offset ≤ 127) ∧
        e.cause = .outOfRange offset (-128) 127 := by
  obtain ⟨parts, hparts, hlabel, hencodes⟩ := encodes_of_isWell h.well h.taken h.range
  obtain ⟨-, hrefuses⟩ := Assembly.Assembler.assembleLine_eq_error_iff.1 hline
  generalize e.cause = cause at hrefuses ⊢
  cases hrefuses with
  | malformed hmalformed => cases hparts.symm.trans hmalformed
  | @duplicate parts' name hparts' hname hdefined =>
      cases hparts.symm.trans hparts'
      have hname' := hlabel a.scope
      rw [hname] at hname'
      exact .inl ⟨_, hname'.symm, hdefined, rfl⟩
  | @behind parts' labelled _ items hparts' _ hbreaks =>
      cases hparts.symm.trans hparts'
      specialize hencodes labelled.scope number
      rw [hbreaks.encodingOf_eq] at hencodes
      cases hencodes with
      | outOfRange hoffset hrange => exact .inr ⟨_, hoffset, hrange, rfl⟩

end Line

/-! ### Lines of a text -/

section Lines

variable {ls : List Line} {rows : List Assembly.Row}

/-- The rows of the lines of a program have their names and their encodings. -/
theorem forall₂_readLines {scope : Option String} {number : Nat} (hls : ∀ l ∈ ls, l.IsOffered)
    (h : Assembly.readLines scope number (ls.map fun l => l.text.toList) = .ok rows) :
    List.Forall₂ (fun l row => row.label = l.name? ∧
      l.Encodes (.ok (row.isInstruction, row.encoding))) ls rows := by
  induction ls generalizing scope number rows with
  | nil =>
      cases h
      exact .nil
  | cons l ls ih =>
      rw [List.forall_mem_cons] at hls
      obtain ⟨⟨row, scope'⟩, hrow, h⟩ := Step.except_bind_eq_ok.1 h
      obtain ⟨rest, hrest, h⟩ := Step.except_bind_eq_ok.1 h
      cases h
      exact .cons (hls.1.of_read hrow) (ih hls.2 hrest)

theorem filterMap_label_of_forall₂ {P : Line → Assembly.Row → Prop}
    (h : List.Forall₂ (fun l row => row.label = l.name? ∧ P l row) ls rows) :
    rows.filterMap Assembly.Row.label = ls.filterMap Line.name? := by
  induction h with
  | nil => rfl
  | cons h _ ih => rw [List.filterMap_cons, List.filterMap_cons, h.1, ih]

/-- The items of the rows define what the rows do, and refer to what the encodings do. -/
theorem Assembly.resolves_itemsOf {forms : Nat → JumpForm}
    (h : ∀ row ∈ rows, ∀ x ∈ row.encoding, ∀ name, x.reference? = some name →
      name ∈ rows.filterMap Row.label) : Resolves (itemsOf forms rows) := by
  intro name hname
  obtain ⟨x, hx, hxname⟩ := List.mem_filterMap.1 hname
  obtain ⟨row, hrow, hx⟩ := List.mem_flatMap.1 hx
  have hcode : x ∈ row.code (forms row.number) := by
    simp only [Row.items, List.mem_append, Option.mem_toList, Option.map_eq_some_iff] at hx
    rcases hx with ⟨label, -, rfl⟩ | hx | hx
    · cases hxname
    · split at hx
      · rw [List.mem_singleton.1 hx] at hxname
        cases hxname
      · cases hx
    · exact hx
  obtain ⟨y, hy, rfl⟩ := List.mem_map.1 hcode
  rw [Item.reference?_withForm] at hxname
  obtain ⟨row', hrow', hlabel⟩ := List.mem_filterMap.1 (h row hrow y hy name hxname)
  refine List.mem_filterMap.2 ⟨.label name, List.mem_flatMap.2 ⟨row', hrow', ?_⟩, rfl⟩
  simp [Row.items, hlabel]

/-- **The outcome of assembling the lines of a program** whose references close. -/
theorem assemble_lines {text : String} (hlines : Text.lines text.toList = ls.map (·.text.toList))
    (hls : ∀ l ∈ ls, l.IsOffered)
    (hclosed : ∀ l ∈ ls, ∀ name, l.reference? = some name → name ∈ ls.filterMap Line.name?)
    (origin : Nat) :
    (∃ image, Assembly.assemble text origin = .ok image ∧
        ((ls.filterMap Line.name?).map String.toUpper).Nodup ∧
        ∀ l ∈ ls, ∀ offset, l.offset? = some offset → -128 ≤ offset ∧ offset ≤ 127) ∨
      ∃ e before l after, Assembly.assemble text origin = .error e ∧ ls = before ++ l :: after ∧
        ((∃ name, l.name? = some name ∧
            name.toUpper ∈ (before.filterMap Line.name?).map String.toUpper ∧
            e.cause = .duplicateLabel name) ∨
          ∃ offset, l.offset? = some offset ∧ ¬ (-128 ≤ offset ∧ offset ≤ 127) ∧
            e.cause = .outOfRange offset (-128) 127) := by
  have hdefined : ∀ {us : List Line} {a : Assembly.Assembler}, (∀ l ∈ us, l.IsOffered) →
      (Assembly.Assembler.empty origin).assembleLines 0 (us.map (·.text.toList)) = .ok a →
      ∃ rows, List.Forall₂ (fun l row => row.label = l.name? ∧
          l.Encodes (.ok (row.isInstruction, row.encoding))) us rows ∧
        Assembly.Assembler.Takes (.empty origin) rows a ∧
        a.defined = ((us.filterMap Line.name?).map String.toUpper).reverse := by
    intro us a hus ha
    obtain ⟨rows, hrows, htakes⟩ := Assembly.Assembler.takes_assembleLines ha
    have hall := forall₂_readLines hus hrows
    refine ⟨rows, hall, htakes, ?_⟩
    rw [htakes.defined, filterMap_label_of_forall₂ hall, List.map_reverse]
    exact List.append_nil _
  cases hassembled : (Assembly.Assembler.empty origin).assembleLines 0
      (ls.map (·.text.toList)) with
  | ok a =>
      obtain ⟨rows, hall, htakes, hnames⟩ := hdefined hls hassembled
      have hresolves : Assembly.Resolves a.items.toList := by
        have hitems : a.items.toList = Assembly.itemsOf (fun _ => .wide) rows := by
          simpa [Assembly.Assembler.empty] using htakes.items
        rw [hitems]
        refine Assembly.resolves_itemsOf fun row hrow x hx name hname => ?_
        obtain ⟨l, hl, -, hencodes⟩ := Assembly.exists_mem_of_forall₂ hall hrow
        rw [filterMap_label_of_forall₂ hall]
        cases hencodes with
        | encoded _ href => exact hclosed l hl name (href x hx name hname)
      obtain ⟨image, himage⟩ := Assembly.Assembler.exists_finish hresolves
      refine .inl ⟨image, ?_, ?_, fun l hl offset hoffset => ?_⟩
      · rw [Assembly.assemble, hlines, hassembled]
        exact himage
      · rw [← List.nodup_reverse, ← hnames]
        exact htakes.nodup List.nodup_nil
      · obtain ⟨row, -, -, hencodes⟩ := Assembly.exists_mem_of_forall₂ hall.flip hl
        cases hencodes with
        | encoded hfits _ => exact hfits offset hoffset
  | error e =>
      obtain ⟨texts, text', texts', taken, left, heq, htaken, hleft⟩ :=
        Assembly.Assembler.exists_refused hassembled
      obtain ⟨before, rest, rfl, rfl, hrest⟩ := List.map_eq_append_iff.1 heq
      obtain ⟨l, after, rfl, rfl, -⟩ := List.map_eq_cons_iff.1 hrest
      obtain ⟨hbefore, hrest⟩ := List.forall_mem_append.1 hls
      obtain ⟨rows, -, -, hnames⟩ := hdefined hbefore htaken
      refine .inr ⟨e, before, l, after, ?_, rfl, ?_⟩
      · rw [Assembly.assemble, hlines, hassembled]
        rfl
      · have hrefused := (hrest l List.mem_cons_self).of_refused hleft
        simpa only [hnames, List.mem_reverse] using hrefused

end Lines

/-! ### The lines of finished code -/

/-- Whether a place in a frame is near enough for an offset of one byte. -/
def Operand.isNear : Operand → Bool
  | frame offset => -128 ≤ offset && offset ≤ 127
  | _ => true

/-- **Code that the assembler takes**: the names of its functions differ in more than case, and the
places in frames are near. -/
structure Code.FitsAssembler (c : Code) : Prop where
  names : (c.functions.map String.toUpper).Nodup
  offsets : ∀ i ∈ c.instrs, i.operand.isNear = true

instance Code.decidableFitsAssembler (c : Code) : Decidable c.FitsAssembler :=
  decidable_of_iff ((c.functions.map String.toUpper).Nodup ∧
      ∀ i ∈ c.instrs, i.operand.isNear = true)
    ⟨fun h => ⟨h.1, h.2⟩, fun h => ⟨h.names, h.offsets⟩⟩

namespace Code.IsFinished

variable {items : List (Node Mark)} {t : Typing} {w : Nat} {c : Code} {l l' : Line}
  {name name' : String}

/-- What a name in the output is made from. -/
theorem exists_made (h : c.IsFinished items t w) (hl : l ∈ c.listing ++ t.round.symbols.cells)
    (hname : l.name? = some name) : (∃ j, name = jumpLabel j) ∨
      (l = .entry name ∧ ∃ base args, IsSourceName base ∧ name = decorate base args) ∨
        ∃ (k : Nat) (s : Symbol) (base : String) (n : Nat), t.round.symbols[k]? = some s ∧
          s.storage = .global name ∧ IsSourceName base ∧ name = globalLabel base n := by
  rcases List.mem_append.1 hl with hl | hl
  · obtain ⟨i, hi, ⟨label, hlabel, rfl⟩ | hbody⟩ := mem_listing.1 hl
    · cases hname
      obtain ⟨n, hn⟩ := h.labelsMade
      exact .inl (hn.exists_eq hlabel)
    · rcases mem_bodyLines.1 hbody with ⟨entry, hop, rfl⟩ | ⟨-, rfl⟩
      · cases hname
        exact .inr (.inl ⟨rfl, (h.exists_decorate (mem_entries.2 ⟨i, hi, hop⟩)).2⟩)
      · cases hname
  · obtain ⟨k, s, cell, hs, -, hstorage, rfl⟩ := Symbols.mem_cells.1 hl
    cases hname
    obtain ⟨base, n, hb, hmade, -⟩ := h.sound.round.labels k s name hs hstorage
    exact .inr (.inr ⟨k, s, base, n, hs, hstorage, hb, hmade⟩)

/-- **Only functions have names that are alike in capitals.** -/
theorem eq_or_entry (h : c.IsFinished items t w) (hl : l ∈ c.listing ++ t.round.symbols.cells)
    (hl' : l' ∈ c.listing ++ t.round.symbols.cells) (hname : l.name? = some name)
    (hname' : l'.name? = some name') (hupper : name.toUpper = name'.toUpper) :
    name = name' ∨ l = .entry name ∧ l' = .entry name' := by
  have hdecorate : ∀ {base : String} {args : List Scalar} {n : Nat}, IsSourceName base →
      (decorate base args).toUpper ≠ (jumpLabel n).toUpper := fun hb =>
    toUpper_ne_jumpLabel hb (toList_decorate _ _) (by decide)
  have hglobal : ∀ {base : String} {j n : Nat}, IsSourceName base →
      (globalLabel base j).toUpper ≠ (jumpLabel n).toUpper := fun hb =>
    toUpper_ne_jumpLabel hb (toList_globalLabel _ _) (by decide)
  rcases h.exists_made hl hname with
    ⟨n, rfl⟩ | ⟨hentry, base, args, hb, rfl⟩ | ⟨j, s, base, n, hs, hstorage, hb, rfl⟩ <;>
    rcases h.exists_made hl' hname' with
      ⟨n', rfl⟩ | ⟨hentry', base', args', hb', rfl⟩ | ⟨k, s', base', n', hs', hstorage', hb', rfl⟩
  · exact .inl (congrArg jumpLabel (toUpper_jumpLabel_inj hupper))
  · exact absurd hupper.symm (hdecorate hb')
  · exact absurd hupper.symm (hglobal hb')
  · exact absurd hupper (hdecorate hb)
  · exact .inr ⟨hentry, hentry'⟩
  · exact absurd hupper.symm (toUpper_globalLabel_ne_decorate hb' hb)
  · exact absurd hupper (hglobal hb)
  · exact absurd hupper (toUpper_globalLabel_ne_decorate hb hb')
  · -- cells with one number are the cell of one variable
    obtain rfl := toUpper_globalLabel_inj hb hb' hupper
    obtain rfl := h.sound.round.numbered j k s s' n hs hs' ⟨base, hb, hstorage⟩
      ⟨base', hb', hstorage'⟩
    cases hs.symm.trans hs'
    exact .inl (Storage.global.inj (hstorage.symm.trans hstorage'))

/-- An instruction is written with what it takes. -/
theorem isTaken (h : c.IsFinished items t w) (hsupplied : Supplied t.layout c.instrs)
    (hl : l ∈ c.listing ++ t.round.symbols.cells) : l.IsTaken := by
  cases l with
  | instr op a remark =>
      have hlisting : Line.instr op a remark ∈ c.listing := by
        refine (List.mem_append.1 hl).resolve_right fun hmem => ?_
        obtain ⟨_, _, name, _, _, _, hcell⟩ := Symbols.mem_cells.1 hmem
        cases hcell
      obtain ⟨i, hi, rfl, rfl, -, hop⟩ := exists_of_mem_listing hlisting
      cases hjump : i.op.isJump with
      | true =>
          obtain ⟨condition, hcondition⟩ : ∃ condition, i.op = .jump condition := by
            cases hiop : i.op <;> simp [hiop, Op.isJump] at hjump
            exact ⟨_, rfl⟩
          rw [hcondition] at hl ⊢
          obtain ⟨n, hn, -⟩ := h.isClosed.jump condition _ _ hl
          rw [hn]
          exact .jump
      | false =>
          have hsame : c.argumentOf i = i.operand := by
            simp [argumentOf, h.regular.targetId? hi hjump]
          rw [Line.IsTaken, hsame]
          cases hsupplied i hi with
          | value hload hvalue =>
              rw [hload, hvalue]
              exact .value
          | cell hiop hcell =>
              generalize i.operand = operand at hcell
              cases hcell with
              | global => exact .global hiop
              | frame => exact .frame hiop
          | name hcall hname =>
              rw [hcall, hname]
              exact .call
          | bare hbare hnone =>
              rw [hnone]
              exact .bare hbare hjump
  | _ => trivial

/-- What a line refers to is defined by a line. -/
theorem mem_names_of_reference? (h : c.IsFinished items t w)
    (hsupplied : Supplied t.layout c.instrs) (hl : l ∈ c.listing ++ t.round.symbols.cells)
    (hname : l.reference? = some name) :
    name ∈ (c.listing ++ t.round.symbols.cells).filterMap Line.name? := by
  have htaken := h.isTaken hsupplied hl
  unfold Line.reference? at hname
  split at hname
  · case h_1 op label remark =>
    cases hname
    rw [Line.IsTaken] at htaken
    cases htaken with
    | call =>
        obtain ⟨callee, hcallee, hentry⟩ := h.isClosed.call _ _ hl
        cases hcallee
        exact List.mem_filterMap.2 ⟨_, hentry, rfl⟩
    | jump =>
        obtain ⟨n, hn, hlabel⟩ := h.isClosed.jump _ _ _ hl
        cases hn
        exact List.mem_filterMap.2 ⟨_, hlabel, rfl⟩
  · cases hname
    exact List.mem_filterMap.2 ⟨_, h.isClosed.cell _ _ _ hl, rfl⟩
  · cases hname

theorem functions_eq (c : Code) : c.functions = StackLang.entries c.instrs := by
  refine List.filterMap_congr fun i _ => ?_
  cases i.op <;> rfl

/-- The offset of a line is that of an instruction. -/
theorem exists_frame_of_offset? (h : c.IsFinished items t w) {offset : Int}
    (hl : l ∈ c.listing ++ t.round.symbols.cells) (hoffset : l.offset? = some offset) :
    ∃ i ∈ c.instrs, i.operand = .frame offset := by
  unfold Line.offset? at hoffset
  split at hoffset
  · case h_1 op offset remark =>
    cases hoffset
    have hlisting : Line.instr op (.frame offset) remark ∈ c.listing := by
      refine (List.mem_append.1 hl).resolve_right fun hmem => ?_
      obtain ⟨_, _, name, _, _, _, hcell⟩ := Symbols.mem_cells.1 hmem
      cases hcell
    obtain ⟨i, hi, -, ha, -⟩ := exists_of_mem_listing hlisting
    rcases h.argumentOf_cases hi with ⟨n, hn, -⟩ | ⟨-, hsame⟩
    · cases hn.symm.trans ha
    · exact ⟨i, hi, hsame.symm.trans ha⟩
  · cases hoffset

/-- The offset of an instruction is that of a line. -/
theorem exists_line_of_frame (h : c.IsFinished items t w) (hsupplied : Supplied t.layout c.instrs)
    {i : Instr} (hi : i ∈ c.instrs) {offset : Int} (hoffset : i.operand = .frame offset) :
    ∃ l ∈ c.listing ++ t.round.symbols.cells, l.offset? = some offset := by
  have hop : i.op = .load ∨ i.op = .store := by
    cases hsupplied i hi with
    | value _ hvalue => cases hoffset.symm.trans hvalue
    | cell hiop _ => exact hiop
    | name _ hname => cases hoffset.symm.trans hname
    | bare _ hnone => cases hoffset.symm.trans hnone
  have hjump : i.op.isJump = false := by rcases hop with hop | hop <;> rw [hop] <;> rfl
  have hmnemonic : i.op.mnemonic? ≠ none := by
    rcases hop with hop | hop <;> rw [hop] <;> simp [Op.mnemonic?]
  have hsame : c.argumentOf i = .frame offset := by
    simp [argumentOf, h.regular.targetId? hi hjump, hoffset]
  refine ⟨.instr i.op (c.argumentOf i) i.remark?, List.mem_append_left _ (mem_listing.2
    ⟨i, hi, .inr (mem_bodyLines.2 (.inr ⟨hmnemonic, rfl⟩))⟩), ?_⟩
  rw [hsame]
  rfl

/-- The names of the functions are among those of the lines. -/
theorem filterMap_function_lines (c : Code) (ss : Symbols) :
    (c.listing ++ ss.cells).filterMap Line.function? = c.functions := by
  have hcells : ss.cells.filterMap Line.function? = [] := by
    refine List.filterMap_eq_nil_iff.2 fun l hl => ?_
    obtain ⟨_, _, name, _, _, _, rfl⟩ := Symbols.mem_cells.1 hl
    rfl
  rw [List.filterMap_append, hcells, List.append_nil, filterMap_entry_listing, functions_eq]

end Code.IsFinished

/-- **Why the assembler refuses code**: two functions have names that are alike in capitals, of
which it refuses the second, or a place in a frame is too far. -/
inductive Code.IsRefusedFor (c : Code) : Assembly.Cause → Prop where
  | name {f g : String} (h : [f, g].Sublist c.functions) (hupper : f.toUpper = g.toUpper) :
      c.IsRefusedFor (.duplicateLabel g)
  | offset {i : Instr} {offset : Int} (hi : i ∈ c.instrs) (hoffset : i.operand = .frame offset)
      (hfar : ¬ (-128 ≤ offset ∧ offset ≤ 127)) : c.IsRefusedFor (.outOfRange offset (-128) 127)

namespace Code

variable {items : List (Node Mark)} {t : Typing} {w : Nat} {c : Code}

theorem IsRefusedFor.not_fitsAssembler {cause : Assembly.Cause} (h : c.IsRefusedFor cause) :
    ¬ c.FitsAssembler := by
  intro hfits
  cases h with
  | name h hupper =>
      have hnodup := hfits.names.sublist (h.map String.toUpper)
      simp [hupper] at hnodup
  | offset hi hoffset hfar =>
      have hnear := hfits.offsets _ hi
      rw [hoffset] at hnear
      exact hfar (by simpa [Operand.isNear] using hnear)

/-- The offsets of near places are numbers of the assembler. -/
theorem FitsAssembler.inRange (hfits : c.FitsAssembler) (h : c.IsFinished items t w) {l : Line}
    (hl : l ∈ c.listing ++ t.round.symbols.cells) : l.InRange := by
  cases l with
  | instr op a remark =>
      cases a with
      | frame offset =>
          obtain ⟨i, hi, hoffset⟩ := h.exists_frame_of_offset? hl rfl
          have hnear := hfits.offsets i hi
          simp only [hoffset, Operand.isNear, Bool.and_eq_true, decide_eq_true_eq] at hnear
          simp only [Line.InRange, Operand.InRange]
          omega
      | _ => trivial
  | _ => trivial

/-- **Finished code is assembled, or refused for one of two reasons.** -/
theorem IsFinished.image_or_refused (h : c.IsFinished items t w)
    (hsupplied : Supplied t.layout c.instrs)
    (hrange : ∀ l ∈ c.listing ++ t.round.symbols.cells, l.InRange) {text : String}
    (hlines : Text.lines text.toList
      = (c.listing ++ t.round.symbols.cells).map (·.text.toList)) (origin : Nat) :
    (∃ image, Assembly.assemble text origin = .ok image ∧ c.FitsAssembler) ∨
      ∃ e, Assembly.assemble text origin = .error e ∧ c.IsRefusedFor e.cause := by
  have hoffered : ∀ l ∈ c.listing ++ t.round.symbols.cells, l.IsOffered := fun l hl =>
    ⟨h.isWell hl, h.isTaken hsupplied hl, hrange l hl⟩
  rcases assemble_lines hlines hoffered (fun l hl name => h.mem_names_of_reference? hsupplied hl)
      origin with
    ⟨image, himage, hnames, hoffsets⟩ | ⟨e, before, l, after, herror, hsplit, hrefused⟩
  · refine .inl ⟨image, himage, ?_, fun i hi => ?_⟩
    · -- the names of functions are some of the names
      have hsorts := ((Line.perm_names _).map String.toUpper).nodup_iff.1 hnames
      simp only [List.map_append] at hsorts
      have hfunctions := (List.nodup_append.1 (List.nodup_append.1 hsorts).2.1).1
      rwa [IsFinished.filterMap_function_lines] at hfunctions
    · cases hoffset : i.operand with
      | frame offset =>
          obtain ⟨l, hl, hloffset⟩ := h.exists_line_of_frame hsupplied hi hoffset
          simpa [Operand.isNear] using hoffsets l hl offset hloffset
      | _ => rfl
  · refine .inr ⟨e, herror, ?_⟩
    have hl : l ∈ c.listing ++ t.round.symbols.cells := by simp [hsplit]
    rcases hrefused with ⟨name, hname, hmem, hcause⟩ | ⟨offset, hoffset, hfar, hcause⟩
    · rw [hcause]
      obtain ⟨name', hname', hupper⟩ := List.mem_map.1 hmem
      obtain ⟨l', hl', hdefines⟩ := List.mem_filterMap.1 hname'
      have hl'' : l' ∈ c.listing ++ t.round.symbols.cells := by simp [hsplit, hl']
      rcases h.eq_or_entry hl'' hl hdefines hname hupper with rfl | ⟨rfl, rfl⟩
      · -- no name is defined twice as it is written
        have hnodup := h.nodup_names
        rw [hsplit, List.filterMap_append, List.filterMap_cons, hname] at hnodup
        exact absurd rfl ((List.nodup_append.1 hnodup).2.2 name' hname' name' List.mem_cons_self)
      · refine .name ?_ hupper
        rw [← IsFinished.filterMap_function_lines c t.round.symbols, hsplit]
        have hsub : [Line.entry name', .entry name].Sublist
            (before ++ .entry name :: after) :=
          (List.singleton_sublist.2 hl').append (List.singleton_sublist.2 List.mem_cons_self)
        exact hsub.filterMap Line.function?
    · obtain ⟨i, hi, hioffset⟩ := h.exists_frame_of_offset? hl hoffset
      exact hcause ▸ .offset hi hioffset hfar

/-- **Code fits the assembler** if the functions of the source have names that differ in more than
case, and no instance has more than 30 parameters or 32 local variables. -/
theorem IsFinished.fitsAssembler (h : c.IsFinished items t w)
    (hsupplied : Supplied t.layout c.instrs)
    (hnames : ∀ f ∈ Node.definitions items, ∀ g ∈ Node.definitions items,
      f.name.toUpper = g.name.toUpper → f.name = g.name)
    (hsmall : ∀ f ∈ t.round.inferred, f.params.length ≤ 30 ∧ f.scope.locals ≤ 32) :
    c.FitsAssembler := by
  constructor
  case names =>
    rw [IsFinished.functions_eq, h.entries]
    refine List.Nodup.map_on ?_
      (h.sound.round.instances.nodup.sublist (List.filter_sublist.map Instance.name))
    simp only [List.forall_mem_map]
    intro i hi j hj hupper
    obtain ⟨f, hf, hcopy⟩ := h.sound.round.instances.made i (List.mem_filter.1 hi).1
    obtain ⟨g, hg, hcopy'⟩ := h.sound.round.instances.made j (List.mem_filter.1 hj).1
    rw [hcopy.name, hcopy'.name] at hupper ⊢
    obtain ⟨hbase, hargs⟩ := toUpper_decorate_inj (h.source f hf).1 (h.source g hg).1 hupper
    rw [hnames f hf g hg hbase, hargs]
  case offsets =>
    intro i hi
    cases hoffset : i.operand with
    | frame offset =>
        obtain ⟨name, hcovers⟩ := (hsupplied i hi).exists_covers hoffset
        have hlayout : (t.layout name).params ≤ 30 ∧ (t.layout name).locals ≤ 32 := by
          rw [Typing.layout]
          cases hfind : t.round.inferred.find? fun f => f.name = name with
          | none => simp
          | some f => exact hsmall f (List.mem_of_find?_eq_some hfind)
        simp only [Operand.isNear, Bool.and_eq_true, decide_eq_true_eq]
        rcases hcovers with ⟨j, hj, rfl⟩ | ⟨j, hj, rfl⟩ <;> omega
    | _ => rfl

end Code

/-! ### Compilation -/

namespace Compile

variable {optimize : Bool} {source : String} {t : Node Span} {compiled : Compiled}

/-- What a program without target code is like. -/
theorem exists_finished (htree : tree source = .ok t) (hasm : t.hasAssembly = false)
    (h : compile optimize source = .ok compiled) :
    ∃ items typing w, compiled.code.IsFinished items typing w ∧ w ≤ source.length ∧
      (Document.ofTree (prepare optimize t)).infer = .ok typing ∧
      Supplied typing.layout compiled.code.instrs ∧
      Text.lines compiled.assembly.toList
        = (compiled.code.listing ++ typing.round.symbols.cells).map (·.text.toList) := by
  obtain ⟨typing, c, text, hinfer, hc, hcode, htext, hassembly⟩ := exists_of_compile htree h
  obtain ⟨items, c', hc', hfinished⟩ := exists_lower_of_infer htree hasm hinfer optimize
  obtain rfl : c = c' := Except.ok.inj (hc.symm.trans hc')
  obtain ⟨k, hunit⟩ := Typing.emits_lower hc
  have hsupplied := Peephole.supplied_of_improved (improved_finish optimize hunit.regular)
    (hunit.supplied hfinished.sound)
  rw [← hcode] at hfinished hsupplied
  obtain ⟨text', htext', hlines⟩ := hfinished.exists_text
  obtain rfl : text = text' := Except.ok.inj (htext.symm.trans htext')
  exact ⟨items, typing, _, hfinished, Document.nameCount_ofTree htree optimize, hinfer, hsupplied,
    hassembly ▸ hlines⟩

/-- **Whatever is compiled assembles**, if the names of its functions differ in more than case and
the places in its frames are near.  No other error is possible, and these two are, in any text that
is not longer than texts can be. -/
theorem assembles (htree : tree source = .ok t) (hasm : t.hasAssembly = false)
    (h : compile optimize source = .ok compiled) (origin : Nat) :
    (compiled.code.FitsAssembler →
        ∃ image, Assembly.assemble compiled.assembly origin = .ok image) ∧
      (source.length < 2 ^ 60 →
        (∀ image, Assembly.assemble compiled.assembly origin = .ok image →
          compiled.code.FitsAssembler) ∧
        ∀ e, Assembly.assemble compiled.assembly origin = .error e →
          compiled.code.IsRefusedFor e.cause) := by
  obtain ⟨items, typing, w, hfinished, hw, -, hsupplied, hlines⟩ := exists_finished htree hasm h
  constructor
  · intro hfits
    rcases hfinished.image_or_refused hsupplied
        (fun l hl => hfits.inRange hfinished hl) hlines origin with
      ⟨image, himage, -⟩ | ⟨e, -, hrefused⟩
    · exact ⟨image, himage⟩
    · exact absurd hfits hrefused.not_fitsAssembler
  · intro hlength
    rcases hfinished.image_or_refused hsupplied
        (fun l hl => hfinished.inRange (hw.trans_lt hlength) hl) hlines origin with
      ⟨image, himage, hfits⟩ | ⟨e, herror, hrefused⟩
    · refine ⟨fun _ _ => hfits, fun e he => ?_⟩
      cases himage.symm.trans he
    · constructor
      · intro image himage
        cases herror.symm.trans himage
      · intro e' he'
        cases herror.symm.trans he'
        exact hrefused

/-- A program with two instances of one function, and a loop: it assembles. -/
theorem assembles_instances : ∃ t compiled image,
    tree "def f(x) { y = x + 1.5 y } z = f(2) while z < 9 { z = z * 2 } f(z)" = .ok t ∧
      t.hasAssembly = false ∧
      compile false "def f(x) { y = x + 1.5 y } z = f(2) while z < 9 { z = z * 2 } f(z)"
        = .ok compiled ∧
      compiled.code.FitsAssembler ∧ Assembly.assemble compiled.assembly 0 = .ok image := by
  have htree : (tree "def f(x) { y = x + 1.5 y } z = f(2) while z < 9 { z = z * 2 } f(z)"
      ).toOption.any (fun t => !t.hasAssembly) = true := by decide +kernel
  have hcompile :
      (compile false "def f(x) { y = x + 1.5 y } z = f(2) while z < 9 { z = z * 2 } f(z)"
        ).toOption.any (fun compiled => compiled.code.FitsAssembler) = true := by decide +kernel
  obtain ⟨t, ht, hasm⟩ := (Option.any_eq_true _ _).1 htree
  obtain ⟨compiled, hcompiled, hfits⟩ := (Option.any_eq_true _ _).1 hcompile
  have hasm : t.hasAssembly = false := by simpa using hasm
  have hfits := of_decide_eq_true hfits
  have ht := Step.eq_ok_of_toOption ht
  have hcompiled := Step.eq_ok_of_toOption hcompiled
  obtain ⟨image, himage⟩ := (assembles ht hasm hcompiled 0).1 hfits
  exact ⟨t, compiled, image, ht, hasm, hcompiled, hfits, himage⟩

/-- **Functions whose names differ in case only**: the program does not assemble. -/
theorem not_assembles_case : ∃ t compiled,
    tree "def f() 1\ndef F() 2\nf() + F()" = .ok t ∧ t.hasAssembly = false ∧
      compile false "def f() 1\ndef F() 2\nf() + F()" = .ok compiled ∧
      Assembly.assemble compiled.assembly 0 = .error ⟨10, .duplicateLabel "F@@"⟩ := by
  have htree : (tree "def f() 1\ndef F() 2\nf() + F()").toOption.any
      (fun t => !t.hasAssembly) = true := by decide +kernel
  have hcompile : (compile false "def f() 1\ndef F() 2\nf() + F()").toOption.any
      (fun compiled => Step.fault? (Assembly.assemble compiled.assembly 0)
        = some ⟨10, .duplicateLabel "F@@"⟩) = true := by decide +kernel
  obtain ⟨t, ht, hasm⟩ := (Option.any_eq_true _ _).1 htree
  obtain ⟨compiled, hcompiled, herror⟩ := (Option.any_eq_true _ _).1 hcompile
  have hasm : t.hasAssembly = false := by simpa using hasm
  exact ⟨t, compiled, Step.eq_ok_of_toOption ht, hasm, Step.eq_ok_of_toOption hcompiled,
    Step.eq_error_of_fault? (of_decide_eq_true herror)⟩

end Compile

end StackLang
