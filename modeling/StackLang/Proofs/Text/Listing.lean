/-
**The lines of a program.**

The text of a program has four sorts of lines: labels of jump targets, names of functions,
instructions, and the cells of the variables of the unit.  Here the lines are data, and the text of
code is what they are written as.  The assembler cuts the text at the line feeds, and finds these
lines again as long as no remark brings a line feed of its own into the text.

Main definitions:

* `Line`, `Line.text` — a line and how it is written;
* `Code.listing`, `Symbols.cells` — the lines of code, and those of the cells;
* `Code.IsPrintable` — no target code, and all jumps go to labels.

Main results:

* `Text.lines_unlines` — the lines of a text that was made of lines;
* `Code.text_of_isPrintable` — the text of code is made of its lines.
-/

import StackLang.Compile
import StackLang.Proofs.Step
import StackLang.Proofs.Typing.Names

set_option relaxedAutoImplicit false
set_option autoImplicit false

namespace StackLang

/-! ### Texts made of lines -/

namespace Text

/-- The text with the given lines, each ended by a line feed. -/
def unlines (ls : List String) : String := String.join (ls.map (· ++ "\n"))

@[simp] theorem toList_unlines_nil : (unlines []).toList = [] := rfl

@[simp] theorem toList_unlines_cons (l : String) (ls : List String) :
    (unlines (l :: ls)).toList = l.toList ++ '\n' :: (unlines ls).toList := by
  simp [unlines, String.join_cons]

theorem unlines_append (ls ls' : List String) :
    unlines (ls ++ ls') = unlines ls ++ unlines ls' := by
  rw [← String.toList_inj, String.toList_append]
  induction ls with
  | nil => rfl
  | cons l ls ih => rw [List.cons_append, toList_unlines_cons, ih, toList_unlines_cons,
      List.append_assoc, List.cons_append]

/-- Lines with line feeds between them, and one at the end. -/
theorem intercalate_append (ls : List String) (h : ls ≠ []) :
    "\n".intercalate ls ++ "\n" = unlines ls := by
  rw [← String.toList_inj]
  induction ls with
  | nil => exact absurd rfl h
  | cons l ls ih =>
      by_cases hls : ls = []
      · subst hls
        simp
      · rw [String.intercalate_cons_of_ne_nil hls, toList_unlines_cons, ← ih hls]
        simp

/-- A text without the characters that end a line. -/
def IsOneLine (cs : List Char) : Prop := ∀ c ∈ cs, c ≠ '\n' ∧ c ≠ '\r'

theorem pieces_append {cs : List Char} (h : IsOneLine cs) (rest : List Char) :
    pieces (cs ++ '\n' :: rest) = cs :: pieces rest := by
  induction cs with
  | nil => rfl
  | cons c cs ih =>
      rw [IsOneLine, List.forall_mem_cons] at h
      rw [List.cons_append, pieces, ih h.2]
      exact h.1.1

theorem dropReturn_of_isOneLine {cs : List Char} (h : IsOneLine cs) : dropReturn cs = cs :=
  if_neg fun hlast => (h '\r' (List.mem_of_getLast? hlast)).2 rfl

/-- **The lines of a text that was made of lines.** -/
theorem lines_unlines {ls : List String} (h : ∀ l ∈ ls, IsOneLine l.toList) :
    lines (unlines ls).toList = ls.map String.toList := by
  induction ls with
  | nil => rfl
  | cons l ls ih =>
      rw [List.forall_mem_cons] at h
      have hrest : linesOfPieces (l.toList :: pieces (unlines ls).toList)
          = dropReturn l.toList :: linesOfPieces (pieces (unlines ls).toList) := by
        cases hp : pieces (unlines ls).toList with
        | nil => exact absurd hp (pieces_ne_nil _)
        | cons p ps => rfl
      rw [lines, toList_unlines_cons, pieces_append h.1, hrest, dropReturn_of_isOneLine h.1,
        List.map_cons, ← ih h.2, lines]

end Text

/-! ### Lines -/

/-- A line of the text of a program. -/
inductive Line where
  /-- The label of a jump target. -/
  | label (name : String)
  /-- The name of a function, in front of its code. -/
  | entry (name : String)
  /-- An instruction, with what stands behind its name and its remark. -/
  | instr (op : Op) (argument : Operand) (remark : Option String)
  /-- The cell of a variable of the unit. -/
  | cell (name : String)
deriving DecidableEq, Repr

/-- How a line is written. -/
def Line.text : Line → String
  | label name | entry name => name ++ ":"
  | instr op argument remark => Code.line (op.mnemonic?.getD "") argument.text remark
  | cell name => name ++ ": RESD 1"

/-- The line of a cell that is still to be written out. -/
def Symbol.cellLine? (s : Symbol) : Option Line :=
  match s.emitted, s.storage with
  | false, .global label => some (.cell label)
  | _, _ => none

/-- The cells that are still to be written out. -/
def Symbols.cells (ss : Symbols) : List Line := ss.toList.filterMap Symbol.cellLine?

theorem Symbol.cellLine?_eq_some {s : Symbol} {l : Line} : s.cellLine? = some l ↔
    ∃ name, s.emitted = false ∧ s.storage = .global name ∧ l = .cell name := by
  unfold cellLine?
  split
  · rename_i name hemitted hstorage
    constructor
    · rintro ⟨⟩
      exact ⟨name, hemitted, hstorage, rfl⟩
    · rintro ⟨name', -, hname, rfl⟩
      rw [hstorage] at hname
      cases hname
      rfl
  · rename_i hother
    refine iff_of_false (by simp) ?_
    rintro ⟨name, hemitted, hstorage, -⟩
    exact hother name hemitted hstorage

/-- The lines of the cells are written as they reserve them. -/
theorem Symbols.reservations_eq (ss : Symbols) :
    ss.reservations = Text.unlines (ss.cells.map Line.text) := by
  rw [reservations, cells]
  induction ss.toList with
  | nil => rfl
  | cons s ss ih =>
      rw [List.map_cons, String.join_cons, ih, List.filterMap_cons, Symbol.cellLine?]
      split <;> simp_all [← String.toList_inj, reservation, Line.text]

/-! ### The lines of code -/

namespace Code

variable {c : Code}

/-- What stands behind the name of an instruction: the label of its target, or its operand. -/
def argumentOf (c : Code) (i : Instr) : Operand :=
  match i.targetId? with
  | some k => .label ((c.label? k).getD "")
  | none => i.operand

/-- The lines of an instruction behind its label. -/
def bodyLines (c : Code) (i : Instr) : List Line :=
  match i.op with
  | .entry name => [.entry name]
  | .assembly _ | .nop => []
  | op => [.instr op (c.argumentOf i) i.remark?]

/-- The lines of an instruction with its label. -/
def linesAt (c : Code) (i : Instr) : List Line :=
  (c.label? i.id).toList.map .label ++ c.bodyLines i

/-- **The lines of code.** -/
def listing (c : Code) : List Line := c.instrs.flatMap c.linesAt

/-- There is no target code, and all jumps go to labels. -/
structure IsPrintable (c : Code) : Prop where
  noAssembly : ∀ i ∈ c.instrs, ∀ text, i.op ≠ .assembly text
  target : ∀ i ∈ c.instrs, ∀ t, i.target = some t →
    ∃ k label, t = .instr k ∧ c.label? k = some label

theorem argument_of_isPrintable (h : c.IsPrintable) {i : Instr} (hi : i ∈ c.instrs) :
    c.argument i = .ok (c.argumentOf i).text := by
  unfold argument argumentOf Instr.targetId?
  cases ht : i.target with
  | none => rfl
  | some t =>
      obtain ⟨k, label, rfl, hlabel⟩ := h.target i hi t ht
      simp [hlabel, Operand.text]

theorem body_of_isPrintable (h : c.IsPrintable) {i : Instr} (hi : i ∈ c.instrs) :
    c.body i = .ok ((c.bodyLines i).map Line.text) := by
  have harg := argument_of_isPrintable h hi
  cases hop : i.op with
  | assembly text => exact absurd hop (h.noAssembly i hi text)
  | arith op type =>
      cases type <;> simp [body, bodyLines, hop, Op.mnemonic?, harg, Line.text]
  | entry name => simp [body, bodyLines, hop, Line.text]
  | nop => simp [body, bodyLines, hop, Op.mnemonic?]
  | _ => simp [body, bodyLines, hop, Op.mnemonic?, harg, Line.text]

theorem linesOf_of_isPrintable (h : c.IsPrintable) {i : Instr} (hi : i ∈ c.instrs) :
    c.linesOf i = .ok ((c.linesAt i).map Line.text) := by
  rw [linesOf, linesAt, body_of_isPrintable h hi, List.map_append]
  cases c.label? i.id <;> rfl

theorem lines_of_isPrintable (h : c.IsPrintable) {is : List Instr} (his : ∀ i ∈ is, i ∈ c.instrs) :
    c.lines is = .ok ((is.flatMap c.linesAt).map Line.text) := by
  induction is with
  | nil => rfl
  | cons i is ih =>
      rw [List.forall_mem_cons] at his
      rw [lines, linesOf_of_isPrintable h his.1, ih his.2, List.flatMap_cons, List.map_append]
      rfl

/-- **The text of code is made of its lines**, if there are any. -/
theorem text_of_isPrintable (h : c.IsPrintable) (hne : c.listing ≠ []) :
    c.text = .ok (Text.unlines (c.listing.map Line.text)) := by
  rw [text, lines_of_isPrintable h fun _ hi => hi]
  exact congrArg Except.ok (Text.intercalate_append _ fun hmap => hne (List.map_eq_nil_iff.1 hmap))

end Code

end StackLang
