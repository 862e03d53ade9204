/-
**What the lines of a text put into an image.**

A line defines a label, or holds an instruction or a directive with its encoding, or both.  What it
puts into the image is its row.  An encoding is a list of items, and only a jump can have another
size in another form; so the rows say what the image is, once every line has the form of its jump.

Main definitions:

* `Row`, `Row.read`, `readLines` — the row of a line, and those of some lines;
* `Row.code`, `Row.items` — the items of a row, its jump in a given form;
* `place` — rows with their addresses.

Main results:

* `isEncoding_encodingOf` — what the encoding of a line looks like;
* `Assembler.takes_assembleLines` — an assembler collects the items of the rows.
-/

import StackLang.Assembly.Assembler
import StackLang.Proofs.Assembly.Places
import StackLang.Proofs.Step
import Mathlib

set_option relaxedAutoImplicit false
set_option autoImplicit false

namespace StackLang

namespace Assembly

/-! ### Items in a form -/

namespace Item

/-- The item with a jump in the given form. -/
def withForm (form : JumpForm) : Item → Item
  | jump c name number _ => jump c name number form
  | item => item

end Item

/-! ### Rows -/

/-- What a line puts into an image. -/
structure Row where
  /-- The number of the line. -/
  number : Nat
  /-- The label that the line defines, in full. -/
  label : Option String
  /-- Whether the line holds an instruction. -/
  isInstruction : Bool
  /-- The encoding of the instruction or the directive, a jump in its wide form. -/
  encoding : List Item

namespace Row

/-- The encoding of what stands behind the label of a line, and whether it is an instruction. -/
def encodingOf (scope : Option String) (number : Nat) (parts : SourceLine) :
    Except Cause (Bool × List Item) :=
  match parts.mnemonic with
  | none => .ok (false, [])
  | some name =>
    match Mnemonic.parse? name with
    | none => .error (.unknownMnemonic (String.ofList name))
    | some (.directive (.reserve width)) =>
      (encodeReserve width parts.operand).map fun items => (false, items)
    | some (.directive .data) =>
      match parts.operand with
      | none => .error (.malformed .dataWithoutOperand)
      | some text =>
        match encodeData scope (splitOperands text) with
        | (bytes, none) => .ok (false, [.bytes bytes])
        | (_, some cause) => .error cause
    | some (.instruction instruction) => do
      let operand ← parts.operand.mapM (Operand.parse scope)
      let items ← encode number instruction operand
      pure (true, items)

/-- The scope behind a label: a label without a dot in front opens one. -/
def scopeAfter (scope : Option String) : Option (List Char) → Option String
  | none => scope
  | some name => if name.head? = some '.' then scope else some (qualify scope name)

/-- The row of a line that stands in the scope of a label, and the scope behind the line. -/
def read (scope : Option String) (number : Nat) (text : List Char) :
    Except Error (Row × Option String) :=
  match SourceLine.parse text with
  | .error cause => .error ⟨number, cause⟩
  | .ok parts =>
    let scope' := scopeAfter scope parts.label
    match encodingOf scope' number parts with
    | .error cause => .error ⟨number, cause⟩
    | .ok (isInstruction, items) =>
      .ok (⟨number, parts.label.map (qualify scope), isInstruction, items⟩, scope')

/-- The encoding with its jump in the given form. -/
def code (form : JumpForm) (row : Row) : List Item := row.encoding.map (Item.withForm form)

/-- The number of bytes of the encoding. -/
def size (form : JumpForm) (row : Row) : Nat := totalSize (row.code form)

/-- The items of the row with its marks. -/
def items (form : JumpForm) (row : Row) : List Item :=
  (row.label.map Item.label).toList
    ++ ((if row.isInstruction then [.line row.number] else []) ++ row.code form)

end Row

/-- The rows of some lines, counted from `number`. -/
def readLines (scope : Option String) (number : Nat) : List (List Char) → Except Error (List Row)
  | [] => .ok []
  | text :: texts => do
    let (row, scope) ← Row.read scope number text
    let rows ← readLines scope (number + 1) texts
    pure (row :: rows)

/-- Rows with their addresses, the first at `address`, when the jump on each line has a form. -/
def place (forms : Nat → JumpForm) (address : Nat) : List Row → List (Nat × Row)
  | [] => []
  | row :: rows => (address, row) :: place forms (address + row.size (forms row.number)) rows

/-- The items of some rows when the jump on each line has a form. -/
def itemsOf (forms : Nat → JumpForm) (rows : List Row) : List Item :=
  rows.flatMap fun row => row.items (forms row.number)

@[simp] theorem itemsOf_nil (forms : Nat → JumpForm) : itemsOf forms [] = [] := rfl

@[simp] theorem itemsOf_cons (forms : Nat → JumpForm) (row : Row) (rows : List Row) :
    itemsOf forms (row :: rows) = row.items (forms row.number) ++ itemsOf forms rows := rfl

/-! ### Encodings -/

/-- What the encoding of a line looks like: that of an instruction starts with its opcode, which the
address of a label may follow, or it is a jump. -/
inductive IsEncoding (number : Nat) : Bool → List Item → Prop where
  | jump (condition : Condition) (label : String) :
      IsEncoding number true [.jump condition label number .wide]
  | code (op : UInt8) (bs : List UInt8) : IsEncoding number true [.bytes (op :: bs)]
  | reference (op : UInt8) (label : String) (offset : Int) :
      IsEncoding number true [.bytes [op], .address label offset number]
  | data (bs : List UInt8) : IsEncoding number false [.bytes bs]
  | reserve (count : Nat) : IsEncoding number false [.reserved count]
  | nothing : IsEncoding number false []

section Encodings

variable {number : Nat} {items : List Item} {operand : Option Operand}

theorem isEncoding_bare {op : UInt8} (h : encodeBare op operand = .ok items) :
    IsEncoding number true items := by
  cases operand with
  | none =>
      cases h
      exact .code _ _
  | some operand => cases h

theorem isEncoding_value {transfer : Transfer} {width : Width} {operand : Operand}
    (h : encodeValue transfer width operand = .ok items) : IsEncoding number true items := by
  unfold encodeValue at h
  split at h
  · obtain ⟨_, -, h⟩ := Step.except_bind_eq_ok.1 h
    cases h
    exact .code _ _
  · cases h

theorem isEncoding_memory {transfer : Transfer} {width : Width}
    (h : encodeMemory transfer width number operand = .ok items) :
    IsEncoding number true items := by
  unfold encodeMemory at h
  split at h
  case h_1 =>
    cases h
    exact .code _ _
  case h_2 =>
    obtain ⟨_, -, h⟩ := Step.except_bind_eq_ok.1 h
    cases h
    exact .code _ _
  case h_3 =>
    obtain ⟨_, -, h⟩ := Step.except_bind_eq_ok.1 h
    cases h
    exact .code _ _
  case h_4 =>
    cases h
    exact .reference _ _ _
  case h_5 =>
    split at h
    · cases h
      exact .reference _ _ _
    · cases h
  case h_6 => exact isEncoding_value h

theorem isEncoding_depth {base : UInt8} {width : Width}
    (h : encodeDepth base width operand = .ok items) : IsEncoding number true items := by
  obtain ⟨depth, -, h⟩ := Step.except_bind_eq_ok.1 h
  obtain ⟨_, -, h⟩ := Step.except_bind_eq_ok.1 h
  split at h
  · cases h
    exact .code _ _
  · cases h
    exact .code _ _

theorem isEncoding_call (h : encodeCall number operand = .ok items) :
    IsEncoding number true items := by
  unfold encodeCall at h
  split at h
  · cases h
    exact .code _ _
  · cases h
    exact .reference _ _ _
  · cases h

theorem isEncoding_jump {condition : Condition}
    (h : encodeJump condition number operand = .ok items) : IsEncoding number true items := by
  unfold encodeJump at h
  split at h
  · cases h
    exact .jump _ _
  · cases h
  · cases h

theorem isEncoding_interrupt (h : encodeInterrupt operand = .ok items) :
    IsEncoding number true items := by
  unfold encodeInterrupt at h
  split at h
  · obtain ⟨_, -, h⟩ := Step.except_bind_eq_ok.1 h
    cases h
    exact .code _ _
  · cases h

/-- **The encoding of an instruction.** -/
theorem isEncoding_encode {instruction : Instruction}
    (h : encode number instruction operand = .ok items) : IsEncoding number true items := by
  cases instruction with
  | load width => exact isEncoding_memory h
  | store width => exact isEncoding_memory h
  | dup width => exact isEncoding_depth h
  | dig width => exact isEncoding_depth h
  | call => exact isEncoding_call h
  | jump condition => exact isEncoding_jump h
  | interrupt => exact isEncoding_interrupt h
  | _ => exact isEncoding_bare h

theorem isEncoding_reserve {width : Width} {operand : Option (List Char)}
    (h : encodeReserve width operand = .ok items) : IsEncoding number false items := by
  unfold encodeReserve at h
  cases operand
  all_goals
    obtain ⟨count, -, h⟩ := Step.except_bind_eq_ok.1 h
    obtain ⟨_, -, h⟩ := Step.except_bind_eq_ok.1 h
    cases h
    exact .reserve _

/-- **What a line is encoded as looks like an encoding.** -/
theorem isEncoding_encodingOf {scope : Option String} {parts : SourceLine} {isInstruction : Bool}
    (h : Row.encodingOf scope number parts = .ok (isInstruction, items)) :
    IsEncoding number isInstruction items := by
  unfold Row.encodingOf at h
  split at h
  · cases h
    exact .nothing
  · split at h
    case h_1 => cases h
    case h_2 =>
      cases hreserve : encodeReserve _ parts.operand with
      | error cause =>
          rw [hreserve] at h
          cases h
      | ok found =>
          rw [hreserve] at h
          cases h
          exact isEncoding_reserve hreserve
    case h_3 =>
      split at h
      · cases h
      · split at h
        · cases h
          exact .data _
        · cases h
    case h_4 =>
      obtain ⟨operand, -, h⟩ := Step.except_bind_eq_ok.1 h
      obtain ⟨found, hencode, h⟩ := Step.except_bind_eq_ok.1 h
      cases h
      exact isEncoding_encode hencode

end Encodings

/-! ### Rows of a text -/

namespace Row

/-- The encoding of the row looks like one of its line. -/
def IsWell (row : Row) : Prop := IsEncoding row.number row.isInstruction row.encoding

variable {row : Row}

theorem IsWell.code_wide (h : row.IsWell) : row.code .wide = row.encoding := by
  obtain ⟨number, label, isInstruction, items⟩ := row
  replace h : IsEncoding number isInstruction items := h
  cases h <;> rfl

theorem isWell_read {scope scope' : Option String} {number : Nat} {text : List Char}
    (h : read scope number text = .ok (row, scope')) : row.number = number ∧ row.IsWell := by
  unfold read at h
  split at h
  · cases h
  · simp only at h
    split at h
    · cases h
    · case h_2 hencoding =>
      cases h
      exact ⟨rfl, isEncoding_encodingOf hencoding⟩

end Row

/-- The rows of some lines are numbered from the first line on, and their encodings look like ones.
-/
theorem isWell_readLines {scope : Option String} {number : Nat} {texts : List (List Char)}
    {rows : List Row} (h : readLines scope number texts = .ok rows) :
    rows.map Row.number = List.range' number texts.length ∧ ∀ row ∈ rows, row.IsWell := by
  induction texts generalizing scope number rows with
  | nil =>
      cases h
      exact ⟨rfl, nofun⟩
  | cons text texts ih =>
      obtain ⟨⟨row, scope'⟩, hrow, h⟩ := Step.except_bind_eq_ok.1 h
      obtain ⟨rest, hrest, h⟩ := Step.except_bind_eq_ok.1 h
      cases h
      obtain ⟨hnumber, hwell⟩ := Row.isWell_read hrow
      obtain ⟨hnumbers, hwells⟩ := ih hrest
      exact ⟨by simp [hnumber, hnumbers, List.range'_succ], List.forall_mem_cons.2 ⟨hwell, hwells⟩⟩

/-! ### Assemblers -/

namespace Assembler

/-- An assembler has taken in some rows: it has their items, and their labels were new. -/
structure Takes (a : Assembler) (rows : List Row) (a' : Assembler) : Prop where
  origin : a'.origin = a.origin
  items : a'.items.toList = a.items.toList ++ itemsOf (fun _ => .wide) rows
  defined : a'.defined = (rows.filterMap Row.label).reverse.map String.toUpper ++ a.defined
  nodup : a.defined.Nodup → a'.defined.Nodup

variable {a a' a'' : Assembler} {rows rows' : List Row}

theorem Takes.refl (a : Assembler) : Takes a [] a := ⟨rfl, by simp, by simp, id⟩

theorem Takes.append (h : Takes a rows a') (h' : Takes a' rows' a'') :
    Takes a (rows ++ rows') a'' := by
  refine ⟨h'.origin.trans h.origin, ?_, ?_, fun hnodup => h'.nodup (h.nodup hnodup)⟩
  · rw [h'.items, h.items, List.append_assoc, itemsOf, itemsOf, itemsOf, List.flatMap_append]
  · rw [h'.defined, h.defined, List.filterMap_append, List.reverse_append, List.map_append,
      List.append_assoc]

/-- After a label. -/
theorem defineLabel?_eq {label : Option (List Char)} (h : a.defineLabel? label = (a', none)) :
    a'.scope = Row.scopeAfter a.scope label ∧ a'.origin = a.origin ∧
      a'.items.toList
        = a.items.toList ++ ((label.map (qualify a.scope)).map Item.label).toList ∧
      a'.defined = ((label.map (qualify a.scope)).map String.toUpper).toList ++ a.defined ∧
      (a.defined.Nodup → a'.defined.Nodup) := by
  cases label with
  | none =>
      cases h
      exact ⟨rfl, rfl, by simp, rfl, id⟩
  | some name =>
      by_cases hdot : name.head? = some '.'
      all_goals
        simp only [defineLabel?, defineLabel, hdot, if_true, if_false] at h
        split at h
        · cases h
        · case isFalse hnew =>
          cases h
          exact ⟨by simp [push, Row.scopeAfter, hdot], rfl, by simp [push], rfl,
            fun h => List.nodup_cons.2 ⟨hnew, h⟩⟩

/-- After an instruction or a directive. -/
theorem assembleMnemonic_eq {number : Nat} {parts : SourceLine} {name : List Char}
    {mnemonic : Mnemonic} (hname : parts.mnemonic = some name)
    (hmnemonic : Mnemonic.parse? name = some mnemonic)
    (h : a.assembleMnemonic number mnemonic parts.operand = (a', none)) :
    ∃ isInstruction items, Row.encodingOf a.scope number parts = .ok (isInstruction, items) ∧
      a' = a.push ((if isInstruction then [.line number] else []) ++ items) := by
  unfold assembleMnemonic at h
  split at h
  · case h_1 width =>
    cases hitems : encodeReserve width parts.operand with
    | error cause =>
        rw [hitems] at h
        cases h
    | ok items =>
        rw [hitems] at h
        cases h
        refine ⟨false, items, ?_, rfl⟩
        simp only [Row.encodingOf, hname, hmnemonic, hitems, Except.map]
  · split at h
    · cases h
    · case h_2 text hoperand =>
      cases hdata : encodeData a.scope (splitOperands text) with
      | mk bytes cause =>
        simp only [hdata] at h
        cases h
        refine ⟨false, [.bytes bytes], ?_, rfl⟩
        simp only [Row.encodingOf, hname, hmnemonic, hoperand, hdata]
  · case h_3 instruction =>
    cases hitems : (do
        let operand ← parts.operand.mapM (Operand.parse a.scope)
        encode number instruction operand : Except Cause (List Item)) with
    | error cause =>
        rw [hitems] at h
        cases h
    | ok items =>
        obtain ⟨operand, hoperand, hencode⟩ := Step.except_bind_eq_ok.1 hitems
        rw [hitems] at h
        cases h
        refine ⟨true, items, ?_, by simp [push]⟩
        simp only [Row.encodingOf, hname, hmnemonic]
        exact Step.except_bind_eq_ok.2 ⟨operand, hoperand,
          Step.except_bind_eq_ok.2 ⟨items, hencode, rfl⟩⟩

/-- **An assembler takes in the row of a line.** -/
theorem takes_assembleLine {number : Nat} {text : List Char}
    (h : a.assembleLine number text = (a', none)) :
    ∃ row, Row.read a.scope number text = .ok (row, a'.scope) ∧ Takes a [row] a' := by
  unfold assembleLine at h
  split at h
  · cases h
  · case h_2 parts hparts =>
    simp only [Prod.mk.injEq, Option.map_eq_none_iff] at h
    obtain ⟨ha', hcause⟩ := h
    replace h : a.assembleParts number parts = (a', none) := Prod.ext ha' hcause
    unfold assembleParts at h
    split at h
    · cases h
    · case h_2 a₁ hlabel =>
      obtain ⟨hscope, horigin, hitems, hdefined, hnodup⟩ := defineLabel?_eq hlabel
      -- what stands behind the label adds the encoding and leaves all else
      obtain ⟨isInstruction, items, hencoding, rfl⟩ : ∃ isInstruction items,
          Row.encodingOf a₁.scope number parts = .ok (isInstruction, items) ∧
            a' = a₁.push ((if isInstruction then [.line number] else []) ++ items) := by
        split at h
        · case h_1 hnone =>
          cases h
          exact ⟨false, [], by simp [Row.encodingOf, hnone], by simp [push]⟩
        · case h_2 name hname =>
          split at h
          · cases h
          · exact assembleMnemonic_eq hname ‹_› h
      rw [hscope] at hencoding
      have hread : Row.read a.scope number text = .ok
          (⟨number, parts.label.map (qualify a.scope), isInstruction, items⟩, a₁.scope) := by
        simp [Row.read, hparts, hencoding, hscope]
      refine ⟨_, hread, horigin, ?_, ?_, hnodup⟩
      · have hwide := (Row.isWell_read hread).2.code_wide
        simp [push, hitems, itemsOf, Row.items, hwide]
      · change a₁.defined = _
        rw [hdefined]
        cases parts.label <;> simp

/-- **An assembler takes in the rows of some lines.** -/
theorem takes_assembleLines {number : Nat} {texts : List (List Char)}
    (h : a.assembleLines number texts = .ok a') :
    ∃ rows, readLines a.scope number texts = .ok rows ∧ Takes a rows a' := by
  induction texts generalizing a number with
  | nil =>
      cases h
      exact ⟨[], rfl, .refl _⟩
  | cons text texts ih =>
      rw [assembleLines] at h
      split at h
      · case h_1 a₁ hline =>
        obtain ⟨row, hrow, htakes⟩ := takes_assembleLine hline
        obtain ⟨rows, hrows, htakes'⟩ := ih h
        refine ⟨row :: rows, ?_, htakes.append htakes'⟩
        exact Step.except_bind_eq_ok.2 ⟨_, hrow, Step.except_bind_eq_ok.2 ⟨rows, hrows, rfl⟩⟩
      · cases h

end Assembler

end Assembly

end StackLang
