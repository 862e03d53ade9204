/-
**Images can be read back.**

Each opcode stands for one operation with one form of its argument, apart from two: an interrupt
shares its opcode with a short jump, and a store of two bytes to the name of a label with dropping
two bytes.  Without these an image says which instructions it holds and with which arguments, so two
texts with one image hold the same instructions.

Main definitions:

* `Statement.Encodes` — some bytes are the encoding of an instruction;
* `Reads` — some bytes are read as an instruction;
* `Holds` — the rows of a text hold some instructions.

Main results:

* `reads_of_encode` — an encoding is read as its instruction;
* `decode_of_assemble` — an image is read as the instructions of its text;
* `same_meaning_of_assemble` — texts with one image mean the same.
-/

import StackLang.Proofs.Assembly.Meaning
import StackLang.Proofs.Assembly.Near

set_option relaxedAutoImplicit false
set_option autoImplicit false

namespace StackLang

namespace Assembly

/-! ### Numbers in fields -/

/-- The bytes of a number hold it as far as they can. -/
theorem number_littleEndian (bytes : Nat) (value : Int) :
    Form.number (littleEndian bytes value) = field bytes value := by
  induction bytes generalizing value with
  | zero => simp [Form.number, littleEndian, field]
  | succ n ih =>
      have hlow : (UInt8.ofNat (value % 256).toNat).toNat = (value % 256).toNat := by
        rw [UInt8.toNat_ofNat']
        omega
      have hpow : (0 : Int) < 256 ^ n := by positivity
      have hhigh : 0 ≤ value / 256 % 256 ^ n := Int.emod_nonneg _ hpow.ne'
      have hsplit : value % 256 ^ (n + 1) = value % 256 + 256 * (value / 256 % 256 ^ n) := by
        rw [pow_succ', Int.emod_def, Int.emod_def value, Int.emod_def (value / 256),
          ← Int.ediv_ediv_of_nonneg (by norm_num)]
        ring
      rw [littleEndian, Form.number, ih, hlow, field, field, hsplit]
      omega

/-- A distance within the range of a signed byte is read as it is. -/
theorem bmod_field_one {value : Int} (h : -128 ≤ value ∧ value ≤ 127) :
    Int.bmod (field 1 value) 256 = value := by
  have hfield : (field 1 value : Int) = value % 256 := by
    rw [field, pow_one]
    omega
  rw [hfield, Int.bmod_def]
  split <;> omega

theorem field_of_lt {bytes : Nat} {value : Int} (h : 0 ≤ value) (h' : value < 256 ^ bytes) :
    field bytes value = value.toNat := by
  rw [field, Int.emod_eq_of_lt h h']

/-! ### Encodings -/

/-- Some bytes are the encoding of an instruction at an address, its jump in the given form and
labels having the given addresses. -/
def Statement.Encodes (labels : List (String × Nat)) (jump : JumpForm) (address : Nat)
    (s : Statement) (bytes : List UInt8) : Prop :=
  ∃ line items, encode line s.instruction s.operand = .ok items ∧
    cellsFrom labels address (items.map (Item.withForm jump)) = some (bytes.map some)

/-- The target of a short jump is near the address of the jump. -/
def Statement.IsNear (labels : List (String × Nat)) (jump : JumpForm) (address : Nat)
    (s : Statement) : Prop :=
  jump = .short → ∀ condition name, s = ⟨.jump condition, some (.label name)⟩ →
    ∀ target, labels.lookup name = some target → Assembly.IsNear (address + 1) target

/-- **Some bytes are read as an instruction**: the opcode tells its shape, which takes all bytes,
and they tell what the instruction means, a short jump if its target is near. -/
structure Reads (labels : List (String × Nat)) (jump : JumpForm) (address : Nat) (s : Statement)
    (op : UInt8) (bytes : List UInt8) (shape : Shape) : Prop where
  opcode : shapeOf? op = some shape
  isShape : s.shape? jump = some shape
  length : bytes.length = shape.form.length
  meaning : s.IsNear labels jump address →
    s.meaning? labels = some ⟨shape.instruction, shape.form.argument address bytes⟩

section Families

variable {labels : List (String × Nat)} {jump : JumpForm} {address : Nat} {line : Nat}
  {operand : Option Operand} {items : List Item} {cells : List Cell}

/-- The encoding of an opcode with bytes behind it. -/
theorem cells_opcodeWith (op : UInt8) (bytes : List UInt8) :
    cellsFrom labels address ((opcodeWith op bytes).map (Item.withForm jump))
      = some ((op :: bytes).map some) := by
  simp [opcodeWith, cellsFrom, Item.withForm, Item.cells]

/-- The encoding of an opcode with a reference behind it. -/
theorem cells_reference (op : UInt8) (name : String) (offset : Int) (line : Nat) :
    cellsFrom labels address
        ((opcodeWith op [] ++ [Item.address name offset line]).map (Item.withForm jump))
      = (labels.lookup name).map fun target : Nat =>
        (op :: littleEndian 2 (target + offset)).map some := by
  simp only [opcodeWith, List.singleton_append, List.map_cons, List.map_nil, Item.withForm,
    cellsFrom, Item.cells]
  cases labels.lookup name <;> rfl

/-- What it takes for an encoding to be read. -/
theorem exists_reads {s : Statement} {op : UInt8} {bytes : List UInt8} {shape : Shape}
    (hcells : cells = (op :: bytes).map some) (h : Reads labels jump address s op bytes shape) :
    ∃ op bytes shape, cells = (op :: bytes).map some ∧ Reads labels jump address s op bytes shape :=
  ⟨op, bytes, shape, hcells, h⟩

theorem reads_bare {instruction : Instruction} {op : UInt8}
    (hop : shapeOf? op = some ⟨instruction.operation, .none⟩)
    (hshape : (⟨instruction, none⟩ : Statement).form? jump = some .none)
    (hargument : (⟨instruction, none⟩ : Statement).argument? labels = some .none)
    (h : encodeBare op operand = .ok items)
    (hcells : cellsFrom labels address (items.map (Item.withForm jump)) = some cells) :
    ∃ op bytes shape, cells = (op :: bytes).map some ∧
      Reads labels jump address ⟨instruction, operand⟩ op bytes shape := by
  cases operand with
  | some operand => cases h
  | none =>
      cases h
      rw [cells_opcodeWith] at hcells
      refine exists_reads (Option.some.inj hcells).symm ⟨hop, ?_, rfl, fun _ => ?_⟩
      · rw [Statement.shape?, hshape]
        rfl
      · rw [Statement.meaning?, hargument]
        rfl

theorem reads_call (h : encodeCall line operand = .ok items)
    (hcells : cellsFrom labels address (items.map (Item.withForm jump)) = some cells) :
    ∃ op bytes shape, cells = (op :: bytes).map some ∧
      Reads labels jump address ⟨.call, operand⟩ op bytes shape := by
  unfold encodeCall at h
  split at h
  · cases h
    rw [cells_opcodeWith] at hcells
    exact exists_reads (Option.some.inj hcells).symm ⟨by decide, rfl, rfl, fun _ => rfl⟩
  · case h_2 name =>
    cases h
    rw [cells_reference] at hcells
    obtain ⟨target, htarget, hcells⟩ := Option.map_eq_some_iff.1 hcells
    have hop : shapeOf? Opcode.call = some ⟨.call, .far⟩ := by decide
    refine exists_reads hcells.symm ⟨hop, rfl, rfl, fun _ => ?_⟩
    rw [Int.add_zero, Form.argument, number_littleEndian, Statement.meaning?, Statement.argument?,
      Statement.target?, htarget]
    · rfl
    · exact nofun
  · cases h

theorem reads_jump {condition : Condition} (h : encodeJump condition line operand = .ok items)
    (hcells : cellsFrom labels address (items.map (Item.withForm jump)) = some cells) :
    ∃ op bytes shape, cells = (op :: bytes).map some ∧
      Reads labels jump address ⟨.jump condition, operand⟩ op bytes shape := by
  unfold encodeJump at h
  split at h
  · case h_1 name =>
    cases h
    -- the text does not say which form a jump has: the opcode does
    cases jump with
    | wide =>
        have hop : shapeOf? (Opcode.wideJump condition) = some ⟨.jump condition, .far⟩ := by
          cases condition <;> decide
        simp only [List.map_cons, List.map_nil, Item.withForm, cellsFrom, Item.cells] at hcells
        cases htarget : labels.lookup name with
        | none =>
            rw [htarget] at hcells
            cases hcells
        | some target =>
            rw [htarget] at hcells
            refine ⟨Opcode.wideJump condition, littleEndian 2 target, _,
              by simpa using hcells.symm, hop, rfl, rfl, fun _ => ?_⟩
            rw [Statement.meaning?, Statement.argument?, Statement.target?, htarget, Form.argument,
              number_littleEndian]
            rfl
    | short =>
        have hop : shapeOf? (Opcode.shortJump condition) = some ⟨.jump condition, .near⟩ := by
          cases condition <;> decide
        simp only [List.map_cons, List.map_nil, Item.withForm, cellsFrom, Item.cells] at hcells
        cases htarget : labels.lookup name with
        | none =>
            rw [htarget] at hcells
            cases hcells
        | some target =>
            rw [htarget] at hcells
            refine ⟨Opcode.shortJump condition, littleEndian 1 ((target : Int) - (address + 1)), _,
              by simpa using hcells.symm, hop, rfl, rfl, fun hnear => ?_⟩
            have hnear := hnear rfl condition name rfl target htarget
            have hdistance : (address : Int) + 1
                + Int.bmod (field 1 ((target : Int) - (address + 1))) 256 = target := by
              unfold Assembly.IsNear at hnear
              push_cast at hnear
              rw [bmod_field_one hnear]
              ring
            rw [Statement.meaning?, Statement.argument?, Statement.target?, htarget, Form.argument,
              number_littleEndian, hdistance]
            rfl
  · cases h
  · cases h

/-- The opcodes of operations on a cell at some depth of the stack. -/
theorem shapeOf?_depth {width : Width} {base : UInt8} {instruction : Instruction}
    (hbase : base = Opcode.dup ∧ instruction = .dup width ∨
      base = Opcode.dig ∧ instruction = .dig width) :
    (∀ depth : Nat, depth < 3 → shapeOf? (base ||| width.modifier ||| (UInt8.ofNat depth <<< 2))
      = some ⟨instruction, .shallow depth⟩) ∧
    shapeOf? (base ||| width.modifier ||| Opcode.deep) = some ⟨instruction, .deep⟩ := by
  rcases hbase with ⟨rfl, rfl⟩ | ⟨rfl, rfl⟩
  all_goals
    refine ⟨fun depth hdepth => ?_, by cases width <;> decide⟩
    interval_cases depth <;> cases width <;> decide

theorem reads_depth {width : Width} {base : UInt8} {instruction : Instruction}
    (hbase : base = Opcode.dup ∧ instruction = .dup width ∨
      base = Opcode.dig ∧ instruction = .dig width)
    (h : encodeDepth base width operand = .ok items)
    (hcells : cellsFrom labels address (items.map (Item.withForm jump)) = some cells) :
    ∃ op bytes shape, cells = (op :: bytes).map some ∧
      Reads labels jump address ⟨instruction, operand⟩ op bytes shape := by
  obtain ⟨hshallow, hdeep⟩ := shapeOf?_depth hbase
  obtain ⟨depth, hdepth, h⟩ := Step.except_bind_eq_ok.1 h
  obtain ⟨_, hrange, h⟩ := Step.except_bind_eq_ok.1 h
  obtain ⟨hleast, hgreatest⟩ := checkRange_eq_ok_iff.1 hrange
  -- what the operand says is the depth
  have hform : (⟨instruction, operand⟩ : Statement).form? jump
      = some (if depth < 3 then .shallow depth.toNat else .deep) := by
    unfold depthOf at hdepth
    split at hdepth <;> cases hdepth <;> rcases hbase with ⟨-, rfl⟩ | ⟨-, rfl⟩ <;> rfl
  have hargument : (⟨instruction, operand⟩ : Statement).argument? labels
      = some (.depth (field 1 depth)) := by
    unfold depthOf at hdepth
    split at hdepth <;> cases hdepth <;> rcases hbase with ⟨-, rfl⟩ | ⟨-, rfl⟩ <;> rfl
  have hoperation : instruction.operation = instruction := by
    rcases hbase with ⟨-, rfl⟩ | ⟨-, rfl⟩ <;> rfl
  split at h
  · case isTrue hlt =>
    cases h
    rw [cells_opcodeWith] at hcells
    refine exists_reads (Option.some.inj hcells).symm ⟨hshallow _ (by omega), ?_, rfl,
      fun _ => ?_⟩
    · rw [Statement.shape?, hform, if_pos hlt, hoperation]
      rfl
    · rw [Statement.meaning?, hargument, hoperation, field_of_lt (by omega) (by omega)]
      rfl
  · case isFalse hge =>
    cases h
    rw [cells_opcodeWith] at hcells
    refine exists_reads (Option.some.inj hcells).symm ⟨hdeep, ?_, rfl, fun _ => ?_⟩
    · rw [Statement.shape?, hform, if_neg hge, hoperation]
      rfl
    · rw [Statement.meaning?, hargument, hoperation, Form.argument, number_littleEndian]
      rfl

/-- The opcodes of loads and stores. -/
theorem shapeOf?_transfer {width : Width} {transfer : Transfer} {instruction : Instruction}
    (h : transfer = .load ∧ instruction = .load width ∨
      transfer = .store ∧ instruction = .store width) :
    shapeOf? (transfer.opcode ||| width.modifier) = some ⟨instruction, .reference⟩ ∧
      shapeOf? (transfer.opcode ||| width.modifier ||| Opcode.atAddress)
        = some ⟨instruction, .address⟩ ∧
      shapeOf? (transfer.opcode ||| width.modifier ||| Opcode.fromStack)
        = some ⟨instruction, .none⟩ ∧
      shapeOf? (transfer.frameOpcode + width.modifier) = some ⟨instruction, .frame⟩ := by
  rcases h with ⟨rfl, rfl⟩ | ⟨rfl, rfl⟩ <;> cases width <;> decide

theorem shapeOf?_value (width : Width) :
    shapeOf? (Opcode.load ||| width.modifier ||| Opcode.asValue)
      = some ⟨.load width, .value width⟩ := by
  cases width <;> decide

theorem reads_value {transfer : Transfer} {width : Width} {instruction : Instruction}
    {operand : Operand}
    (hinstruction : transfer = .load ∧ instruction = .load width ∨
      transfer = .store ∧ instruction = .store width)
    (h : encodeValue transfer width operand = .ok items)
    (hcells : cellsFrom labels address (items.map (Item.withForm jump)) = some cells) :
    ∃ op bytes shape, cells = (op :: bytes).map some ∧
      Reads labels jump address ⟨instruction, some operand⟩ op bytes shape := by
  unfold encodeValue at h
  split at h
  · case h_1 value hvalue =>
    obtain ⟨_, -, h⟩ := Step.except_bind_eq_ok.1 h
    cases h
    obtain ⟨-, rfl⟩ : _ ∧ instruction = .load width := by
      rcases hinstruction with h | ⟨h, -⟩
      · exact h
      · cases h
    rw [cells_opcodeWith] at hcells
    refine exists_reads (Option.some.inj hcells).symm
      ⟨shapeOf?_value width, ?_, length_littleEndian _ _, fun _ => ?_⟩
    · cases operand <;> first | rfl | cases hvalue
    · rw [Form.argument, number_littleEndian]
      cases operand <;> cases hvalue <;> rfl
  · cases h

theorem reads_memory {transfer : Transfer} {width : Width} {instruction : Instruction}
    (hinstruction : transfer = .load ∧ instruction = .load width ∨
      transfer = .store ∧ instruction = .store width)
    (hown : (⟨instruction, operand⟩ : Statement).isOwn = true)
    (h : encodeMemory transfer width line operand = .ok items)
    (hcells : cellsFrom labels address (items.map (Item.withForm jump)) = some cells) :
    ∃ op bytes shape, cells = (op :: bytes).map some ∧
      Reads labels jump address ⟨instruction, operand⟩ op bytes shape := by
  obtain ⟨hreference, haddress, hstack, hframe⟩ := shapeOf?_transfer hinstruction
  unfold encodeMemory at h
  split at h
  case h_1 =>
    cases h
    rw [cells_opcodeWith] at hcells
    refine exists_reads (Option.some.inj hcells).symm ⟨hstack, ?_, rfl, fun _ => ?_⟩ <;>
      rcases hinstruction with ⟨-, rfl⟩ | ⟨-, rfl⟩ <;> rfl
  case h_2 offset =>
    obtain ⟨_, -, h⟩ := Step.except_bind_eq_ok.1 h
    cases h
    rw [cells_opcodeWith] at hcells
    refine exists_reads (Option.some.inj hcells).symm ⟨hframe, ?_, rfl, fun _ => ?_⟩
    · rcases hinstruction with ⟨-, rfl⟩ | ⟨-, rfl⟩ <;> rfl
    · rw [Form.argument, number_littleEndian]
      rcases hinstruction with ⟨-, rfl⟩ | ⟨-, rfl⟩ <;> rfl
  case h_3 number =>
    obtain ⟨_, -, h⟩ := Step.except_bind_eq_ok.1 h
    cases h
    rw [cells_opcodeWith] at hcells
    refine exists_reads (Option.some.inj hcells).symm ⟨haddress, ?_, rfl, fun _ => ?_⟩
    · rcases hinstruction with ⟨-, rfl⟩ | ⟨-, rfl⟩ <;> rfl
    · rw [Form.argument, number_littleEndian]
      rcases hinstruction with ⟨-, rfl⟩ | ⟨-, rfl⟩ <;> rfl
  case h_4 name offset =>
    cases h
    rw [cells_reference] at hcells
    obtain ⟨target, htarget, hcells⟩ := Option.map_eq_some_iff.1 hcells
    refine exists_reads hcells.symm ⟨hreference, ?_, rfl, fun _ => ?_⟩
    · rcases hinstruction with ⟨-, rfl⟩ | ⟨-, rfl⟩ <;> rfl
    · rw [Form.argument, number_littleEndian]
      rcases hinstruction with ⟨-, rfl⟩ | ⟨-, rfl⟩ <;>
        rw [Statement.meaning?, Statement.argument?, Statement.cell?, htarget] <;> rfl
  case h_5 name =>
    split at h
    · case isTrue hshort =>
      subst hshort
      cases h
      -- a store of this form has the opcode of a pop, and none of its own
      obtain ⟨rfl, rfl⟩ : transfer = .load ∧ instruction = .load .short := by
        rcases hinstruction with h | ⟨-, rfl⟩
        · exact h
        · cases hown
      rw [cells_reference] at hcells
      obtain ⟨target, htarget, hcells⟩ := Option.map_eq_some_iff.1 hcells
      refine exists_reads hcells.symm ⟨shapeOf?_value .short, rfl, rfl, fun _ => ?_⟩
      rw [Statement.meaning?, Statement.argument?, Statement.cell?, htarget, Int.add_zero,
        Form.argument, number_littleEndian]
      rfl
    · cases h
  case h_6 => exact reads_value hinstruction h hcells

end Families

/-- **An encoding is read as its instruction**, if that has an opcode of its own. -/
theorem reads_of_encode {labels : List (String × Nat)} {jump : JumpForm} {address line : Nat}
    {s : Statement} {items : List Item} {cells : List Cell} (hown : s.isOwn = true)
    (h : encode line s.instruction s.operand = .ok items)
    (hcells : cellsFrom labels address (items.map (Item.withForm jump)) = some cells) :
    ∃ op bytes shape, cells = (op :: bytes).map some ∧
      Reads labels jump address s op bytes shape := by
  obtain ⟨instruction, operand⟩ := s
  cases instruction with
  | halt => exact reads_bare (by decide) rfl rfl h hcells
  | yield => exact reads_bare (by decide) rfl rfl h hcells
  | ret => exact reads_bare (by decide) rfl rfl h hcells
  | callUser => exact reads_bare (by decide) rfl rfl h hcells
  | toInt => exact reads_bare (by decide) rfl rfl h hcells
  | toFloat => exact reads_bare (by decide) rfl rfl h hcells
  | pop width => exact reads_bare (by cases width <;> decide) rfl rfl h hcells
  | arith op width =>
      exact reads_bare (by cases op <;> cases width <;> decide) rfl rfl h hcells
  | load width => exact reads_memory (.inl ⟨rfl, rfl⟩) hown h hcells
  | store width => exact reads_memory (.inr ⟨rfl, rfl⟩) hown h hcells
  | dup width => exact reads_depth (.inl ⟨rfl, rfl⟩) h hcells
  | dig width => exact reads_depth (.inr ⟨rfl, rfl⟩) h hcells
  | call => exact reads_call h hcells
  | jump condition => exact reads_jump h hcells
  | interrupt => cases hown

/-- Reading goes on behind an encoding. -/
theorem decodeFrom_of_reads {labels : List (String × Nat)} {jump : JumpForm} {address : Nat}
    {s : Statement} {op : UInt8} {bytes : List UInt8} {shape : Shape}
    (h : Reads labels jump address s op bytes shape) (rest : List UInt8) :
    decodeFrom address (op :: bytes ++ rest)
      = (decodeFrom (address + (op :: bytes).length) rest).map
        (⟨shape.instruction, shape.form.argument address bytes⟩ :: ·) := by
  rw [List.cons_append, decodeFrom, h.opcode, List.length_cons, h.length]
  have hsize : ¬ (bytes ++ rest).length < shape.form.length := by
    rw [List.length_append, h.length]
    omega
  simp only [if_neg hsize, List.drop_left' h.length, List.take_left' h.length]
  cases decodeFrom (address + (shape.form.length + 1)) rest <;> rfl

/-! ### Rows of a text -/

/-- Some rows hold some instructions, one on each row that is not empty. -/
inductive Holds : List Row → List Statement → Prop where
  | nil : Holds [] []
  | blank {row : Row} {rows : List Row} {ss : List Statement} (h : row.encoding = [])
      (hrest : Holds rows ss) : Holds (row :: rows) ss
  | instruction {row : Row} {rows : List Row} {s : Statement} {ss : List Statement}
      (h : encode row.number s.instruction s.operand = .ok row.encoding)
      (hrest : Holds rows ss) : Holds (row :: rows) (s :: ss)

/-- What was read of a line. -/
theorem Row.read_eq_ok {scope scope' : Option String} {number : Nat} {text : List Char} {row : Row}
    (h : Row.read scope number text = .ok (row, scope')) :
    ∃ parts, SourceLine.parse text = .ok parts ∧ scope' = Row.scopeAfter scope parts.label ∧
      row.number = number ∧
      Row.encodingOf scope' number parts = .ok (row.isInstruction, row.encoding) := by
  unfold Row.read at h
  split at h
  · cases h
  · case h_2 parts hparts =>
    simp only at h
    split at h
    · cases h
    · case h_2 hencoding =>
      cases h
      exact ⟨parts, hparts, rfl, rfl, hencoding⟩

/-- **The rows of a text hold its instructions**, if it is made of labels and instructions only. -/
theorem holds_of_statements {scope : Option String} {number : Nat} {texts : List (List Char)}
    {rows : List Row} {ss : List Statement} (hrows : readLines scope number texts = .ok rows)
    (hss : statementsFrom scope texts = some ss) : Holds rows ss := by
  induction texts generalizing scope number rows ss with
  | nil =>
      cases hrows
      cases hss
      exact .nil
  | cons text texts ih =>
      obtain ⟨⟨row, scope'⟩, hrow, hrows⟩ := Step.except_bind_eq_ok.1 hrows
      obtain ⟨rest, hrest, hrows⟩ := Step.except_bind_eq_ok.1 hrows
      cases hrows
      obtain ⟨parts, hparts, rfl, rfl, hencoding⟩ := Row.read_eq_ok hrow
      rw [statementsFrom, hparts] at hss
      simp only [Except.toOption, Option.bind_eq_bind, Option.bind_some] at hss
      -- both readings branch on the mnemonic of the line
      unfold Row.encodingOf at hencoding
      split at hss
      · case h_1 hname =>
        simp only [hname, Except.ok.injEq, Prod.mk.injEq] at hencoding
        exact .blank hencoding.2.symm (ih hrest hss)
      · case h_2 name hname =>
        split at hss
        · case h_1 instruction hmnemonic =>
          simp only [hname, hmnemonic] at hencoding
          obtain ⟨operand, hoperand, hencoding⟩ := Step.except_bind_eq_ok.1 hencoding
          obtain ⟨items, hitems, hencoding⟩ := Step.except_bind_eq_ok.1 hencoding
          rw [hoperand] at hss
          obtain ⟨_, hsome, hss⟩ := Option.bind_eq_some_iff.1 hss
          obtain ⟨ss', hss', hss⟩ := Option.bind_eq_some_iff.1 hss
          cases hsome
          cases hss
          have hitems' : items = row.encoding := congrArg Prod.snd (Except.ok.inj hencoding)
          exact .instruction (hitems' ▸ hitems) (ih hrest hss')
        · cases hss

/-- A placed row stands behind the rows before it. -/
theorem exists_of_mem_place {forms : Nat → JumpForm} {rows : List Row} {here : Nat}
    {p : Nat × Row} (h : p ∈ place forms here rows) :
    ∃ before after, rows = before ++ p.2 :: after ∧
      p.1 = here + totalSize (itemsOf forms before) := by
  induction rows generalizing here with
  | nil => cases h
  | cons row rows ih =>
      rcases List.mem_cons.1 h with rfl | h
      · exact ⟨[], rows, rfl, rfl⟩
      · obtain ⟨before, after, rfl, hp⟩ := ih h
        refine ⟨row :: before, after, rfl, ?_⟩
        rw [hp, itemsOf_cons, totalSize_append, Row.totalSize_items, Nat.add_assoc]

/-- The target of a short jump on a placed row is near. -/
def IsNearRow (labels : List (String × Nat)) (forms : Nat → JumpForm) (p : Nat × Row) : Prop :=
  forms p.2.number = .short → ∀ condition name line,
    p.2.encoding = [.jump condition name line .wide] →
    ∀ target, labels.lookup name = some target → IsNear (p.1 + 1) target

theorem isNearRow_of_areNear {labels : List (String × Nat)} {forms : Nat → JumpForm}
    {rows : List Row} {origin : Nat} (hnear : AreNear (itemsOf forms rows))
    (hlabels : ∀ name, labels.lookup name
      = ((labelTable (itemsOf forms rows)).lookup name).map (origin + ·)) :
    ∀ p ∈ place forms origin rows, IsNearRow labels forms p := by
  intro p hp hform condition name line hencoding target htarget
  obtain ⟨before, after, rfl, hplace⟩ := exists_of_mem_place hp
  rw [hlabels] at htarget
  obtain ⟨place, hlookup, rfl⟩ := Option.map_eq_some_iff.1 htarget
  -- the items in front of the jump: those of the rows before, and the marks of its own row
  generalize hmarks : (p.2.label.map Item.label).toList
    ++ (if p.2.isInstruction then [Item.line p.2.number] else []) = marks
  have hsize : totalSize marks = 0 := by
    rw [← hmarks]
    cases p.2.label <;> cases p.2.isInstruction <;> rfl
  have hitems : itemsOf forms (before ++ p.2 :: after)
      = (itemsOf forms before ++ marks)
        ++ .jump condition name line .short :: itemsOf forms after := by
    have hcode : p.2.code (forms p.2.number) = [.jump condition name line .short] := by
      rw [Row.code, hencoding, hform]
      rfl
    simp [itemsOf, Row.items, hcode, ← hmarks]
  have := hnear _ _ _ _ _ hitems place hlookup
  unfold IsNear at this ⊢
  rw [totalSize_append, hsize] at this
  rw [hplace]
  push_cast at this ⊢
  omega

theorem length_cellsFrom {labels : List (String × Nat)} {address : Nat} {items : List Item}
    {cells : List Cell} (h : cellsFrom labels address items = some cells) :
    cells.length = totalSize items := by
  have hitem : ∀ (item : Item) (address : Nat) (cs : List Cell),
      item.cells labels address = some cs → cs.length = item.size := by
    intro item address cs hcs
    cases item with
    | address name offset line =>
        obtain ⟨target, -, rfl⟩ := Option.map_eq_some_iff.1 hcs
        rfl
    | jump condition name line form =>
        cases form <;>
          obtain ⟨target, -, rfl⟩ := Option.map_eq_some_iff.1 hcs <;> rfl
    | _ =>
        cases hcs
        simp [Item.size]
  induction items generalizing address cells with
  | nil =>
      cases h
      rfl
  | cons item items ih =>
      obtain ⟨first, hfirst, h⟩ := Option.bind_eq_some_iff.1 h
      obtain ⟨rest, hrest, rfl⟩ := Option.map_eq_some_iff.1 h
      rw [List.length_append, hitem _ _ _ hfirst, ih hrest, totalSize]

/-- **The bytes of rows are read as their instructions.** -/
theorem decodeFrom_cellsOf {labels : List (String × Nat)} {forms : Nat → JumpForm}
    {rows : List Row} {ss : List Statement} {address : Nat} {cells : List Cell}
    (hholds : Holds rows ss) (hown : ∀ s ∈ ss, s.isOwn = true)
    (hnear : ∀ p ∈ place forms address rows, IsNearRow labels forms p)
    (hcells : cellsOf labels forms (place forms address rows) = some cells) :
    ∃ bytes ms, cells = bytes.map some ∧ ss.mapM (Statement.meaning? labels) = some ms ∧
      decodeFrom address bytes = some ms := by
  induction hholds generalizing address cells with
  | nil =>
      cases hcells
      exact ⟨[], [], rfl, rfl, by rw [decodeFrom]⟩
  | @blank row rows ss h hrest ih =>
      obtain ⟨first, hfirst, hcells⟩ := Option.bind_eq_some_iff.1 hcells
      obtain ⟨rest, hcells', rfl⟩ := Option.map_eq_some_iff.1 hcells
      have hcode : row.code (forms row.number) = [] := by rw [Row.code, h, List.map_nil]
      -- the row takes no cells, so reading goes on at the same address
      obtain rfl : [] = first := by simpa [Row.cells, hcode, cellsFrom] using hfirst
      rw [place, Row.size, hcode] at hnear
      rw [Row.size, hcode] at hcells'
      exact ih hown (fun p hp => hnear p (List.mem_cons_of_mem _ hp)) hcells'
  | @instruction row rows s ss h hrest ih =>
      rw [List.forall_mem_cons] at hown
      rw [place, List.forall_mem_cons] at hnear
      obtain ⟨first, hfirst, hcells⟩ := Option.bind_eq_some_iff.1 hcells
      obtain ⟨rest, hcells', rfl⟩ := Option.map_eq_some_iff.1 hcells
      have hnear' : s.IsNear labels (forms row.number) address := by
        intro hform condition name hs target htarget
        subst hs
        exact hnear.1 hform condition name row.number (Except.ok.inj h).symm target htarget
      obtain ⟨op, bytes, shape, rfl, hreads⟩ := reads_of_encode hown.1 h hfirst
      -- reading goes on at the address of the next row
      have hsize : row.size (forms row.number) = (op :: bytes).length := by
        rw [Row.size, ← length_cellsFrom hfirst, List.length_map]
      rw [hsize] at hnear hcells'
      obtain ⟨bytes', ms, rfl, hms, hdecode⟩ := ih hown.2 hnear.2 hcells'
      refine ⟨op :: bytes ++ bytes', ⟨shape.instruction, shape.form.argument address bytes⟩ :: ms,
        List.map_append.symm, ?_, ?_⟩
      · rw [List.mapM_cons, hreads.meaning hnear', hms]
        rfl
      · rw [decodeFrom_of_reads hreads, hdecode]
        rfl

/-! ### Texts -/

section Texts

variable {text : String} {origin : Nat} {image : Image} {ss : List Statement}

/-- **An image is read as the instructions of its text**, if it holds labels and instructions with
opcodes of their own. -/
theorem decode_of_assemble (h : assemble text origin = .ok image)
    (hss : statements text = some ss) (hown : ∀ s ∈ ss, s.isOwn = true) :
    ∃ ms, ss.mapM (Statement.meaning? image.labels) = some ms ∧
      decodeFrom origin image.bytes = some ms := by
  rw [assemble_eq_layout] at h
  obtain ⟨items, hlayout, himage⟩ := Step.except_bind_eq_ok.1 h
  obtain ⟨rows, forms, hrows, hwell, hnames, hrelax, rfl⟩ := exists_rows_of_layout hlayout
  have hnodup : ((labelTable (itemsOf forms rows)).map Prod.fst).Nodup := by
    rwa [labelTable, labelTableFrom_itemsOf hwell, map_fst_labelEntries]
  have hnear := hrelax ▸ areNear_relax (areNear_of_wide (map_withForm_itemsOf _ .wide rows))
  have hlabels := lookup_labels_ofItems hnodup himage
  obtain ⟨bs, hbs, himage'⟩ := Step.except_bind_eq_ok.1 himage
  have hbytes : image.bytes = bs := by
    cases himage'
    rfl
  obtain ⟨cells, hcells, hcut⟩ := cells_of_write (isShifted_ofItems hnodup himage) hbs
  rw [cellsFrom_itemsOf] at hcells
  obtain ⟨bytes, ms, rfl, hms, hdecode⟩ := decodeFrom_cellsOf (holds_of_statements hrows hss) hown
    (isNearRow_of_areNear hnear hlabels) hcells
  refine ⟨ms, hms, ?_⟩
  -- no cell is reserved, so none is left out at the end
  have hkept : (bytes.map some : List Cell).rdropWhile Option.isNone = bytes.map some := by
    refine List.rdropWhile_eq_self_iff.2 fun hne => ?_
    obtain ⟨b, -, hb⟩ := List.mem_map.1 (List.getLast_mem hne)
    simp [← hb]
  rw [hbytes, hcut, hkept, List.map_map]
  simpa [Cell.byte, Function.comp_def] using hdecode

/-- **Texts with one image mean the same.** Among instructions with opcodes of their own the opcode
determines the operation, the form of its argument and the number of bytes behind it; and two texts
that are made of labels and such instructions, and have the same bytes at the same address, hold the
same operations with the same arguments. -/
theorem same_meaning_of_assemble (origin : Nat) :
    (∀ (s s' : Statement) (labels labels' : List (String × Nat)) (jump jump' : JumpForm)
      (address address' : Nat) (op : UInt8) (bytes bytes' : List UInt8),
      s.Encodes labels jump address (op :: bytes) →
      s'.Encodes labels' jump' address' (op :: bytes') → s.isOwn = true → s'.isOwn = true →
      ∃ shape, s.shape? jump = some shape ∧ s'.shape? jump' = some shape ∧
        bytes.length = shape.form.length ∧ bytes'.length = shape.form.length) ∧
    ∀ (text text' : String) (image image' : Image) (ss ss' : List Statement),
      assemble text origin = .ok image → assemble text' origin = .ok image' →
      statements text = some ss → statements text' = some ss' →
      (∀ s ∈ ss, s.isOwn = true) → (∀ s ∈ ss', s.isOwn = true) → image.bytes = image'.bytes →
      ∃ ms, ss.mapM (Statement.meaning? image.labels) = some ms ∧
        ss'.mapM (Statement.meaning? image'.labels) = some ms := by
  constructor
  · intro s s' labels labels' jump jump' address address' op bytes bytes' h h' hown hown'
    obtain ⟨line, items, hitems, hcells⟩ := h
    obtain ⟨line', items', hitems', hcells'⟩ := h'
    obtain ⟨op₁, bs, shape, heq, hreads⟩ := reads_of_encode hown hitems hcells
    obtain ⟨op₂, bs', shape', heq', hreads'⟩ := reads_of_encode hown' hitems' hcells'
    -- both shapes are those of one opcode
    obtain ⟨rfl, rfl⟩ := List.cons.inj (List.map_injective_iff.2 (Option.some_injective _) heq)
    obtain ⟨rfl, rfl⟩ := List.cons.inj (List.map_injective_iff.2 (Option.some_injective _) heq')
    obtain rfl : shape = shape' := Option.some.inj (hreads.opcode.symm.trans hreads'.opcode)
    exact ⟨shape, hreads.isShape, hreads'.isShape, hreads.length, hreads'.length⟩
  · intro text text' image image' ss ss' h h' hss hss' hown hown' hbytes
    obtain ⟨ms, hms, hdecode⟩ := decode_of_assemble h hss hown
    obtain ⟨ms', hms', hdecode'⟩ := decode_of_assemble h' hss' hown'
    -- both meanings are read off the same bytes
    rw [← hbytes, hdecode] at hdecode'
    exact ⟨ms, hms, Option.some.inj hdecode' ▸ hms'⟩

/-- A value by its label and by its number, two names of one conversion, a depth that is written and
one that is not, and a short jump back. -/
theorem same_meaning_of_assemble_load :
    (∃ shape, (⟨.load .short, some (.label "a")⟩ : Statement).shape? .wide = some shape ∧
      (⟨.load .short, some (.number ⟨7, none⟩)⟩ : Statement).shape? .wide = some shape) ∧
    ∃ image image' ss ss', assemble "a: LOAD16 a\n CONV\n DUP 0\n JMP a" 256 = .ok image ∧
      assemble "b: LOAD16 0x100\n CONVI\n DUP\n JMP b" 256 = .ok image' ∧
      statements "a: LOAD16 a\n CONV\n DUP 0\n JMP a" = some ss ∧
      statements "b: LOAD16 0x100\n CONVI\n DUP\n JMP b" = some ss' ∧
      image.bytes = [0x0d, 0, 1, 0xbc, 0x20, 0xc0, 0xfa] ∧ image'.bytes = image.bytes ∧
      ∃ ms, ss.mapM (Statement.meaning? image.labels) = some ms ∧
        ss'.mapM (Statement.meaning? image'.labels) = some ms := by
  have hrun : (assemble "a: LOAD16 a\n CONV\n DUP 0\n JMP a" 256).toOption.map Image.bytes
      = some [0x0d, 0, 1, 0xbc, 0x20, 0xc0, 0xfa] := by decide +kernel
  have hrun' : (assemble "b: LOAD16 0x100\n CONVI\n DUP\n JMP b" 256).toOption.map Image.bytes
      = some [0x0d, 0, 1, 0xbc, 0x20, 0xc0, 0xfa] := by decide +kernel
  have hread : (statements "a: LOAD16 a\n CONV\n DUP 0\n JMP a").map (List.all · Statement.isOwn)
      = some true := by decide +kernel
  have hread' : (statements "b: LOAD16 0x100\n CONVI\n DUP\n JMP b").map
      (List.all · Statement.isOwn) = some true := by decide +kernel
  obtain ⟨image, himage, hbytes⟩ := Option.map_eq_some_iff.1 hrun
  obtain ⟨image', himage', hbytes'⟩ := Option.map_eq_some_iff.1 hrun'
  obtain ⟨ss, hss, hown⟩ := Option.map_eq_some_iff.1 hread
  obtain ⟨ss', hss', hown'⟩ := Option.map_eq_some_iff.1 hread'
  have himage := Step.eq_ok_of_toOption himage
  have himage' := Step.eq_ok_of_toOption himage'
  obtain ⟨shape, hshape, hshape', -, -⟩ := (same_meaning_of_assemble 256).1
    ⟨.load .short, some (.label "a")⟩ ⟨.load .short, some (.number ⟨7, none⟩)⟩ [("a", 256)] []
    .wide .wide 0 0 0x0d [0, 1] [7, 0] ⟨0, _, rfl, rfl⟩ ⟨0, _, rfl, rfl⟩ rfl rfl
  refine ⟨⟨shape, hshape, hshape'⟩, image, image', ss, ss', himage, himage', hss, hss', hbytes,
    hbytes'.trans hbytes.symm, ?_⟩
  exact (same_meaning_of_assemble 256).2 _ _ image image' ss ss' himage himage' hss hss'
    (List.all_eq_true.1 hown) (List.all_eq_true.1 hown') (hbytes.trans hbytes'.symm)

/-- A store of two bytes to the name of a label cannot be told from dropping two bytes: these texts
have one image and mean something else. -/
theorem not_same_meaning_store :
    ∃ image image' ss ss', assemble "x: STORE16 x" 7453 = .ok image ∧
      assemble "POP16\nPOP16\nPOP16" 7453 = .ok image' ∧ image.bytes = image'.bytes ∧
      statements "x: STORE16 x" = some ss ∧ statements "POP16\nPOP16\nPOP16" = some ss' ∧
      (∀ s ∈ ss ++ ss', s.instruction ≠ .interrupt) ∧
      ss.mapM (Statement.meaning? image.labels) = some [⟨.store .short, .value 7453⟩] ∧
      ss'.mapM (Statement.meaning? image'.labels)
        = some [⟨.pop .short, .none⟩, ⟨.pop .short, .none⟩, ⟨.pop .short, .none⟩] := by
  have hrun : assemble "x: STORE16 x" 7453
      = .ok ⟨7453, [0x1d, 0x1d, 0x1d], [("x", 7453)], [(7453, 0)]⟩ := by decide +kernel
  have hrun' : assemble "POP16\nPOP16\nPOP16" 7453
      = .ok ⟨7453, [0x1d, 0x1d, 0x1d], [], [(7453, 0), (7454, 1), (7455, 2)]⟩ := by
    decide +kernel
  have hread : statements "x: STORE16 x" = some [⟨.store .short, some (.label "x")⟩] := by
    decide +kernel
  have hread' : statements "POP16\nPOP16\nPOP16"
      = some [⟨.pop .short, none⟩, ⟨.pop .short, none⟩, ⟨.pop .short, none⟩] := by decide +kernel
  exact ⟨_, _, _, _, hrun, hrun', rfl, hread, hread', by decide, by decide, by decide⟩

end Texts

end Assembly

end StackLang
