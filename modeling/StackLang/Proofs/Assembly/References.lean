/-
**References to labels.**

An instruction can refer to a label by the two bytes behind its opcode: a call and a jump that is
not short, a load or a store at the label with an offset, and one of the address itself.  In an
image these two bytes hold the address of the label with the offset as far as two bytes can: an
address past the last one that two bytes can name is cut, and not refused.

Main definitions:

* `instructions` — the instructions of a text with the numbers of their lines;
* `Statement.reference?` — the label and the offset that an instruction refers to;
* `Image.Shows` — the bytes of an image at an address.

Main results:

* `shows_of_mem_place` — the encoding of a row stands at the address of the row;
* `shows_reference_of_assemble` — what two bytes that refer to a label hold.
-/

import StackLang.Proofs.Assembly.Decode

set_option relaxedAutoImplicit false
set_option autoImplicit false

namespace StackLang

namespace Assembly

/-! ### Instructions with their lines -/

/-- The instruction of a line that stands in the scope of a label. -/
def SourceLine.statement? (scope : Option String) (parts : SourceLine) : Option Statement := do
  let name ← parts.mnemonic
  match Mnemonic.parse? name with
  | some (.instruction instruction) =>
    let operand ← (parts.operand.mapM (Operand.parse scope)).toOption
    pure ⟨instruction, operand⟩
  | _ => none

/-- The instructions of some lines with their numbers, counted from `number`. -/
def instructionsFrom (scope : Option String) (number : Nat) :
    List (List Char) → List (Nat × Statement)
  | [] => []
  | text :: texts =>
    match SourceLine.parse text with
    | .error _ => []
    | .ok parts =>
      let scope := Row.scopeAfter scope parts.label
      ((parts.statement? scope).map (number, ·)).toList ++ instructionsFrom scope (number + 1) texts

/-- **The instructions of a text** with the numbers of their lines, up to the first line that has no
parts. -/
def instructions (text : String) : List (Nat × Statement) :=
  instructionsFrom none 0 (Text.lines text.toList)

/-- The row of a line is that of its instruction, if it has one. -/
theorem Row.encode_of_encodingOf {scope : Option String} {number : Nat} {parts : SourceLine}
    {isInstruction : Bool} {items : List Item}
    (h : Row.encodingOf scope number parts = .ok (isInstruction, items)) :
    isInstruction = (parts.statement? scope).isSome ∧ ∀ s, parts.statement? scope = some s →
      encode number s.instruction s.operand = .ok items := by
  unfold Row.encodingOf at h
  unfold SourceLine.statement?
  split at h
  · case h_1 hname =>
    cases h
    simp [hname]
  · case h_2 name hname =>
    simp only [hname, Option.bind_eq_bind, Option.bind_some]
    split at h
    · cases h
    · case h_2 hmnemonic =>
      obtain ⟨found, -, h⟩ := Step.except_map_eq_ok.1 h
      cases h
      simp [hmnemonic]
    · case h_3 hmnemonic =>
      have hdata : isInstruction = false := by
        split at h
        · cases h
        · split at h <;> cases h
          rfl
      simp [hmnemonic, hdata]
    · case h_4 instruction hmnemonic =>
      obtain ⟨operand, hoperand, h⟩ := Step.except_bind_eq_ok.1 h
      obtain ⟨found, hencode, h⟩ := Step.except_bind_eq_ok.1 h
      cases h
      simp only [hmnemonic, hoperand, Except.toOption, Option.bind_some, Option.pure_def]
      refine ⟨rfl, fun s hs => ?_⟩
      cases hs
      exact hencode

/-- **The rows of a text that are instructions are its instructions.** -/
theorem filter_isInstruction_readLines {scope : Option String} {number : Nat}
    {texts : List (List Char)} {rows : List Row} (h : readLines scope number texts = .ok rows) :
    List.Forall₂ (fun row x => row.number = x.1 ∧
        encode x.1 x.2.instruction x.2.operand = .ok row.encoding)
      (rows.filter Row.isInstruction) (instructionsFrom scope number texts) := by
  induction texts generalizing scope number rows with
  | nil =>
      cases h
      exact .nil
  | cons text texts ih =>
      obtain ⟨⟨row, scope'⟩, hrow, h⟩ := Step.except_bind_eq_ok.1 h
      obtain ⟨rest, hrest, h⟩ := Step.except_bind_eq_ok.1 h
      cases h
      obtain ⟨parts, hparts, rfl, rfl, hencoding⟩ := Row.read_eq_ok hrow
      obtain ⟨hinstruction, hencode⟩ := Row.encode_of_encodingOf hencoding
      have hrest := ih hrest
      simp only [instructionsFrom, hparts]
      rw [List.filter_cons, hinstruction]
      cases hs : parts.statement? (Row.scopeAfter scope parts.label) with
      | none => simpa using hrest
      | some s => simpa using ⟨hencode s hs, hrest⟩

/-! ### Rows in an image -/

/-- The bytes of an image from an address on start with the given ones. -/
def Image.Shows (image : Image) (address : Nat) (bytes : List UInt8) : Prop :=
  ∃ before after, image.bytes = before ++ bytes ++ after ∧ image.origin + before.length = address

theorem map_snd_place (forms : Nat → JumpForm) (address : Nat) (rows : List Row) :
    (place forms address rows).map Prod.snd = rows := by
  induction rows generalizing address with
  | nil => rfl
  | cons row rows ih => rw [place, List.map_cons, ih]

/-- The cells of a placed row stand at its address. -/
theorem exists_cells_of_mem_place {labels : List (String × Nat)} {forms : Nat → JumpForm}
    {rows : List Row} {origin address : Nat} {row : Row} {cells : List Cell}
    (hmem : (address, row) ∈ place forms origin rows)
    (hcells : cellsOf labels forms (place forms origin rows) = some cells) :
    ∃ before middle after, cells = before ++ middle ++ after ∧
      row.cells labels (forms row.number) address = some middle ∧
      origin + before.length = address := by
  induction rows generalizing origin cells with
  | nil => cases hmem
  | cons first rows ih =>
      obtain ⟨middle, hmiddle, hcells⟩ := Option.bind_eq_some_iff.1 hcells
      obtain ⟨rest, hrest, rfl⟩ := Option.map_eq_some_iff.1 hcells
      rcases List.mem_cons.1 hmem with heq | hmem
      · cases heq
        exact ⟨[], middle, rest, rfl, hmiddle, rfl⟩
      · obtain ⟨before, found, after, rfl, hfound, haddress⟩ := ih hmem hrest
        refine ⟨middle ++ before, found, after, by simp, hfound, ?_⟩
        have hsize := length_cellsFrom hmiddle
        rw [List.length_append, hsize, ← haddress, Row.size]
        omega

/-- No byte is left out at the end of an image. -/
theorem exists_rdropWhile_eq {bytes : List UInt8} (hbytes : bytes ≠ []) (before after : List Cell) :
    ∃ rest, (before ++ bytes.map some ++ after).rdropWhile Option.isNone
      = before ++ bytes.map some ++ rest := by
  induction after using List.reverseRecOn with
  | nil =>
      obtain ⟨init, byte, rfl⟩ := (List.eq_nil_or_concat' bytes).resolve_left hbytes
      refine ⟨[], ?_⟩
      rw [List.append_nil, List.map_append, ← List.append_assoc]
      exact List.rdropWhile_concat_neg _ _ _ (by simp)
  | append_singleton after c ih =>
      rw [← List.append_assoc]
      cases hc : c.isNone with
      | true => rwa [List.rdropWhile_concat_pos _ _ _ hc]
      | false =>
          rw [List.rdropWhile_concat_neg _ _ _ (by simp [hc]), List.append_assoc]
          exact ⟨_, rfl⟩

/-- What is laid out for a text. -/
theorem exists_place_of_assemble {text : String} {origin : Nat} {image : Image}
    (h : assemble text origin = .ok image) :
    ∃ rows forms cells, readLines none 0 (Text.lines text.toList) = .ok rows ∧
      image.origin = origin ∧
      image.lines = (place forms origin rows).filterMap linePlace? ∧
      cellsOf image.labels forms (place forms origin rows) = some cells ∧
      image.bytes = (cells.rdropWhile Option.isNone).map Cell.byte := by
  rw [assemble_eq_layout] at h
  obtain ⟨items, hlayout, himage⟩ := Step.except_bind_eq_ok.1 h
  obtain ⟨rows, forms, hrows, hwell, hnames, -, rfl⟩ := exists_rows_of_layout hlayout
  have hnodup : ((labelTable (itemsOf forms rows)).map Prod.fst).Nodup := by
    rwa [labelTable, labelTableFrom_itemsOf hwell, map_fst_labelEntries]
  obtain ⟨bs, hbs, himage'⟩ := Step.except_bind_eq_ok.1 himage
  obtain ⟨cells, hcells, hcut⟩ := cells_of_write (isShifted_ofItems hnodup himage) hbs
  rw [cellsFrom_itemsOf] at hcells
  cases himage'
  refine ⟨rows, forms, cells, hrows, rfl, ?_, hcells, hcut⟩
  have hlines : lineTable (itemsOf forms rows) = (place forms 0 rows).filterMap linePlace? :=
    lineTableFrom_itemsOf hwell 0
  simp only [hlines, map_linePlace?, ← place_add, Nat.add_zero]

theorem exists_mem_of_forall₂ {α β : Type} {R : α → β → Prop} {xs : List α} {ys : List β} {y : β}
    (h : List.Forall₂ R xs ys) (hy : y ∈ ys) : ∃ x ∈ xs, R x y := by
  induction h with
  | nil => cases hy
  | @cons x y' xs ys hxy _ ih =>
      rcases List.mem_cons.1 hy with rfl | hy
      · exact ⟨x, List.mem_cons_self, hxy⟩
      · obtain ⟨x', hx', hR⟩ := ih hy
        exact ⟨x', List.mem_cons_of_mem _ hx', hR⟩

/-- **The encoding of an instruction stands at the address of its line.** -/
theorem exists_shows_of_mem_instructions {text : String} {origin : Nat} {image : Image}
    (h : assemble text origin = .ok image) {number : Nat} {s : Statement}
    (hs : (number, s) ∈ instructions text) :
    ∃ address form items cells, (address, number) ∈ image.lines ∧
      encode number s.instruction s.operand = .ok items ∧
      cellsFrom image.labels address (items.map (Item.withForm form)) = some cells ∧
      ∀ bytes, bytes ≠ [] → cells = bytes.map some → image.Shows address bytes := by
  obtain ⟨rows, forms, cells, hrows, horigin, hlines, hcells, hbytes⟩ :=
    exists_place_of_assemble h
  -- the row of the instruction, and its place
  obtain ⟨row, hrow, rfl, hencode⟩ :=
    exists_mem_of_forall₂ (filter_isInstruction_readLines hrows) hs
  obtain ⟨hrow, hinstruction⟩ := List.mem_filter.1 hrow
  rw [← map_snd_place forms origin rows] at hrow
  obtain ⟨⟨address, row⟩, hmem, rfl⟩ := List.mem_map.1 hrow
  obtain ⟨before, middle, after, rfl, hmiddle, haddress⟩ := exists_cells_of_mem_place hmem hcells
  refine ⟨address, forms row.number, row.encoding, middle, ?_, hencode, hmiddle, ?_⟩
  · rw [hlines]
    exact List.mem_filterMap.2 ⟨_, hmem, if_pos hinstruction⟩
  · rintro bytes hne rfl
    obtain ⟨rest, hrest⟩ := exists_rdropWhile_eq hne before after
    refine ⟨before.map Cell.byte, rest.map Cell.byte, ?_, ?_⟩
    · rw [hbytes, hrest]
      simp [Cell.byte, Function.comp_def]
    · rw [List.length_map, horigin, haddress]

/-- **The lines of an image are those of the instructions of its text.** -/
theorem map_snd_lines {text : String} {origin : Nat} {image : Image}
    (h : assemble text origin = .ok image) :
    image.lines.map Prod.snd = (instructions text).map Prod.fst := by
  obtain ⟨rows, forms, _, hrows, -, hlines, -⟩ := exists_place_of_assemble h
  have hplaced : ((place forms origin rows).filterMap linePlace?).map Prod.snd
      = (((place forms origin rows).map Prod.snd).filter Row.isInstruction).map Row.number := by
    rw [List.filter_map, List.map_map, List.map_filterMap, ← List.filterMap_eq_filter,
      List.map_filterMap]
    congr 1
    funext p
    cases hp : p.2.isInstruction <;> simp [linePlace?, hp, Option.guard]
  rw [hlines, hplaced, map_snd_place]
  have hnumbers : List.Forall₂ Eq ((rows.filter Row.isInstruction).map Row.number)
      ((instructions text).map Prod.fst) :=
    List.forall₂_map_left_iff.2 (List.forall₂_map_right_iff.2
      ((filter_isInstruction_readLines hrows).imp fun _ _ h => h.1))
  rwa [List.forall₂_eq_eq_eq] at hnumbers

/-! ### References -/

/-- The label to whose address an instruction refers by two bytes, and the offset that it adds.  A
jump does so unless it is short. -/
def Statement.reference? : Statement → Option (String × Int)
  | ⟨.load _, some (.memory (.label name offset))⟩
  | ⟨.store _, some (.memory (.label name offset))⟩ => some (name, offset)
  | ⟨.load _, some (.label name)⟩ | ⟨.store _, some (.label name)⟩
  | ⟨.call, some (.label name)⟩ | ⟨.jump _, some (.label name)⟩ => some (name, 0)
  | _ => none

/-- What an instruction is encoded as that refers to a label. -/
theorem encode_of_reference? {number : Nat} {s : Statement} {items : List Item} {name : String}
    {offset : Int} (href : s.reference? = some (name, offset))
    (h : encode number s.instruction s.operand = .ok items) :
    (∃ condition, s.instruction = .jump condition ∧ offset = 0 ∧
        items = [.jump condition name number .wide]) ∨
      (∀ condition, s.instruction ≠ .jump condition) ∧
        ∃ op, items = opcodeWith op [] ++ [.address name offset number] := by
  unfold Statement.reference? at href
  split at href
  case h_6 condition name' =>
    cases href
    cases h
    exact .inl ⟨condition, rfl, rfl, rfl⟩
  case h_7 => cases href
  case h_3 | h_4 =>
    cases href
    refine .inr ⟨nofun, ?_⟩
    simp only [encode, encodeMemory] at h
    split at h
    · cases h
      exact ⟨_, rfl⟩
    · cases h
  all_goals
    cases href
    cases h
    exact .inr ⟨nofun, _, rfl⟩

/-- The encoding of a jump in a form. -/
theorem exists_cells_jump {labels : List (String × Nat)} {address number : Nat}
    {condition : Condition} {name : String} {form : JumpForm} {cells : List Cell}
    (h : cellsFrom labels address
      ([Item.jump condition name number .wide].map (Item.withForm form)) = some cells) :
    ∃ target : Nat, labels.lookup name = some target ∧
      ((∃ distance, cells = [Opcode.shortJump condition, distance].map some) ∨
        cells = (Opcode.wideJump condition :: littleEndian 2 target).map some) := by
  cases hlookup : labels.lookup name with
  | none => cases form <;> simp [cellsFrom, Item.withForm, Item.cells, hlookup] at h
  | some target =>
      refine ⟨target, rfl, ?_⟩
      cases form with
      | short => exact .inl ⟨_, by simpa [cellsFrom, Item.withForm, Item.cells, hlookup,
          littleEndian] using h.symm⟩
      | wide => exact .inr (by simpa [cellsFrom, Item.withForm, Item.cells, hlookup] using h.symm)

/-- What two bytes hold of a number. -/
theorem number_littleEndian_two (value : Int) :
    ∃ lo hi, littleEndian 2 value = [lo, hi] ∧ (Form.number [lo, hi] : Int) = value % 65536 := by
  refine ⟨_, _, rfl, ?_⟩
  have hnumber := number_littleEndian 2 value
  rw [littleEndian, littleEndian, littleEndian] at hnumber
  rw [hnumber, field]
  omega

/-- **References to labels.** The lines of an image are those of the instructions of its text.  An
instruction that refers to a label has an address in the image.  The opcode there is that of a short
jump, or the two bytes behind it hold the address of the label with the offset, reduced to two
bytes: they are that address exactly when two bytes can name it. -/
theorem shows_reference_of_assemble {text : String} {origin : Nat} {image : Image}
    (h : assemble text origin = .ok image) :
    image.lines.map Prod.snd = (instructions text).map Prod.fst ∧
    ∀ number s name offset, (number, s) ∈ instructions text →
      s.reference? = some (name, offset) →
      ∃ address target, (address, number) ∈ image.lines ∧
        image.labels.lookup name = some target ∧
        ((∃ condition distance, s.instruction = .jump condition ∧
            image.Shows address [Opcode.shortJump condition, distance]) ∨
          ∃ op lo hi, image.Shows address [op, lo, hi] ∧
            (∀ condition, s.instruction = .jump condition → op = Opcode.wideJump condition) ∧
            (Form.number [lo, hi] : Int) = (target + offset) % 65536 ∧
            ((Form.number [lo, hi] : Int) = target + offset ↔
              0 ≤ target + offset ∧ target + offset < 65536)) := by
  refine ⟨map_snd_lines h, fun number s name offset hs href => ?_⟩
  obtain ⟨address, form, items, cells, hline, hencode, hcells, hshows⟩ :=
    exists_shows_of_mem_instructions h hs
  -- what stands in two bytes is the address exactly when it fits
  have hexact (value : Int) : value % 65536 = value ↔ 0 ≤ value ∧ value < 65536 := by omega
  rcases encode_of_reference? href hencode with ⟨condition, hjump, rfl, rfl⟩ | ⟨hjump, op, rfl⟩
  · obtain ⟨target, htarget, ⟨distance, rfl⟩ | rfl⟩ := exists_cells_jump hcells
    · exact ⟨address, target, hline, htarget,
        .inl ⟨condition, distance, hjump, hshows _ (by simp) rfl⟩⟩
    · obtain ⟨lo, hi, hbytes, hnumber⟩ := number_littleEndian_two target
      refine ⟨address, target, hline, htarget, .inr ⟨_, lo, hi, hshows _ (by simp) (by rw [hbytes]),
        fun condition' h' => ?_, ?_⟩⟩
      · rw [Instruction.jump.inj (hjump.symm.trans h')]
      · rw [hnumber, Int.add_zero]
        exact ⟨rfl, hexact target⟩
  · rw [cells_reference] at hcells
    obtain ⟨target, htarget, rfl⟩ := Option.map_eq_some_iff.1 hcells
    obtain ⟨lo, hi, hbytes, hnumber⟩ := number_littleEndian_two (target + offset)
    refine ⟨address, target, hline, htarget, .inr ⟨op, lo, hi, hshows _ (by simp) (by rw [hbytes]),
      fun condition hcondition => absurd hcondition (hjump condition), hnumber, ?_⟩⟩
    rw [hnumber, hexact]

/-- A load in front of a label, a call of it, and a short jump back. -/
theorem shows_reference_of_assemble_call : ∃ image,
    assemble "a: LOAD16 [b - 1]\n CALL b\n RESB 3\nb: JMP a" 256 = .ok image ∧
      image.lines.map Prod.snd = [0, 1, 3] ∧
      ∃ address target, (address, 0) ∈ image.lines ∧ image.labels.lookup "b" = some target ∧
        ∃ op lo hi, image.Shows address [op, lo, hi] ∧
          (Form.number [lo, hi] : Int) = (target - 1) % 65536 := by
  have hrun : (assemble "a: LOAD16 [b - 1]\n CALL b\n RESB 3\nb: JMP a" 256).toOption.isSome
      = true := by decide +kernel
  have hread : instructions "a: LOAD16 [b - 1]\n CALL b\n RESB 3\nb: JMP a"
      = [(0, ⟨.load .short, some (.memory (.label "b" (-1)))⟩), (1, ⟨.call, some (.label "b")⟩),
        (3, ⟨.jump .always, some (.label "a")⟩)] := by decide +kernel
  obtain ⟨image, himage⟩ := Option.isSome_iff_exists.1 hrun
  have himage := Step.eq_ok_of_toOption himage
  obtain ⟨hlines, href⟩ := shows_reference_of_assemble himage
  rw [hread] at hlines href
  obtain ⟨address, target, hline, htarget, h⟩ := href 0 _ "b" (-1) List.mem_cons_self rfl
  refine ⟨image, himage, hlines, address, target, hline, htarget, ?_⟩
  rcases h with ⟨condition, distance, hjump, -⟩ | ⟨op, lo, hi, hshows, -, hnumber, -⟩
  · cases hjump
  · exact ⟨op, lo, hi, hshows, hnumber⟩

/-- An address past the last one that two bytes can name is cut: the load of the cell 70000 cells
behind the start reads the cell 4464 instead. -/
theorem not_exact_reference : ∃ image, assemble "x: LOAD16 [x + 70000]" 0 = .ok image ∧
    instructions "x: LOAD16 [x + 70000]"
      = [(0, ⟨.load .short, some (.memory (.label "x" 70000))⟩)] ∧
    image.lines = [(0, 0)] ∧ image.labels.lookup "x" = some 0 ∧
    image.Shows 0 [0x01, 0x70, 0x11] ∧ Form.number [0x70, 0x11] = 4464 ∧
    (Form.number [0x70, 0x11] : Int) ≠ 0 + 70000 := by
  have hrun : assemble "x: LOAD16 [x + 70000]" 0
      = .ok ⟨0, [0x01, 0x70, 0x11], [("x", 0)], [(0, 0)]⟩ := by decide +kernel
  have hread : instructions "x: LOAD16 [x + 70000]"
      = [(0, ⟨.load .short, some (.memory (.label "x" 70000))⟩)] := by decide +kernel
  exact ⟨_, hrun, hread, rfl, rfl, ⟨[], [], rfl, rfl⟩, by decide, by decide⟩

end Assembly

end StackLang
