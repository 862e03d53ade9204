/-
**The layout of an image.**

Making jumps short changes the forms of jumps and nothing else.  So an image is made of the rows of
its text, each encoded with the jump of its line in one of the two forms: every row stands behind
the rows before it, the labels and the instructions have the addresses of their rows, and the bytes
are the encodings one after another, without the reserved cells at the end.

Main definitions:

* `Row.cells` — the encoding of a row at an address, cell by cell;
* `IsImage` — an image is laid out as the rows of a text whose jumps have given forms.

Main results:

* `map_withForm_relax` — making jumps short changes forms only;
* `isImage_of_assemble` — every image is laid out as the rows of its text in some forms.
-/

import StackLang.Proofs.Assembly.Drafts
import StackLang.Proofs.Assembly.Rows

set_option relaxedAutoImplicit false
set_option autoImplicit false

namespace StackLang

namespace Assembly

/-! ### Cells -/

/-- A cell of an image: a byte, or a reserved cell. -/
abbrev Cell := Option UInt8

/-- The byte of a cell: a reserved cell is zero. -/
def Cell.byte (cell : Cell) : UInt8 := cell.getD 0

/-- The cells of an item at an address, when labels have the given addresses. -/
def Item.cells (labels : List (String × Nat)) (address : Nat) : Item → Option (List Cell)
  | .label _ => some []
  | .line _ => some []
  | .bytes bs => some (bs.map some)
  | .reserved count => some (List.replicate count none)
  | .address name offset _ =>
    (labels.lookup name).map fun target => (littleEndian 2 (target + offset)).map some
  | .jump condition name _ .wide =>
    (labels.lookup name).map fun target =>
      (Opcode.wideJump condition :: littleEndian 2 target).map some
  | .jump condition name _ .short =>
    (labels.lookup name).map fun target =>
      (Opcode.shortJump condition :: littleEndian 1 ((target : Int) - (address + 1))).map some

/-- The cells of some items, the first at an address. -/
def cellsFrom (labels : List (String × Nat)) (address : Nat) : List Item → Option (List Cell)
  | [] => some []
  | item :: items =>
    (item.cells labels address).bind fun first =>
      (cellsFrom labels (address + item.size) items).map fun rest => first ++ rest

/-- The encoding of a row at an address, with its jump in the given form. -/
def Row.cells (labels : List (String × Nat)) (form : JumpForm) (address : Nat) (row : Row) :
    Option (List Cell) :=
  cellsFrom labels address (row.code form)

/-- The encodings of placed rows, one after another. -/
def cellsOf (labels : List (String × Nat)) (forms : Nat → JumpForm) :
    List (Nat × Row) → Option (List Cell)
  | [] => some []
  | (address, row) :: rows =>
    (row.cells labels (forms row.number) address).bind fun first =>
      (cellsOf labels forms rows).map fun rest => first ++ rest

/-! ### Images of rows -/

/-- The label of a placed row with its address. -/
def labelPlace? (placed : Nat × Row) : Option (String × Nat) :=
  placed.2.label.map fun name => (name, placed.1)

/-- The address of a placed row with its line, if the row is an instruction. -/
def linePlace? (placed : Nat × Row) : Option (Nat × Nat) :=
  if placed.2.isInstruction then some (placed.1, placed.2.number) else none

/-- **An image is laid out as some rows** whose jumps have the given forms. -/
structure IsImage (origin : Nat) (rows : List Row) (forms : Nat → JumpForm) (image : Image) :
    Prop where
  start : image.origin = origin
  /-- A label has the address of the row that defines it. -/
  labels : image.labels.Perm ((place forms origin rows).filterMap labelPlace?)
  distinct : (image.labels.map Prod.fst).Nodup
  /-- There is one entry for each instruction, with the address of its row. -/
  lines : image.lines = (place forms origin rows).filterMap linePlace?
  increasing : image.lines.Pairwise fun x y => x.1 < y.1
  /-- The encodings stand one after another, without the reserved cells at the end. -/
  bytes : ∃ cells, cellsOf image.labels forms (place forms origin rows) = some cells ∧
    image.bytes = (cells.rdropWhile Option.isNone).map Cell.byte

/-! ### Making jumps short -/

section Forms

variable {form : JumpForm}

theorem Shrinks.map_withForm {xs ys : List Item} (h : Shrinks xs ys) :
    ys.map (Item.withForm form) = xs.map (Item.withForm form) := by
  cases h
  simp [Item.withForm]

/-- **Making jumps short changes forms only.** -/
theorem map_withForm_relax (items : List Item) :
    (relax items).map (Item.withForm form) = items.map (Item.withForm form) :=
  relax_induction (fun _ _ hstep h => hstep.map_withForm.trans h) rfl

/-- An item that is no jump has one form. -/
theorem Item.eq_of_withForm {x y : Item} (h : x.withForm .wide = y)
    (hy : ∀ c name line, y ≠ .jump c name line .wide) : x = y := by
  cases x with
  | jump c name line f => exact absurd h.symm (hy c name line)
  | _ => exact h

theorem eq_of_map_withForm {xs ys : List Item} (h : xs.map (Item.withForm .wide) = ys)
    (hys : ∀ y ∈ ys, ∀ c name line, y ≠ .jump c name line .wide) : xs = ys := by
  induction ys generalizing xs with
  | nil => exact List.map_eq_nil_iff.1 h
  | cons y ys ih =>
      obtain ⟨x, xs, rfl, hx, hxs⟩ := List.map_eq_cons_iff.1 h
      rw [List.forall_mem_cons] at hys
      rw [Item.eq_of_withForm hx hys.1, ih hxs hys.2]

@[simp] theorem Item.withForm_withForm (form form' : JumpForm) (item : Item) :
    (item.withForm form).withForm form' = item.withForm form' := by
  cases item <;> rfl

namespace Row

variable {row : Row}

theorem map_withForm_items (form form' : JumpForm) (row : Row) :
    (row.items form).map (Item.withForm form') = row.items form' := by
  obtain ⟨number, label, isInstruction, items⟩ := row
  have hcode : (List.map (Item.withForm form) items).map (Item.withForm form')
      = items.map (Item.withForm form') := by simp [Function.comp_def]
  cases label <;> cases isInstruction <;> simp [Row.items, Row.code, hcode, Item.withForm]

/-- An encoding with a jump in any form is that of the row in some form. -/
theorem IsWell.exists_code (hrow : row.IsWell) {xs : List Item}
    (h : xs.map (Item.withForm .wide) = row.encoding) : ∃ form, xs = row.code form := by
  obtain ⟨number, label, isInstruction, items⟩ := row
  replace hrow : IsEncoding number isInstruction items := hrow
  cases hrow with
  | jump condition name =>
      obtain ⟨x, xs, rfl, hx, hxs⟩ := List.map_eq_cons_iff.1 h
      cases List.map_eq_nil_iff.1 hxs
      cases x with
      | jump c l n form =>
          cases hx
          exact ⟨form, rfl⟩
      | _ => cases hx
  | _ => exact ⟨.wide, eq_of_map_withForm h (by simp [code, Item.withForm])⟩

theorem IsWell.exists_items (hrow : row.IsWell) {xs : List Item}
    (h : xs.map (Item.withForm .wide) = row.items .wide) : ∃ form, xs = row.items form := by
  obtain ⟨marks, rest, rfl, hmarks, hrest⟩ := List.map_eq_append_iff.1 h
  obtain ⟨lines, code, rfl, hlines, hcode⟩ := List.map_eq_append_iff.1 hrest
  obtain ⟨form, rfl⟩ := hrow.exists_code (hcode.trans hrow.code_wide)
  refine ⟨form, ?_⟩
  rw [items, eq_of_map_withForm hmarks (by simp +contextual),
    eq_of_map_withForm hlines (by split <;> simp)]

end Row

theorem map_withForm_itemsOf (forms : Nat → JumpForm) (form : JumpForm) (rows : List Row) :
    (itemsOf forms rows).map (Item.withForm form) = itemsOf (fun _ => form) rows := by
  simp [itemsOf, List.map_flatMap, Row.map_withForm_items]

/-- **Items that differ from those of some rows in the forms of jumps only** are those of the rows
in some forms, one for each line. -/
theorem exists_forms {rows : List Row} (hwell : ∀ row ∈ rows, row.IsWell)
    (hnodup : (rows.map Row.number).Nodup) {xs : List Item}
    (h : xs.map (Item.withForm .wide) = itemsOf (fun _ => .wide) rows) :
    ∃ forms, xs = itemsOf forms rows := by
  induction rows generalizing xs with
  | nil => exact ⟨fun _ => .wide, List.map_eq_nil_iff.1 h⟩
  | cons row rows ih =>
      rw [List.forall_mem_cons] at hwell
      rw [List.map_cons, List.nodup_cons] at hnodup
      obtain ⟨first, rest, rfl, hfirst, hrest⟩ := List.map_eq_append_iff.1 h
      obtain ⟨form, rfl⟩ := hwell.1.exists_items hfirst
      obtain ⟨forms, rfl⟩ := ih hwell.2 hnodup.2 hrest
      refine ⟨fun n => if n = row.number then form else forms n, ?_⟩
      -- no other row is on the line of this one
      have hothers : itemsOf (fun n => if n = row.number then form else forms n) rows
          = itemsOf forms rows := by
        refine List.flatMap_congr fun other hother => ?_
        have hne : other.number ≠ row.number := fun hsame =>
          hnodup.1 (hsame ▸ List.mem_map_of_mem hother)
        simp only [if_neg hne]
      rw [itemsOf_cons, hothers, if_pos rfl]

end Forms

/-! ### Addresses -/

section Addresses

variable {forms : Nat → JumpForm}

namespace Row

variable {row : Row} (form : JumpForm)

theorem totalSize_items (row : Row) : totalSize (row.items form) = row.size form := by
  obtain ⟨number, label, isInstruction, items⟩ := row
  cases label <;> cases isInstruction <;> simp [Row.items, size, totalSize, Item.size]

theorem IsWell.size_pos (h : row.IsWell) (hrow : row.isInstruction = true) :
    0 < row.size form := by
  obtain ⟨number, label, isInstruction, items⟩ := row
  replace h : IsEncoding number isInstruction items := h
  cases hrow
  cases h with
  | jump =>
      cases form <;> simp [size, code, totalSize, Item.withForm, Item.size]
  | code op bs =>
      change 0 < (op :: bs).length + 0
      simp
  | reference => simp [size, code, totalSize, Item.withForm, Item.size]

/-- An encoding marks no label and no line. -/
theorem IsWell.not_mark (h : row.IsWell) {x : Item} (hx : x ∈ row.code form) :
    (∀ name, x ≠ .label name) ∧ ∀ number, x ≠ .line number := by
  obtain ⟨number, label, isInstruction, items⟩ := row
  replace h : IsEncoding number isInstruction items := h
  cases h <;> simp_all [code, Item.withForm]
  rcases hx with rfl | rfl <;> simp

end Row

theorem labelTableFrom_of_not_mark {xs : List Item} (h : ∀ x ∈ xs, ∀ name, x ≠ .label name)
    (here : Nat) : labelTableFrom here xs = [] := by
  induction xs generalizing here with
  | nil => rfl
  | cons x xs ih =>
      rw [List.forall_mem_cons] at h
      cases x with
      | label name => exact absurd rfl (h.1 name)
      | _ => exact ih h.2 _

theorem lineTableFrom_append_of_not_mark {xs : List Item}
    (h : ∀ x ∈ xs, ∀ number, x ≠ .line number) (here : Nat) (ys : List Item) :
    lineTableFrom here (xs ++ ys) = lineTableFrom (here + totalSize xs) ys := by
  induction xs generalizing here with
  | nil => rfl
  | cons x xs ih =>
      rw [List.forall_mem_cons] at h
      cases x with
      | line number => exact absurd rfl (h.1 number)
      | _ =>
          rw [totalSize, ← Nat.add_assoc]
          exact ih h.2 _

/-- **The labels of the items of some rows** stand where their rows do. -/
theorem labelTableFrom_itemsOf {rows : List Row} (hwell : ∀ row ∈ rows, row.IsWell) (here : Nat) :
    labelTableFrom here (itemsOf forms rows) = (place forms here rows).filterMap labelPlace? := by
  induction rows generalizing here with
  | nil => rfl
  | cons row rows ih =>
      rw [List.forall_mem_cons] at hwell
      have hcode := labelTableFrom_of_not_mark
        fun x hx => (hwell.1.not_mark (forms row.number) hx).1
      have hrow : labelTableFrom here (row.items (forms row.number))
          = (labelPlace? (here, row)).toList := by
        obtain ⟨number, label, isInstruction, items⟩ := row
        cases label <;> cases isInstruction <;>
          simp [Row.items, labelTableFrom, labelPlace?, hcode]
      rw [itemsOf_cons, labelTableFrom_append, Row.totalSize_items, ih hwell.2, hrow, place]
      cases h : labelPlace? (here, row) <;> simp [h]

theorem le_of_mem_place {rows : List Row} {here : Nat} {p : Nat × Row}
    (h : p ∈ place forms here rows) : here ≤ p.1 := by
  induction rows generalizing here with
  | nil => cases h
  | cons row rows ih =>
      rcases List.mem_cons.1 h with rfl | h
      · exact le_rfl
      · exact (Nat.le_add_right _ _).trans (ih h)

theorem mem_lineEntries {rows : List Row} {here : Nat} {x : Nat × Nat}
    (h : x ∈ (place forms here rows).filterMap linePlace?) : here ≤ x.1 := by
  obtain ⟨p, hp, hx⟩ := List.mem_filterMap.1 h
  have := le_of_mem_place hp
  unfold linePlace? at hx
  split at hx
  · cases hx
    exact this
  · cases hx

/-- **The lines of the items of some rows** stand where their rows do. -/
theorem lineTableFrom_itemsOf {rows : List Row} (hwell : ∀ row ∈ rows, row.IsWell) (here : Nat) :
    lineTableFrom here (itemsOf forms rows) = (place forms here rows).filterMap linePlace? := by
  induction rows generalizing here with
  | nil => rfl
  | cons row rows ih =>
      rw [List.forall_mem_cons] at hwell
      have hcode := lineTableFrom_append_of_not_mark
        fun x hx => (hwell.1.not_mark (forms row.number) hx).2
      have hrest := ih hwell.2 (here + row.size (forms row.number))
      have hlabel : lineTableFrom here (itemsOf forms (row :: rows)) = lineTableFrom here
          ((if row.isInstruction then [.line row.number] else [])
            ++ (row.code (forms row.number) ++ itemsOf forms rows)) := by
        rw [itemsOf_cons, Row.items]
        cases row.label <;> simp [lineTableFrom, Item.size]
      rw [hlabel, place, List.filterMap_cons, ← hrest]
      cases hinstruction : row.isInstruction with
      | false => simp [linePlace?, hinstruction, hcode, Row.size]
      | true =>
          have hpos := hwell.1.size_pos (forms row.number) hinstruction
          simp only [linePlace?, hinstruction, if_true, List.singleton_append, lineTableFrom, hcode]
          rw [Row.size] at hrest hpos ⊢
          cases hlines : lineTableFrom (here + totalSize (row.code (forms row.number)))
            (itemsOf forms rows) with
          | nil => rfl
          | cons x xs =>
              have hx := mem_lineEntries (hrest ▸ hlines ▸ List.mem_cons_self :
                x ∈ (place forms (here + totalSize (row.code (forms row.number))) rows).filterMap
                  linePlace?)
              simp only
              rw [if_neg (by omega)]

/-- Instructions stand one behind another. -/
theorem pairwise_lineEntries {rows : List Row} (hwell : ∀ row ∈ rows, row.IsWell) (here : Nat) :
    ((place forms here rows).filterMap linePlace?).Pairwise fun x y => x.1 < y.1 := by
  induction rows generalizing here with
  | nil => exact .nil
  | cons row rows ih =>
      rw [List.forall_mem_cons] at hwell
      have hrest := ih hwell.2 (here + row.size (forms row.number))
      rw [place, List.filterMap_cons]
      cases hentry : linePlace? (here, row) with
      | none => exact hrest
      | some x =>
          refine List.pairwise_cons.2 ⟨fun y hy => ?_, hrest⟩
          have hy := mem_lineEntries hy
          unfold linePlace? at hentry
          split at hentry
          · have := hwell.1.size_pos (forms row.number) ‹_›
            cases hentry
            omega
          · cases hentry

theorem place_add (forms : Nat → JumpForm) (k here : Nat) (rows : List Row) :
    place forms (k + here) rows = (place forms here rows).map fun p => (k + p.1, p.2) := by
  induction rows generalizing here with
  | nil => rfl
  | cons row rows ih => rw [place, place, List.map_cons, Nat.add_assoc, ih]

theorem map_labelPlace? (k : Nat) (ps : List (Nat × Row)) :
    (ps.filterMap labelPlace?).map (fun x => (x.1, k + x.2))
      = (ps.map fun p => (k + p.1, p.2)).filterMap labelPlace? := by
  rw [List.map_filterMap, List.filterMap_map]
  congr 1
  funext p
  simp [labelPlace?, Function.comp_def]

theorem map_linePlace? (k : Nat) (ps : List (Nat × Row)) :
    (ps.filterMap linePlace?).map (fun x => (k + x.1, x.2))
      = (ps.map fun p => (k + p.1, p.2)).filterMap linePlace? := by
  rw [List.map_filterMap, List.filterMap_map]
  congr 1
  funext p
  simp only [linePlace?, Function.comp_apply]
  split <;> rfl

end Addresses

/-! ### Bytes -/

section Bytes

variable {labels table : List (String × Nat)} {origin : Nat}

/-- The labels are those of a table, each as far behind the origin as the table says. -/
def IsShifted (origin : Nat) (table labels : List (String × Nat)) : Prop :=
  ∀ name place, table.lookup name = some place → labels.lookup name = some (origin + place)

theorem lookup_of_findLabel {name : String} {line place : Nat}
    (h : findLabel table name line = .ok place) : table.lookup name = some place := by
  unfold findLabel at h
  split at h
  · cases h
    assumption
  · cases h

/-- What is written for an item is its cells. -/
theorem Item.cells_of_write (hlabels : IsShifted origin table labels) {here : Nat} {item : Item}
    {bs : List UInt8} (h : item.write origin table here = .ok bs) :
    ∃ cs, item.cells labels (origin + here) = some cs ∧ bs = cs.map Cell.byte := by
  have hbytes : ∀ bs : List UInt8, bs = (bs.map some).map Cell.byte := by
    intro bs
    simp [Cell.byte, Function.comp_def]
  cases item with
  | label name =>
      cases h
      exact ⟨[], rfl, rfl⟩
  | line number =>
      cases h
      exact ⟨[], rfl, rfl⟩
  | bytes bs =>
      cases h
      exact ⟨_, rfl, hbytes _⟩
  | reserved count =>
      cases h
      exact ⟨_, rfl, by simp [Cell.byte]⟩
  | address name offset line =>
      obtain ⟨target, htarget, h⟩ := Step.except_bind_eq_ok.1 h
      cases h
      refine ⟨_, by rw [cells, hlabels _ _ (lookup_of_findLabel htarget)]; rfl, ?_⟩
      rw [← hbytes]
      push_cast
      rfl
  | jump condition name line form =>
      cases form with
      | wide =>
          obtain ⟨target, htarget, h⟩ := Step.except_bind_eq_ok.1 h
          cases h
          refine ⟨_, by rw [cells, hlabels _ _ (lookup_of_findLabel htarget)]; rfl, ?_⟩
          rw [← hbytes]
          push_cast
          rfl
      | short =>
          obtain ⟨target, htarget, h⟩ := Step.except_bind_eq_ok.1 h
          cases h
          refine ⟨_, by rw [cells, hlabels _ _ (lookup_of_findLabel htarget)]; rfl, ?_⟩
          rw [← hbytes]
          push_cast
          congr 2
          ring

theorem cellsFrom_of_writeFrom (hlabels : IsShifted origin table labels) {here : Nat}
    {items : List Item} {bs : List UInt8} (h : writeFrom origin table here items = .ok bs) :
    ∃ cs, cellsFrom labels (origin + here) items = some cs ∧ bs = cs.map Cell.byte := by
  induction items generalizing here bs with
  | nil =>
      cases h
      exact ⟨[], rfl, rfl⟩
  | cons item items ih =>
      obtain ⟨first, hfirst, h⟩ := Step.except_bind_eq_ok.1 h
      obtain ⟨rest, hrest, h⟩ := Step.except_bind_eq_ok.1 h
      cases h
      obtain ⟨cs, hcs, rfl⟩ := item.cells_of_write hlabels hfirst
      obtain ⟨ds, hds, rfl⟩ := ih hrest
      refine ⟨cs ++ ds, ?_, List.map_append.symm⟩
      simp [cellsFrom, hcs, Nat.add_assoc, hds]

theorem cellsFrom_append (address : Nat) (xs ys : List Item) :
    cellsFrom labels address (xs ++ ys) = (cellsFrom labels address xs).bind fun first =>
      (cellsFrom labels (address + totalSize xs) ys).map fun rest => first ++ rest := by
  induction xs generalizing address with
  | nil => simp [cellsFrom, totalSize]
  | cons x xs ih =>
      rw [List.cons_append, cellsFrom, ih, cellsFrom, totalSize, Nat.add_assoc]
      simp [Option.bind_assoc, Option.map_bind, Option.bind_map, Function.comp_def]

/-- **The cells of the items of some rows** are the encodings of the rows. -/
theorem cellsFrom_itemsOf (forms : Nat → JumpForm) (rows : List Row) (address : Nat) :
    cellsFrom labels address (itemsOf forms rows)
      = cellsOf labels forms (place forms address rows) := by
  induction rows generalizing address with
  | nil => rfl
  | cons row rows ih =>
      have hrow : cellsFrom labels address (row.items (forms row.number))
          = row.cells labels (forms row.number) address := by
        obtain ⟨number, label, isInstruction, items⟩ := row
        cases label <;> cases isInstruction <;>
          simp [Row.items, Row.cells, Row.code, cellsFrom, Item.cells, Item.size]
      rw [itemsOf_cons, cellsFrom_append, hrow, Row.totalSize_items, ih]
      rfl

/-! ### The end of an image -/

/-- An item that puts no value into the image has reserved cells only. -/
theorem cellsFrom_of_isVacant {items : List Item} (h : ∀ x ∈ items, x.isVacant = true)
    (address : Nat) :
    ∃ cs, cellsFrom labels address items = some cs ∧ ∀ c ∈ cs, c.isNone = true := by
  induction items generalizing address with
  | nil => exact ⟨[], rfl, nofun⟩
  | cons x xs ih =>
      rw [List.forall_mem_cons] at h
      obtain ⟨ds, hds, hnone⟩ := ih h.2 (address + x.size)
      obtain ⟨cs, hcs, hnone'⟩ : ∃ cs, x.cells labels address = some cs ∧
          ∀ c ∈ cs, c.isNone = true := by
        cases x with
        | label name => exact ⟨[], rfl, by simp⟩
        | line number => exact ⟨[], rfl, by simp⟩
        | bytes bs =>
            cases List.isEmpty_iff.1 h.1
            exact ⟨[], rfl, by simp⟩
        | reserved count => exact ⟨_, rfl, by simp +contextual⟩
        | address => cases h.1
        | jump => cases h.1
      refine ⟨cs ++ ds, by simp [cellsFrom, hcs, hds], fun c hc => ?_⟩
      rcases List.mem_append.1 hc with hc | hc
      · exact hnone' c hc
      · exact hnone c hc

/-- An item that puts a value into the image ends with one. -/
theorem Item.getLast?_cells {item : Item} (h : item.isVacant = false) {address : Nat}
    {cs : List Cell} (hcs : item.cells labels address = some cs) :
    ∃ v, cs.getLast? = some (some v) := by
  cases item with
  | label => cases h
  | line => cases h
  | reserved => cases h
  | bytes bs =>
      cases hcs
      cases hlast : bs.getLast? with
      | none =>
          rw [List.getLast?_eq_none_iff.1 hlast] at h
          cases h
      | some v => exact ⟨v, by rw [List.getLast?_map, hlast]; rfl⟩
  | address name offset line =>
      obtain ⟨target, -, rfl⟩ := Option.map_eq_some_iff.1 hcs
      exact ⟨_, rfl⟩
  | jump condition name line form =>
      cases form with
      | wide =>
          obtain ⟨target, -, rfl⟩ := Option.map_eq_some_iff.1 hcs
          exact ⟨_, rfl⟩
      | short =>
          obtain ⟨target, -, rfl⟩ := Option.map_eq_some_iff.1 hcs
          exact ⟨_, rfl⟩

/-- The cells of items without the vacant ones at the end do not end with a reserved cell. -/
theorem rdropWhile_cells {items : List Item} {address : Nat} {cs : List Cell}
    (h : cellsFrom labels address (items.rdropWhile Item.isVacant) = some cs) :
    cs.rdropWhile Option.isNone = cs := by
  rcases List.eq_nil_or_concat' (items.rdropWhile Item.isVacant) with hnil | ⟨xs, x, hx⟩
  · rw [hnil] at h
    cases h
    rfl
  · have hlast : x.isVacant = false := by
      have := items.rdropWhile_last_not Item.isVacant (by simp [hx])
      simpa [hx] using this
    rw [hx, cellsFrom_append] at h
    obtain ⟨ds, -, h⟩ := Option.bind_eq_some_iff.1 h
    obtain ⟨es, hes, rfl⟩ := Option.map_eq_some_iff.1 h
    obtain ⟨fs, hfs, hes⟩ := Option.bind_eq_some_iff.1 hes
    obtain rfl : fs = es := by simpa [cellsFrom] using hes
    obtain ⟨v, hv⟩ := x.getLast?_cells hlast hfs
    obtain ⟨gs, rfl⟩ := List.getLast?_eq_some_iff.1 hv
    rw [← List.append_assoc]
    exact List.rdropWhile_concat_neg _ _ _ (by simp)

theorem rdropWhile_append_of_isNone {cs ds : List Cell} (h : ∀ c ∈ ds, c.isNone = true) :
    (cs ++ ds).rdropWhile Option.isNone = cs.rdropWhile Option.isNone := by
  induction ds using List.reverseRecOn with
  | nil => rw [List.append_nil]
  | append_singleton ds d ih =>
      rw [← List.append_assoc, List.rdropWhile_concat_pos _ _ _ (h d (by simp))]
      exact ih fun c hc => h c (List.mem_append_left _ hc)

/-- **The bytes of an image** are those of its cells up to the last one with a value. -/
theorem cells_of_write {items : List Item} (hlabels : IsShifted origin (labelTable items) labels)
    {bs : List UInt8} (h : write origin items = .ok bs) :
    ∃ cs, cellsFrom labels origin items = some cs ∧
      bs = (cs.rdropWhile Option.isNone).map Cell.byte := by
  obtain ⟨cs, hcs, rfl⟩ := cellsFrom_of_writeFrom hlabels h
  obtain ⟨ds, hds, hnone⟩ := @cellsFrom_of_isVacant labels (items.rtakeWhile Item.isVacant)
    (fun x hx => List.mem_rtakeWhile_imp hx)
    (origin + totalSize (items.rdropWhile Item.isVacant))
  refine ⟨cs ++ ds, ?_, ?_⟩
  · conv_lhs => rw [← @List.rdropWhile_append_rtakeWhile _ Item.isVacant items]
    rw [cellsFrom_append]
    change cellsFrom labels (origin + 0) (items.rdropWhile Item.isVacant) = _ at hcs
    rw [Nat.add_zero] at hcs
    simp [hcs, hds]
  · rw [rdropWhile_append_of_isNone hnone, @rdropWhile_cells labels items _ _ hcs]

end Bytes

/-! ### Images of texts -/

section Texts

theorem map_fst_labelEntries (forms : Nat → JumpForm) (address : Nat) (rows : List Row) :
    ((place forms address rows).filterMap labelPlace?).map Prod.fst = rows.filterMap Row.label := by
  induction rows generalizing address with
  | nil => rfl
  | cons row rows ih =>
      rw [place, List.filterMap_cons, List.filterMap_cons, labelPlace?]
      cases row.label <;> simp [ih]

variable {text : String} {origin : Nat} {image : Image}

/-- **Every image is laid out as the rows of its text**, the jump on each line in some form. -/
theorem isImage_of_assemble (h : assemble text origin = .ok image) :
    ∃ rows forms, readLines none 0 (Text.lines text.toList) = .ok rows ∧
      IsImage origin rows forms image := by
  obtain ⟨a, ha, h⟩ := Step.except_bind_eq_ok.1 h
  obtain ⟨rows, hrows, htakes⟩ := Assembler.takes_assembleLines ha
  obtain ⟨hnumbers, hwell⟩ := isWell_readLines hrows
  have hitems : a.items.toList = itemsOf (fun _ => .wide) rows := by
    simpa [Assembler.empty] using htakes.items
  have horigin : a.origin = origin := htakes.origin
  have hnames : (rows.filterMap Row.label).Nodup := by
    have := htakes.nodup List.nodup_nil
    rw [htakes.defined] at this
    exact List.nodup_reverse.1 ((List.nodup_append.1 this).1.of_map _)
  obtain ⟨forms, hforms⟩ := exists_forms hwell (hnumbers ▸ List.nodup_range')
    ((map_withForm_relax a.items.toList).trans (by rw [hitems, map_withForm_itemsOf]))
  rw [Assembler.finish_eq] at h
  split at h
  · cases h
  · obtain ⟨bs, hbs, h⟩ := Step.except_bind_eq_ok.1 h
    cases h
    rw [hforms, horigin] at *
    have hplace := place_add forms origin 0 rows
    -- the labels before they are sorted
    have htable : (labelTable (itemsOf forms rows)).map (fun x => (x.1, origin + x.2))
        = (place forms origin rows).filterMap labelPlace? := by
      rw [labelTable, labelTableFrom_itemsOf hwell, map_labelPlace?, ← hplace, Nat.add_zero]
    have hperm := List.mergeSort_perm
      ((labelTable (itemsOf forms rows)).map fun x => (x.1, origin + x.2)) fun x y => x.1 ≤ y.1
    have hdistinct := hnames
    rw [← map_fst_labelEntries forms origin, ← htable] at hdistinct
    have hsorted := (hperm.map Prod.fst).nodup_iff.2 hdistinct
    obtain ⟨cells, hcells, rfl⟩ := cells_of_write (fun name p hp =>
      lookup_of_mem hsorted (hperm.mem_iff.2 (List.mem_map_of_mem (mem_of_lookup hp)))) hbs
    have hlines : (lineTable (itemsOf forms rows)).map (fun x => (origin + x.1, x.2))
        = (place forms origin rows).filterMap linePlace? := by
      rw [lineTable, lineTableFrom_itemsOf hwell, map_linePlace?, ← hplace, Nat.add_zero]
    refine ⟨rows, forms, hrows, ⟨rfl, htable ▸ hperm, hsorted, hlines, ?_, cells, ?_, rfl⟩⟩
    · exact hlines ▸ pairwise_lineEntries hwell origin
    · rw [← cellsFrom_itemsOf]
      exact hcells

/-- A jump over reserved cells that is made short, with labels and an instruction behind it. -/
theorem isImage_of_assemble_skip : ∃ image,
    assemble "start: JMP end\n RESW 2\nend: HLT\n RESB" 256 = .ok image ∧
      image.bytes = [0xc0, 5, 0, 0, 0, 0, 0xff] ∧
      ∃ rows forms,
        readLines none 0 (Text.lines "start: JMP end\n RESW 2\nend: HLT\n RESB".toList)
          = .ok rows ∧ IsImage 256 rows forms image := by
  have hrun : (assemble "start: JMP end\n RESW 2\nend: HLT\n RESB" 256).toOption.map Image.bytes
      = some [0xc0, 5, 0, 0, 0, 0, 0xff] := by decide +kernel
  obtain ⟨image, himage, hbytes⟩ := Option.map_eq_some_iff.1 hrun
  have himage := Step.eq_ok_of_toOption himage
  exact ⟨image, himage, hbytes, isImage_of_assemble himage⟩

end Texts

end Assembly

end StackLang
