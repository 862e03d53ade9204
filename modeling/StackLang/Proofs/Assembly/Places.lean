/-
**Places counted from the first byte.**

A draft holds addresses.  Where an image is put makes no difference to its layout, though, and its
items say more than its cells: so layouts are looked at as lists of items, each at the place that is
the size of all items before it.  Here are the tables, the passes and the bytes of items in terms of
such places; that they are those of drafts is shown in `StackLang.Proofs.Assembly.Drafts`.

Main definitions:

* `Item.size`, `totalSize` — the room that items take;
* `labelTable`, `lineTable` — the places of labels and lines;
* `pass`, `relax` — making jumps short from the left to the right, once and as often as it helps;
* `write` — the items as bytes;
* `undefinedJump?` — the first jump to a label that does not exist.

Main results:

* `labelTable_short`, `lineTable_short` — the tables when one jump is made short.
-/

import StackLang.Assembly.Layout
import Mathlib

set_option relaxedAutoImplicit false
set_option autoImplicit false

namespace StackLang

namespace Assembly

/-! ### Sizes -/

namespace Item

/-- The number of bytes that an item takes. -/
def size : Item → Nat
  | label _ => 0
  | line _ => 0
  | bytes bs => bs.length
  | reserved count => count
  | address _ _ _ => 2
  | jump _ _ _ .short => 2
  | jump _ _ _ .wide => 3

/-- Whether an item puts no value into the image. -/
def isVacant : Item → Bool
  | label _ => true
  | line _ => true
  | reserved _ => true
  | bytes bs => bs.isEmpty
  | _ => false

/-- Whether an item is a jump in its wide form. -/
def isWideJump : Item → Bool
  | jump _ _ _ .wide => true
  | _ => false

theorem exists_of_isWideJump {item : Item} (h : item.isWideJump = true) :
    ∃ condition name line, item = jump condition name line .wide := by
  cases item with
  | jump condition name line form =>
      cases form with
      | short => cases h
      | wide => exact ⟨condition, name, line, rfl⟩
  | _ => cases h

end Item

/-- The number of bytes that some items take. -/
def totalSize : List Item → Nat
  | [] => 0
  | item :: items => item.size + totalSize items

@[simp] theorem totalSize_append (xs ys : List Item) :
    totalSize (xs ++ ys) = totalSize xs + totalSize ys := by
  induction xs with
  | nil => simp [totalSize]
  | cons x xs ih => simp [totalSize, ih, Nat.add_assoc]

/-! ### Tables of the marks -/

/-- The places of the labels of `items`, the first of which stands at the place `here`. -/
def labelTableFrom (here : Nat) : List Item → List (String × Nat)
  | [] => []
  | .label name :: items => (name, here) :: labelTableFrom here items
  | item :: items => labelTableFrom (here + item.size) items

/-- A label stands for the size of all items before it. -/
theorem labelTableFrom_append (here : Nat) (xs ys : List Item) :
    labelTableFrom here (xs ++ ys)
      = labelTableFrom here xs ++ labelTableFrom (here + totalSize xs) ys := by
  induction xs generalizing here with
  | nil => simp [labelTableFrom, totalSize]
  | cons x xs ih => cases x <;> simp [labelTableFrom, totalSize, ih, Item.size, Nat.add_assoc]

/-- The places of the labels. -/
def labelTable (items : List Item) : List (String × Nat) := labelTableFrom 0 items

/-- The places of the instructions of `items` with their lines, the first item standing at the place
`here`.  Of several lines at one place the last counts. -/
def lineTableFrom (here : Nat) : List Item → List (Nat × Nat)
  | [] => []
  | .line number :: items =>
    match lineTableFrom here items with
    | [] => [(here, number)]
    | (place, other) :: rest =>
      if place = here then (place, other) :: rest else (here, number) :: (place, other) :: rest
  | item :: items => lineTableFrom (here + item.size) items

/-- The places of the instructions with their lines. -/
def lineTable (items : List Item) : List (Nat × Nat) := lineTableFrom 0 items

/-! ### Short jumps -/

/-- Whether a wide jump at the place `here` to the label `name` can be short, when the labels stand
as in `table`. -/
def canShrink (table : List (String × Nat)) (here : Nat) (name : String) : Bool :=
  match table.lookup name with
  | some target => Reaches (here + 1) target
  | none => false

/-- Some items, the first at the place `here`, after a pass from the left: a wide jump whose target
is near enough is made short, and the labels behind it come nearer before the next jump is looked
at. -/
def passFrom (table : List (String × Nat)) (here : Nat) : List Item → List Item
  | [] => []
  | .jump condition name line .wide :: items =>
    if canShrink table here name then
      .jump condition name line .short :: passFrom (shiftDown (here + 1) table) (here + 2) items
    else .jump condition name line .wide :: passFrom table (here + 3) items
  | item :: items => item :: passFrom table (here + item.size) items

/-- The items after one pass. -/
def pass (items : List Item) : List Item := passFrom (labelTable items) 0 items

/-- The number of wide jumps. -/
def wideJumps (items : List Item) : Nat := items.countP Item.isWideJump

/-- **The items with as many short jumps as can be.** Each pass makes a wide jump short or is the
last. -/
def relax (items : List Item) : List Item :=
  let next := pass items
  if wideJumps next < wideJumps items then relax next else items
termination_by wideJumps items

/-! ### Bytes -/

/-- An item at the place `here` as bytes, in an image that is put at the address `origin`.  The
addresses of labels are cut to two bytes. -/
def Item.write (origin : Nat) (table : List (String × Nat)) (here : Nat) :
    Item → Except Error (List UInt8)
  | .label _ => .ok []
  | .line _ => .ok []
  | .bytes bs => .ok bs
  | .reserved count => .ok (List.replicate count 0)
  | .address name offset ln => do
    let target ← findLabel table name ln
    pure (littleEndian 2 (origin + target + offset))
  | .jump condition name ln .wide => do
    let target ← findLabel table name ln
    pure (Opcode.wideJump condition :: littleEndian 2 (origin + target))
  | .jump condition name ln .short => do
    let target ← findLabel table name ln
    pure (Opcode.shortJump condition :: littleEndian 1 ((target : Int) - (here + 1 : Nat)))

/-- Some items as bytes, the first at the place `here`. -/
def writeFrom (origin : Nat) (table : List (String × Nat)) (here : Nat) :
    List Item → Except Error (List UInt8)
  | [] => .ok []
  | item :: items => do
    let bytes ← item.write origin table here
    let rest ← writeFrom origin table (here + item.size) items
    pure (bytes ++ rest)

/-- The items up to the last one that puts a value into the image. -/
def dropVacant (items : List Item) : List Item := (items.reverse.dropWhile Item.isVacant).reverse

/-- **The items as bytes.** Cells without a value are zero, and those at the end are left out. -/
def write (origin : Nat) (items : List Item) : Except Error (List UInt8) :=
  writeFrom origin (labelTable items) 0 (dropVacant items)

/-- The image of some items at an address. -/
def Image.ofItems (origin : Nat) (items : List Item) : Except Error Image := do
  let bytes ← write origin items
  let labels := (labelTable items).map fun (name, place) => (name, origin + place)
  pure ⟨origin, bytes, labels.mergeSort fun x y => x.1 ≤ y.1,
    (lineTable items).map fun (place, line) => (origin + place, line)⟩

/-- The error for the first jump to a label that is not in `table`. -/
def undefinedJump? (table : List (String × Nat)) : List Item → Option Error
  | [] => none
  | .jump _ name line _ :: items =>
    match findLabel table name line with
    | .ok _ => undefinedJump? table items
    | .error e => some e
  | _ :: items => undefinedJump? table items

/-! ### Labels when one byte is taken out -/

section Labels

variable {here place : Nat} {name : String} {xs ys : List Item}

theorem lookup_shiftDown (here : Nat) (table : List (String × Nat)) (name : String) :
    (shiftDown here table).lookup name
      = (table.lookup name).map fun place => if here < place then place - 1 else place := by
  induction table with
  | nil => rfl
  | cons entry table ih =>
      change List.lookup name (_ :: shiftDown here table) = _
      rw [List.lookup_cons, List.lookup_cons, ih]
      split <;> rfl

/-- A label stands among its items. -/
theorem mem_labelTableFrom (h : (name, place) ∈ labelTableFrom here xs) :
    here ≤ place ∧ place ≤ here + totalSize xs := by
  induction xs generalizing here with
  | nil => cases h
  | cons x xs ih =>
      rw [totalSize]
      cases x with
      | label other =>
          rcases List.mem_cons.1 h with h | h
          · cases h
            omega
          · have := ih h
            omega
      | _ =>
          have := ih h
          omega

theorem shiftDown_labelTableFrom_before (h : here + totalSize xs ≤ place) :
    shiftDown place (labelTableFrom here xs) = labelTableFrom here xs := by
  refine (List.map_congr_left fun entry hentry => ?_).trans (List.map_id _)
  have hle : ¬ place < entry.2 := by
    have := mem_labelTableFrom hentry
    omega
  simp [hle]

theorem shiftDown_labelTableFrom_behind (h : place ≤ here) :
    shiftDown place (labelTableFrom (here + 1) ys) = labelTableFrom here ys := by
  induction ys generalizing here with
  | nil => rfl
  | cons y ys ih =>
      cases y with
      | label name =>
          change (name, if place < here + 1 then here + 1 - 1 else here + 1)
            :: shiftDown place (labelTableFrom (here + 1) ys) = _
          rw [if_pos (by omega), ih h]
          rfl
      | _ => simp only [labelTableFrom, Nat.add_right_comm here 1, ih (Nat.le_add_right_of_le h)]

/-- **When one jump is made short**, the labels behind it come one byte nearer. -/
theorem labelTable_short (condition : Condition) (name : String) (line : Nat) (xs ys : List Item) :
    labelTable (xs ++ .jump condition name line .short :: ys)
      = shiftDown (totalSize xs + 1)
          (labelTable (xs ++ .jump condition name line .wide :: ys)) := by
  have hbefore : shiftDown (totalSize xs + 1) (labelTableFrom 0 xs) = labelTableFrom 0 xs :=
    shiftDown_labelTableFrom_before (by omega)
  have hbehind : shiftDown (totalSize xs + 1) (labelTableFrom (0 + totalSize xs + 3) ys)
      = labelTableFrom (0 + totalSize xs + 2) ys :=
    shiftDown_labelTableFrom_behind (by omega)
  rw [labelTable, labelTable, labelTableFrom_append, labelTableFrom_append, shiftDown,
    List.map_append, ← shiftDown, ← shiftDown, hbefore]
  exact congrArg _ hbehind.symm

theorem canShrink_iff {table : List (String × Nat)} :
    canShrink table here name = true ↔
      ∃ target, table.lookup name = some target ∧ Reaches (here + 1) target := by
  unfold canShrink
  cases table.lookup name <;> simp

end Labels

/-! ### Lines when one byte is taken out -/

/-- The places of the lines when the byte behind the place `here` is taken out. -/
def shiftLines (here : Nat) (table : List (Nat × Nat)) : List (Nat × Nat) :=
  table.map fun (place, line) => (if here < place then place - 1 else place, line)

section Lines

variable {here place : Nat} {xs ys : List Item}

/-- A line starts at or behind the first item. -/
theorem le_of_mem_lineTableFrom {entry : Nat × Nat} (h : entry ∈ lineTableFrom here xs) :
    here ≤ entry.1 := by
  induction xs generalizing here entry with
  | nil => cases h
  | cons x xs ih =>
      cases x with
      | line number =>
          rw [lineTableFrom] at h
          split at h
          case h_1 => simp_all
          case h_2 other rest htable =>
            have hrest : ∀ e ∈ lineTableFrom here xs, here ≤ e.1 := fun e he => ih he
            rw [htable] at hrest
            split at h
            · exact hrest entry h
            · rcases List.mem_cons.1 h with rfl | h
              · exact Nat.le_refl here
              · exact hrest entry h
      | _ => exact (Nat.le_add_right here _).trans (ih h)

theorem shiftLines_lineTableFrom_behind (h : place ≤ here) :
    shiftLines place (lineTableFrom (here + 1) ys) = lineTableFrom here ys := by
  induction ys generalizing here with
  | nil => rfl
  | cons y ys ih =>
      cases y with
      | line number =>
          have htable := ih h
          rw [lineTableFrom, lineTableFrom, ← htable]
          cases hlines : lineTableFrom (here + 1) ys with
          | nil => simp [shiftLines, Nat.lt_succ_of_le h]
          | cons entry rest =>
              obtain ⟨at', other⟩ := entry
              have hle : here + 1 ≤ at' := le_of_mem_lineTableFrom (hlines ▸ List.mem_cons_self)
              by_cases hat : at' = here + 1
              · subst hat
                simp [shiftLines, Nat.lt_succ_of_le h]
              · have hne : at' - 1 ≠ here := by omega
                simp [shiftLines, hat, hne, Nat.lt_succ_of_le h, Nat.lt_of_le_of_lt h hle]
      | _ => simp only [lineTableFrom, Nat.add_right_comm here 1, ih (Nat.le_add_right_of_le h)]

theorem lineTableFrom_short (condition : Condition) (name : String) (line here : Nat)
    (xs ys : List Item) :
    lineTableFrom here (xs ++ .jump condition name line .short :: ys)
      = shiftLines (here + totalSize xs + 1)
          (lineTableFrom here (xs ++ .jump condition name line .wide :: ys)) := by
  induction xs generalizing here with
  | nil =>
      have hbehind : shiftLines (here + 1) (lineTableFrom (here + 3) ys)
          = lineTableFrom (here + 2) ys :=
        shiftLines_lineTableFrom_behind (Nat.le_succ _)
      exact hbehind.symm
  | cons x xs ih =>
      cases x with
      | line number =>
          have htable := ih here
          simp only [List.cons_append, lineTableFrom, totalSize, Item.size, Nat.zero_add, htable]
          cases hlines : lineTableFrom here (xs ++ .jump condition name line .wide :: ys) with
          | nil =>
              have hlt : ¬ here + totalSize xs + 1 < here := by omega
              simp [shiftLines, hlt]
          | cons entry rest =>
              obtain ⟨at', other⟩ := entry
              have hlt : ¬ here + totalSize xs + 1 < here := by omega
              -- a line keeps its place if and only if it stands before the byte
              by_cases hat : at' = here
              · subst hat
                simp [shiftLines, hlt]
              · have hle : here ≤ at' := le_of_mem_lineTableFrom (hlines ▸ List.mem_cons_self)
                have hne : (if here + totalSize xs + 1 < at' then at' - 1 else at') ≠ here := by
                  split <;> omega
                simp [shiftLines, hat, hne, hlt]
      | _ =>
          simp only [List.cons_append, lineTableFrom, totalSize, ← Nat.add_assoc]
          exact ih _

/-- **When one jump is made short**, the lines behind it come one byte nearer. -/
theorem lineTable_short (condition : Condition) (name : String) (line : Nat) (xs ys : List Item) :
    lineTable (xs ++ .jump condition name line .short :: ys)
      = shiftLines (totalSize xs + 1)
          (lineTable (xs ++ .jump condition name line .wide :: ys)) := by
  rw [lineTable, lineTable, lineTableFrom_short, Nat.zero_add]

end Lines

end Assembly

end StackLang
