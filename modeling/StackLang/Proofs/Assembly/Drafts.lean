/-
**Drafts in terms of places.**

A draft holds cells and addresses, and a pass that makes jumps short changes them all.  Its cells
are at any moment those of a list of items, and its addresses are the places of the labels and lines
of that list, raised to the origin: this holds when the items are put in, a jump that is made short
changes the form of one item, and the shifted tables are those of the changed items.  So a draft has
an image if and only if its items have one, and it is the same.

Main results:

* `Draft.ofItems_zero` — the cells, labels and lines of a draft;
* `Draft.pass_ofItems`, `Draft.relax_ofItems` — passes over cells are passes over items;
* `Draft.image_ofItems` — the bytes of cells are those of items;
* `Assembler.finish_eq` — **an image in terms of items and their places**.
-/

import StackLang.Assembly.Assembler
import StackLang.Proofs.Assembly.Raised
import StackLang.Proofs.Assembly.Shrink
import StackLang.Proofs.Step

set_option relaxedAutoImplicit false
set_option autoImplicit false

namespace StackLang

namespace Assembly

/-! ### Cells of items -/

@[simp] theorem Item.length_draft (item : Item) : item.draft.length = item.size := by
  cases item with
  | jump condition name line form => cases form <;> rfl
  | _ => simp [Item.draft, Item.size]

theorem length_flatMap_draft (items : List Item) :
    (items.flatMap Item.draft).length = totalSize items := by
  induction items with
  | nil => rfl
  | cons item items ih =>
      rw [List.flatMap_cons, List.length_append, ih, Item.length_draft, totalSize]

theorem Item.eq_reserved_of_isVacant {item : Item} (h : item.isVacant = true) {cell : Draft.Cell}
    (hcell : cell ∈ item.draft) : cell = .reserved := by
  cases item with
  | bytes bs =>
      obtain rfl : bs = [] := by simpa [isVacant] using h
      cases hcell
  | reserved count => exact List.eq_of_mem_replicate hcell
  | label name | line number => cases hcell
  | address name offset line | jump condition name line form => cases h

/-- The last cell of an item with a value has one. -/
theorem Item.exists_draft_eq_concat {item : Item} (h : ¬ item.isVacant = true) :
    ∃ cells cell, item.draft = cells ++ [cell] ∧ cell ≠ .reserved := by
  cases item with
  | label name | line number | reserved count => exact absurd rfl h
  | bytes bs =>
      rcases List.eq_nil_or_concat bs with rfl | ⟨init, last, rfl⟩
      · exact absurd rfl h
      · exact ⟨init.map .byte, .byte last, by simp [draft], by simp⟩
  | address name offset line => exact ⟨[.address name offset line], .high, rfl, by simp⟩
  | jump condition name line form =>
      cases form with
      | wide => exact ⟨[.byte _, .branch name line .wide], .high, rfl, by simp⟩
      | short => exact ⟨[.byte _], .branch name line .short, rfl, by simp⟩

/-! ### Lines in order -/

/-- The lines behind an instruction at the place `here`, with its own unless one of them stands
there. -/
def leadLine (here number : Nat) : List (Nat × Nat) → List (Nat × Nat)
  | [] => [(here, number)]
  | (place, other) :: lines =>
    if place = here then (place, other) :: lines
    else (here, number) :: (place, other) :: lines

theorem lineTableFrom_line (here number : Nat) (items : List Item) :
    lineTableFrom here (.line number :: items)
      = leadLine here number (lineTableFrom here items) := by
  rw [lineTableFrom]
  cases lineTableFrom here items <;> rfl

section Ends

variable (here number address other : Nat) (entry : Nat × Nat) (lines : List (Nat × Nat))

/-- Only the line next to it matters for a line at either end. -/
theorem leadLine_cons :
    leadLine here number (entry :: lines) = leadLine here number [entry] ++ lines := by
  simp only [leadLine]
  split <;> rfl

theorem noteLine_cons :
    noteLine address number (entry :: lines) = noteLine address number [entry] ++ lines := by
  simp only [noteLine]
  split <;> rfl

/-- A line may be put in front before one is noted behind or afterwards. -/
theorem reverse_leadLine_noteLine :
    (leadLine here number (noteLine address other lines.reverse).reverse).reverse
      = noteLine address other (leadLine here number lines).reverse := by
  rcases lines with _ | ⟨first, rest⟩
  · by_cases hplace : address = here
    · simp [leadLine, noteLine, hplace]
    · simp [leadLine, noteLine, hplace, Ne.symm hplace]
  · rcases List.eq_nil_or_concat rest with rfl | ⟨init, last, rfl⟩
    · by_cases hfirst : first.1 = here <;> by_cases hlast : first.1 = address <;>
        simp_all [leadLine, noteLine]
    · rw [List.concat_eq_append]
      have hnotes : (first :: (init ++ [last])).reverse = last :: (init.reverse ++ [first]) := by
        simp
      have hlines : (noteLine address other [last] ++ (init.reverse ++ [first])).reverse
          = first :: (init ++ (noteLine address other [last]).reverse) := by
        simp
      have hlast : (leadLine here number [first] ++ (init ++ [last])).reverse
          = last :: (init.reverse ++ (leadLine here number [first]).reverse) := by
        simp
      rw [hnotes, noteLine_cons, hlines, leadLine_cons,
        leadLine_cons here number first (init ++ [last]), hlast,
        noteLine_cons other address last (init.reverse ++ _)]
      simp

end Ends

/-- The line of an item behind others is noted behind their lines, or in place of the last one. -/
theorem reverse_lineTableFrom_concat (here number : Nat) (items : List Item) :
    (lineTableFrom here (items ++ [.line number])).reverse
      = noteLine (here + totalSize items) number (lineTableFrom here items).reverse := by
  induction items generalizing here with
  | nil => rfl
  | cons item items ih =>
      cases item with
      | line first =>
          have hrest := congrArg List.reverse (ih here)
          rw [List.reverse_reverse] at hrest
          rw [List.cons_append, lineTableFrom_line, lineTableFrom_line, hrest,
            reverse_leadLine_noteLine, totalSize, Item.size, Nat.zero_add]
      | _ =>
          simp only [List.cons_append, lineTableFrom, totalSize, ← Nat.add_assoc]
          exact ih _

/-- Other items behind note no line. -/
theorem lineTableFrom_concat {item : Item} (hitem : ∀ number, item ≠ .line number) (here : Nat)
    (items : List Item) : lineTableFrom here (items ++ [item]) = lineTableFrom here items := by
  induction items generalizing here with
  | nil =>
      cases item with
      | line number => exact absurd rfl (hitem number)
      | _ => rfl
  | cons first items ih =>
      cases first with
      | line number => rw [List.cons_append, lineTableFrom_line, lineTableFrom_line, ih]
      | _ => exact ih _

/-- Lines stand at different places, in order. -/
theorem pairwise_lineTableFrom (here : Nat) (items : List Item) :
    (lineTableFrom here items).Pairwise fun x y => x.1 < y.1 := by
  induction items generalizing here with
  | nil => exact .nil
  | cons item items ih =>
      cases item with
      | line number =>
          have hpairwise := ih here
          have hle : ∀ e ∈ lineTableFrom here items, here ≤ e.1 := fun e he =>
            le_of_mem_lineTableFrom he
          rw [lineTableFrom]
          split
          · exact List.pairwise_singleton _ _
          · case h_2 place other rest htable =>
            rw [htable] at hpairwise hle
            split
            · exact hpairwise
            · case isFalse hne =>
              refine hpairwise.cons fun e he => ?_
              have hplace := hle _ List.mem_cons_self
              rcases List.mem_cons.1 he with rfl | he
              · exact Nat.lt_of_le_of_ne hplace (Ne.symm hne)
              · have := List.rel_of_pairwise_cons hpairwise he
                omega
      | _ => exact ih _

theorem noteLine_of_lt {address number : Nat} {lines : List (Nat × Nat)}
    (h : ∀ e ∈ lines, e.1 < address) :
    noteLine address number lines = (address, number) :: lines := by
  cases lines with
  | nil => rfl
  | cons entry lines => exact if_neg (h entry List.mem_cons_self).ne

/-- Lines that stay apart are shifted one by one. -/
theorem shiftNotes_of_pairwise {here : Nat} {lines : List (Nat × Nat)}
    (h : (shiftLines here lines).Pairwise fun x y => y.1 < x.1) :
    shiftNotes here lines = shiftLines here lines := by
  induction lines with
  | nil => rfl
  | cons entry lines ih =>
      obtain ⟨hfirst, hrest⟩ := List.pairwise_cons.1 h
      change noteLine _ _ (shiftNotes here lines) = _
      rw [ih hrest]
      exact noteLine_of_lt hfirst

/-- **When one jump is made short**, the notes of its draft are those of the changed items. -/
theorem shiftNotes_lineTable (condition : Condition) (name : String) (line : Nat)
    (xs ys : List Item) :
    shiftNotes (totalSize xs + 1)
        (lineTable (xs ++ .jump condition name line .wide :: ys)).reverse
      = (lineTable (xs ++ .jump condition name line .short :: ys)).reverse := by
  have hreverse : shiftLines (totalSize xs + 1)
      (lineTable (xs ++ .jump condition name line .wide :: ys)).reverse
        = (lineTable (xs ++ .jump condition name line .short :: ys)).reverse := by
    rw [lineTable_short, shiftLines, shiftLines, List.map_reverse]
  rw [shiftNotes_of_pairwise, hreverse]
  rw [hreverse, List.pairwise_reverse]
  exact pairwise_lineTableFrom 0 _

/-! ### Jumps without a label -/

section Undefined

variable {table : List (String × Nat)} {items : List Item}

/-- Whether a label is there does not change when it is shifted. -/
theorem undefinedJump?_shiftDown (here : Nat) (table : List (String × Nat)) (items : List Item) :
    undefinedJump? (shiftDown here table) items = undefinedJump? table items := by
  induction items with
  | nil => rfl
  | cons item items ih =>
      cases item with
      | jump condition name line form =>
          simp only [undefinedJump?, findLabel, lookup_shiftDown, ih]
          cases table.lookup name <;> rfl
      | _ => exact ih

theorem undefinedJump?_append_eq_none {xs ys : List Item} :
    undefinedJump? table (xs ++ ys) = none
      ↔ undefinedJump? table xs = none ∧ undefinedJump? table ys = none := by
  induction xs with
  | nil => simp [undefinedJump?]
  | cons x xs ih =>
      cases x with
      | jump condition name line form =>
          simp only [List.cons_append, undefinedJump?]
          cases findLabel table name line with
          | error e => simp
          | ok place => exact ih
      | _ => exact ih

/-- The first wide jump to a label that does not exist. -/
def undefinedWide? (items : List Item) : Option Error :=
  undefinedJump? (labelTable items) (items.filter Item.isWideJump)

/-- Where no jump is short, all jumps are looked at. -/
theorem undefinedWide?_eq (h : ∀ condition name line, .jump condition name line .short ∉ items) :
    undefinedWide? items = undefinedJump? (labelTable items) items := by
  unfold undefinedWide?
  generalize labelTable items = table
  induction items with
  | nil => rfl
  | cons item items ih =>
      have hrest := ih fun condition name line hmem =>
        h condition name line (List.mem_cons_of_mem _ hmem)
      cases item with
      | jump condition name line form =>
          cases form with
          | short => exact absurd List.mem_cons_self (h condition name line)
          | wide =>
              rw [List.filter_cons_of_pos rfl, undefinedJump?, undefinedJump?, hrest]
      | _ => exact hrest

/-- Where every jump has its label, every wide jump has. -/
theorem undefinedWide?_eq_none (h : undefinedJump? (labelTable items) items = none) :
    undefinedWide? items = none := by
  unfold undefinedWide?
  generalize labelTable items = table at h
  induction items with
  | nil => rfl
  | cons item items ih =>
      obtain ⟨hitem, hitems⟩ := (@undefinedJump?_append_eq_none table [item] items).1 h
      rw [List.filter_cons]
      split
      · exact undefinedJump?_append_eq_none.2 ⟨hitem, ih hitems⟩
      · exact ih hitems

/-- A jump that is made short takes no label away. -/
theorem Shrinks.undefinedWide? {items items' : List Item} (hstep : Shrinks items items')
    (h : undefinedWide? items = none) : undefinedWide? items' = none := by
  obtain ⟨condition, name, line, xs, ys, target, -, -⟩ := hstep
  unfold Assembly.undefinedWide? at h ⊢
  rw [labelTable_short, undefinedJump?_shiftDown]
  rw [List.filter_append, List.filter_cons_of_pos rfl] at h
  rw [List.filter_append, List.filter_cons_of_neg (by simp [Item.isWideJump])]
  obtain ⟨hxs, hjumps⟩ := undefinedJump?_append_eq_none.1 h
  have hys := ((@undefinedJump?_append_eq_none _ [_] _).1 hjumps).2
  exact undefinedJump?_append_eq_none.2 ⟨hxs, hys⟩

theorem undefinedWide?_pass (h : undefinedWide? items = none) :
    undefinedWide? (pass items) = none := by
  have hrun := reflTransGen_passFrom [] items
  change Relation.ReflTransGen Shrinks items (pass items) at hrun
  generalize pass items = final at hrun
  induction hrun with
  | refl => exact h
  | tail _ hstep ih => exact hstep.undefinedWide? ih

end Undefined

namespace Draft

/-! ### Drafts of items -/

/-- **The cells, labels and lines of some items** at the address zero. -/
theorem ofItems_zero (items : List Item) :
    ofItems 0 items
      = ⟨0, (items.flatMap Item.draft).toArray, labelTable items, (lineTable items).reverse⟩ := by
  induction items using List.reverseRecOn with
  | nil => rfl
  | append_singleton items item ih =>
      have hposition : (ofItems 0 items).position = totalSize items := by
        rw [ih, position, List.size_toArray, length_flatMap_draft, Nat.zero_add]
      rw [ofItems, List.foldl_concat, ← ofItems]
      cases item with
      | label name =>
          rw [push, hposition, ih, lineTable, lineTable, lineTableFrom_concat (by simp)]
          simp [labelTable, labelTableFrom_append, labelTableFrom, Item.draft]
      | line number =>
          have hlines := reverse_lineTableFrom_concat 0 number items
          rw [Nat.zero_add] at hlines
          rw [push, hposition, ih, lineTable, lineTable, hlines]
          simp [labelTable, labelTableFrom_append, labelTableFrom, Item.draft]
      | _ =>
          rw [push, ih, lineTable, lineTable, lineTableFrom_concat (by simp)]
          · simp [labelTable, labelTableFrom_append, labelTableFrom]
          all_goals exact fun _ h => Item.noConfusion h

/-! ### Passes -/

theorem scanFrom_skip {cell : Cell} (hcell : ∀ name line, cell ≠ .branch name line .wide)
    (here : Nat) (s : Scan) (cells : List Cell) :
    scanFrom here s (cell :: cells) = scanFrom (here + 1) (s.skip cell) cells := by
  rw [scanFrom]
  exact fun name line _ _ h _ => hcell name line h

/-- A pass leaves cells behind that are no wide jumps. -/
theorem scanFrom_append {cells : List Cell} (hcells : ∀ name line, .branch name line .wide ∉ cells)
    (here : Nat) (s : Scan) (rest : List Cell) :
    scanFrom here s (cells ++ rest)
      = scanFrom (here + cells.length) { s with before := cells.reverse ++ s.before } rest := by
  induction cells generalizing here s with
  | nil => rfl
  | cons cell cells ih =>
      have hcell : ∀ name line, cell ≠ .branch name line .wide := fun name line h =>
        hcells name line (h ▸ List.mem_cons_self)
      have hrest : ∀ name line, .branch name line .wide ∉ cells := fun name line h =>
        hcells name line (List.mem_cons_of_mem _ h)
      rw [List.cons_append, scanFrom_skip hcell, ih hrest]
      simp [Scan.skip, Nat.add_assoc, Nat.add_comm 1]

theorem scanFrom_wide (here : Nat) (s : Scan) (name : String) (line : Nat) (second : Cell)
    (cells : List Cell) :
    scanFrom here s (.branch name line .wide :: second :: cells)
      = findLabel s.labels name line >>= fun target =>
          if Reaches here target then scanFrom (here + 1) (s.shrink here name line) cells
          else scanFrom (here + 1) (s.skip (.branch name line .wide)) (second :: cells) := by
  rw [scanFrom]
  cases findLabel s.labels name line <;> rfl

/-- A pass that has gone through the items `done` and is in front of the items `rest`. -/
def Scan.between (done rest : List Item) (shrunk : Nat) : Scan :=
  ⟨(done.flatMap Item.draft).reverse, labelTable (done ++ rest), (lineTable (done ++ rest)).reverse,
    shrunk⟩

section Between

variable (done rest : List Item) (shrunk : Nat)

/-- A pass leaves an item behind that is no wide jump. -/
theorem scanFrom_between_of_not_wide {item : Item} (hitem : item.isWideJump = false)
    (cells : List Cell) :
    scanFrom (totalSize done) (.between done (item :: rest) shrunk) (item.draft ++ cells)
      = scanFrom (totalSize (done ++ [item])) (.between (done ++ [item]) rest shrunk) cells := by
  have hcells : ∀ name line, .branch name line .wide ∉ item.draft := by
    cases item with
    | jump condition name line form => cases form <;> simp_all [Item.draft, Item.isWideJump]
    | _ => simp [Item.draft]
  rw [scanFrom_append hcells, Item.length_draft]
  simp [Scan.between, totalSize]

variable (condition : Condition) (name : String) (line : Nat)

/-- **The tables that are shifted** when a jump is made short are those of the changed items. -/
theorem shrink_between :
    ((Scan.between done (.jump condition name line .wide :: rest) shrunk).skip
        (.byte (Opcode.wideJump condition))).shrink (totalSize done + 1) name line
      = .between (done ++ [.jump condition name line .short]) rest (shrunk + 1) := by
  have hopcode : Opcode.wideJump condition &&& 0xFE = Opcode.shortJump condition := by
    cases condition <;> decide
  have hlabels := labelTable_short condition name line done rest
  have hlines := shiftNotes_lineTable condition name line done rest
  simp only [Scan.between, Scan.skip, Scan.shrink, List.modifyHead_cons, Cell.shortOpcode, hopcode,
    hlines, ← hlabels]
  simp [Item.draft]

/-- A wide jump is made short if its label is near enough, and the pass ends at a label that is not
there. -/
theorem scanFrom_between_jump (cells : List Cell) :
    scanFrom (totalSize done) (.between done (.jump condition name line .wide :: rest) shrunk)
        ((Item.jump condition name line .wide).draft ++ cells)
      = findLabel (labelTable (done ++ .jump condition name line .wide :: rest)) name line >>=
        fun target =>
          if Reaches (totalSize done + 1) target then
            scanFrom (totalSize (done ++ [.jump condition name line .short]))
              (.between (done ++ [.jump condition name line .short]) rest (shrunk + 1)) cells
          else
            scanFrom (totalSize (done ++ [.jump condition name line .wide]))
              (.between (done ++ [.jump condition name line .wide]) rest shrunk) cells := by
  have hsize : ∀ form, totalSize (done ++ [.jump condition name line form])
      = totalSize done + (Item.jump condition name line form).size := by
    simp [totalSize]
  change scanFrom _ _ (.byte _ :: .branch name line .wide :: .high :: cells) = _
  rw [scanFrom_skip (by simp), scanFrom_wide]
  refine congrArg _ (funext fun target => ?_)
  split
  · rw [shrink_between, hsize]
    rfl
  · rw [scanFrom_skip (by simp), hsize]
    congr 1
    simp [Scan.between, Scan.skip, Item.draft]

end Between

/-- **A pass over cells is a pass over items.** -/
theorem scanFrom_ofItems (done rest : List Item) (shrunk : Nat) :
    scanFrom (totalSize done) (.between done rest shrunk) (rest.flatMap Item.draft)
      = match undefinedJump? (labelTable (done ++ rest)) (rest.filter Item.isWideJump) with
        | some e => .error e
        | none => .ok (.between
            (done ++ passFrom (labelTable (done ++ rest)) (totalSize done) rest) []
            (shrunk + (wideJumps rest
              - wideJumps (passFrom (labelTable (done ++ rest)) (totalSize done) rest)))) := by
  induction rest generalizing done shrunk with
  | nil => simp [scanFrom, undefinedJump?, Assembly.passFrom]
  | cons item rest ih =>
      have hsize : ∀ x, totalSize (done ++ [x]) = totalSize done + x.size := by simp [totalSize]
      by_cases hwide : item.isWideJump = true
      · obtain ⟨condition, name, line, rfl⟩ := Item.exists_of_isWideJump hwide
        rw [List.flatMap_cons, scanFrom_between_jump, List.filter_cons_of_pos hwide, undefinedJump?,
          Assembly.passFrom, canShrink]
        unfold findLabel
        cases (labelTable (done ++ .jump condition name line .wide :: rest)).lookup name with
        | none => rfl
        | some target =>
            dsimp only [bind, Except.bind]
            simp only [decide_eq_true_eq]
            split
            · have hcount : ∀ xs, wideJumps xs ≤ wideJumps rest →
                  shrunk + 1 + (wideJumps rest - wideJumps xs)
                    = shrunk + (wideJumps (.jump condition name line .wide :: rest)
                      - wideJumps (.jump condition name line .short :: xs)) := by
                intro xs hle
                simp only [wideJumps_cons, Item.isWideJump, if_true, Bool.false_eq_true, if_false]
                omega
              rw [ih, hsize, List.append_assoc, List.singleton_append, labelTable_short,
                undefinedJump?_shiftDown, List.append_assoc, List.singleton_append, Item.size,
                hcount _ (wideJumps_passFrom_le _ _ _)]
            · rw [ih, hsize, List.append_assoc, List.singleton_append, List.append_assoc,
                List.singleton_append, Item.size, wideJumps_cons, wideJumps_cons,
                Nat.add_sub_add_right]
      · have hpass : Assembly.passFrom (labelTable (done ++ item :: rest)) (totalSize done)
            (item :: rest) = item :: Assembly.passFrom (labelTable (done ++ item :: rest))
              (totalSize done + item.size) rest := by
          rw [Assembly.passFrom]
          rintro condition name line rfl
          exact hwide rfl
        rw [List.flatMap_cons, scanFrom_between_of_not_wide _ _ _ (by simpa using hwide), ih, hsize,
          List.filter_cons_of_neg hwide, List.append_assoc, List.singleton_append, hpass,
          List.append_assoc, List.singleton_append, wideJumps_cons, wideJumps_cons,
          Nat.add_sub_add_right]

theorem raise_ofItems (origin : Nat) (items : List Item) :
    (ofItems 0 items).raise origin = ofItems origin items :=
  (ofItems_add origin 0 items).symm

/-- **A pass over a draft is a pass over its items.** -/
theorem pass_ofItems (origin : Nat) (items : List Item) :
    (ofItems origin items).pass
      = match undefinedWide? items with
        | some e => .error e
        | none => .ok (ofItems origin (Assembly.pass items),
            wideJumps items - wideJumps (Assembly.pass items)) := by
  have hscan := scanFrom_ofItems [] items 0
  change scanFrom 0 ⟨[], labelTable items, (lineTable items).reverse, 0⟩ (items.flatMap Item.draft)
    = _ at hscan
  rw [← raise_ofItems, pass_raise, pass, ofItems_zero, undefinedWide?]
  dsimp only
  rw [hscan, List.nil_append]
  cases undefinedJump? (labelTable items) (items.filter Item.isWideJump) with
  | some e => rfl
  | none =>
      rw [← raise_ofItems, ofItems_zero]
      simp [Scan.between, Assembly.pass, totalSize, Except.map, bind, Except.bind, pure,
        Except.pure]

/-- One pass after the other goes over the items as the ones before have left them. -/
theorem pass_iterate {items : List Item} (h : undefinedWide? items = none) (origin k : Nat) :
    (ofItems origin (Assembly.pass^[k] items)).pass
      = .ok (ofItems origin (Assembly.pass^[k + 1] items),
        wideJumps (Assembly.pass^[k] items) - wideJumps (Assembly.pass^[k + 1] items)) := by
  have hdefined : undefinedWide? (Assembly.pass^[k] items) = none := by
    induction k with
    | zero => exact h
    | succ k ih =>
        rw [Function.iterate_succ_apply']
        exact undefinedWide?_pass ih
  rw [pass_ofItems, hdefined, Function.iterate_succ_apply']

/-- **A draft has as many short jumps in the end as its items.** -/
theorem relax_ofItems {items : List Item} (h : undefinedWide? items = none) (origin : Nat) :
    (ofItems origin items).relax = .ok (ofItems origin (Assembly.relax items)) := by
  induction items using Assembly.relax.induct with
  | case1 items next hless ih =>
      rw [relax_eq, pass_ofItems, h, Assembly.relax]
      dsimp only [bind, Except.bind]
      rw [if_pos hless, if_neg (Nat.sub_ne_zero_of_lt hless)]
      exact ih (undefinedWide?_pass h)
  | case2 items next hless =>
      have hsame : Assembly.pass items = items := (wideJumps_passFrom _ _ _).resolve_left hless
      rw [relax_eq, pass_ofItems, h, Assembly.relax, if_neg hless, hsame, Nat.sub_self]
      rfl

theorem relax_ofItems_eq_error {items : List Item} {e : Error}
    (h : undefinedWide? items = some e) (origin : Nat) :
    (ofItems origin items).relax = .error e := by
  rw [relax_eq, pass_ofItems, h]
  rfl

/-! ### Bytes -/

section Bytes

variable (labels : List (String × Nat))

/-- A high byte is written with the low one. -/
theorem writeFrom_high (here : Nat) (done : Array UInt8) (cells : List Cell) :
    writeFrom labels here done (.high :: cells) = writeFrom labels (here + 1) done cells :=
  rfl

/-- Cells that are written as one byte each, wherever they stand. -/
theorem writeFrom_map {α : Type} (f : α → Cell) (g : α → UInt8)
    (h : ∀ here x, (f x).write labels here = .ok [g x]) (xs : List α) (here : Nat)
    (done : Array UInt8) (cells : List Cell) :
    writeFrom labels here done (xs.map f ++ cells)
      = writeFrom labels (here + xs.length) (done ++ xs.map g) cells := by
  induction xs generalizing here done with
  | nil => simp
  | cons x xs ih =>
      rw [List.map_cons, List.cons_append, writeFrom, h]
      change writeFrom labels (here + 1) (done ++ [g x]) _ = _
      rw [ih]
      simp [Nat.add_assoc, Nat.add_comm 1]

variable (origin here : Nat) (table : List (String × Nat)) (done : Array UInt8) (cells : List Cell)

/-- **The cells of an item** are written as the item. -/
theorem writeFrom_draft (item : Item) :
    writeFrom (raiseLabels origin table) (origin + here) done (item.draft ++ cells)
      = item.write origin table here >>= fun bs =>
        writeFrom (raiseLabels origin table) (origin + (here + item.size)) (done ++ bs) cells := by
  cases item with
  | label name => simp [Item.draft, Item.write, Item.size, bind, Except.bind]
  | line number => simp [Item.draft, Item.write, Item.size, bind, Except.bind]
  | bytes bs =>
      have hbytes := writeFrom_map (raiseLabels origin table) .byte id (fun _ _ => rfl) bs
        (origin + here) done cells
      rw [List.map_id, Nat.add_assoc] at hbytes
      exact hbytes
  | reserved count =>
      have hreserved := writeFrom_map (raiseLabels origin table) (fun _ : Unit => .reserved)
        (fun _ => 0) (fun _ _ => rfl) (List.replicate count ()) (origin + here) done cells
      rw [List.map_replicate, List.map_replicate, List.length_replicate, Nat.add_assoc] at hreserved
      exact hreserved
  | address name offset line =>
      change (Cell.address name offset line).write _ _ >>= _ = _
      rw [Cell.write, Item.write, findLabel_raiseLabels]
      cases findLabel table name line with
      | error e => rfl
      | ok target =>
          change writeFrom _ _ (_ ++ littleEndian 2 _) (.high :: cells) = _
          rw [writeFrom_high, Nat.cast_add, Nat.add_assoc origin, Nat.add_assoc origin]
          rfl
  | jump condition name line form =>
      cases form with
      | wide =>
          change (Cell.branch name line .wide).write _ _ >>= _ = _
          rw [Cell.write, Item.write, findLabel_raiseLabels]
          cases findLabel table name line with
          | error e => rfl
          | ok target =>
              change writeFrom _ _ (_ ++ littleEndian 2 _) (.high :: cells) = _
              rw [writeFrom_high, Nat.cast_add, Nat.add_assoc origin, Nat.add_assoc origin]
              rfl
      | short =>
          change (Cell.branch name line .short).write _ _ >>= _ = _
          rw [Cell.write, Item.write, findLabel_raiseLabels]
          cases findLabel table name line with
          | error e => rfl
          | ok target =>
              -- the distance is the same at every origin
              have hdistance : ((origin + target : Nat) : Int) - (origin + here + 1 : Nat)
                  = (target : Int) - (here + 1 : Nat) := by
                omega
              change writeFrom _ _ (_ ++ littleEndian 1 ((origin + target : Nat) - _)) cells = _
              rw [hdistance, Nat.add_assoc origin, Nat.add_assoc origin]
              rfl

/-- **The cells of some items** are written as the items. -/
theorem writeFrom_ofItems (items : List Item) :
    writeFrom (raiseLabels origin table) (origin + here) done (items.flatMap Item.draft)
      = (Assembly.writeFrom origin table here items).map fun bs : List UInt8 => done ++ bs := by
  induction items generalizing here done with
  | nil => rfl
  | cons item items ih =>
      rw [List.flatMap_cons, writeFrom_draft, Assembly.writeFrom]
      cases item.write origin table here with
      | error e => rfl
      | ok bs =>
          change writeFrom _ _ (done ++ bs) _ = Except.map _ (_ >>= _)
          rw [ih]
          cases Assembly.writeFrom origin table (here + item.size) items with
          | error e => rfl
          | ok rest => exact congrArg Except.ok (Array.ext' (by simp))

/-- **What is left out at the end** are the cells of items without a value. -/
theorem rdropWhile_flatMap (items : List Item) :
    (items.flatMap Item.draft).rdropWhile (· = .reserved)
      = (dropVacant items).flatMap Item.draft := by
  change _ = (items.rdropWhile Item.isVacant).flatMap Item.draft
  induction items using List.reverseRecOn with
  | nil => rfl
  | append_singleton items item ih =>
      rw [List.flatMap_append, List.flatMap_singleton]
      by_cases hvacant : item.isVacant = true
      · rw [List.rdropWhile_concat_pos _ _ _ hvacant, ← ih, List.rdropWhile, List.reverse_append,
          List.dropWhile_append_of_pos, List.rdropWhile]
        exact fun cell hcell =>
          decide_eq_true (item.eq_reserved_of_isVacant hvacant (List.mem_reverse.1 hcell))
      · obtain ⟨cells, cell, hdraft, hcell⟩ := item.exists_draft_eq_concat hvacant
        rw [List.rdropWhile_concat_neg _ _ _ hvacant, List.flatMap_append, List.flatMap_singleton,
          hdraft, ← List.append_assoc, List.rdropWhile_concat_neg]
        simpa using hcell

theorem resolve_ofItems (items : List Item) :
    (ofItems origin items).resolve = (write origin items).map List.toArray := by
  rw [← raise_ofItems, ofItems_zero, resolve, write]
  change writeFrom (raiseLabels origin (labelTable items)) (origin + 0) #[]
    ((items.flatMap Item.draft).rdropWhile (· = .reserved)) = _
  rw [rdropWhile_flatMap, writeFrom_ofItems]
  congr 1
  funext bs
  simp

/-- **The image of a draft is that of its items.** -/
theorem image_ofItems (items : List Item) :
    (ofItems origin items).image = Image.ofItems origin items := by
  rw [image, Image.ofItems, resolve_ofItems, ← raise_ofItems, ofItems_zero]
  cases write origin items with
  | error e => rfl
  | ok bs =>
      simp [raise, raiseLabels, raiseLines, Except.map, bind, Except.bind, pure, Except.pure]

end Bytes

end Draft

namespace Assembler

/-- **An image in terms of items and their places**: it is that of the items with as many short
jumps as can be, unless a wide jump has no label. -/
theorem finish_eq (a : Assembler) :
    a.finish = match undefinedWide? a.items.toList with
      | some e => .error e
      | none => Image.ofItems a.origin (relax a.items.toList) := by
  rw [finish, draft]
  split
  · case h_1 e hundefined =>
    rw [Draft.relax_ofItems_eq_error hundefined]
    rfl
  · case h_2 hundefined =>
    rw [Draft.relax_ofItems hundefined, ← Draft.image_ofItems]
    rfl

end Assembler

end Assembly

end StackLang
