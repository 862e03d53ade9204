/-
**The same text at two addresses.**

Where an image is put changes its addresses and nothing else.  Assembling notes absolute addresses,
compares them to make jumps short, and moves them; but what it does at one address it does at every
other with all addresses raised.  So a text that is refused at one address is refused at every other
for the same reason; its drafts have the same cells, so the same jumps are short, over the same
distances; labels and instructions keep their distances; and the bytes are the same but for the
references to labels, which move with the image.

Main definitions:

* `Draft.Cell.references`, `Draft.Cell.distances`, `placesIn` — where the references to labels and
  the distances of short jumps stand;
* `Moves` — bytes that are the same but for references that move;
* `laidOut` — the draft of a text when no jump can be made short any more;
* `IsTranslated` — two images whose drafts have the same cells;
* `Agree` — outcomes that fail alike or have related values.

Main results:

* `laidOut_eq_raise` — **the draft of a text at a higher address**;
* `Draft.agree_writeFrom` — what is written for some cells at two addresses;
* `agree_assemble` — the images of a text at two addresses.
-/

import StackLang.Proofs.Assembly.Layout

set_option relaxedAutoImplicit false
set_option autoImplicit false

namespace StackLang

namespace Assembly

/-! ### Outcomes that agree -/

/-- Two steps fail with the same error, or both succeed with related values. -/
inductive Agree {ε α β : Type} (R : α → β → Prop) : Except ε α → Except ε β → Prop where
  | error (e : ε) : Agree R (.error e) (.error e)
  | ok {a : α} {b : β} (h : R a b) : Agree R (.ok a) (.ok b)

namespace Agree

variable {ε α β γ δ : Type} {R : α → β → Prop} {S : γ → δ → Prop}

/-- A step is as it is. -/
theorem refl (x : Except ε α) : Agree (fun a b => a = b ∧ x = .ok a) x x := by
  cases x with
  | error e => exact .error e
  | ok a => exact .ok ⟨rfl, rfl⟩

theorem bind {x : Except ε α} {y : Except ε β} {f : α → Except ε γ} {g : β → Except ε δ}
    (h : Agree R x y) (hfg : ∀ a b, R a b → Agree S (f a) (g b)) :
    Agree S (x >>= f) (y >>= g) := by
  cases h with
  | error e => exact .error e
  | ok h => exact hfg _ _ h

theorem mono {R' : α → β → Prop} {x : Except ε α} {y : Except ε β} (h : Agree R x y)
    (himp : ∀ a b, x = .ok a → y = .ok b → R a b → R' a b) : Agree R' x y := by
  cases h with
  | error e => exact .error e
  | ok h => exact .ok (himp _ _ rfl rfl h)

end Agree

/-! ### Places in an image -/

namespace Draft.Cell

/-- The number of bytes that a cell is written as. -/
def width : Cell → Nat
  | byte _ => 1
  | reserved => 1
  | address _ _ _ => 2
  | branch _ _ .wide => 2
  | branch _ _ .short => 1
  | high => 0

/-- Where a reference to a label stands in a cell: the place of its low byte. -/
def references : Cell → List Nat
  | address _ _ _ => [0]
  | branch _ _ .wide => [0]
  | _ => []

/-- Where the distance of a short jump stands in a cell. -/
def distances : Cell → List Nat
  | branch _ _ .short => [0]
  | _ => []

end Draft.Cell

/-- The number of bytes that some cells are written as. -/
def totalWidth : List Draft.Cell → Nat
  | [] => 0
  | cell :: cells => cell.width + totalWidth cells

/-- Some places of each cell, counted from the first byte of the first one. -/
def placesIn (places : Draft.Cell → List Nat) : List Draft.Cell → List Nat
  | [] => []
  | cell :: cells => places cell ++ (placesIn places cells).map (cell.width + ·)

theorem placesIn_append (places : Draft.Cell → List Nat) (xs ys : List Draft.Cell) :
    placesIn places (xs ++ ys)
      = placesIn places xs ++ (placesIn places ys).map (totalWidth xs + ·) := by
  induction xs with
  | nil => simp [placesIn, totalWidth]
  | cons x xs ih => simp [placesIn, totalWidth, ih, Function.comp_def, Nat.add_assoc]

/-- Cells without a value have none of the places of interest. -/
theorem placesIn_of_eq_reserved {places : Draft.Cell → List Nat} (hplaces : places .reserved = [])
    {cells : List Draft.Cell} (h : ∀ x ∈ cells, x = .reserved) : placesIn places cells = [] := by
  induction cells with
  | nil => rfl
  | cons x xs ih =>
      rw [List.forall_mem_cons] at h
      rw [placesIn, h.1, hplaces, ih h.2]
      rfl

/-- The number in the two bytes at a place, the low one first. -/
def wordAt (bs : List UInt8) (place : Nat) : Nat :=
  (bs.getD place 0).toNat + 256 * (bs.getD (place + 1) 0).toNat

/-! ### Bytes that move -/

/-- **Bytes of the same cells at two addresses** that are `k` apart: only the references to labels
differ, and they do by `k`, as far as two bytes can tell. -/
structure Moves (k : Int) (cells : List Draft.Cell) (bs bs' : List UInt8) : Prop where
  length : bs'.length = bs.length
  fixed : ∀ i, (∀ r ∈ placesIn Draft.Cell.references cells, i ≠ r ∧ i ≠ r + 1) → bs'[i]? = bs[i]?
  distances : ∀ d ∈ placesIn Draft.Cell.distances cells, d < bs.length ∧ bs'[d]? = bs[d]?
  references : ∀ r ∈ placesIn Draft.Cell.references cells,
    r + 1 < bs.length ∧ (wordAt bs' r : Int) ≡ wordAt bs r + k [ZMOD 65536]

theorem wordAt_append_left {bs : List UInt8} {place : Nat} (h : place + 1 < bs.length)
    (cs : List UInt8) : wordAt (bs ++ cs) place = wordAt bs place := by
  unfold wordAt
  rw [List.getD_append _ _ _ _ (by omega), List.getD_append _ _ _ _ h]

theorem wordAt_append_right (bs cs : List UInt8) (place : Nat) :
    wordAt (bs ++ cs) (bs.length + place) = wordAt cs place := by
  unfold wordAt
  rw [List.getD_append_right _ _ _ _ (by omega), List.getD_append_right _ _ _ _ (by omega)]
  congr 4 <;> omega

/-- Two bytes hold a number as far as they can. -/
theorem wordAt_littleEndian (value : Int) :
    (wordAt (littleEndian 2 value) 0 : Int) = value % 65536 := by
  have hbyte : ∀ n : Int, ((UInt8.ofNat (n % 256).toNat).toNat : Int) = n % 256 := by
    intro n
    rw [UInt8.toNat_ofNat']
    omega
  simp only [wordAt, littleEndian, List.getD_cons_zero, List.getD_cons_succ]
  push_cast
  rw [hbyte, hbyte]
  omega

namespace Moves

variable {k : Int} {cells xs ys : List Draft.Cell} {bs bs' cs cs' : List UInt8}

theorem nil : Moves k [] [] [] := ⟨rfl, fun _ _ => rfl, nofun, nofun⟩

/-- Bytes without a reference stay. -/
theorem refl (hreferences : placesIn Draft.Cell.references cells = [])
    (hdistances : ∀ d ∈ placesIn Draft.Cell.distances cells, d < bs.length) :
    Moves k cells bs bs where
  length := rfl
  fixed _ _ := rfl
  distances d hd := ⟨hdistances d hd, rfl⟩
  references r hr := by simp [hreferences] at hr

/-- A reference moves with its image. -/
theorem reference {v v' : Int} (hv : v' = v + k)
    (hreferences : placesIn Draft.Cell.references cells = [0])
    (hdistances : placesIn Draft.Cell.distances cells = []) :
    Moves k cells (littleEndian 2 v) (littleEndian 2 v') where
  length := rfl
  fixed i hi := by
    have := hi 0 (by simp [hreferences])
    rw [List.getElem?_eq_none (by simp; omega), List.getElem?_eq_none (by simp; omega)]
  distances d hd := by simp [hdistances] at hd
  references r hr := by
    obtain rfl : r = 0 := by simpa [hreferences] using hr
    refine ⟨by simp, ?_⟩
    rw [wordAt_littleEndian, wordAt_littleEndian, hv]
    exact (Int.mod_modEq _ _).trans (Int.ModEq.add_right k (Int.mod_modEq _ _).symm)

theorem append (h : Moves k xs bs bs') (hsize : bs.length = totalWidth xs)
    (h' : Moves k ys cs cs') :
    Moves k (xs ++ ys) (bs ++ cs) (bs' ++ cs') where
  length := by rw [List.length_append, List.length_append, h.length, h'.length]
  fixed i hi := by
    rw [placesIn_append] at hi
    rcases Nat.lt_or_ge i bs.length with hlt | hge
    · rw [List.getElem?_append_left (h.length ▸ hlt), List.getElem?_append_left hlt]
      exact h.fixed i fun r hr => hi r (List.mem_append_left _ hr)
    · rw [List.getElem?_append_right (h.length ▸ hge), List.getElem?_append_right hge, h.length]
      refine h'.fixed _ fun r hr => ?_
      have := hi (totalWidth xs + r) (List.mem_append_right _ (List.mem_map_of_mem hr))
      omega
  distances d hd := by
    rw [placesIn_append] at hd
    rcases List.mem_append.1 hd with hd | hd
    · obtain ⟨hlt, heq⟩ := h.distances d hd
      rw [List.getElem?_append_left (h.length ▸ hlt), List.getElem?_append_left hlt]
      exact ⟨by rw [List.length_append]; omega, heq⟩
    · obtain ⟨e, he, rfl⟩ := List.mem_map.1 hd
      obtain ⟨hlt, heq⟩ := h'.distances e he
      have hlength := h.length
      rw [← hsize, List.getElem?_append_right (by omega), h.length,
        List.getElem?_append_right (by omega), Nat.add_sub_cancel_left]
      exact ⟨by rw [List.length_append]; omega, heq⟩
  references r hr := by
    rw [placesIn_append] at hr
    rcases List.mem_append.1 hr with hr | hr
    · obtain ⟨hlt, hword⟩ := h.references r hr
      rw [wordAt_append_left hlt, wordAt_append_left (h.length ▸ hlt)]
      exact ⟨by rw [List.length_append]; omega, hword⟩
    · obtain ⟨s, hs, rfl⟩ := List.mem_map.1 hr
      obtain ⟨hlt, hword⟩ := h'.references s hs
      have hright := wordAt_append_right bs' cs' s
      rw [h.length] at hright
      rw [← hsize, wordAt_append_right, hright]
      exact ⟨by rw [List.length_append]; omega, hword⟩

end Moves

/-! ### Writing at two addresses -/

namespace Draft

section Writing

variable (origin origin' : Nat) (labels : List (String × Nat)) (here : Nat)

/-- What is written for a cell at two addresses. -/
theorem agree_cell (cell : Cell) :
    Agree (fun bs bs' => bs.length = cell.width ∧ Moves (origin' - origin) [cell] bs bs')
      (cell.write (raiseLabels origin labels) (origin + here))
      (cell.write (raiseLabels origin' labels) (origin' + here)) := by
  cases cell with
  | byte b => exact .ok ⟨rfl, .refl rfl nofun⟩
  | reserved => exact .ok ⟨rfl, .refl rfl nofun⟩
  | high => exact .ok ⟨rfl, .refl rfl nofun⟩
  | address name offset line =>
      rw [Cell.write, Cell.write, findLabel_raiseLabels, findLabel_raiseLabels]
      cases findLabel labels name line with
      | error e => exact .error e
      | ok target => exact .ok ⟨rfl, .reference (by push_cast; ring) rfl rfl⟩
  | branch name line form =>
      cases form with
      | wide =>
          rw [Cell.write, Cell.write, findLabel_raiseLabels, findLabel_raiseLabels]
          cases findLabel labels name line with
          | error e => exact .error e
          | ok target => exact .ok ⟨rfl, .reference (by push_cast; ring) rfl rfl⟩
      | short =>
          rw [Cell.write, Cell.write, findLabel_raiseLabels, findLabel_raiseLabels]
          cases findLabel labels name line with
          | error e => exact .error e
          | ok target =>
              -- both addresses move, so their distance stays
              have hdistance : ((origin' + target : Nat) : Int) - (origin' + here : Nat)
                  = (origin + target : Nat) - (origin + here : Nat) := by
                omega
              refine .ok ⟨rfl, ?_⟩
              rw [hdistance]
              exact .refl rfl fun d hd => by
                obtain rfl : d = 0 := by simpa [placesIn, Cell.distances] using hd
                simp

/-- **What is written for some cells at two addresses** agrees, and the bytes move. -/
theorem agree_writeFrom (done done' : Array UInt8) (cells : List Cell) :
    Agree (fun bs bs' => ∃ cs cs' : List UInt8, bs = done ++ cs ∧ bs' = done' ++ cs' ∧
        cs.length = totalWidth cells ∧ Moves (origin' - origin) cells cs cs')
      (writeFrom (raiseLabels origin labels) (origin + here) done cells)
      (writeFrom (raiseLabels origin' labels) (origin' + here) done' cells) := by
  induction cells generalizing here done done' with
  | nil => exact .ok ⟨[], [], rfl, rfl, rfl, .nil⟩
  | cons cell cells ih =>
      refine (agree_cell origin origin' labels here cell).bind fun bs bs' h => ?_
      refine (ih (here + 1) (done ++ bs) (done' ++ bs')).mono fun _ _ _ _ hrest => ?_
      obtain ⟨cs, cs', rfl, rfl, hlength, hmoves⟩ := hrest
      have hwidth : bs.length = totalWidth [cell] := by
        rw [h.1, totalWidth, totalWidth, Nat.add_zero]
      refine ⟨bs ++ cs, bs' ++ cs', Array.ext' (by simp), Array.ext' (by simp), ?_,
        h.2.append hwidth hmoves⟩
      rw [List.length_append, h.1, hlength, totalWidth]

/-- Cells without a value at the end are left out at both addresses. -/
theorem agree_resolve (d : Draft) :
    Agree (fun bs bs' => Moves (origin' - origin) d.cells.toList bs.toList bs'.toList)
      (d.raise origin).resolve (d.raise origin').resolve := by
  refine (agree_writeFrom origin origin' d.labels d.origin #[] #[]
    (d.cells.toList.rdropWhile (· = .reserved))).mono fun _ _ _ _ h => ?_
  obtain ⟨bs, bs', rfl, rfl, -, hmoves⟩ := h
  -- what is left out holds neither references nor distances
  have hplaces : ∀ places : Cell → List Nat, places .reserved = [] →
      placesIn places d.cells.toList
        = placesIn places (d.cells.toList.rdropWhile (· = .reserved)) := by
    intro places hreserved
    have hsplit := @List.rdropWhile_append_rtakeWhile _ (· = .reserved) d.cells.toList
    conv_lhs => rw [← hsplit]
    have hleft : ∀ x ∈ d.cells.toList.rtakeWhile (· = .reserved), x = .reserved := by
      intro x hx
      simpa using List.mem_rtakeWhile_imp hx
    rw [placesIn_append, placesIn_of_eq_reserved hreserved hleft]
    simp
  have hreferences := hplaces Cell.references rfl
  have hdistances := hplaces Cell.distances rfl
  refine ⟨?_, ?_, ?_, ?_⟩
  · simpa using hmoves.length
  · rw [hreferences]
    simpa using hmoves.fixed
  · rw [hdistances]
    simpa using hmoves.distances
  · rw [hreferences]
    simpa using hmoves.references

end Writing

end Draft

/-! ### Texts at two addresses -/

/-- **The draft of a text** to be put at the address `origin`, when no jump can be made short any
more. -/
def laidOut (text : String) (origin : Nat) : Except Error Draft := do
  let a ← (Assembler.empty origin).assembleLines 0 (Text.lines text.toList)
  a.draft.relax

/-- An image is that of the draft of its text. -/
theorem assemble_eq_laidOut (text : String) (origin : Nat) :
    assemble text origin = laidOut text origin >>= Draft.image := by
  unfold assemble laidOut
  cases (Assembler.empty origin).assembleLines 0 (Text.lines text.toList) <;> rfl

theorem origin_of_laidOut {text : String} {origin : Nat} {d : Draft}
    (h : laidOut text origin = .ok d) : d.origin = origin := by
  obtain ⟨a, ha, h⟩ := Step.except_bind_eq_ok.1 h
  obtain ⟨rows, -, htakes⟩ := Assembler.takes_assembleLines ha
  rw [Draft.origin_of_relax h, Assembler.draft, Draft.origin_ofItems]
  exact htakes.origin

/-- **The draft of a text at a higher address** has the same cells, and all its addresses are
higher. -/
theorem laidOut_eq_raise (text : String) (origin : Nat) :
    laidOut text origin = (laidOut text 0).map (Draft.raise origin) := by
  unfold laidOut
  rw [← Assembler.moved_empty origin 0, Assembler.moved_assembleLines]
  cases ha : (Assembler.empty 0).assembleLines 0 (Text.lines text.toList) with
  | error e => rfl
  | ok a =>
      have hzero : a.origin = 0 := by
        obtain ⟨rows, -, htakes⟩ := Assembler.takes_assembleLines ha
        exact htakes.origin
      have hdraft : (a.moved origin).draft = a.draft.raise origin := by
        rw [Assembler.draft, Assembler.draft, hzero, ← Draft.ofItems_add]
        rfl
      change (a.moved origin).draft.relax = a.draft.relax.map (Draft.raise origin)
      rw [hdraft, Draft.relax_raise]

/-! ### Images at two addresses -/

/-- **Two images of one layout**: the cells of their drafts are the same, so the same jumps are
short; their labels and lines stand as far apart as their origins; and their bytes are the same but
for the references to labels. -/
structure IsTranslated (origin origin' : Nat) (d d' : Draft) (i i' : Image) : Prop where
  cells : d'.cells = d.cells
  image : d.image = .ok i ∧ d'.image = .ok i'
  origins : i.origin = origin ∧ i'.origin = origin'
  labels : List.Forall₂ (fun x y => y.1 = x.1 ∧ (y.2 : Int) - x.2 = origin' - origin)
    i.labels i'.labels
  lines : List.Forall₂ (fun x y => (y.1 : Int) - x.1 = origin' - origin ∧ y.2 = x.2)
    i.lines i'.lines
  bytes : Moves (origin' - origin) d.cells.toList i.bytes i'.bytes

section Images

variable (origin origin' : Nat)

theorem forall₂_labels (entries : List (String × Nat)) :
    List.Forall₂ (fun x y => y.1 = x.1 ∧ (y.2 : Int) - x.2 = origin' - origin)
      ((raiseLabels origin entries).mergeSort fun x y => x.1 ≤ y.1)
      ((raiseLabels origin' entries).mergeSort fun x y => x.1 ≤ y.1) := by
  -- sorting looks at the names only
  have hsort : ∀ k, (raiseLabels k entries).mergeSort (fun x y => x.1 ≤ y.1)
      = raiseLabels k (entries.mergeSort fun x y => x.1 ≤ y.1) := by
    intro k
    rw [raiseLabels, raiseLabels, List.map_mergeSort]
    exact fun _ _ _ _ => rfl
  rw [hsort, hsort, raiseLabels, raiseLabels, List.forall₂_map_left_iff,
    List.forall₂_map_right_iff]
  exact List.forall₂_same.2 fun x _ => ⟨rfl, by push_cast; ring⟩

theorem forall₂_lines (entries : List (Nat × Nat)) :
    List.Forall₂ (fun x y => (y.1 : Int) - x.1 = origin' - origin ∧ y.2 = x.2)
      (raiseLines origin entries).reverse (raiseLines origin' entries).reverse := by
  rw [raiseLines, raiseLines, ← List.map_reverse, ← List.map_reverse, List.forall₂_map_left_iff,
    List.forall₂_map_right_iff]
  exact List.forall₂_same.2 fun x _ => ⟨by push_cast; ring, rfl⟩

/-- **The images of a draft at two addresses.** -/
theorem agree_image (d : Draft) (hzero : d.origin = 0) :
    Agree (IsTranslated origin origin' (d.raise origin) (d.raise origin'))
      (d.raise origin).image (d.raise origin').image := by
  have hagree : Agree (fun i i' : Image => ∃ bs bs' : Array UInt8,
      Moves (origin' - origin) d.cells.toList bs.toList bs'.toList ∧
      i = Image.mk (origin + d.origin) bs.toList _ _ ∧
      i' = Image.mk (origin' + d.origin) bs'.toList _ _)
      (d.raise origin).image (d.raise origin').image :=
    (Draft.agree_resolve origin origin' d).bind fun bs bs' h => .ok ⟨bs, bs', h, rfl, rfl⟩
  refine hagree.mono fun i i' hi hi' h => ?_
  obtain ⟨bs, bs', hmoves, rfl, rfl⟩ := h
  rw [hzero] at hi hi' ⊢
  exact ⟨rfl, ⟨hi, hi'⟩, ⟨rfl, rfl⟩, forall₂_labels origin origin' _,
    forall₂_lines origin origin' _, hmoves⟩

end Images

/-- **The images of a text at two addresses.** The text is refused at both for the same reason, or
its drafts have the same cells and its images are translations of each other. -/
theorem agree_assemble (text : String) (origin origin' : Nat) :
    Agree (fun i i' => ∃ d d', laidOut text origin = .ok d ∧ laidOut text origin' = .ok d' ∧
        IsTranslated origin origin' d d' i i')
      (assemble text origin) (assemble text origin') := by
  rw [assemble_eq_laidOut, assemble_eq_laidOut, laidOut_eq_raise text origin,
    laidOut_eq_raise text origin']
  cases h : laidOut text 0 with
  | error e => exact .error e
  | ok d =>
      exact (agree_image origin origin' d (origin_of_laidOut h)).mono fun i i' _ _ himage =>
        ⟨d.raise origin, d.raise origin', rfl, rfl, himage⟩

end Assembly

end StackLang
