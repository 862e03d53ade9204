/-
**What a refused line leaves behind.**

An assembler takes a line in one part after the other: its label, the mark of its instruction, its
bytes.  Where a part is refused the ones before it stay and the ones behind it are not looked at;
nothing is taken back.  So a label stays where its instruction is refused, an instruction that is
refused has marked its line, and a list of data is put in up to the first one that is refused.
Where no byte was put in, only the label and that mark can be left.  The mark shows in the table of
the lines and nowhere else: later lines are taken and refused as behind the label alone, and the
image is the same.

Main definitions:

* `Row.Breaks`, `Assembler.Refuses` — why a line is refused, and what it leaves behind;
* `Padded` — items with others between them that show in no byte;
* `Assembler.after`, `Assembler.offer` — an assembler behind other items, and lines that are offered
  one by one, whatever becomes of them.

Main results:

* `Assembler.assembleLine_eq_error_iff` — **why a line is refused, and the assembler after it**;
* `Assembler.after_assembleLine`, `Assembler.after_offer` — lines do not look at the items before
  them;
* `Padded.relax`, `Padded.write` — nor do layouts look at items that show in no byte;
* `Assembler.refused_assembleLine` — what a refused line leaves behind.
-/

import StackLang.Proofs.Assembly.Drafts
import StackLang.Proofs.Assembly.Rows

set_option relaxedAutoImplicit false
set_option autoImplicit false

namespace StackLang

namespace Assembly

/-! ### Refused data -/

/-- **Data are put in up to the first one that is refused.** -/
theorem encodeData_eq_error_iff {scope : Option String} {texts : List (List Char)}
    {bytes : List UInt8} {cause : Cause} :
    encodeData scope texts = (bytes, some cause) ↔
      ∃ taken refused rest, texts = taken ++ refused :: rest ∧
        encodeData scope taken = (bytes, none) ∧
        (Operand.parse scope refused).bind (encodeDatum refused) = .error cause := by
  induction texts generalizing bytes with
  | nil => simp [encodeData]
  | cons text texts ih =>
      rw [encodeData]
      cases hfirst : (Operand.parse scope text).bind (encodeDatum text) with
      | error found =>
          constructor
          · intro h
            cases h
            exact ⟨[], text, texts, rfl, rfl, hfirst⟩
          · rintro ⟨taken, refused, rest, htexts, htaken, hrefused⟩
            cases taken with
            | nil =>
                obtain ⟨rfl, rfl⟩ := List.cons.inj htexts
                cases htaken
                cases hfirst.symm.trans hrefused
                rfl
            | cons text' taken =>
                obtain ⟨rfl, rfl⟩ := List.cons.inj htexts
                rw [encodeData, hfirst] at htaken
                cases htaken
      | ok first =>
          constructor
          · intro h
            cases hrest : encodeData scope texts with
            | mk bytes' cause' =>
              rw [hrest] at h
              cases h
              obtain ⟨taken, refused, rest, rfl, htaken, hrefused⟩ := ih.1 hrest
              exact ⟨text :: taken, refused, rest, rfl, by simp only [encodeData, hfirst, htaken],
                hrefused⟩
          · rintro ⟨taken, refused, rest, htexts, htaken, hrefused⟩
            cases taken with
            | nil =>
                obtain ⟨rfl, rfl⟩ := List.cons.inj htexts
                cases hfirst.symm.trans hrefused
            | cons text' taken =>
                obtain ⟨rfl, rfl⟩ := List.cons.inj htexts
                cases hbytes : encodeData scope taken with
                | mk bytes' cause' =>
                  simp only [encodeData, hfirst, hbytes] at htaken
                  cases htaken
                  simp only [ih.2 ⟨taken, refused, rest, rfl, hbytes, hrefused⟩]

/-! ### Refused lines -/

/-- **Why the part of a line behind its label is refused, and what it has put in.** -/
inductive Row.Breaks (scope : Option String) (number : Nat) (parts : SourceLine) :
    Cause → List Item → Prop where
  | unknown {name : List Char} (hname : parts.mnemonic = some name)
      (h : Mnemonic.parse? name = none) :
      Breaks scope number parts (.unknownMnemonic (String.ofList name)) []
  | reserve {name : List Char} {width : Width} {cause : Cause}
      (hname : parts.mnemonic = some name)
      (hmnemonic : Mnemonic.parse? name = some (.directive (.reserve width)))
      (h : encodeReserve width parts.operand = .error cause) : Breaks scope number parts cause []
  | noData {name : List Char} (hname : parts.mnemonic = some name)
      (hmnemonic : Mnemonic.parse? name = some (.directive .data)) (h : parts.operand = none) :
      Breaks scope number parts (.malformed .dataWithoutOperand) []
  /-- The data before the first one that is refused are put in. -/
  | data {name text refused : List Char} {taken rest : List (List Char)} {bytes : List UInt8}
      {cause : Cause} (hname : parts.mnemonic = some name)
      (hmnemonic : Mnemonic.parse? name = some (.directive .data))
      (hoperand : parts.operand = some text)
      (hsplit : splitOperands text = taken ++ refused :: rest)
      (htaken : encodeData scope taken = (bytes, none))
      (h : (Operand.parse scope refused).bind (encodeDatum refused) = .error cause) :
      Breaks scope number parts cause [.bytes bytes]
  /-- An instruction marks its line before its operand is read. -/
  | instruction {name : List Char} {instruction : Instruction} {cause : Cause}
      (hname : parts.mnemonic = some name)
      (hmnemonic : Mnemonic.parse? name = some (.instruction instruction))
      (h : (do
        let operand ← parts.operand.mapM (Operand.parse scope)
        encode number instruction operand) = .error cause) :
      Breaks scope number parts cause [.line number]

namespace Assembler

/-- **Why a line is refused, and the assembler after it.** -/
inductive Refuses (a : Assembler) (number : Nat) (text : List Char) : Cause → Assembler → Prop where
  | malformed {cause : Cause} (h : SourceLine.parse text = .error cause) :
      Refuses a number text cause a
  /-- A label that is defined already opens its scope all the same. -/
  | duplicate {parts : SourceLine} {name : List Char} (hparts : SourceLine.parse text = .ok parts)
      (hname : parts.label = some name) (h : (qualify a.scope name).toUpper ∈ a.defined) :
      Refuses a number text (.duplicateLabel (qualify a.scope name))
        { a with scope := Row.scopeAfter a.scope (some name) }
  /-- The label of the line stays defined. -/
  | behind {parts : SourceLine} {labelled : Assembler} {cause : Cause} {items : List Item}
      (hparts : SourceLine.parse text = .ok parts)
      (hlabel : a.defineLabel? parts.label = (labelled, none))
      (h : Row.Breaks labelled.scope number parts cause items) :
      Refuses a number text cause (labelled.push items)

variable {a a' : Assembler} {number : Nat} {parts : SourceLine}

@[simp] theorem push_nil (a : Assembler) : a.push [] = a := by simp [push]

theorem defineLabel?_eq_error_iff {label : Option (List Char)} {cause : Cause} :
    a.defineLabel? label = (a', some cause) ↔
      ∃ name, label = some name ∧ (qualify a.scope name).toUpper ∈ a.defined ∧
        cause = .duplicateLabel (qualify a.scope name) ∧
        a' = { a with scope := Row.scopeAfter a.scope (some name) } := by
  cases label with
  | none => simp [defineLabel?]
  | some name =>
      obtain ⟨origin, items, defined, scope⟩ := a
      by_cases hdot : name.head? = some '.'
      all_goals
        by_cases hmem : (qualify scope name).toUpper ∈ defined
        all_goals
          simp [defineLabel?, defineLabel, Row.scopeAfter, hdot, hmem, eq_comm, and_comm]

/-- What an instruction or a directive leaves behind where it is refused. -/
theorem assembleMnemonic_eq_error_iff {name : List Char} {mnemonic : Mnemonic} {cause : Cause}
    (hname : parts.mnemonic = some name) (hmnemonic : Mnemonic.parse? name = some mnemonic) :
    a.assembleMnemonic number mnemonic parts.operand = (a', some cause) ↔
      ∃ items, Row.Breaks a.scope number parts cause items ∧ a' = a.push items := by
  constructor
  · intro h
    unfold assembleMnemonic at h
    split at h
    · case h_1 width =>
      cases hitems : encodeReserve width parts.operand with
      | ok items =>
          rw [hitems] at h
          cases h
      | error found =>
          rw [hitems] at h
          cases h
          exact ⟨[], .reserve hname hmnemonic hitems, (push_nil a).symm⟩
    · split at h
      · case h_1 hoperand =>
        cases h
        exact ⟨[], .noData hname hmnemonic hoperand, (push_nil a).symm⟩
      · case h_2 text hoperand =>
        cases hdata : encodeData a.scope (splitOperands text) with
        | mk bytes found =>
          simp only [hdata] at h
          cases h
          obtain ⟨taken, refused, rest, hsplit, htaken, hrefused⟩ := encodeData_eq_error_iff.1 hdata
          exact ⟨[.bytes bytes], .data hname hmnemonic hoperand hsplit htaken hrefused, rfl⟩
    · case h_3 instruction =>
      cases hitems : (do
          let operand ← parts.operand.mapM (Operand.parse a.scope)
          encode number instruction operand : Except Cause (List Item)) with
      | ok items =>
          rw [hitems] at h
          cases h
      | error found =>
          rw [hitems] at h
          cases h
          exact ⟨[.line number], .instruction hname hmnemonic hitems, rfl⟩
  · rintro ⟨items, hbreaks, rfl⟩
    cases hbreaks with
    | unknown hname' h =>
        cases hname.symm.trans hname'
        cases hmnemonic.symm.trans h
    | reserve hname' hmnemonic' h =>
        cases hname.symm.trans hname'
        cases hmnemonic.symm.trans hmnemonic'
        rw [assembleMnemonic, h, push_nil]
        rfl
    | noData hname' hmnemonic' h =>
        cases hname.symm.trans hname'
        cases hmnemonic.symm.trans hmnemonic'
        simp only [assembleMnemonic, h, push_nil]
    | data hname' hmnemonic' hoperand hsplit htaken h =>
        cases hname.symm.trans hname'
        cases hmnemonic.symm.trans hmnemonic'
        have hdata := encodeData_eq_error_iff.2 ⟨_, _, _, hsplit, htaken, h⟩
        simp only [assembleMnemonic, hoperand, hdata]
    | instruction hname' hmnemonic' h =>
        cases hname.symm.trans hname'
        cases hmnemonic.symm.trans hmnemonic'
        rw [assembleMnemonic, h]
        rfl

/-- What stands behind a label that is taken. -/
theorem assembleParts_eq_error_iff {labelled : Assembler} {cause : Cause}
    (hlabel : a.defineLabel? parts.label = (labelled, none)) :
    a.assembleParts number parts = (a', some cause) ↔
      ∃ items, Row.Breaks labelled.scope number parts cause items ∧ a' = labelled.push items := by
  simp only [assembleParts, hlabel]
  cases hname : parts.mnemonic with
  | none =>
      constructor
      · intro h
        cases h
      · rintro ⟨items, hbreaks, rfl⟩
        cases hbreaks <;> simp_all
  | some name =>
      dsimp only
      cases hmnemonic : Mnemonic.parse? name with
      | some mnemonic => exact assembleMnemonic_eq_error_iff hname hmnemonic
      | none =>
          constructor
          · intro h
            cases h
            exact ⟨[], .unknown hname hmnemonic, (push_nil _).symm⟩
          · rintro ⟨items, hbreaks, rfl⟩
            cases hbreaks <;> simp_all

/-- **Why a line is refused, and the assembler after it.** -/
theorem assembleLine_eq_error_iff {text : List Char} {e : Error} :
    a.assembleLine number text = (a', some e) ↔
      e.line = number ∧ Refuses a number text e.cause a' := by
  obtain ⟨line, cause⟩ := e
  cases hparts : SourceLine.parse text with
  | error found =>
      simp only [assembleLine, hparts]
      constructor
      · intro h
        cases h
        exact ⟨rfl, .malformed hparts⟩
      · rintro ⟨rfl, hrefuses⟩
        cases hrefuses <;> simp_all
  | ok parts =>
      have hline : a.assembleLine number text = (a', some ⟨line, cause⟩) ↔
          line = number ∧ a.assembleParts number parts = (a', some cause) := by
        simp only [assembleLine, hparts]
        generalize a.assembleParts number parts = result
        obtain ⟨found, _ | cause'⟩ := result
        · simp
        · simp [@eq_comm _ number, and_left_comm]
      rw [hline]
      refine and_congr_right fun _ => ?_
      rcases hlabel : a.defineLabel? parts.label with ⟨labelled, found | found⟩
      · rw [assembleParts_eq_error_iff hlabel]
        constructor
        · rintro ⟨items, hbreaks, rfl⟩
          exact .behind hparts hlabel hbreaks
        · intro hrefuses
          cases hrefuses with
          | malformed h => cases hparts.symm.trans h
          | duplicate hparts' hname h =>
              cases hparts.symm.trans hparts'
              have := defineLabel?_eq_error_iff.2 ⟨_, hname, h, rfl, rfl⟩
              cases hlabel.symm.trans this
          | behind hparts' hlabel' h =>
              cases hparts.symm.trans hparts'
              cases hlabel.symm.trans hlabel'
              exact ⟨_, h, rfl⟩
      · obtain ⟨name, hname, hmem, rfl, rfl⟩ := defineLabel?_eq_error_iff.1 hlabel
        simp only [assembleParts, hlabel]
        constructor
        · intro h
          cases h
          exact .duplicate hparts hname hmem
        · intro hrefuses
          cases hrefuses with
          | malformed h => cases hparts.symm.trans h
          | duplicate hparts' hname' h =>
              cases hparts.symm.trans hparts'
              cases hname.symm.trans hname'
              rfl
          | behind hparts' hlabel' h =>
              cases hparts.symm.trans hparts'
              cases hlabel.symm.trans hlabel'

end Assembler

/-! ### Lines that are offered -/

namespace Assembler

/-- The assembler after some lines with their numbers, and what is wrong with each: a line that is
refused stops nothing. -/
def offer (a : Assembler) : List (Nat × List Char) → Assembler × List (Option Error)
  | [] => (a, [])
  | (number, text) :: lines =>
    let (a, e) := a.assembleLine number text
    let (a, es) := a.offer lines
    (a, e :: es)

/-- The same assembler behind other items. -/
def after (items : Array Item) (a : Assembler) : Assembler := { a with items := items ++ a.items }

/-- An outcome of an assembler behind other items. -/
def afterResult {α : Type} (items : Array Item) (r : Assembler × α) : Assembler × α :=
  (r.1.after items, r.2)

variable (items : Array Item) (a : Assembler)

theorem after_push (more : List Item) : (a.after items).push more = (a.push more).after items := by
  simp only [after, push]
  congr 1
  exact Array.ext' (by simp)

theorem after_defineLabel? (label : Option (List Char)) :
    (a.after items).defineLabel? label = afterResult items (a.defineLabel? label) := by
  cases label with
  | none => rfl
  | some name =>
      simp only [defineLabel?, defineLabel]
      split <;> split <;> simp_all [after, afterResult, push]

theorem after_pushResult (result : Except Cause (List Item)) :
    (a.after items).pushResult result = afterResult items (a.pushResult result) := by
  cases result with
  | error cause => rfl
  | ok more => exact Prod.ext (after_push items a more) rfl

theorem after_assembleMnemonic (line : Nat) (mnemonic : Mnemonic) (operand : Option (List Char)) :
    (a.after items).assembleMnemonic line mnemonic operand
      = afterResult items (a.assembleMnemonic line mnemonic operand) := by
  cases mnemonic with
  | instruction instruction =>
      simp only [assembleMnemonic, after_push]
      exact after_pushResult items (a.push [.line line]) _
  | directive directive =>
      cases directive with
      | reserve width => exact after_pushResult items a _
      | data =>
          cases operand with
          | none => rfl
          | some text => exact Prod.ext (after_push items a _) rfl

theorem after_assembleParts (line : Nat) (parts : SourceLine) :
    (a.after items).assembleParts line parts
      = afterResult items (a.assembleParts line parts) := by
  unfold assembleParts
  rw [after_defineLabel?]
  rcases a.defineLabel? parts.label with ⟨a', _ | cause⟩
  · simp only [afterResult]
    split
    · rfl
    · split
      · rfl
      · exact after_assembleMnemonic items a' _ _ _
  · rfl

/-- **A line does not look at the items before it.** -/
theorem after_assembleLine (line : Nat) (text : List Char) :
    (a.after items).assembleLine line text = afterResult items (a.assembleLine line text) := by
  unfold assembleLine
  cases SourceLine.parse text with
  | error cause => rfl
  | ok parts =>
      simp only [after_assembleParts]
      rfl

/-- **Lines do not look at the items before them**, refused or not. -/
theorem after_offer (lines : List (Nat × List Char)) :
    (a.after items).offer lines = afterResult items (a.offer lines) := by
  induction lines generalizing a with
  | nil => rfl
  | cons line lines ih =>
      simp only [offer, after_assembleLine, afterResult, ih]

end Assembler

/-! ### Items that show in no byte -/

/-- **The first items are the second with some between them that show in no byte**: bytes that are
none, and where `marked` the marks of lines. -/
inductive Padded (marked : Bool) : List Item → List Item → Prop where
  | nil : Padded marked [] []
  | keep (item : Item) {xs ys : List Item} (h : Padded marked xs ys) :
      Padded marked (item :: xs) (item :: ys)
  | empty {xs ys : List Item} (h : Padded marked xs ys) : Padded marked (.bytes [] :: xs) ys
  | mark (hmarked : marked = true) (number : Nat) {xs ys : List Item} (h : Padded marked xs ys) :
      Padded marked (.line number :: xs) ys

namespace Padded

variable {marked : Bool} {xs ys xs' ys' : List Item} {origin here : Nat}
  {table : List (String × Nat)}

theorem refl (items : List Item) : Padded marked items items := by
  induction items with
  | nil => exact .nil
  | cons item items ih => exact .keep item ih

theorem append (h : Padded marked xs ys) (h' : Padded marked xs' ys') :
    Padded marked (xs ++ xs') (ys ++ ys') := by
  induction h with
  | nil => exact h'
  | keep item _ ih => exact .keep item ih
  | empty _ ih => exact .empty ih
  | mark hmarked number _ ih => exact .mark hmarked number ih

theorem reverse (h : Padded marked xs ys) : Padded marked xs.reverse ys.reverse := by
  induction h with
  | nil => exact .nil
  | keep item _ ih => simpa using ih.append (.keep item .nil)
  | empty _ ih => simpa using ih.append (.empty .nil)
  | mark hmarked number _ ih => simpa using ih.append (.mark hmarked number .nil)

/-! #### Tables -/

theorem labelTableFrom (h : Padded marked xs ys) (here : Nat) :
    labelTableFrom here xs = labelTableFrom here ys := by
  induction h generalizing here with
  | nil => rfl
  | keep item _ ih => cases item <;> simp only [Assembly.labelTableFrom, ih]
  | empty _ ih => exact ih here
  | mark _ number _ ih => exact ih here

/-- Without marks between them, the lines stand where they stood. -/
theorem lineTableFrom (h : Padded false xs ys) (here : Nat) :
    lineTableFrom here xs = lineTableFrom here ys := by
  induction h generalizing here with
  | nil => rfl
  | keep item _ ih => cases item <;> simp only [Assembly.lineTableFrom, ih]
  | empty _ ih => exact ih here
  | mark hmarked => cases hmarked

/-! #### Layouts -/

/-- **A pass makes the same jumps short.** -/
theorem passFrom (h : Padded marked xs ys) (table : List (String × Nat)) (here : Nat) :
    Padded marked (passFrom table here xs) (passFrom table here ys) := by
  induction h generalizing table here with
  | nil => exact .nil
  | keep item _ ih =>
      cases item with
      | jump condition name line form =>
          cases form with
          | short => exact .keep _ (ih _ _)
          | wide =>
              simp only [Assembly.passFrom]
              split
              · exact .keep _ (ih _ _)
              · exact .keep _ (ih _ _)
      | _ => exact .keep _ (ih _ _)
  | empty _ ih => exact .empty (ih _ _)
  | mark hmarked number _ ih => exact .mark hmarked number (ih _ _)

theorem wideJumps (h : Padded marked xs ys) : wideJumps xs = wideJumps ys := by
  induction h with
  | nil => rfl
  | keep item _ ih => rw [wideJumps_cons, wideJumps_cons, ih]
  | empty _ ih => rw [wideJumps_cons, ih]; rfl
  | mark _ number _ ih => rw [wideJumps_cons, ih]; rfl

/-- **The same jumps are short in the end.** -/
theorem relax (h : Padded marked xs ys) : Padded marked (relax xs) (relax ys) := by
  induction hn : Assembly.wideJumps xs using Nat.strong_induction_on generalizing xs ys with
  | _ n ih =>
      have hpass : Padded marked (pass xs) (pass ys) := by
        rw [pass, pass, labelTable, labelTable, h.labelTableFrom]
        exact h.passFrom _ _
      rw [Assembly.relax.eq_def xs, Assembly.relax.eq_def ys]
      dsimp only
      rw [← hpass.wideJumps, ← h.wideJumps]
      split
      · case isTrue hless => exact ih _ (hn ▸ hless) hpass rfl
      · exact h

theorem undefinedWide? (h : Padded marked xs ys) : undefinedWide? xs = undefinedWide? ys := by
  have hjumps : xs.filter Item.isWideJump = ys.filter Item.isWideJump := by
    induction h with
    | nil => rfl
    | keep item _ ih => rw [List.filter_cons, List.filter_cons, ih]
    | empty _ ih => exact ih
    | mark _ number _ ih => exact ih
  rw [Assembly.undefinedWide?, Assembly.undefinedWide?, hjumps, labelTable, labelTable,
    h.labelTableFrom]

/-! #### Bytes -/

theorem dropWhile_isVacant (h : Padded marked xs ys) :
    Padded marked (xs.dropWhile Item.isVacant) (ys.dropWhile Item.isVacant) := by
  induction h with
  | nil => exact .nil
  | @keep item xs ys h ih =>
      by_cases hvacant : item.isVacant
      · rwa [List.dropWhile_cons_of_pos hvacant, List.dropWhile_cons_of_pos hvacant]
      · rw [List.dropWhile_cons_of_neg hvacant, List.dropWhile_cons_of_neg hvacant]
        exact .keep item h
  | empty _ ih => exact ih
  | mark _ number _ ih => exact ih

theorem writeFrom (h : Padded marked xs ys) (here : Nat) :
    writeFrom origin table here xs = writeFrom origin table here ys := by
  induction h generalizing here with
  | nil => rfl
  | keep item _ ih => simp only [Assembly.writeFrom, ih]
  | empty _ ih | mark _ _ _ ih =>
      rw [Assembly.writeFrom, ← ih here]
      change Assembly.writeFrom origin table here _ >>= pure = _
      exact bind_pure _

/-- **Items are written as the same bytes.** -/
theorem write (h : Padded marked xs ys) : write origin xs = write origin ys := by
  rw [Assembly.write, Assembly.write, labelTable, labelTable, h.labelTableFrom]
  exact h.reverse.dropWhile_isVacant.reverse.writeFrom 0

end Padded

/-! ### What shows of a refused line -/

/-- The image without the table of its lines. -/
def Image.unmarked (image : Image) : Image := { image with lines := [] }

namespace Assembler

variable {a a' : Assembler} {number : Nat} {text : List Char}

/-- **Items that show in no byte do not show in an image**, but for the lines that they mark. -/
theorem finish_of_padded {marked : Bool} (horigin : a'.origin = a.origin)
    (h : Padded marked a'.items.toList a.items.toList) :
    a'.finish.map Image.unmarked = a.finish.map Image.unmarked ∧
      (marked = false → a'.finish = a.finish) := by
  have htable : labelTable (relax a'.items.toList) = labelTable (relax a.items.toList) :=
    h.relax.labelTableFrom 0
  rw [finish_eq, finish_eq, h.undefinedWide?, horigin]
  cases undefinedWide? a.items.toList with
  | some e => exact ⟨rfl, fun _ => rfl⟩
  | none =>
      dsimp only [Image.ofItems]
      rw [h.relax.write, htable]
      cases write a.origin (relax a.items.toList) with
      | error e => exact ⟨rfl, fun _ => rfl⟩
      | ok bytes =>
          refine ⟨rfl, ?_⟩
          rintro rfl
          have hlines : lineTable (relax a'.items.toList) = lineTable (relax a.items.toList) :=
            h.relax.lineTableFrom 0
          rw [hlines]

/-- Whether a text is a line with an instruction. -/
def holdsInstruction (text : List Char) : Bool :=
  match SourceLine.parse text with
  | .error _ => false
  | .ok parts =>
    match parts.mnemonic.bind Mnemonic.parse? with
    | some (.instruction _) => true
    | _ => false

/-- The assembler after the label of a line alone. -/
def labelled (a : Assembler) (text : List Char) : Assembler :=
  match SourceLine.parse text with
  | .error _ => a
  | .ok parts => (a.defineLabel? parts.label).1

theorem labelled_of_label_eq_none
    (h : ∀ parts, SourceLine.parse text = .ok parts → parts.label = none) :
    a.labelled text = a := by
  unfold labelled
  split
  · rfl
  · case h_2 parts hparts =>
    rw [h parts hparts]
    rfl

theorem labelled_eq {parts : SourceLine} {r : Assembler × Option Cause}
    (hparts : SourceLine.parse text = .ok parts) (h : a.defineLabel? parts.label = r) :
    a.labelled text = r.1 := by
  simp only [labelled, hparts, h]

/-- A line that is refused and puts in no byte leaves no more than its label and its mark. -/
theorem Refuses.padded {cause : Cause} (h : a.Refuses number text cause a')
    (hsize : totalSize a'.items.toList = totalSize a.items.toList) :
    a' = { a.labelled text with items := a'.items } ∧
      Padded (holdsInstruction text) a'.items.toList (a.labelled text).items.toList := by
  cases h with
  | malformed h =>
      have hlabelled : a.labelled text = a := by simp only [labelled, h]
      rw [hlabelled]
      exact ⟨rfl, .refl _⟩
  | duplicate hparts hname h =>
      rw [labelled_eq hparts (defineLabel?_eq_error_iff.2 ⟨_, hname, h, rfl, rfl⟩)]
      exact ⟨rfl, .refl _⟩
  | @behind parts labelled cause items hparts hlabel hbreaks =>
      rw [labelled_eq hparts hlabel]
      refine ⟨rfl, ?_⟩
      have hitems : (labelled.push items).items.toList = labelled.items.toList ++ items := by
        simp [push]
      have hlabels : totalSize labelled.items.toList = totalSize a.items.toList := by
        rw [(defineLabel?_eq hlabel).2.2.1, totalSize_append]
        cases parts.label <;> rfl
      rw [hitems, totalSize_append, hlabels, Nat.add_eq_left] at hsize
      -- what is left behind is the mark of an instruction, or nothing
      have hpadded : Padded (holdsInstruction text) items [] := by
        cases hbreaks with
        | unknown | reserve | noData => exact .nil
        | @data name text refused taken rest bytes =>
            obtain rfl : bytes = [] := by simpa [totalSize, Item.size] using hsize
            exact .empty .nil
        | instruction hname hmnemonic =>
            exact .mark (by simp [holdsInstruction, hparts, hname, hmnemonic]) number .nil
      simpa [push] using (Padded.refl labelled.items.toList).append hpadded

/-- **Items that show in no byte do not show later on**: the same becomes of later lines, and the
image is the same but for the lines that they mark. -/
theorem offer_of_padded {marked : Bool} (ha' : a' = { a with items := a'.items })
    (h : Padded marked a'.items.toList a.items.toList) (lines : List (Nat × List Char)) :
    (a'.offer lines).2 = (a.offer lines).2 ∧
      (a'.offer lines).1.finish.map Image.unmarked
        = (a.offer lines).1.finish.map Image.unmarked ∧
      (marked = false → (a'.offer lines).1.finish = (a.offer lines).1.finish) := by
  -- both assemblers are one that has no items yet, behind the items of each
  have hstart : a = after a.items { a with items := #[] } := by simp [after]
  have hstart' : a' = after a'.items { a with items := #[] } := by
    rw [ha']
    simp [after]
  have hoffer := after_offer a.items { a with items := #[] } lines
  have hoffer' := after_offer a'.items { a with items := #[] } lines
  rw [← hstart] at hoffer
  rw [← hstart'] at hoffer'
  have hitems := h.append (.refl (offer { a with items := #[] } lines).1.items.toList)
  rw [hoffer, hoffer']
  exact ⟨rfl, finish_of_padded rfl (by simpa [afterResult, after] using hitems)⟩

/-- **What a refused line leaves behind.** The error is that of its line.  Nothing is left of a line
that cannot be taken apart, and of one whose label is defined already no more than its scope.
Otherwise the label stays, the mark of an instruction, and the data before the first one that is
refused.  Where no byte was put in, the same becomes of later lines as behind the label alone, and
the image is the same but for the mark of an instruction in the table of the lines. -/
theorem refused_assembleLine {e : Error} (h : a.assembleLine number text = (a', some e)) :
    e.line = number ∧ a.Refuses number text e.cause a' ∧
      ((∀ parts, SourceLine.parse text = .ok parts → parts.label = none) →
        a.labelled text = a) ∧
      (totalSize a'.items.toList = totalSize a.items.toList →
        a' = { a.labelled text with items := a'.items } ∧
        Padded (holdsInstruction text) a'.items.toList (a.labelled text).items.toList ∧
        ∀ lines, (a'.offer lines).2 = ((a.labelled text).offer lines).2 ∧
          (a'.offer lines).1.finish.map Image.unmarked
            = ((a.labelled text).offer lines).1.finish.map Image.unmarked ∧
          (holdsInstruction text = false →
            (a'.offer lines).1.finish = ((a.labelled text).offer lines).1.finish)) := by
  obtain ⟨hline, hrefuses⟩ := assembleLine_eq_error_iff.1 h
  refine ⟨hline, hrefuses, labelled_of_label_eq_none, fun hsize => ?_⟩
  obtain ⟨ha', hpadded⟩ := hrefuses.padded hsize
  exact ⟨ha', hpadded, offer_of_padded ha' hpadded⟩

/-- A depth that is out of range is refused: a jump to the label of its line is assembled as behind
the label alone. -/
theorem refused_assembleLine_depth : ∃ a',
    (empty 0).assembleLine 0 "x: DUP 256".toList = (a', some ⟨0, .outOfRange 256 0 255⟩) ∧
      (a'.offer [(1, "JMP x".toList)]).1.finish.map Image.unmarked
        = .ok ⟨0, [0xC0, 0xFF], [("x", 0)], []⟩ := by
  have hcause : ((empty 0).assembleLine 0 "x: DUP 256".toList).2
      = some ⟨0, .outOfRange 256 0 255⟩ := by decide +kernel
  have hline : (empty 0).assembleLine 0 "x: DUP 256".toList
      = (((empty 0).assembleLine 0 "x: DUP 256".toList).1, some ⟨0, .outOfRange 256 0 255⟩) :=
    Prod.ext rfl hcause
  obtain ⟨-, -, -, hlater⟩ := refused_assembleLine hline
  have hsize : totalSize ((empty 0).assembleLine 0 "x: DUP 256".toList).1.items.toList
      = totalSize (empty 0).items.toList := by decide +kernel
  obtain ⟨-, -, hsame⟩ := hlater hsize
  obtain ⟨-, hfinish, -⟩ := hsame [(1, "JMP x".toList)]
  exact ⟨_, hline, hfinish.trans (by decide +kernel)⟩

/-- Nothing is taken back: a label stays with its scope where its instruction is unknown, a refused
instruction has marked its line, data before a refused one are put in, and a label that is defined
already opens its scope. -/
theorem not_unchanged_of_refused :
    (∃ a, (empty 0).assembleLine 0 "x: FOO".toList = (a, some ⟨0, .unknownMnemonic "FOO"⟩) ∧
      a.defined = ["X"] ∧ a.scope = some "x" ∧ a.finish = .ok ⟨0, [], [("x", 0)], []⟩) ∧
    (∃ a, (empty 0).assembleLine 0 "DUP 256".toList = (a, some ⟨0, .outOfRange 256 0 255⟩) ∧
      a.finish = .ok ⟨0, [], [], [(0, 0)]⟩) ∧
    (∃ a, (empty 0).assembleLine 0 "DB 7,256".toList = (a, some ⟨0, .outOfRange 256 (-128) 255⟩) ∧
      a.finish = .ok ⟨0, [7], [], []⟩) ∧
    (∃ a a', (empty 0).offer [(0, "x:".toList), (1, "y:".toList)] = (a, [none, none]) ∧
      a.assembleLine 2 "x:".toList = (a', some ⟨2, .duplicateLabel "x"⟩) ∧
      a.scope = some "y" ∧ a'.scope = some "x") ∧
    (empty 0).defined = [] ∧ (empty 0).scope = none ∧ (empty 0).finish = .ok ⟨0, [], [], []⟩ := by
  refine ⟨?_, ?_, ?_, ?_, rfl, rfl, by decide +kernel⟩
  · refine ⟨_, Prod.ext rfl ?_, ?_, ?_, ?_⟩ <;> decide +kernel
  · refine ⟨_, Prod.ext rfl ?_, ?_⟩ <;> decide +kernel
  · refine ⟨_, Prod.ext rfl ?_, ?_⟩ <;> decide +kernel
  · refine ⟨_, _, Prod.ext rfl ?_, Prod.ext rfl ?_, ?_, ?_⟩ <;> decide +kernel

end Assembler

end Assembly

end StackLang
