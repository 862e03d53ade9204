/-
**Lines of assembly text.**

A line is an optional label with a colon, an optional name of an instruction with an optional
operand, and an optional comment after a semicolon.  Semicolons and commas inside quotes are
characters like others; inside quotes a backslash takes the next character with it.

Main definitions:

* `Quoting` — whether a place of a line is inside quotes;
* `stripComment`, `splitOperands` — cutting outside of quotes;
* `SourceLine` — the parts of a line.
-/

import StackLang.Assembly.Error
import StackLang.Text.Blank
import StackLang.Text.Word

set_option relaxedAutoImplicit false
set_option autoImplicit false

namespace StackLang

namespace Assembly

/-! ### Quotes -/

/-- Where a place of a line stands with respect to quotes. -/
inductive Quoting where
  /-- Outside of quotes. -/
  | outside
  /-- Inside a pair of the quotes `q`. -/
  | inside (q : Char)
  /-- Inside a pair of the quotes `q`, after a backslash. -/
  | escaped (q : Char)
deriving DecidableEq, Repr

namespace Quoting

/-- Where the place after one more character stands. -/
def next (s : Quoting) (c : Char) : Quoting :=
  match s with
  | outside => if c = '"' ∨ c = '\'' then inside c else outside
  | inside q => if c = '\\' then escaped q else if c = q then outside else inside q
  | escaped q => inside q

end Quoting

/-- The text up to the first semicolon outside of quotes. -/
def stripCommentFrom (s : Quoting) : List Char → List Char
  | [] => []
  | c :: cs => if s = .outside ∧ c = ';' then [] else c :: stripCommentFrom (s.next c) cs

/-- Only the end of a line is cut off. -/
theorem stripCommentFrom_prefix (s : Quoting) (line : List Char) :
    stripCommentFrom s line <+: line := by
  induction line generalizing s with
  | nil => simp [stripCommentFrom]
  | cons c cs ih =>
    unfold stripCommentFrom
    split
    · exact List.nil_prefix
    · exact (List.prefix_cons_inj c).2 (ih _)

/-- A line without its comment. -/
def stripComment (line : List Char) : List Char := stripCommentFrom .outside line

/-- The parts of a text between the commas outside of quotes. -/
def splitOperandsFrom (s : Quoting) : List Char → List (List Char)
  | [] => [[]]
  | c :: cs =>
    if s = .outside ∧ c = ',' then [] :: splitOperandsFrom .outside cs
    else
      match splitOperandsFrom (s.next c) cs with
      | [] => [[c]]
      | part :: parts => (c :: part) :: parts

/-- A list of operands has at least one part. -/
theorem splitOperandsFrom_ne_nil (s : Quoting) (text : List Char) :
    splitOperandsFrom s text ≠ [] := by
  cases text with
  | nil => simp [splitOperandsFrom]
  | cons c cs =>
    unfold splitOperandsFrom
    split
    · simp
    · split <;> simp

/-- The operands of a list, without the blanks around them. -/
def splitOperands (text : List Char) : List (List Char) :=
  (splitOperandsFrom .outside text).map Text.trim

/-! ### Labels and names -/

/-- The characters that start a label. -/
def isLabelStart (c : Char) : Bool := c.isAlpha || c = '_' || c = '.'

/-- The characters inside a label. -/
def isLabelPart (c : Char) : Bool := Text.isWord c || c = '@' || c = '.'

/-- Whether a text is a label. -/
def isLabel : List Char → Bool
  | [] => false
  | c :: cs => isLabelStart c && cs.all isLabelPart

/-- The label that a line starts with, and what stands after its colon. -/
def splitLabel? (line : List Char) : Option (List Char × List Char) :=
  match Text.trimStart line with
  | [] => none
  | c :: cs =>
    if isLabelStart c then
      match Text.trimStart (cs.dropWhile isLabelPart) with
      | ':' :: rest => some (c :: cs.takeWhile isLabelPart, rest)
      | _ => none
    else none

/-- Whether a text can be the name of an instruction: a letter and one to seven letters or digits.
-/
def isName : List Char → Bool
  | [] => false
  | c :: cs => c.isAlpha && cs.all Char.isAlphanum && 1 ≤ cs.length && cs.length ≤ 7

/-! ### Parts of a line -/

/-- The parts of a line. -/
structure SourceLine where
  label : Option (List Char)
  mnemonic : Option (List Char)
  /-- The text of the operand, without blanks around it. -/
  operand : Option (List Char)
deriving DecidableEq, Repr

namespace SourceLine

/-- The parts of the rest of a line behind its label. -/
def parseRest (label : Option (List Char)) (rest : List Char) : Except Cause SourceLine :=
  match Text.trim rest with
  | [] => .ok ⟨label, none, none⟩
  | text =>
    let name := text.takeWhile fun c => !Text.isBlank c
    let operand := Text.trim (text.dropWhile fun c => !Text.isBlank c)
    if isName name then .ok ⟨label, some name, if operand = [] then none else some operand⟩
    else .error (.malformed (.expectedMnemonic (String.ofList name)))

/-- **The parts of a line.** -/
def parse (line : List Char) : Except Cause SourceLine :=
  let text := stripComment line
  match splitLabel? text with
  | some (label, rest) => parseRest (some label) rest
  | none => parseRest none text

end SourceLine

end Assembly

end StackLang
