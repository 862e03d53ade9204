/-
**Options of the command line.**

Options and files may stand in any order.  An option has a long name after two dashes or one letter
after a dash; letters can be put together, and a value stands in the next argument, after an equals
sign or right after the letter.  After two dashes alone there are files only.

Main definitions:

* `Program`, `Switch` — the programs and their options;
* `Arguments.step` — reading one argument;
* `Options.parse` — the options that some arguments give;
* `parseOrigin` — an address of two bytes.
-/

import StackLang.Assembly.Number

set_option relaxedAutoImplicit false
set_option autoImplicit false

namespace StackLang

namespace CommandLine

/-! ### Addresses -/

/-- The address that a text is: a decimal number, or a hexadecimal one after `0x`. -/
def parseOrigin (text : String) : Option Nat :=
  let (digits, base) :=
    match text.toList with
    | '0' :: 'x' :: cs => (cs, 16)
    | '0' :: 'X' :: cs => (cs, 16)
    | cs => (cs, 10)
  let digits :=
    match digits with
    | '+' :: cs => cs
    | cs => cs
  if digits = [] then none
  else
    match Assembly.Number.ofDigits? base 0 digits with
    | some n => if n < 65536 then some n else none
    | none => none

/-- The description of a text that is no address. -/
def badOrigin (text : String) : String :=
  "'" ++ text ++ "' is not an address between 0 and 0xFFFF"

/-! ### Options -/

/-- The programs. -/
inductive Program where
  | compiler
  | assembler
deriving DecidableEq, Repr

namespace Program

/-- The name that a program is called by. -/
def name : Program → String
  | compiler => "picoc"
  | assembler => "picoasm"

end Program

/-- The options of the programs. -/
inductive Switch where
  | output
  | asm
  | stdout
  | noOpt
  | origin
  | map
  | color
  | verbose
  | help
  | version
deriving DecidableEq, Repr

namespace Switch

/-- Whether an option has a value. -/
def takesValue : Switch → Bool
  | output | origin | map | color => true
  | _ => false

/-- Whether a program has an option. -/
def isOf : Program → Switch → Bool
  | .compiler, _ => true
  | .assembler, asm => false
  | .assembler, noOpt => false
  | .assembler, _ => true

/-- The option of a long name. -/
def ofLong? : String → Option Switch
  | "output" => some output
  | "asm" => some asm
  | "stdout" => some stdout
  | "no-opt" => some noOpt
  | "origin" => some origin
  | "map" => some map
  | "color" => some color
  | "verbose" => some verbose
  | "help" => some help
  | "version" => some version
  | _ => none

/-- The option of a letter. -/
def ofShort? : Char → Option Switch
  | 'o' => some output
  | 'a' => some asm
  | 's' => some stdout
  | 'v' => some verbose
  | 'h' => some help
  | 'V' => some version
  | _ => none

/-- Whether a text can be the value of an option. -/
def accepts : Switch → String → Bool
  | output, value => value ≠ ""
  | map, value => value ≠ ""
  | origin, value => (parseOrigin value).isSome
  | color, value => value ∈ ["auto", "always", "never"]
  | _, _ => false

end Switch

/-! ### Arguments -/

/-- Why a program does not run. -/
inductive Stop where
  /-- The arguments make no sense. -/
  | usage
  /-- Help was asked for. -/
  | help
  /-- The version was asked for. -/
  | version
deriving DecidableEq, Repr

/-- What has been read of the arguments. -/
structure Arguments where
  sources : List String
  /-- The options with their values, which are empty for options without one. -/
  given : List (Switch × String)
  /-- An option whose value is the next argument. -/
  pending : Option Switch
  /-- Whether the rest are files. -/
  closed : Bool

namespace Arguments

/-- Nothing read yet. -/
def empty : Arguments := ⟨[], [], none, false⟩

/-- One more file. -/
def addSource (a : Arguments) (path : String) : Except Stop Arguments :=
  if path = "" then .error .usage else .ok { a with sources := a.sources ++ [path] }

/-- One more option, which must not have been given before. -/
def record (a : Arguments) (o : Switch) (value : String) : Except Stop Arguments :=
  if a.given.any fun (p, _) => p = o then .error .usage
  else .ok { a with given := (o, value) :: a.given }

/-- An option with its value. -/
def give (a : Arguments) (o : Switch) (value : String) : Except Stop Arguments :=
  if o.accepts value then { a with pending := none }.record o value else .error .usage

/-- An option without a value.  How often one asks for more words does not matter. -/
def flag (a : Arguments) : Switch → Except Stop Arguments
  | .help => .error .help
  | .version => .error .version
  | .verbose => .ok a
  | o => a.record o ""

/-- An option by its long name, with the value behind an equals sign if there is one. -/
def stepLong (program : Program) (a : Arguments) (name : String) (value : Option String) :
    Except Stop Arguments :=
  match Switch.ofLong? name with
  | none => .error .usage
  | some o =>
    if !o.isOf program then .error .usage
    else if o.takesValue then
      match value with
      | some v => a.give o v
      | none => .ok { a with pending := some o }
    else if value.isSome then .error .usage
    else a.flag o

/-- Options by their letters.  The first one that has a value takes the rest as its value. -/
def stepShort (program : Program) (a : Arguments) : List Char → Except Stop Arguments
  | [] => .ok a
  | c :: cs =>
    match Switch.ofShort? c with
    | none => .error .usage
    | some o =>
      if !o.isOf program then .error .usage
      else if o.takesValue then
        match cs with
        | [] => .ok { a with pending := some o }
        | '=' :: value => a.give o (String.ofList value)
        | value => a.give o (String.ofList value)
      else
        match a.flag o with
        | .ok a => stepShort program a cs
        | .error e => .error e

/-- Whether an argument is read as an option. -/
def isOption : List Char → Bool
  | '-' :: _ :: _ => true
  | _ => false

/-- An argument where no value is awaited. -/
def stepFree (program : Program) (a : Arguments) (arg : String) : Except Stop Arguments :=
  match arg.toList with
  | ['-', '-'] => .ok { a with closed := true }
  | '-' :: '-' :: cs =>
    let name := String.ofList (cs.takeWhile fun c => c ≠ '=')
    match cs.dropWhile fun c => c ≠ '=' with
    | [] => a.stepLong program name none
    | _ :: value => a.stepLong program name (some (String.ofList value))
  | '-' :: c :: cs => a.stepShort program (c :: cs)
  | _ => a.addSource arg

/-- What has been read after one more argument. -/
def step (program : Program) (a : Arguments) (arg : String) : Except Stop Arguments :=
  if a.closed then a.addSource arg
  else
    match a.pending with
    | some o => if isOption arg.toList then .error .usage else a.give o arg
    | none => a.stepFree program arg

end Arguments

/-! ### What a program has to do -/

/-- What a program has to do. -/
structure Options where
  /-- The files, of which there is at least one. -/
  sources : List String
  /-- Where the outcome goes to, if it was said. -/
  output : Option String
  /-- Whether a compilation stops at the text for the assembler. -/
  asm : Bool
  /-- Whether the outcome is printed. -/
  stdout : Bool
  optimize : Bool
  /-- The address of the image. -/
  origin : Nat
  /-- Where the map of the image goes to. -/
  map : Option String
deriving DecidableEq, Repr

namespace Options

/-- What the arguments that were read ask for. -/
def ofArguments (a : Arguments) : Except Stop Options :=
  if a.pending.isSome ∨ a.sources = [] then .error .usage
  else
    .ok {
      sources := a.sources
      output := a.given.lookup .output
      asm := (a.given.lookup .asm).isSome
      stdout := (a.given.lookup .stdout).isSome
      optimize := (a.given.lookup .noOpt).isNone
      origin := ((a.given.lookup .origin).bind parseOrigin).getD 0
      map := a.given.lookup .map }

/-- **What some arguments ask a program to do.** -/
def parse (program : Program) (args : List String) : Except Stop Options := do
  let a ← args.foldlM (Arguments.step program) .empty
  ofArguments a

end Options

end CommandLine

end StackLang
