/-
**The map of an image.**

The map says in JSON where the lines and the labels of the text are in the image.

Main definitions:

* `Image.map` — the text of the map.
-/

import StackLang.Assembly.Assembler

set_option relaxedAutoImplicit false
set_option autoImplicit false

namespace StackLang

namespace Assembly

/-- A field of the map whose value is an object of numbers. -/
def mapField (name : String) (entries : List (String × Nat)) : String :=
  let entry := fun (e : String × Nat) => "    \"" ++ e.1 ++ "\": " ++ toString e.2
  match entries with
  | [] => "  \"" ++ name ++ "\": \x7b\x7d"
  | entries => "  \"" ++ name ++ "\": \x7b\n" ++ ",\n".intercalate (entries.map entry) ++ "\n  \x7d"

namespace Image

/-- **The map of an image.** The names of labels hold no character that JSON would write in another
way. -/
def map (i : Image) : String :=
  "\x7b\n  \"origin\": " ++ toString i.origin ++ ",\n"
    ++ mapField "line_mapping" (i.lines.map fun (address, line) => (toString address, line))
    ++ ",\n"
    ++ mapField "labels" i.labels ++ "\n\x7d"

end Image

end Assembly

end StackLang
