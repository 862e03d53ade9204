import StackLang.Main
import StackLang.Tree.Function
import StackLang.Proofs.Machine
import StackLang.Proofs.Machine.Simulation
import StackLang.Proofs.Peephole.Rewrite
import StackLang.Proofs.Peephole.Walk
import StackLang.Proofs.Peephole.Sound
import StackLang.Proofs.Splice
import StackLang.Proofs.Peephole.Optimize
import StackLang.Proofs.Lower.Emits
import StackLang.Proofs.Lower.Regular
import StackLang.Proofs.Peephole.Program
import StackLang.Proofs.Peephole.Flags
import StackLang.Proofs.Tree.Shape
import StackLang.Proofs.Typing.Names
import StackLang.Proofs.Tree.Source
import StackLang.Proofs.Typing.Round
import StackLang.Proofs.Typing.Infer
import StackLang.Proofs.Levels
import StackLang.Proofs.Peephole.Levels
import StackLang.Proofs.Tree.Jumps
import StackLang.Proofs.Lower.Levels
import StackLang.Proofs.Discipline
import StackLang.Proofs.Assembly.Rows
import StackLang.Proofs.Assembly.Shrink
import StackLang.Proofs.Assembly.Image
import StackLang.Proofs.Machine.Reach
import StackLang.Proofs.Lower.Total
import StackLang.Proofs.Eval.Basic
import StackLang.Proofs.Eval.Frame
import StackLang.Proofs.Eval.Runs
import StackLang.Proofs.Eval.Sound
import StackLang.Proofs.Eval.Program
import StackLang.Proofs.Typing.Confined
import StackLang.Proofs.Typing.Settles
import StackLang.Proofs.Tree.Computed
import StackLang.Proofs.Typing.Twins
import StackLang.Proofs.Eval.Computed
import StackLang.Proofs.Assembly.Places
import StackLang.Proofs.Assembly.Raised
import StackLang.Proofs.Assembly.Drafts
import StackLang.Proofs.Assembly.Layout
import StackLang.Proofs.Assembly.Translation
import StackLang.Proofs.Assembly.Near
import StackLang.Proofs.Assembly.Meaning
import StackLang.Proofs.Assembly.Decode
import StackLang.Proofs.Text.Listing
import StackLang.Proofs.Text.Reading
import StackLang.Proofs.Tree.Size
import StackLang.Proofs.Typing.Calls
import StackLang.Proofs.Lower.Calls
import StackLang.Proofs.Peephole.Kept
import StackLang.Proofs.Text.Closed
import StackLang.Proofs.Text.Program
import StackLang.Proofs.Typing.Steps
import StackLang.Proofs.Typing.Consistent
import StackLang.Proofs.Tree.Identity
import StackLang.Proofs.Typing.Copies
import StackLang.Proofs.Typing.Trace
import StackLang.Proofs.Typing.Signatures
import StackLang.Proofs.Paired
import StackLang.Proofs.Tree.Alike
import StackLang.Proofs.Typing.Moved
import StackLang.Proofs.Typing.Order
import StackLang.Proofs.Lower.Moved
import StackLang.Proofs.Order
import StackLang.Proofs.Tree.Uses
import StackLang.Proofs.Tree.Resolves
import StackLang.Proofs.Tree.Thinned
import StackLang.Proofs.Typing.Checked
import StackLang.Proofs.Acceptance
import StackLang.Proofs.Tree.Words
import StackLang.Proofs.Source.Places
import StackLang.Proofs.Token.Scan
import StackLang.Proofs.Token.Partition
import StackLang.Proofs.Source.Files
import StackLang.Proofs.Assembly.Relaxed
import StackLang.Proofs.Assembly.Confluent
import StackLang.Proofs.Eval.Comparison
import StackLang.Proofs.Tree.Grouping
import StackLang.Proofs.Tree.Operators
import StackLang.Proofs.Tree.Viable
import StackLang.Proofs.Tree.Chains
import StackLang.Proofs.Peephole.Weight
import StackLang.Proofs.Peephole.Normal
import StackLang.Proofs.Tree.Folded
import StackLang.Proofs.Assembly.References
import StackLang.Proofs.Assembly.Numeral
import StackLang.Proofs.Assembly.Fields
import StackLang.Proofs.Splice.Links
import StackLang.Proofs.Control
import StackLang.Proofs.Tree.Nested
import StackLang.Proofs.Arena.Text
import StackLang.Proofs.Source.Lines
import StackLang.Proofs.Assembly.Quoting
import StackLang.Proofs.Assembly.Data
import StackLang.Proofs.Assembly.Refused
import StackLang.Proofs.Assembly.Outcome
import StackLang.Proofs.Lower.Operands
import StackLang.Proofs.Lower.InPlace
import StackLang.Proofs.Lower.Recorded
import StackLang.Proofs.Text.Assembles
import StackLang.Proofs.TypeSafety
import StackLang.Proofs.CommandLine
