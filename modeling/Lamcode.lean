import Lamcode.Builtin.Catalog
import Lamcode.Builtin.Code
import Lamcode.Command.Arguments
import Lamcode.Command.Disk
import Lamcode.Command.Path
import Lamcode.Command.Perform
import Lamcode.Compile.Fragment
import Lamcode.Compile.Image
import Lamcode.Emit.Choice
import Lamcode.Emit.Lower
import Lamcode.Emit.Operand
import Lamcode.Failure
import Lamcode.Image
import Lamcode.Journal
import Lamcode.Link.Assembly
import Lamcode.Link.Item
import Lamcode.Link.Label
import Lamcode.Machine.Console
import Lamcode.Machine.Fault
import Lamcode.Machine.Heap
import Lamcode.Machine.Host
import Lamcode.Machine.Instruction
import Lamcode.Machine.Listing
import Lamcode.Machine.Memory
import Lamcode.Machine.Run
import Lamcode.Machine.Schedule
import Lamcode.Machine.Trace
import Lamcode.Main
import Lamcode.Report.Basic
import Lamcode.Report.Render
import Lamcode.Scope.Program
import Lamcode.Scope.Table
import Lamcode.Source.LineMap
import Lamcode.Source.Position
import Lamcode.Text.Blank
import Lamcode.Text.Json
import Lamcode.Text.Numeral
import Lamcode.Text.Printable
import Lamcode.Text.Quoted
import Lamcode.Token.Basic
import Lamcode.Token.Scan
import Lamcode.Tree.Basic
import Lamcode.Tree.Json
import Lamcode.Tree.Print
import Lamcode.Tree.Read
import Lamcode.Proofs.Emit.Computation
import Lamcode.Proofs.Code.Layout
import Lamcode.Proofs.Code.Operand
import Lamcode.Proofs.Code.Instruction
import Lamcode.Proofs.Reference.Evaluate
import Lamcode.Proofs.Code.Fragment
import Lamcode.Proofs.Scope.Scoped
import Lamcode.Proofs.Simulation.World
import Lamcode.Proofs.Simulation.Scene
import Lamcode.Proofs.Simulation.Step
import Lamcode.Proofs.Simulation.Expression
import Lamcode.Proofs.Simulation.Assignment
import Lamcode.Proofs.Simulation.Builtin
import Lamcode.Proofs.Compile.Draft
import Lamcode.Proofs.Link.Placed
import Lamcode.Proofs.Link.Sections
import Lamcode.Proofs.Simulation.Linked
import Lamcode.Proofs.Simulation.Program
import Lamcode.Proofs.Compile.Correct
import Lamcode.Proofs.Emit.Coupled
import Lamcode.Proofs.Emit.Lowering
import Lamcode.Proofs.Emit.Piece
import Lamcode.Proofs.Compile.Written
import Lamcode.Proofs.Machine.Transfer
import Lamcode.Proofs.Machine.Suspension
import Lamcode.Proofs.Machine.Isolation
import Lamcode.Proofs.Scope.Mirror
import Lamcode.Proofs.Scope.Visible
import Lamcode.Proofs.Compile.Pair
import Lamcode.Proofs.Link.Complete
import Lamcode.Proofs.Compile.Bound
import Lamcode.Proofs.Link.Variant
import Lamcode.Proofs.Compile.Seeds
import Lamcode.Proofs.Emit.Frame
import Lamcode.Proofs.Compile.Framed
import Lamcode.Proofs.Token.Spelling
import Lamcode.Proofs.Tree.Roundtrip
import Lamcode.Proofs.Link.Blocks
import Lamcode.Proofs.Tree.Inversion
import Lamcode.Proofs.Tree.Landmarks
import Lamcode.Proofs.Source.Lines
import Lamcode.Proofs.Token.Tiling
import Lamcode.Proofs.Emit.Bodies
import Lamcode.Proofs.Reference.Allocate
import Lamcode.Proofs.Compile.Functions
import Lamcode.Proofs.Simulation.Holds
import Lamcode.Proofs.Simulation.Allocate
import Lamcode.Proofs.Compile.Allocated
import Lamcode.Proofs.Text.Numeral
import Lamcode.Proofs.Text.Image
import Lamcode.Proofs.Machine.Console
import Lamcode.Proofs.Scope.Chain
import Lamcode.Proofs.Code.Patching
import Lamcode.Proofs.Machine.Faults
import Lamcode.Proofs.Code.Division
import Lamcode.Proofs.Compile.Division
import Lamcode.Proofs.Token.Order
import Lamcode.Proofs.Tree.Grammar
import Lamcode.Proofs.Tree.Margins
import Lamcode.Proofs.Tree.Chain
import Lamcode.Proofs.Machine.Decoding
import Lamcode.Proofs.Machine.Partition
import Lamcode.Proofs.Emit.Renaming
import Lamcode.Proofs.Token.Columns
import Lamcode.Proofs.Source.Names
import Lamcode.Proofs.Report.Underline
import Lamcode.Proofs.Source.Offsets
import Lamcode.Scope.Read
import Lamcode.Proofs.Source.Search
