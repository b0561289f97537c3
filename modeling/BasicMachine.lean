import BasicMachine.Assembly.Item
import BasicMachine.Assembly.Layout
import BasicMachine.Assembly.Line
import BasicMachine.Assembly.Piece
import BasicMachine.CommandLine.Directory
import BasicMachine.CommandLine.Front
import BasicMachine.CommandLine.Path
import BasicMachine.Error
import BasicMachine.Instruction.Basic
import BasicMachine.Instruction.Opcode
import BasicMachine.Language.Builtin
import BasicMachine.Language.Command
import BasicMachine.Language.Compile
import BasicMachine.Language.Context
import BasicMachine.Language.Expr
import BasicMachine.Language.Line
import BasicMachine.Language.Parser.Expression
import BasicMachine.Language.Parser.Statement
import BasicMachine.Language.Scope
import BasicMachine.Language.Source
import BasicMachine.Language.Step
import BasicMachine.Language.Token
import BasicMachine.Machine.Action
import BasicMachine.Machine.Basic
import BasicMachine.Machine.Execute
import BasicMachine.Machine.Host
import BasicMachine.Machine.Random
import BasicMachine.Machine.Raster
import BasicMachine.Machine.Run
import BasicMachine.Machine.Scripted
import BasicMachine.Machine.Serve
import BasicMachine.Machine.Snapshot
import BasicMachine.Machine.Stack
import BasicMachine.Main
import BasicMachine.Program.Basic
import BasicMachine.Program.Checksum
import BasicMachine.Program.Image
import BasicMachine.Program.Listing
import BasicMachine.Proofs.Access
import BasicMachine.Proofs.Assembling
import BasicMachine.Proofs.Bookkeeping
import BasicMachine.Proofs.Budgets
import BasicMachine.Proofs.Bursts
import BasicMachine.Proofs.CallingConvention
import BasicMachine.Proofs.Calls
import BasicMachine.Proofs.ClosedPrograms
import BasicMachine.Proofs.Closure
import BasicMachine.Proofs.Commands
import BasicMachine.Proofs.Conduct
import BasicMachine.Proofs.Confinement
import BasicMachine.Proofs.Course
import BasicMachine.Proofs.Decimals
import BasicMachine.Proofs.Decoders
import BasicMachine.Proofs.Decoding
import BasicMachine.Proofs.Definitions
import BasicMachine.Proofs.Disassembly
import BasicMachine.Proofs.Courses
import BasicMachine.Proofs.Evaluation
import BasicMachine.Proofs.Execution
import BasicMachine.Proofs.Expressions
import BasicMachine.Proofs.FramePointers
import BasicMachine.Proofs.Functions
import BasicMachine.Proofs.Grammar
import BasicMachine.Proofs.Heap
import BasicMachine.Proofs.Images
import BasicMachine.Proofs.Labels
import BasicMachine.Proofs.Ledger
import BasicMachine.Proofs.Levels
import BasicMachine.Proofs.LineInput
import BasicMachine.Proofs.Meaning
import BasicMachine.Proofs.Movement
import BasicMachine.Proofs.Names
import BasicMachine.Proofs.Sites
import BasicMachine.Proofs.Occurrences
import BasicMachine.Proofs.Operands
import BasicMachine.Proofs.PackedValues
import BasicMachine.Proofs.Parsing
import BasicMachine.Proofs.Passage
import BasicMachine.Proofs.Placement
import BasicMachine.Proofs.Pointers
import BasicMachine.Proofs.Pratt
import BasicMachine.Proofs.Reachability
import BasicMachine.Proofs.References
import BasicMachine.Proofs.Renewal
import BasicMachine.Proofs.Rereading
import BasicMachine.Proofs.Simulation
import BasicMachine.Proofs.Singles
import BasicMachine.Proofs.Slices
import BasicMachine.Proofs.SourceNumbers
import BasicMachine.Proofs.Spelling
import BasicMachine.Proofs.StackDiscipline
import BasicMachine.Proofs.StackEffect
import BasicMachine.Proofs.StaticLayout
import BasicMachine.Proofs.StoredText
import BasicMachine.Proofs.TokenTexts
import BasicMachine.Proofs.Underway
import BasicMachine.Proofs.Upkeep
import BasicMachine.Proofs.Utf8
import BasicMachine.Proofs.Wording
import BasicMachine.Proofs.Workings
import BasicMachine.Single.Parts
import BasicMachine.Single.Read
import BasicMachine.Single.Shortest
import BasicMachine.Single.Text
import BasicMachine.Text.Numeral
import BasicMachine.Text.Quoted
import BasicMachine.Text.Space
import BasicMachine.Text.Utf8
import BasicMachine.Text.Visible
import BasicMachine.Value.Arithmetic
import BasicMachine.Value.Basic
import BasicMachine.Value.Comparison
import BasicMachine.Value.Word
import BasicMachine.Proofs.DataStatements
import BasicMachine.Proofs.Floors
import BasicMachine.Proofs.InitialMemory
import BasicMachine.Proofs.ElementAddresses
import BasicMachine.Proofs.EntryBlock
import BasicMachine.Proofs.StraightLines
import BasicMachine.Proofs.Nesting
import BasicMachine.Proofs.Journeys
import BasicMachine.Proofs.ForLoops
import BasicMachine.Proofs.Patching
import BasicMachine.Proofs.Relations
import BasicMachine.Proofs.ErrorLines
import BasicMachine.Proofs.Progress
