import HackVM.Assembly.Instruction
import HackVM.Assembly.Mnemonic
import HackVM.Command.Basic
import HackVM.Command.Opcode
import HackVM.Command.Source
import HackVM.Command.Step
import HackVM.CommandLine.Arguments
import HackVM.CommandLine.Transcript
import HackVM.CommandLine.Usage
import HackVM.CommandLine.Value
import HackVM.Compile.Access
import HackVM.Compile.Arithmetic
import HackVM.Compile.Emission
import HackVM.Compile.Flow
import HackVM.Compile.Label
import HackVM.Compile.Program
import HackVM.Compile.Stack
import HackVM.Compile.State
import HackVM.Diagnostic
import HackVM.Event
import HackVM.Location
import HackVM.Machine.Basic
import HackVM.Machine.Ram
import HackVM.Machine.Trial
import HackVM.Main
import HackVM.Project.Build
import HackVM.Project.FileSystem
import HackVM.Project.FileTree
import HackVM.Project.Path
import HackVM.Project.Settings
import HackVM.Proofs.AssemblyErrors
import HackVM.Proofs.Blocks
import HackVM.Proofs.Budgets
import HackVM.Proofs.Calls
import HackVM.Proofs.Comments
import HackVM.Proofs.Comparisons
import HackVM.Proofs.Cutting
import HackVM.Proofs.Destinations
import HackVM.Proofs.Execution
import HackVM.Proofs.FrameLaw
import HackVM.Proofs.Frames
import HackVM.Proofs.FreshLabels
import HackVM.Proofs.Fusion
import HackVM.Proofs.FusionCost
import HackVM.Proofs.Grammar
import HackVM.Proofs.Halting
import HackVM.Proofs.Jumps
import HackVM.Proofs.Layout
import HackVM.Proofs.Legibility
import HackVM.Proofs.Lines
import HackVM.Proofs.Linking
import HackVM.Proofs.Listing
import HackVM.Proofs.Lookahead
import HackVM.Proofs.Lowering
import HackVM.Proofs.Meaning
import HackVM.Proofs.Memory
import HackVM.Proofs.Moves
import HackVM.Proofs.Pairs
import HackVM.Proofs.Pieces
import HackVM.Proofs.Readability
import HackVM.Proofs.Reading
import HackVM.Proofs.Rejection
import HackVM.Proofs.RoundTrip
import HackVM.Proofs.Scanning
import HackVM.Proofs.Simulation
import HackVM.Proofs.SourceLines
import HackVM.Proofs.StaticCells
import HackVM.Proofs.Stepping
import HackVM.Proofs.Steps
import HackVM.Proofs.Symbols
import HackVM.Proofs.Wording
import HackVM.Rom.Assemble
import HackVM.Rom.Op
import HackVM.Rom.Statement
import HackVM.Segment.Basic
import HackVM.Segment.Operand
import HackVM.Segment.Statics
import HackVM.Sweep
import HackVM.Text.Blank
import HackVM.Text.Json
import HackVM.Text.Line
import HackVM.Text.Numeral
import HackVM.Word
