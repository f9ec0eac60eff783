import FlowGraph.Command
import FlowGraph.Command.Executable
import FlowGraph.Command.Words
import FlowGraph.CommandLine
import FlowGraph.Compile
import FlowGraph.Directory
import FlowGraph.Double
import FlowGraph.Files
import FlowGraph.Graph
import FlowGraph.Graph.Edges
import FlowGraph.Graph.Verify
import FlowGraph.Instr
import FlowGraph.KeySet
import FlowGraph.Llvm.Launcher
import FlowGraph.Llvm.Lower
import FlowGraph.Llvm.Module
import FlowGraph.Llvm.Name
import FlowGraph.Llvm.Order
import FlowGraph.Llvm.Printer
import FlowGraph.Main
import FlowGraph.Op
import FlowGraph.Pass
import FlowGraph.Pass.EmptyBlocks
import FlowGraph.Pass.Reach
import FlowGraph.Pass.Unreachable
import FlowGraph.Pipeline
import FlowGraph.Session
import FlowGraph.Session.Edit
import FlowGraph.Session.Run
import FlowGraph.Settings
import FlowGraph.Settings.Decode
import FlowGraph.Text.Bytes
import FlowGraph.Text.Printable
import FlowGraph.Text.Printer
import FlowGraph.Text.Quoted
import FlowGraph.Text.Reader
import FlowGraph.Text.Token
import FlowGraph.Violation
import FlowGraph.Yaml.Cursor
import FlowGraph.Yaml.Node
import FlowGraph.Yaml.Resolve
import FlowGraph.Yaml.Scalar
import FlowGraph.Yaml.Token
import FlowGraph.Proofs.Graph
import FlowGraph.Proofs.KeySet
import FlowGraph.Proofs.KeyHistory
import FlowGraph.Proofs.WellFormed
import FlowGraph.Proofs.Edits
import FlowGraph.Proofs.Reach
import FlowGraph.Proofs.Unreachable
import FlowGraph.Proofs.Bypass
import FlowGraph.Proofs.Machine
import FlowGraph.Proofs.Meaning
import FlowGraph.Proofs.Preservation
import FlowGraph.Proofs.Passes
import FlowGraph.Proofs.NormalForm
import FlowGraph.Proofs.OneCall
import FlowGraph.Proofs.LlvmMeaning
import FlowGraph.Proofs.LoweredCode
import FlowGraph.Proofs.LoweringSimulation
import FlowGraph.Proofs.LoweringCases
import FlowGraph.Proofs.Lowering
import FlowGraph.Proofs.LoweredProgram
import FlowGraph.Proofs.LoweringSteps
import FlowGraph.Proofs.LoweredShape
import FlowGraph.Proofs.Outline
import FlowGraph.Proofs.Reading
import FlowGraph.Proofs.Registers
import FlowGraph.Proofs.Compilation
import FlowGraph.Proofs.Lexing
import FlowGraph.Proofs.Listing
import FlowGraph.Proofs.RoundTrip
import FlowGraph.Proofs.Calls
import FlowGraph.Proofs.Convergence
import FlowGraph.Proofs.Arena
import FlowGraph.Proofs.Grammar
import FlowGraph.Proofs.Acceptance
import FlowGraph.Proofs.DepthFirst
import FlowGraph.Proofs.Dominance
import FlowGraph.Proofs.Lowerable
import FlowGraph.Proofs.Trimming
import FlowGraph.Proofs.OptimizedLowering
import FlowGraph.Proofs.OptimizedText
import FlowGraph.Proofs.Check
import FlowGraph.Proofs.LoweringOrder
import FlowGraph.Proofs.BypassedLowering
import FlowGraph.Proofs.ReadFunctions
import FlowGraph.Proofs.CallLog
import FlowGraph.Proofs.GuardedRuns
import FlowGraph.Proofs.Renumbering
import FlowGraph.Proofs.UncheckedRuns
import FlowGraph.Proofs.Removal
import FlowGraph.Proofs.LinkedCalls
import FlowGraph.Proofs.Parameters
import FlowGraph.Proofs.Redirection
import FlowGraph.Proofs.JoinedTexts
import FlowGraph.Proofs.TypedLowering
