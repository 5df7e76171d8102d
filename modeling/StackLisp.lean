import StackLisp.Builtin.Arithmetic
import StackLisp.Builtin.Arity
import StackLisp.Builtin.Basic
import StackLisp.Builtin.Call
import StackLisp.Builtin.Sequence
import StackLisp.Code.Assembly
import StackLisp.Code.Cursor
import StackLisp.Code.Instruction
import StackLisp.Code.Listing
import StackLisp.Compiler.Builder
import StackLisp.Compiler.Form
import StackLisp.Compiler.Shape
import StackLisp.Decimal.Literal
import StackLisp.Decimal.Shortest
import StackLisp.Environment
import StackLisp.Error
import StackLisp.Files
import StackLisp.Globals
import StackLisp.Interpreter
import StackLisp.Machine.CallFrame
import StackLisp.Machine.Engine
import StackLisp.Machine.Load
import StackLisp.Machine.Stack
import StackLisp.Machine.Step
import StackLisp.Main
import StackLisp.Prelude
import StackLisp.Shell.CommandLine
import StackLisp.Shell.LineBuffer
import StackLisp.Shell.Repl
import StackLisp.Shell.TypedLine
import StackLisp.Store
import StackLisp.Symbol
import StackLisp.Text.Balance
import StackLisp.Text.Datum
import StackLisp.Text.Grapheme
import StackLisp.Text.GraphemeTable
import StackLisp.Text.Span
import StackLisp.Text.Token
import StackLisp.Text.Whitespace
import StackLisp.Value.Basic
import StackLisp.Value.Expect
import StackLisp.Value.Number
import StackLisp.Value.Printer
import StackLisp.Proofs.Block
import StackLisp.Proofs.Ready
import StackLisp.Proofs.Computation
import StackLisp.Proofs.Roundtrip
import StackLisp.Proofs.Emission
import StackLisp.Proofs.Verified
import StackLisp.Proofs.Proper
import StackLisp.Proofs.Blind
import StackLisp.Proofs.Reference
import StackLisp.Proofs.Safe
import StackLisp.Proofs.Agreement
import StackLisp.Proofs.Builtins
import StackLisp.Proofs.Compiling
import StackLisp.Proofs.Loading
import StackLisp.Proofs.Frames
import StackLisp.Proofs.Transitions
import StackLisp.Proofs.Coherence
import StackLisp.Proofs.Sessions
import StackLisp.Proofs.Capture
import StackLisp.Proofs.Evaluation
import StackLisp.Proofs.Pursuit
import StackLisp.Proofs.Simulation
import StackLisp.Proofs.Refinement
import StackLisp.Proofs.Lockstep
import StackLisp.Proofs.Reached
import StackLisp.Proofs.Windows
import StackLisp.Proofs.Chains
import StackLisp.Proofs.Grammar
import StackLisp.Proofs.Scanning
import StackLisp.Proofs.Numerals
import StackLisp.Proofs.Printing
import StackLisp.Proofs.Balanced
import StackLisp.Proofs.LineByLine
import StackLisp.Proofs.Concatenation
import StackLisp.Proofs.Progress
import StackLisp.Proofs.Lexemes
import StackLisp.Proofs.Language
import StackLisp.Proofs.Demands
import StackLisp.Proofs.Acceptance
import StackLisp.Proofs.Alike
import StackLisp.Proofs.Expanding
import StackLisp.Proofs.Passes
import StackLisp.Proofs.Expansion
import StackLisp.Proofs.Constants
import StackLisp.Proofs.Completion
import StackLisp.Proofs.Linking
import StackLisp.Proofs.NearestBinding
import StackLisp.Proofs.SymbolIdentity
import StackLisp.Proofs.Reassembly
import StackLisp.Proofs.Cursors
import StackLisp.Proofs.Nesting
import StackLisp.Proofs.Expressions
import StackLisp.Proofs.Traversals
import StackLisp.Proofs.BindingMacros
