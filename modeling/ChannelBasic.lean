import ChannelBasic.Code.Instruction
import ChannelBasic.Code.Link
import ChannelBasic.Code.Opcode
import ChannelBasic.Code.Record
import ChannelBasic.Code.Selector
import ChannelBasic.CommandLine
import ChannelBasic.Diagnostic
import ChannelBasic.Emission.Basic
import ChannelBasic.Emission.Expr
import ChannelBasic.Emission.Module
import ChannelBasic.Emission.Stmt
import ChannelBasic.Executable
import ChannelBasic.Fixed
import ChannelBasic.Image
import ChannelBasic.Location
import ChannelBasic.Machine
import ChannelBasic.Machine.Memory
import ChannelBasic.Machine.Native
import ChannelBasic.Machine.Network
import ChannelBasic.Machine.Operation
import ChannelBasic.Machine.Value
import ChannelBasic.Main
import ChannelBasic.Operator
import ChannelBasic.Program.Analysis
import ChannelBasic.Program.Basic
import ChannelBasic.Program.Binding
import ChannelBasic.Program.Checked
import ChannelBasic.Program.Checking
import ChannelBasic.Program.Coercion
import ChannelBasic.Program.Definitions
import ChannelBasic.Program.Expr
import ChannelBasic.Program.Layout
import ChannelBasic.Program.Literal
import ChannelBasic.Program.Lowering
import ChannelBasic.Program.Printer
import ChannelBasic.Program.Reach
import ChannelBasic.Program.StaticData
import ChannelBasic.Program.Stmt
import ChannelBasic.Proofs.Outcomes
import ChannelBasic.Proofs.Passes
import ChannelBasic.Proofs.Types.Shape
import ChannelBasic.Raw.Cursor
import ChannelBasic.Raw.EntryReader
import ChannelBasic.Raw.Expr
import ChannelBasic.Raw.ExprReader
import ChannelBasic.Raw.Program
import ChannelBasic.Raw.ProgramReader
import ChannelBasic.Raw.StmtReader
import ChannelBasic.Source.Directory
import ChannelBasic.Source.Line
import ChannelBasic.Source.Splice
import ChannelBasic.Text.Decimal
import ChannelBasic.Text.Lines
import ChannelBasic.Text.Utf16
import ChannelBasic.Token
import ChannelBasic.Token.Lexer
import ChannelBasic.Types.Scalar
import ChannelBasic.Types.Table
import ChannelBasic.Word
import ChannelBasic.Proofs.Emission.Code
import ChannelBasic.Proofs.Emission.Placement
import ChannelBasic.Proofs.Execution.Computation
import ChannelBasic.Proofs.Execution.Folding
import ChannelBasic.Proofs.Emission.Units
import ChannelBasic.Proofs.Machine.Safety
import ChannelBasic.Proofs.Typing.Sizes
import ChannelBasic.Proofs.Emission.Labels
import ChannelBasic.Proofs.Faultless.Basic
import ChannelBasic.Proofs.Faultless.Checking
import ChannelBasic.Proofs.Faultless.Emission
import ChannelBasic.Proofs.Faultless.Executable
import ChannelBasic.Proofs.Execution.Loading
import ChannelBasic.Proofs.Network.Schedules
import ChannelBasic.Proofs.Network.Transfer
import ChannelBasic.Proofs.Execution.Balance
import ChannelBasic.Proofs.Execution.Calls
import ChannelBasic.Proofs.Execution.Verification
import ChannelBasic.Proofs.Execution.Discipline
import ChannelBasic.Proofs.Execution.Soundness
import ChannelBasic.Proofs.Program.Constness
import ChannelBasic.Proofs.Program.Tiling
import ChannelBasic.Proofs.Execution.Interpretation
import ChannelBasic.Proofs.Execution.Refinement
import ChannelBasic.Proofs.Program.Reach
import ChannelBasic.Proofs.Program.Scopes
import ChannelBasic.Proofs.Program.Callees
import ChannelBasic.Proofs.Emission.Contents
import ChannelBasic.Proofs.Emission.Exports
import ChannelBasic.Proofs.Emission.References
import ChannelBasic.Proofs.Execution.Addresses
import ChannelBasic.Proofs.Raw.Grammar
import ChannelBasic.Proofs.Token.Words
import ChannelBasic.Proofs.Token.Display
import ChannelBasic.Proofs.Text.Numbers
import ChannelBasic.Proofs.Raw.Names
import ChannelBasic.Proofs.Program.Rewriting
import ChannelBasic.Proofs.Program.Identifiers
import ChannelBasic.Proofs.Program.Printing
import ChannelBasic.Proofs.Execution.Invocation
import ChannelBasic.Proofs.Execution.Turns
import ChannelBasic.Proofs.Program.Containment
import ChannelBasic.Proofs.Typing.Recursion
import ChannelBasic.Proofs.Typing.Calculators
import ChannelBasic.Proofs.Typing.Orderly
import ChannelBasic.Proofs.Typing.Grounding
import ChannelBasic.Proofs.Typing.Termination
import ChannelBasic.Proofs.Execution.Conversions
import ChannelBasic.Proofs.Source.Expansion
import ChannelBasic.Proofs.Program.Strings
import ChannelBasic.Proofs.Execution.Initialisation
import ChannelBasic.Proofs.Execution.Texts
import ChannelBasic.Proofs.Typing.Sums
import ChannelBasic.Proofs.Program.Sums
import ChannelBasic.Proofs.Execution.Sums
import ChannelBasic.Proofs.Machine.Arithmetic
import ChannelBasic.Proofs.Token.Accounts
import ChannelBasic.Proofs.Types.Canonical
import ChannelBasic.Proofs.Program.Ownership
import ChannelBasic.Proofs.Machine.Encoding
import ChannelBasic.Proofs.Machine.Strings
import ChannelBasic.Proofs.Fixed.Arithmetic
import ChannelBasic.Proofs.Fixed.Texts
import ChannelBasic.Proofs.Machine.Faults
import ChannelBasic.Proofs.Typing.Simplification
import ChannelBasic.Proofs.Program.Interning
import ChannelBasic.Proofs.Emission.Linking
import ChannelBasic.Proofs.Program.Refusals
import ChannelBasic.Proofs.Raw.Declarations
import ChannelBasic.Proofs.Execution.Capacities
import ChannelBasic.Proofs.Execution.Frames
