import FunMips.Text
import FunMips.Location
import FunMips.Diagnostic
import FunMips.Token
import FunMips.Token.Lexeme
import FunMips.Token.Reader
import FunMips.Token.Scan
import FunMips.Token.Lexer
import FunMips.Token.Cursor
import FunMips.Program
import FunMips.Program.Parser
import FunMips.Frame
import FunMips.Instruction
import FunMips.Assembly
import FunMips.Assembly.Label
import FunMips.Assembly.Code
import FunMips.Program.Scope
import FunMips.Assembly.Emitter
import FunMips.Compiler
import FunMips.Event
import FunMips.CommandLine
import FunMips.Main
import FunMips.Program.Spelling
import FunMips.Program.Evaluation
import FunMips.Machine
import FunMips.Assembly.Decoder
import FunMips.Proofs.Except
import FunMips.Proofs.Program.Hoisting
import FunMips.Proofs.Frame.Declarations
import FunMips.Proofs.Frame.Validity
import FunMips.Proofs.Program.Interpreter
import FunMips.Proofs.Program.Scoping
import FunMips.Proofs.Assembly.Execution
import FunMips.Proofs.Assembly.Labels
import FunMips.Proofs.Assembly.Simulation
import FunMips.Proofs.Assembly.Bodies
import FunMips.Proofs.Assembly.Layout
import FunMips.Proofs.Compiler.Correctness
import FunMips.Proofs.Token.Stream
import FunMips.Proofs.Token.Walk
import FunMips.Proofs.Program.Reading
import FunMips.Proofs.Program.Parsing
import FunMips.Proofs.Program.Grammar
import FunMips.Proofs.Program.Prediction
import FunMips.Proofs.Program.Violations
import FunMips.Proofs.Assembly.Branches
import FunMips.Proofs.Assembly.Slots
import FunMips.Proofs.Assembly.Displacements
import FunMips.Proofs.Assembly.Sites
import FunMips.Proofs.Token.Lexemes
import FunMips.Proofs.Token.Comparison
import FunMips.Proofs.Token.Metering
import FunMips.Proofs.Program.Agreement
import FunMips.Proofs.Program.Concatenation
import FunMips.Proofs.Program.Printing
import FunMips.Proofs.Text
import FunMips.Proofs.Location
import FunMips.Proofs.Token.Bytes
import FunMips.Proofs.Token.Decomposition
import FunMips.Proofs.Token.Faults
import FunMips.Proofs.Token.Calls
import FunMips.Proofs.Token.Scanning
import FunMips.Proofs.Compiler.Refusals
import FunMips.Proofs.Compiler.Spacing
import FunMips.Proofs.Assembly.Decoding
import FunMips.Proofs.Compiler.Legibility
import FunMips.Proofs.Compiler.Nesting
import FunMips.Proofs.Compiler.Convention
import FunMips.Proofs.Compiler.Safety
import FunMips.Proofs.Compiler.Renaming
import FunMips.Proofs.Program.Ending
import FunMips.Proofs.Assembly.Emission
