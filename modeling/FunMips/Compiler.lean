import FunMips.Assembly.Emitter
import FunMips.Program.Parser

/-!
# The compiler

Source text is read as tokens, the tokens as a program; the frames of the program are sized, and
then its code is emitted.
-/

namespace FunMips

/-- The assembly of a source (`compile`). The whole source is read as tokens before the parser
starts, so a bad character wins over an error of grammar in front of it. -/
def compile (source : Text) : Except Stop Assembly := do
  let tokens ← tokenize source
  let program ← parseTokens source tokens
  let table ← Stop.ofDiagnostic (FrameTable.ofProgram program)
  Stop.ofDiagnostic (program.assemble table)

/-- The assembly file of a source (`generate_assembly`). -/
def compileText (source : Text) : Except Stop String := do
  let assembly ← compile source
  return assembly.text

end FunMips
