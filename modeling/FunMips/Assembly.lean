import FunMips.Instruction

/-!
# Assembly files

An assembly file is a list of instructions, written one to a line.
-/

namespace FunMips

/-- The instructions of an assembly file, in order. -/
structure Assembly where
  instructions : List Instruction := []
deriving Repr, DecidableEq

namespace Assembly

/-- Adds an instruction at the end (`push`). -/
def push (assembly : Assembly) (instruction : Instruction) : Assembly :=
  ⟨assembly.instructions ++ [instruction]⟩

instance : Append Assembly where
  append first second := ⟨first.instructions ++ second.instructions⟩

/-- Number of instructions, labels and directives included (`len`). -/
def length (assembly : Assembly) : Nat := assembly.instructions.length

/-- There is no instruction (`is_empty`). -/
def isEmpty (assembly : Assembly) : Bool := assembly.instructions.isEmpty

/-- The lines of the file (`lines`). -/
def lines (assembly : Assembly) : List String := assembly.instructions.map Instruction.line

/-- The file: every line ends in a newline. -/
def text (assembly : Assembly) : String := String.join (assembly.lines.map (· ++ "\n"))

end Assembly

end FunMips
