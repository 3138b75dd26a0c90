import FunMips.Assembly
import FunMips.Text

/-!
# Reading assembly files

Reads the text of an assembly file back as instructions. A line that starts with a period is a
directive, an indented line is an instruction, and any other line is a label with a colon.
-/

namespace FunMips

/-- The register of a name. -/
def Register.ofText? : String → Option Register
  | "$a0" => some .a0
  | "$t1" => some .t1
  | "$sp" => some .sp
  | "$fp" => some .fp
  | "$ra" => some .ra
  | "$v0" => some .v0
  | _ => none

namespace Instruction

/-- The number that digits denote. -/
def digits? (text : Text) : Option Nat :=
  if text ≠ [] ∧ text.all Char.isDigit then some (Nat.ofDigitChars 10 text 0) else none

/-- An immediate operand: digits with an optional sign in front. -/
def ofDecimal? : Text → Option Int32
  | '-' :: text => (digits? text).map fun value => Int32.ofInt (-value)
  | text => (digits? text).map Int32.ofNat

/-- A memory operand: an offset and, in parentheses, a register. -/
def ofMemory? (text : Text) : Option (Int32 × Register) :=
  match Text.splitOn '(' text with
  | [offset, base] => do
    let offset ← ofDecimal? offset
    if base.getLast? = some ')' then
      return (offset, ← Register.ofText? (String.ofList base.dropLast))
    else none
  | _ => none

/-- The instruction with the given mnemonic and operands. -/
def ofWords? : List String → Option Instruction
  | ["li", target, value] => do
    return li (← Register.ofText? target) (← ofDecimal? value.toList)
  | ["sw", source, operand] => do
    let source ← Register.ofText? source
    let (offset, base) ← ofMemory? operand.toList
    return sw source offset base
  | ["lw", target, operand] => do
    let target ← Register.ofText? target
    let (offset, base) ← ofMemory? operand.toList
    return lw target offset base
  | ["add", target, left, right] => do
    return add (← Register.ofText? target) (← Register.ofText? left) (← Register.ofText? right)
  | ["sub", target, left, right] => do
    return sub (← Register.ofText? target) (← Register.ofText? left) (← Register.ofText? right)
  | ["addiu", target, source, value] => do
    return addiu (← Register.ofText? target) (← Register.ofText? source)
      (← ofDecimal? value.toList)
  | ["move", target, source] => do
    return move (← Register.ofText? target) (← Register.ofText? source)
  | ["b", destination] => some (b destination)
  | ["beq", left, right, destination] => do
    return beq (← Register.ofText? left) (← Register.ofText? right) destination
  | ["jal", destination] => some (jal destination)
  | ["jr", address] => do return jr (← Register.ofText? address)
  | ["syscall"] => some syscall
  | _ => none

/-- The instruction on a line. -/
def ofLine? (line : Text) : Option Instruction :=
  match line with
  | '.' :: _ => some (directive (String.ofList line))
  | ' ' :: ' ' :: ' ' :: ' ' :: text => ofWords? ((Text.splitOn ' ' text).map String.ofList)
  | _ =>
    if line.getLast? = some ':' then some (label (String.ofList line.dropLast))
    else none

end Instruction

/-- The instructions of an assembly file, every line of which ends in a newline. -/
def Assembly.ofText? (text : Text) : Option Assembly :=
  let lines := Text.splitOn '\n' text
  if lines.getLast? = some [] then do
    return { instructions := ← lines.dropLast.mapM Instruction.ofLine? }
  else none

end FunMips
