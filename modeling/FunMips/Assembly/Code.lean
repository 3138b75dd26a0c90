import FunMips.Assembly
import FunMips.Assembly.Label
import FunMips.Frame

/-!
# Pieces of code

The code of an expression leaves its value in `$a0`. A left operand is stored in a slot of the
frame while the right one is evaluated; only the arguments of a call are pushed. A frame for
`n` parameters and `t` slots lies around `$fp` like this:

    4(n+1)($fp)   frame pointer of the caller
    4n($fp)       parameter n
      ...
    4($fp)        parameter 1
    0($fp)        return address
    -4($fp)       slot 1
      ...
    -4t($fp)      slot t

The statements of a program run in a frame of the same shape without parameters.
-/

namespace FunMips

open Instruction

/-- Bytes of that many words, as an operand (`words`). The count is cut to 32 bits and the product
wraps around. -/
def wordBytes (count : Nat) : Int32 := 4 * Int32.ofNat count

/-- Pushes a register (`push`). -/
def pushCode (register : Register) : List Instruction :=
  [sw register 0 .sp, addiu .sp .sp (-4)]

/-- The instruction of an operator, for a left operand in `$t1` and a right one in `$a0`. -/
def BinOp.instruction : BinOp → Instruction
  | .plus => add .a0 .t1 .a0
  | .minus => sub .a0 .t1 .a0

/-- The start of an assembly file, up to the label at which a program starts (`preamble`). -/
def preamble : List Instruction :=
  [directive ".data", directive ".text", directive (".globl " ++ mainName), label mainName]

/-- Ends the run. -/
def exitCode : List Instruction := [li .v0 10, syscall]

end FunMips
