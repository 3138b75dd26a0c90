/-!
# Instructions

The MIPS instructions that compiled programs consist of, with the labels and directives of an
assembly file among them, and how each is written.
-/

namespace FunMips

/-- Registers of the machine (`Reg`). -/
inductive Register
  /-- Holds the value of the last expression. -/
  | a0
  /-- Holds the left operand of an operation. -/
  | t1
  /-- Points at the first free word of the stack. -/
  | sp
  /-- Points at the return address in the current frame. -/
  | fp
  /-- Holds the return address of the last call. -/
  | ra
  /-- Selects a system call. -/
  | v0
deriving Repr, DecidableEq

/-- How a register is written. -/
def Register.text : Register → String
  | .a0 => "$a0"
  | .t1 => "$t1"
  | .sp => "$sp"
  | .fp => "$fp"
  | .ra => "$ra"
  | .v0 => "$v0"

/-- Instructions, labels and directives. -/
inductive Instruction
  | directive (text : String)
  | label (name : String)
  | li (target : Register) (value : Int32)
  | sw (source : Register) (offset : Int32) (base : Register)
  | lw (target : Register) (offset : Int32) (base : Register)
  | add (target left right : Register)
  | sub (target left right : Register)
  | addiu (target source : Register) (value : Int32)
  | move (target source : Register)
  | b (destination : String)
  | beq (left right : Register) (destination : String)
  | jal (destination : String)
  | jr (address : Register)
  | syscall
deriving Repr, DecidableEq

namespace Instruction

/-- An immediate operand in decimal. -/
def decimal (value : Int32) : String := toString value.toInt

/-- A memory operand. -/
def memory (offset : Int32) (base : Register) : String :=
  decimal offset ++ "(" ++ base.text ++ ")"

/-- How an instruction is written, its indentation apart. -/
def text : Instruction → String
  | directive text => text
  | label name => name ++ ":"
  | li target value => "li " ++ target.text ++ " " ++ decimal value
  | sw source offset base => "sw " ++ source.text ++ " " ++ memory offset base
  | lw target offset base => "lw " ++ target.text ++ " " ++ memory offset base
  | add target left right => "add " ++ target.text ++ " " ++ left.text ++ " " ++ right.text
  | sub target left right => "sub " ++ target.text ++ " " ++ left.text ++ " " ++ right.text
  | addiu target source value =>
    "addiu " ++ target.text ++ " " ++ source.text ++ " " ++ decimal value
  | move target source => "move " ++ target.text ++ " " ++ source.text
  | b destination => "b " ++ destination
  | beq left right destination =>
    "beq " ++ left.text ++ " " ++ right.text ++ " " ++ destination
  | jal destination => "jal " ++ destination
  | jr address => "jr " ++ address.text
  | syscall => "syscall"

/-- Directives and labels start at the margin (`is_flush_left`); everything else is indented. -/
def indentation : Instruction → String
  | directive _ | label _ => ""
  | _ => "    "

/-- The line of an assembly file that holds an instruction. -/
def line (instruction : Instruction) : String := instruction.indentation ++ instruction.text

end Instruction

end FunMips
