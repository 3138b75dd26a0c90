import FunMips.Diagnostic
import FunMips.Program

/-!
# Frames

Before code is emitted, the size of every frame is fixed. A frame holds the arguments of a
call, the frame pointer of the caller, the return address, and one slot for each intermediate
value that has to be kept while another one is computed.
-/

namespace FunMips

namespace Expr

mutual

/-- Slots for intermediate values that are in use at once while an expression is evaluated: a
left operand is kept while the right one is evaluated. Arguments need none, since each is
pushed before the next one is evaluated (`temps`). -/
def temps : Expr → Nat
  | .number _ | .var _ => 0
  | .binary _ left right => max left.temps (right.temps + 1)
  | .conditional left right whenEqual otherwise =>
    max (max (max left.temps (right.temps + 1)) whenEqual.temps) otherwise.temps
  | .call _ args => maxTemps args

/-- The largest number of slots any of the expressions uses. -/
def maxTemps : List Expr → Nat
  | [] => 0
  | expr :: exprs => max expr.temps (maxTemps exprs)

end

end Expr

/-- Name of the frame the statements of a program run in (`MAIN_FRAME`). -/
def mainName : String := "main"

/-- Words of the largest frame whose bytes a signed 16-bit operand can count
(`MAX_FRAME_WORDS`). -/
def maxFrameWords : Nat := 8191

/-- The layout of one frame (`Frame`). -/
structure Frame where
  name : String
  params : Nat
  tempSlots : Nat
deriving Repr, DecidableEq

namespace Frame

/-- Words a call takes off the stack: arguments, intermediate values, frame pointer and return
address (`words`). -/
def words (frame : Frame) : Nat := frame.params + frame.tempSlots + 2

/-- The frame, if it is not too large (`check_size`). -/
def checked (frame : Frame) : Except Diagnostic Frame :=
  if frame.words ≤ maxFrameWords then .ok frame
  else .error (.frameTooLarge frame.name frame.words)

/-- The frame of a function. -/
def ofFunction (function : Function) : Frame :=
  { name := function.name, params := function.params.length, tempSlots := function.body.temps }

/-- The frame of the statements of a program, which share its slots. -/
def ofStatements (statements : List Expr) : Frame :=
  { name := mainName, params := 0, tempSlots := Expr.maxTemps statements }

end Frame

/-- The first name that stands a second time in a list. -/
def firstRepeated? (seen : List String) : List String → Option String
  | [] => none
  | name :: names => if name ∈ seen then some name else firstRepeated? (name :: seen) names

/-- The frames of a program: one for its statements, one for each function (`FrameTable`). -/
structure FrameTable where
  main? : Option Frame := none
  functions : List Frame := []
deriving Repr, DecidableEq

namespace FrameTable

/-- The frame of the statements (`program`). -/
def main (table : FrameTable) : Except Diagnostic Frame :=
  match table.main? with
  | some frame => .ok frame
  | none => .error (.frameNotFound mainName)

/-- The frame of a function, if it is recorded (`get`). -/
def get? (table : FrameTable) (name : String) : Option Frame :=
  table.functions.find? (·.name == name)

/-- The frame of a function, which has to be recorded (`lookup`). -/
def lookup (table : FrameTable) (name : String) : Except Diagnostic Frame :=
  match table.get? name with
  | some frame => .ok frame
  | none => .error (.frameNotFound name)

/-- Number of recorded functions (`len`). -/
def size (table : FrameTable) : Nat := table.functions.length

/-- No function is recorded (`is_empty`). -/
def isEmpty (table : FrameTable) : Bool := table.functions.isEmpty

/-- Records a function (`declare`). Its name must be free and its parameters distinct, and its
frame must not be too large. -/
def declare (table : FrameTable) (function : Function) : Except Diagnostic FrameTable :=
  if function.name = printName then .error (.reservedName function.name)
  else if (table.get? function.name).isSome then .error (.duplicateFunction function.name)
  else
    match firstRepeated? [] function.params with
    | some name => .error (.duplicateParameter function.name name)
    | none => do
      let frame ← (Frame.ofFunction function).checked
      return { table with functions := table.functions ++ [frame] }

/-- What a walk through declarations has found: the frames of the functions so far, and the slots
that the statements so far share. -/
structure Survey where
  table : FrameTable := {}
  topSlots : Nat := 0
deriving Repr, DecidableEq

/-- Takes in the next declaration, one round of the loop of `analyze`: a function is recorded, a
statement may need more slots. -/
def Survey.add (survey : Survey) : Decl → Except Diagnostic Survey
  | .function function => do
    let table ← survey.table.declare function
    return { survey with table }
  | .statement expr => return { survey with topSlots := max survey.topSlots expr.temps }

/-- Walks through the declarations of a program in order, then records the frame of its
statements (`analyze`). -/
def ofProgram (program : Program) : Except Diagnostic FrameTable := do
  let survey ← program.decls.foldlM Survey.add {}
  let main ← Frame.checked { name := mainName, params := 0, tempSlots := survey.topSlots }
  return { survey.table with main? := some main }

end FrameTable

end FunMips
