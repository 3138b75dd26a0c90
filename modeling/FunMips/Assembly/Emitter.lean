import FunMips.Assembly.Code
import FunMips.Program.Scope

/-!
# Emitting code

Code is emitted in one walk through an expression. The walk checks every name when it meets it,
takes the labels of a conditional off a supply, and asserts of every slot that it lies in the frame.
How bytes are counted, how a refusal ends the walk and what becomes of the assertion is left to an
`Emitter`. `Emitter.plain` is the one that compiles programs: it makes nothing of the assertion.
`Emitter.asserting` stops where the assertion fails.
-/

namespace FunMips

open Instruction

/-- What the walk depends on besides the program. -/
structure Emitter (ε : Type) where
  /-- Bytes of that many words, as an operand. -/
  words : Nat → Int32
  /-- How the walk ends at a fault of the program. -/
  refused : Diagnostic → ε
  /-- Asserts that the slot is one of those that a frame has. -/
  assertSlot (slot tempSlots : Nat) : Except ε Unit

/-- How a walk that asserts ends without code. -/
inductive EmitFault
  /-- The program is refused. -/
  | refused (diagnostic : Diagnostic)
  /-- A slot lies outside of the frame. -/
  | slotOutside (slot tempSlots : Nat)
deriving Repr, DecidableEq

/-- Steps of the walk, which take labels off a supply (`LabelAllocator`). -/
abbrev Emit (ε : Type) := StateT LabelSupply (Except ε)

/-- The labels of the next conditional (`if_labels`). -/
def Emit.freshBranch {ε : Type} : Emit ε BranchLabels := fun labels => .ok labels.fresh

namespace Emitter

/-- The emitter without the assertion. -/
def plain : Emitter Diagnostic where
  words := wordBytes
  refused := id
  assertSlot _ _ := .ok ()

/-- The emitter with the assertion. -/
def asserting : Emitter EmitFault where
  words := wordBytes
  refused := .refused
  assertSlot slot tempSlots :=
    if slot ≤ tempSlots then .ok () else .error (.slotOutside slot tempSlots)

variable {ε : Type} (emitter : Emitter ε)

/-- An answer about the program, as one of the walk. -/
def answer {α : Type} (found : Except Diagnostic α) : Except ε α := found.mapError emitter.refused

/-- Offset of a slot from the frame pointer (`temp_offset`). -/
def slotOffset (slot : Nat) : Int32 := -emitter.words slot

/-- Points `$fp` at the frame, saves the return address and makes room for the slots
(`open_frame`). -/
def openFrame (frame : Frame) : List Instruction :=
  move .fp .sp :: pushCode .ra ++
    if 0 < frame.tempSlots then [addiu .sp .sp (-emitter.words frame.tempSlots)] else []

/-- Takes the whole frame off the stack and returns to the caller (`close_frame`). -/
def closeFrame (frame : Frame) : List Instruction :=
  [lw .ra 0 .fp, addiu .sp .sp (emitter.words frame.words), lw .fp 0 .sp, jr .ra]

/-- Keeps the left operand in the first free slot while the right one is evaluated, and loads it
again (`emit_parked`). The first `depth` slots are in use. -/
def parked (tempSlots depth : Nat) (left : Emit ε (List Instruction))
    (right : Nat → Emit ε (List Instruction)) : Emit ε (List Instruction) := do
  let slot := depth + 1
  emitter.assertSlot slot tempSlots
  let leftCode ← left
  let rightCode ← right slot
  return leftCode ++ sw .a0 (emitter.slotOffset slot) .fp :: rightCode ++
    [lw .t1 (emitter.slotOffset slot) .fp]

end Emitter

namespace Expr

variable {ε : Type} (emitter : Emitter ε)

mutual

/-- Emits an expression in a frame with that many slots, of which the first `depth` are in use
(`emit_expr`). -/
def emit (table : FrameTable) (scope : Scope) (tempSlots depth : Nat) :
    Expr → Emit ε (List Instruction)
  | .number value => return [li .a0 value]
  | .var name => do
    emitter.answer (scope.checkVar name)
    return [lw .a0 (emitter.words (scope.params.idxOf name + 1)) .fp]
  | .binary op left right => do
    let operands ← emitter.parked tempSlots depth (left.emit table scope tempSlots depth)
      fun slot => right.emit table scope tempSlots slot
    return operands ++ [op.instruction]
  | .conditional left right whenEqual otherwise => do
    let branch ← Emit.freshBranch
    let operands ← emitter.parked tempSlots depth (left.emit table scope tempSlots depth)
      fun slot => right.emit table scope tempSlots slot
    let otherwiseCode ← otherwise.emit table scope tempSlots depth
    let equalCode ← whenEqual.emit table scope tempSlots depth
    return operands ++ beq .a0 .t1 branch.whenEqual :: otherwiseCode ++
      b branch.done :: label branch.whenEqual :: equalCode ++ [label branch.done]
  | .call name args => do
    emitter.answer (table.checkCall name args.length)
    if name = printName then
      match args with
      | [arg] => return (← arg.emit table scope tempSlots depth) ++ [li .v0 1, syscall]
      | _ => return []
    else
      let pushed ← emitArgs table scope tempSlots depth args
      return pushCode .fp ++ pushed ++ [jal (entryLabel name)]

/-- Emits arguments and pushes them, the last one first. -/
def emitArgs (table : FrameTable) (scope : Scope) (tempSlots depth : Nat) :
    List Expr → Emit ε (List Instruction)
  | [] => return []
  | arg :: args => do
    let later ← emitArgs table scope tempSlots depth args
    let here ← arg.emit table scope tempSlots depth
    return later ++ here ++ pushCode .a0

end

end Expr

namespace Function

variable {ε : Type} (emitter : Emitter ε) (table : FrameTable)

/-- Emits a function, in the frame that is recorded for it (`emit_function`). -/
def emit (function : Function) : Emit ε (List Instruction) := do
  let frame ← emitter.answer (table.lookup function.name)
  let body ← function.body.emit emitter table (.body function) frame.tempSlots 0
  return label (entryLabel function.name) :: emitter.openFrame frame ++ body ++
    emitter.closeFrame frame

/-- Emits functions one after the other (`emit_functions`). -/
def emitAll : List Function → Emit ε (List Instruction)
  | [] => return []
  | function :: functions => do
    let here ← function.emit emitter table
    let later ← emitAll functions
    return here ++ later

end Function

/-- The code of statements, and the functions that were put off. -/
structure TopLevel where
  code : List Instruction
  pending : List Function
deriving Repr, DecidableEq

/-- Walks through declarations in order. A statement is emitted at once, a function is put off. -/
def TopLevel.emit {ε : Type} (emitter : Emitter ε) (table : FrameTable) (tempSlots : Nat) :
    List Decl → Emit ε TopLevel
  | [] => return { code := [], pending := [] }
  | .function function :: decls => do
    let later ← emit emitter table tempSlots decls
    return { later with pending := function :: later.pending }
  | .statement expr :: decls => do
    let here ← expr.emit emitter table .topLevel tempSlots 0
    let later ← emit emitter table tempSlots decls
    return { later with code := here ++ later.code }

/-- Emits a program whose frames are given: the statements, which end the run, and then the
functions that were put off (`generate`). -/
def Program.emit {ε : Type} (emitter : Emitter ε) (program : Program) (table : FrameTable) :
    Except ε Assembly := do
  let main ← emitter.answer table.main
  let (top, labels) ← TopLevel.emit emitter table main.tempSlots program.decls {}
  let (bodies, _) ← Function.emitAll emitter table top.pending labels
  return { instructions :=
    preamble ++ emitter.openFrame main ++ top.code ++ exitCode ++ bodies }

/-- The assembly of a program whose frames are given. -/
def Program.assemble (program : Program) (table : FrameTable) : Except Diagnostic Assembly :=
  program.emit .plain table

end FunMips
