import FunMips.Assembly

/-!
# The machine

What instructions do. Memory has no bounds: addresses are integers, one for each word, and so are
the contents of registers. Code is addressed by position, and a label stands for the position at
which it is written. Labels and directives do nothing. Sums and differences trap when they do not
fit in a word of 32 bits.
-/

namespace FunMips

namespace Machine

/-- The state of a run. -/
structure State where
  /-- Position of the next instruction. -/
  pc : Nat
  registers : Register → Int
  memory : Int → Int
  /-- What has been printed. -/
  output : List Int

namespace State

/-- The state with another value in a register. -/
def setRegister (state : State) (register : Register) (value : Int) : State :=
  { state with registers := fun r => if r = register then value else state.registers r }

/-- The state with another value in memory. -/
def setMemory (state : State) (address value : Int) : State :=
  { state with memory := fun a => if a = address then value else state.memory a }

/-- The state at another position. -/
def goto (state : State) (pc : Nat) : State := { state with pc }

/-- The state at the next position. -/
def advance (state : State) : State := state.goto (state.pc + 1)

end State

/-- What one instruction leads to. -/
inductive Outcome
  /-- The run goes on. -/
  | next (state : State)
  /-- The run has ended by the system call for it. -/
  | exit
  /-- A sum or difference does not fit in a word. -/
  | overflow
  /-- There is no instruction, no such label or no such system call. -/
  | stuck

/-- Whether a number fits in a word. -/
def fits (value : Int) : Bool := Int32.minValue.toInt ≤ value && value ≤ Int32.maxValue.toInt

/-- Goes on with a result in a register, if it fits in a word. -/
def State.arithmetic (state : State) (target : Register) (result : Int) : Outcome :=
  if fits result then .next (state.setRegister target result).advance else .overflow

/-- Goes on at a label. -/
def State.jump (state : State) (code : List Instruction) (label : String) : Outcome :=
  match code.idxOf? (.label label) with
  | some position => .next (state.goto position)
  | none => .stuck

/-- System calls: 1 prints `$a0`, 10 ends the run. -/
def State.systemCall (state : State) : Outcome :=
  if state.registers .v0 = 1 then
    .next { state.advance with output := state.output ++ [state.registers .a0] }
  else if state.registers .v0 = 10 then .exit
  else .stuck

/-- Executes one instruction of the code. -/
def State.execute (state : State) (code : List Instruction) : Instruction → Outcome
  | .directive _ | .label _ => .next state.advance
  | .li target value => .next (state.setRegister target value.toInt).advance
  | .sw source offset base =>
    .next (state.setMemory (state.registers base + offset.toInt) (state.registers source)).advance
  | .lw target offset base =>
    .next
      (state.setRegister target (state.memory (state.registers base + offset.toInt))).advance
  | .add target left right =>
    state.arithmetic target (state.registers left + state.registers right)
  | .sub target left right =>
    state.arithmetic target (state.registers left - state.registers right)
  | .addiu target source value =>
    .next (state.setRegister target (state.registers source + value.toInt)).advance
  | .move target source => .next (state.setRegister target (state.registers source)).advance
  | .b destination => state.jump code destination
  | .beq left right destination =>
    if state.registers left = state.registers right then state.jump code destination
    else .next state.advance
  | .jal destination => (state.setRegister .ra (state.pc + 1)).jump code destination
  | .jr address =>
    if 0 ≤ state.registers address then .next (state.goto (state.registers address).toNat)
    else .stuck
  | .syscall => state.systemCall

/-- One step of a run. -/
def step (code : List Instruction) (state : State) : Outcome :=
  match code[state.pc]? with
  | some instruction => state.execute code instruction
  | none => .stuck

/-- Some number of steps leads from one state to another. -/
inductive Reaches (code : List Instruction) : State → State → Prop
  | refl (state : State) : Reaches code state state
  | step {first second last : State} (now : step code first = .next second)
      (later : Reaches code second last) : Reaches code first last

/-- A run from a state ends by the system call for it, having printed the given values. -/
def Exits (code : List Instruction) (state : State) (out : List Int) : Prop :=
  ∃ last, Reaches code state last ∧ step code last = .exit ∧ last.output = out

/-- A state at a label of the code, with nothing printed. -/
def StartsAt (code : List Instruction) (label : String) (state : State) : Prop :=
  code.idxOf? (.label label) = some state.pc ∧ state.output = []

end Machine

end FunMips
