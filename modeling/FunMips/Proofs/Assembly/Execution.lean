import FunMips.Proofs.Assembly.Emission
import FunMips.Proofs.Machine.Safety
import FunMips.Proofs.Program.Interpreter

/-!
# Execution of emitted instructions

How each kind of instruction that programs consist of goes on, as a safe run of one step. The code
of an expression stands somewhere in the code of a program (`CodeAt`), at positions that are not
the entry of a function (`Interior`).
-/

namespace FunMips

/-- The fragment stands in the code from the position on. -/
def CodeAt (code : List Instruction) (position : Nat) (fragment : List Instruction) : Prop :=
  fragment <+: code.drop position

theorem codeAt_append {code first second : List Instruction} {position : Nat} :
    CodeAt code position (first ++ second) ↔
      CodeAt code position first ∧ CodeAt code (position + first.length) second := by
  unfold CodeAt
  rw [← List.drop_drop]
  constructor
  · rintro ⟨rest, equal⟩
    rw [List.append_assoc] at equal
    rw [← equal, List.drop_left]
    exact ⟨⟨_, rfl⟩, ⟨_, rfl⟩⟩
  · rintro ⟨⟨rest, equal⟩, later⟩
    rw [← equal, List.drop_left] at later
    obtain ⟨more, rfl⟩ := later
    exact ⟨more, by rw [← equal, List.append_assoc]⟩

theorem codeAt_cons {code fragment : List Instruction} {position : Nat}
    {instruction : Instruction} :
    CodeAt code position (instruction :: fragment) ↔
      code[position]? = some instruction ∧ CodeAt code (position + 1) fragment := by
  rw [← List.singleton_append, codeAt_append, List.length_singleton]
  have first : CodeAt code position [instruction] ↔ code[position]? = some instruction := by
    unfold CodeAt
    rw [← List.head?_drop]
    cases code.drop position with
    | nil => simp
    | cons found rest => simp [eq_comm]
  rw [first]

theorem codeAt_of_eq {before fragment rest : List Instruction} :
    CodeAt (before ++ fragment ++ rest) before.length fragment := by
  unfold CodeAt
  rw [List.append_assoc, List.drop_left]
  exact ⟨rest, rfl⟩

theorem CodeAt.getElem? {code fragment : List Instruction} {position index : Nat}
    (installed : CodeAt code position fragment) (inside : index < fragment.length) :
    code[position + index]? = fragment[index]? := by
  obtain ⟨rest, equal⟩ := installed
  rw [← List.getElem?_drop, ← equal, List.getElem?_append_left inside]

/-! ## Operands -/

/-- Sizes and offsets within the largest frame are not cut off. -/
theorem toInt_wordBytes {count : Nat} (small : count ≤ maxFrameWords) :
    (wordBytes count).toInt = 4 * count := by
  unfold maxFrameWords at small
  have inner : (Int32.ofNat count).toInt = count := Int32.toInt_ofNat_of_lt (by omega)
  unfold wordBytes
  rw [Int32.toInt_mul, inner]
  have four : (4 : Int32).toInt = 4 := rfl
  rw [four]
  exact Int.bmod_eq_of_le (by omega) (by omega)

theorem toInt_neg_wordBytes {count : Nat} (small : count ≤ maxFrameWords) :
    (-wordBytes count).toInt = -(4 * count) := by
  rw [Int32.toInt_neg, toInt_wordBytes small]
  unfold maxFrameWords at small
  exact Int.bmod_eq_of_le (by omega) (by omega)

theorem toInt_slotOffset {slot : Nat} (small : slot ≤ maxFrameWords) :
    (slotOffset slot).toInt = -(4 * slot) :=
  toInt_neg_wordBytes small

theorem BinOp.result?_eq_some {op : BinOp} {a b value : Int32} (h : op.result? a b = some value) :
    Machine.fits (op.exact a b) = true ∧ value.toInt = op.exact a b := by
  unfold result? at h
  simp only at h
  split at h
  · next bounds =>
    cases h
    refine ⟨by simpa [Machine.fits] using bounds, ?_⟩
    have low : Int32.minValue.toInt = -2 ^ 31 := rfl
    have high : Int32.maxValue.toInt = 2 ^ 31 - 1 := rfl
    rw [low, high] at bounds
    exact Int32.toInt_ofInt_of_le bounds.1 (by omega)
  · cases h

theorem BinOp.result?_eq_none {op : BinOp} {a b : Int32} (h : op.result? a b = none) :
    Machine.fits (op.exact a b) = false := by
  unfold result? at h
  simp only at h
  split at h
  · cases h
  · next bounds =>
    rw [← Bool.not_eq_true]
    simpa [Machine.fits] using bounds

/-! ## Places in the code -/

/-- The position is one of the code, and not the entry of a function. -/
def Interior (program : Program) (code : List Instruction) (position : Nat) : Prop :=
  ∃ instruction, code[position]? = some instruction ∧
    ∀ function ∈ program.functions, instruction ≠ .label (entryLabel function.name)

/-- The fragment stands in the code from the position on, and no function has its entry in it or
right after it. -/
structure Placed (program : Program) (code : List Instruction) (position : Nat)
    (fragment : List Instruction) : Prop where
  installed : CodeAt code position fragment
  interior : ∀ offset, offset ≤ fragment.length → Interior program code (position + offset)

namespace Placed

variable {program : Program} {code first second : List Instruction} {position : Nat}
variable {instruction : Instruction}

theorem start (placed : Placed program code position first) : Interior program code position :=
  placed.interior 0 (Nat.zero_le _)

theorem left (placed : Placed program code position (first ++ second)) :
    Placed program code position first := by
  refine ⟨(codeAt_append.1 placed.installed).1, fun offset inside => placed.interior offset ?_⟩
  rw [List.length_append]
  omega

theorem right (placed : Placed program code position (first ++ second)) :
    Placed program code (position + first.length) second := by
  refine ⟨(codeAt_append.1 placed.installed).2, fun offset inside => ?_⟩
  rw [Nat.add_assoc]
  apply placed.interior
  rw [List.length_append]
  omega

theorem of_eq {there : Nat} (placed : Placed program code position first)
    (same : position = there) : Placed program code there first :=
  same ▸ placed

/-- The second part stands wherever the first one ends. -/
theorem next {there : Nat} (placed : Placed program code position (first ++ second))
    (ends : there = position + first.length) : Placed program code there second := by
  rw [ends]
  exact placed.right

theorem head (placed : Placed program code position (instruction :: first)) :
    code[position]? = some instruction :=
  (codeAt_cons.1 placed.installed).1

theorem tail (placed : Placed program code position (instruction :: first)) :
    Placed program code (position + 1) first := by
  have parts : Placed program code position ([instruction] ++ first) := placed
  exact parts.right

/-- Code is placed where it stands if none of its labels, nor of the instruction after it, is the
entry of a function. -/
theorem of_codeAt {last : Instruction} (installed : CodeAt code position (first ++ [last]))
    (other : ∀ function ∈ program.functions,
      Instruction.label (entryLabel function.name) ∉ first ++ [last]) :
    Placed program code position first := by
  refine ⟨(codeAt_append.1 installed).1, fun offset inside => ?_⟩
  have bound : offset < (first ++ [last]).length := by
    rw [List.length_append, List.length_singleton]
    omega
  refine ⟨(first ++ [last])[offset], ?_, fun function member equal => ?_⟩
  · rw [installed.getElem? bound, List.getElem?_eq_getElem bound]
  · exact other function member (equal ▸ List.getElem_mem bound)

end Placed

namespace Machine

namespace Moment

/-- Position of the next instruction. -/
def pc (moment : Moment) : Nat := moment.state.pc

/-- Content of a register. -/
def reg (moment : Moment) (register : Register) : Int := moment.state.registers register

/-- Content of memory. -/
def mem (moment : Moment) (address : Int) : Int := moment.state.memory address

/-- What has been printed. -/
def output (moment : Moment) : List Int := moment.state.output

/-- The next moment, with another value in a register. -/
def assign (moment : Moment) (register : Register) (value : Int) : Moment :=
  { moment with state := (moment.state.setRegister register value).advance }

/-- The next moment, with another value in memory. -/
def store (moment : Moment) (address value : Int) : Moment :=
  { moment with
    state := (moment.state.setMemory address value).advance
    stores := address :: moment.stores }

/-- The moment at another position. -/
def goto (moment : Moment) (position : Nat) : Moment :=
  { moment with state := moment.state.goto position }

/-- The moment after a value has been pushed. -/
def push (moment : Moment) (value : Int) : Moment :=
  (moment.store (moment.reg .sp) value).assign .sp (moment.reg .sp - 4)

/-- The next moment, with one more value printed. -/
def print (moment : Moment) (value : Int) : Moment :=
  { moment with
    state := { moment.state.advance with output := moment.output ++ [value] } }

/-- The moment at the entry of a function that has been called. -/
def call (moment : Moment) (position : Nat) : Moment where
  state := (moment.state.setRegister .ra (moment.pc + 1)).goto position
  returns := (moment.pc + 1) :: moment.returns
  stores := moment.stores

/-- The moment after the latest call has returned. -/
def leave (moment : Moment) (position : Nat) : Moment :=
  { moment with
    state := moment.state.goto position
    returns := moment.returns.tail }

variable (moment : Moment) (register other : Register) (address there value : Int)
variable (position : Nat)

@[simp] theorem assign_reg : (moment.assign register value).reg other =
    if other = register then value else moment.reg other := rfl
@[simp] theorem assign_pc : (moment.assign register value).pc = moment.pc + 1 := rfl
@[simp] theorem assign_output : (moment.assign register value).output = moment.output := rfl
@[simp] theorem store_reg : (moment.store address value).reg other = moment.reg other := rfl
@[simp] theorem store_mem : (moment.store address value).mem there =
    if there = address then value else moment.mem there := rfl
@[simp] theorem store_pc : (moment.store address value).pc = moment.pc + 1 := rfl
@[simp] theorem push_reg : (moment.push value).reg other =
    if other = .sp then moment.reg .sp - 4 else moment.reg other := rfl
theorem push_sp : (moment.push value).reg .sp = moment.reg .sp - 4 := rfl
@[simp] theorem push_mem : (moment.push value).mem there =
    if there = moment.reg .sp then value else moment.mem there := rfl
@[simp] theorem push_pc : (moment.push value).pc = moment.pc + 2 := rfl
@[simp] theorem push_stores :
    (moment.push value).stores = moment.reg .sp :: moment.stores := rfl
@[simp] theorem goto_pc : (moment.goto position).pc = position := rfl
@[simp] theorem print_pc : (moment.print value).pc = moment.pc + 1 := rfl
@[simp] theorem print_output : (moment.print value).output = moment.output ++ [value] := rfl
theorem call_sp : (moment.call position).reg .sp = moment.reg .sp := rfl
@[simp] theorem call_mem : (moment.call position).mem there = moment.mem there := rfl
@[simp] theorem call_stores : (moment.call position).stores = moment.stores := rfl
@[simp] theorem leave_returns : (moment.leave position).returns = moment.returns.tail := rfl

end Moment

/-! ## One step -/

section Step

variable {program : Program} {code : List Instruction} {top : Int} {moment : Moment}
variable {instruction : Instruction} {rest : List Instruction} {target source : Register}
variable {name : String}

theorem step_eq_execute (found : code[moment.state.pc]? = some instruction) :
    step code moment.state = moment.state.execute code instruction := by
  unfold step
  rw [found]

/-- An instruction that finds what it needs is a safe step, if it comes to the entry of a function
only by calling it. -/
theorem SafeRun.of_execute {next : State} (found : code[moment.state.pc]? = some instruction)
    (leads : moment.state.execute code instruction = .next next)
    (permitted : Permitted top moment instruction)
    (arrives : ∀ function ∈ program.functions,
      code[next.pc]? = some (.label (entryLabel function.name)) →
        instruction = .jal (entryLabel function.name)) :
    SafeRun program code top 1 moment (moment.record next instruction) := by
  have now : moment.after code = some (moment.record next instruction) := by
    unfold Moment.after
    rw [found, step_eq_execute found, leads]
  have state : (moment.record next instruction).state = next := by
    cases instruction <;> rfl
  refine .one ⟨(List.getElem?_eq_some_iff.1 found).1, .inr (.inr ⟨_, now⟩), ?_, ?_⟩ now
  · intro other after function member entry
    rw [now] at after
    cases after
    rw [state] at entry
    rw [found, arrives function member entry]
  · intro other found'
    cases found.symm.trans found'
    exact permitted

/-- An instruction that goes on inside a body is a safe step if it finds what it needs. -/
theorem SafeRun.execute {next : State} (found : code[moment.state.pc]? = some instruction)
    (leads : moment.state.execute code instruction = .next next)
    (permitted : Permitted top moment instruction) (inner : Interior program code next.pc) :
    SafeRun program code top 1 moment (moment.record next instruction) := by
  apply SafeRun.of_execute found leads permitted
  intro function member entry
  obtain ⟨there, found', differ⟩ := inner
  exact absurd (Option.some.inj (found'.symm.trans entry)) (differ function member)

theorem safeRun_li {value : Int32}
    (placed : Placed program code moment.pc (.li target value :: rest)) :
    SafeRun program code top 1 moment (moment.assign target value.toInt) :=
  SafeRun.execute placed.head rfl trivial placed.tail.start

theorem safeRun_lw {offset : Int32} {base : Register} {address value : Int}
    (placed : Placed program code moment.pc (.lw target offset base :: rest))
    (there : moment.reg base + offset.toInt = address) (held : moment.mem address = value)
    (stored : address ∈ moment.stores) :
    SafeRun program code top 1 moment (moment.assign target value) := by
  subst there held
  exact SafeRun.execute placed.head rfl stored placed.tail.start

theorem safeRun_sw {offset : Int32} {base : Register} {address : Int}
    (placed : Placed program code moment.pc (.sw source offset base :: rest))
    (there : moment.reg base + offset.toInt = address) (bounded : address ≤ top) :
    SafeRun program code top 1 moment (moment.store address (moment.reg source)) := by
  subst there
  exact SafeRun.execute placed.head rfl bounded placed.tail.start

theorem safeRun_addiu {value : Int32} {sum : Int}
    (placed : Placed program code moment.pc (.addiu target source value :: rest))
    (equal : moment.reg source + value.toInt = sum) :
    SafeRun program code top 1 moment (moment.assign target sum) := by
  subst equal
  exact SafeRun.execute placed.head rfl trivial placed.tail.start

theorem safeRun_push (placed : Placed program code moment.pc (pushCode source))
    (bounded : moment.reg .sp ≤ top) :
    SafeRun program code top 2 moment (moment.push (moment.reg source)) := by
  have store : SafeRun program code top 1 moment
      (moment.store (moment.reg .sp) (moment.reg source)) :=
    safeRun_sw placed (Int.add_zero _) bounded
  exact store.trans (safeRun_addiu placed.tail rfl)

theorem safeRun_move (placed : Placed program code moment.pc (.move target source :: rest)) :
    SafeRun program code top 1 moment (moment.assign target (moment.reg source)) :=
  SafeRun.execute placed.head rfl trivial placed.tail.start

/-- The first step of a function, too, goes over a label. -/
theorem safeRun_label (found : code[moment.pc]? = some (.label name))
    (inner : Interior program code (moment.pc + 1)) :
    SafeRun program code top 1 moment (moment.goto (moment.pc + 1)) :=
  SafeRun.execute found rfl trivial inner

theorem jump_eq {state : State} {position : Nat}
    (there : code.idxOf? (.label name) = some position) :
    state.jump code name = .next (state.goto position) := by
  unfold State.jump
  rw [there]

theorem safeRun_b {position : Nat} (found : code[moment.pc]? = some (.b name))
    (there : code.idxOf? (.label name) = some position)
    (inner : Interior program code position) :
    SafeRun program code top 1 moment (moment.goto position) :=
  SafeRun.execute found (jump_eq there) trivial inner

theorem safeRun_beq_equal {position : Nat} {left right : Register}
    (found : code[moment.pc]? = some (.beq left right name))
    (equal : moment.reg left = moment.reg right)
    (there : code.idxOf? (.label name) = some position)
    (inner : Interior program code position) :
    SafeRun program code top 1 moment (moment.goto position) := by
  refine SafeRun.execute found ?_ trivial inner
  exact (if_pos equal).trans (jump_eq there)

theorem safeRun_beq_unequal {left right : Register}
    (placed : Placed program code moment.pc (.beq left right name :: rest))
    (differ : moment.reg left ≠ moment.reg right) :
    SafeRun program code top 1 moment (moment.goto (moment.pc + 1)) := by
  refine SafeRun.execute placed.head ?_ trivial placed.tail.start
  exact if_neg differ

theorem safeRun_print (placed : Placed program code moment.pc (.syscall :: rest))
    (selected : moment.reg .v0 = 1) :
    SafeRun program code top 1 moment (moment.print (moment.reg .a0)) := by
  refine SafeRun.execute placed.head ?_ trivial placed.tail.start
  exact if_pos selected

/-- The sum or difference of the left operand in `$t1` and the right one in `$a0`. -/
theorem execute_instruction {op : BinOp} {a b : Int32} {state : State}
    (left : state.registers .t1 = a.toInt) (right : state.registers .a0 = b.toInt) :
    state.execute code op.instruction = state.arithmetic .a0 (op.exact a b) := by
  cases op <;> simp only [BinOp.instruction, State.execute, BinOp.exact, left, right]

theorem safeRun_operation {op : BinOp} {a b value : Int32}
    (placed : Placed program code moment.pc (op.instruction :: rest))
    (left : moment.reg .t1 = a.toInt) (right : moment.reg .a0 = b.toInt)
    (result : op.result? a b = some value) :
    SafeRun program code top 1 moment (moment.assign .a0 value.toInt) := by
  obtain ⟨fits, exact⟩ := BinOp.result?_eq_some result
  have leads : moment.state.execute code op.instruction =
      .next (moment.state.setRegister .a0 value.toInt).advance := by
    rw [execute_instruction left right, State.arithmetic, if_pos fits, exact]
  have run : SafeRun program code top 1 moment (moment.record _ op.instruction) :=
    SafeRun.execute placed.head leads (by cases op <;> trivial) placed.tail.start
  cases op <;> exact run

/-- A moment at which a run ends, without a load, a store or a return, is safe. -/
theorem safe_of_ended (found : code[moment.state.pc]? = some instruction)
    (ends : AtExit code moment.state ∨ AtOverflow code moment.state)
    (permitted : Permitted top moment instruction) : Safe program code top moment := by
  have ended : moment.after code = none := by
    apply after_eq_none
    intro next
    rcases ends with exit | overflow
    · simp [exit.2]
    · simp [overflow.2]
  refine ⟨(List.getElem?_eq_some_iff.1 found).1, ?_, ?_, ?_⟩
  · rcases ends with exit | overflow
    · exact .inl exit
    · exact .inr (.inl overflow)
  · intro next after
    rw [ended] at after
    cases after
  · intro other found'
    cases found.symm.trans found'
    exact permitted

theorem safe_operation {op : BinOp} {a b : Int32}
    (found : code[moment.pc]? = some op.instruction)
    (left : moment.reg .t1 = a.toInt) (right : moment.reg .a0 = b.toInt)
    (result : op.result? a b = none) :
    AtOverflow code moment.state ∧ Safe program code top moment := by
  have stepped : step code moment.state = .overflow := by
    rw [step_eq_execute found, execute_instruction left right, State.arithmetic,
      if_neg (by simp [BinOp.result?_eq_none result])]
  have overflow : AtOverflow code moment.state := by
    refine ⟨⟨.a0, .t1, .a0, ?_⟩, stepped⟩
    cases op with
    | plus => exact .inl found
    | minus => exact .inr found
  exact ⟨overflow, safe_of_ended found (.inr overflow) (by cases op <;> trivial)⟩

theorem safe_exit (found : code[moment.pc]? = some .syscall) (selected : moment.reg .v0 = 10) :
    AtExit code moment.state ∧ Safe program code top moment := by
  have selected : moment.state.registers .v0 = 10 := selected
  have stepped : step code moment.state = .exit := by
    rw [step_eq_execute found]
    simp only [State.execute, State.systemCall, selected]
    rfl
  have exit : AtExit code moment.state := ⟨found, stepped⟩
  exact ⟨exit, safe_of_ended found (.inl exit) trivial⟩

theorem safeRun_jal {position : Nat} (found : code[moment.pc]? = some (.jal name))
    (there : code.idxOf? (.label name) = some position) :
    SafeRun program code top 1 moment (moment.call position) := by
  apply SafeRun.of_execute found (jump_eq there) trivial
  intro function _ entry
  obtain ⟨inside, label, -⟩ := List.idxOf?_eq_some_iff.1 there
  have here : code[position]? = some (.label name) := List.getElem?_eq_some_iff.2 ⟨inside, label⟩
  cases here.symm.trans entry
  rfl

theorem safeRun_jr {position : Nat} {others : List Nat} {address : Register}
    (found : code[moment.pc]? = some (.jr address))
    (there : moment.reg address = (position : Int))
    (latest : moment.returns = position :: others) (inner : Interior program code position) :
    SafeRun program code top 1 moment (moment.leave position) := by
  have leads : moment.state.execute code (.jr address) = .next (moment.state.goto position) := by
    have there : moment.state.registers address = (position : Int) := there
    simp only [State.execute, there]
    rw [if_pos (Int.natCast_nonneg position), Int.toNat_natCast]
  exact SafeRun.execute found leads ⟨position, others, latest, there⟩ inner

end Step

end Machine

end FunMips
