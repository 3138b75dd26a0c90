import FunMips.Proofs.Assembly.Sites
import FunMips.Proofs.Compiler.Correctness
import FunMips.Proofs.Frame.Validity

/-!
# What the code of an expression may rely on and what it leaves alone

The code of an expression asks for little: the frame pointer at a frame that holds the parameters,
and the stack pointer below its slots (`Activation`). From every such state, wherever in the code of
the program the expression stands, the code runs to its end with the value in `$a0` and leaves all
of the stack as it was but for the slots it uses itself (`Computed`). Calls are among the
expressions, so this is also what a caller gets back from a function
(`Program.expressions_compute`).
-/

namespace FunMips

namespace Machine

/-! ## Output -/

/-- The state after more has been printed in the beginning. -/
def State.prepend (before : List Int) (state : State) : State :=
  { state with output := before ++ state.output }

/-- The outcome after more has been printed in the beginning. -/
def Outcome.prepend (before : List Int) : Outcome → Outcome
  | .next state => .next (state.prepend before)
  | .exit => .exit
  | .overflow => .overflow
  | .stuck => .stuck

variable {code : List Instruction} {before : List Int}

theorem State.arithmetic_prepend (state : State) (target : Register) (result : Int) :
    (state.prepend before).arithmetic target result =
      (state.arithmetic target result).prepend before := by
  unfold arithmetic
  split <;> rfl

theorem State.jump_prepend (state : State) (label : String) :
    (state.prepend before).jump code label = (state.jump code label).prepend before := by
  unfold jump
  split <;> rfl

theorem State.systemCall_prepend (state : State) :
    (state.prepend before).systemCall = state.systemCall.prepend before := by
  unfold systemCall
  rw [apply_ite (Outcome.prepend before), apply_ite (Outcome.prepend before)]
  -- only what is printed comes after the rest
  have printed : (state.prepend before).output ++ [state.registers .a0] =
      before ++ (state.output ++ [state.registers .a0]) := List.append_assoc _ _ _
  refine if_congr Iff.rfl ?_ rfl
  exact congrArg (fun output => Outcome.next { state.advance with output }) printed

/-- What has been printed does not matter for what an instruction does. -/
theorem State.execute_prepend (state : State) (instruction : Instruction) :
    (state.prepend before).execute code instruction =
      (state.execute code instruction).prepend before := by
  cases instruction with
  | add target left right => exact state.arithmetic_prepend _ _
  | sub target left right => exact state.arithmetic_prepend _ _
  | b destination => exact state.jump_prepend _
  | beq left right destination =>
    unfold execute
    rw [apply_ite (Outcome.prepend before), ← state.jump_prepend]
    rfl
  | jal destination => exact (state.setRegister .ra _).jump_prepend _
  | jr address =>
    unfold execute
    rw [apply_ite (Outcome.prepend before)]
    rfl
  | syscall => exact state.systemCall_prepend
  | _ => rfl

theorem step_prepend (state : State) :
    step code (state.prepend before) = (step code state).prepend before := by
  have same : (state.prepend before).pc = state.pc := rfl
  unfold step
  rw [same]
  cases code[state.pc]? with
  | none => rfl
  | some instruction => exact state.execute_prepend instruction

theorem Reaches.prepend {first last : State} (reaches : Reaches code first last)
    (before : List Int) : Reaches code (first.prepend before) (last.prepend before) := by
  induction reaches with
  | refl state => exact .refl _
  | step now later ih => exact .step ((step_prepend _).trans (congrArg _ now)) ih

end Machine

open Machine

/-! ## Frames -/

/-- The frame pointer is at a frame that holds the values of the parameters, and the stack pointer
is below its slots. -/
structure Activation (slots : Nat) (values : List Int32) (state : State) : Prop where
  params : ∀ (index : Nat) value, values[index]? = some value →
    state.memory (state.registers .fp + 4 * (index + 1)) = value.toInt
  room : state.registers .sp ≤ state.registers .fp - 4 - 4 * slots

/-- Code that uses the slots after `depth`, `temps` of them, has run to its end. -/
structure Computed (depth temps length : Nat) (value : Int32) (out : List Int32)
    (first last : State) : Prop where
  pc : last.pc = first.pc + length
  a0 : last.registers .a0 = value.toInt
  sp : last.registers .sp = first.registers .sp
  fp : last.registers .fp = first.registers .fp
  output : last.output = first.output ++ out.map Int32.toInt
  memory : ∀ address, first.registers .sp < address →
    (∀ slot : Nat, depth < slot → slot ≤ depth + temps →
      address ≠ first.registers .fp - 4 * slot) → last.memory address = first.memory address
  /-- Operands that wait in the slots before are still there. -/
  parked : ∀ slot : Nat, 1 ≤ slot → slot ≤ depth →
    last.memory (first.registers .fp - 4 * slot) = first.memory (first.registers .fp - 4 * slot)
  /-- So are the return address, the parameters and the frame pointer of the caller. -/
  record : ∀ index : Nat,
    last.memory (first.registers .fp + 4 * index) = first.memory (first.registers .fp + 4 * index)

/-- The moment of a state in a frame: nothing is known to have been stored but the parameters. -/
def Activation.moment (values : List Int32) (state : State) : Moment where
  state := { state with output := [] }
  stores := (List.range values.length).map fun index : Nat =>
    state.registers .fp + 4 * (index + 1)

theorem Activation.inFrame {slots : Nat} {values : List Int32} {state : State}
    (activation : Activation slots values state) :
    InFrame (state.registers .fp) slots values (Activation.moment values state) where
  room := by
    have room := activation.room
    change state.registers .sp + 4 * slots + 4 ≤ state.registers .fp
    omega
  bounded := Int.le_refl _
  arguments index value found := by
    obtain ⟨inside, -⟩ := List.getElem?_eq_some_iff.1 found
    exact ⟨activation.params index value found,
      List.mem_map.2 ⟨index, List.mem_range.2 inside, rfl⟩⟩

theorem Activation.computed {slots depth temps length : Nat} {values : List Int32} {state : State}
    {value : Int32} {out : List Int32} {last : Moment} (activation : Activation slots values state)
    (room : depth + temps ≤ slots)
    (evaluated : Evaluated depth temps length (Activation.moment values state) value out last) :
    Computed depth temps length value out state (last.state.prepend state.output) := by
  have below := activation.room
  have memory : ∀ address, state.registers .sp < address →
      (∀ slot : Nat, depth < slot → slot ≤ depth + temps →
        address ≠ state.registers .fp - 4 * slot) →
      last.state.memory address = state.memory address := evaluated.memory
  refine ⟨evaluated.pc, evaluated.a0, evaluated.sp, evaluated.fp, ?_, memory, ?_, ?_⟩
  · exact congrArg (state.output ++ ·) evaluated.output
  · intro slot low high
    refine memory _ (by omega) fun other above _ => by omega
  · intro index
    refine memory _ (by omega) fun slot above _ => by omega

section Sites

variable {program : Program} {code : List Instruction} {params : List String} {slots : Nat}
variable {values : List Int32} {state : State} {value : Int32} {out : List Int32} {site : Site}

/-- From a state in a frame, the code at a site computes the value of its expression. -/
theorem Site.Fits.exists_computed (fits : site.Fits program code params slots)
    (installed : program.Installed code) (arity : params.length = values.length)
    (small : params.length + slots + 2 ≤ maxFrameWords) (here : state.pc = site.position)
    (activation : Activation slots values state)
    (evaluates : Evaluates program (params.zip values) site.expr value out) :
    ∃ last, Reaches code state last ∧
      Computed site.depth site.expr.temps (site.code params).length value out state last := by
  obtain ⟨fuel, result⟩ := evaluates.exists_fuel
  have setting : Setting program code (state.registers .fp) fuel params values slots :=
    installed.setting (installed.callsFollow fuel) arity small
  have placed : Placed program code (Activation.moment values state).pc (site.code params) :=
    fits.placed.of_eq here.symm
  have follows := Expr.simulated setting site.expr fits.names site.labels site.depth []
    (Activation.moment values state) placed fits.room activation.inFrame rfl
  rw [result fuel (Nat.le_refl _)] at follows
  obtain ⟨count, last, run, evaluated⟩ := follows
  -- the run is that of a state that has printed nothing; what the state has printed is put in front
  refine ⟨last.state.prepend state.output, ?_, activation.computed fits.room evaluated⟩
  have start : (Activation.moment values state).state.prepend state.output = state :=
    congrArg (fun output => { state with output }) (List.append_nil state.output)
  have reaches := (reaches_of_run run.reached).prepend state.output
  rwa [start] at reaches

end Sites

/-- The frame that is recorded for the expressions in a scope. -/
def FrameTable.ofScope (table : FrameTable) : Scope → Except Diagnostic Frame
  | .topLevel => table.main
  | .body function => table.lookup function.name

namespace Program

variable {program : Program}

/-- The frame of every scope of a program is recorded, and not too large. -/
theorem Declarable.frameOf_recorded (declarable : program.Declarable) {scope : Scope} {node : Expr}
    (visited : (scope, node) ∈ program.visits) :
    program.frames.ofScope scope = .ok (program.frameOf scope) ∧
      scope.params.length + (program.frameOf scope).tempSlots + 2 ≤ maxFrameWords := by
  rcases mem_visits.1 visited with ⟨rfl, -⟩ | ⟨function, member, rfl, -⟩
  · exact ⟨rfl, declarable.main⟩
  · refine ⟨?_, (declarable.functions function member).words⟩
    exact FrameTable.lookup_eq_ok_iff.2
      (declarable.get?_frames_eq_some_iff.2 ⟨function, member, rfl, rfl⟩)

/-- Every node of a program has its site in the code, within the slots of its frame. From any state
at the site in a frame of the body, with the stack pointer at or below the end of the frame, the
code of a node that has a value runs to its end: it prints what the node prints and leaves the value
in `$a0`, both pointers as they were, and all memory above the stack pointer but for the slots after
those in use, as many as the node needs. -/
theorem expressions_compute {table : FrameTable} {assembly : Assembly}
    (sized : FrameTable.ofProgram program = .ok table)
    (assembled : program.assemble table = .ok assembly) :
    program.sites.map (fun entry => (entry.1, entry.2.expr)) = program.visits ∧
    ∀ scope site, (scope, site) ∈ program.sites →
      CodeAt assembly.instructions site.position (site.code scope.params) ∧
      ∃ frame, table.ofScope scope = .ok frame ∧
        site.depth + site.expr.temps ≤ frame.tempSlots ∧
        ∀ values state value out, scope.params.length = values.length →
          state.pc = site.position → Activation frame.tempSlots values state →
          Evaluates program (scope.params.zip values) site.expr value out →
          ∃ last, Reaches assembly.instructions state last ∧
            Computed site.depth site.expr.temps (site.code scope.params).length value out
              state last := by
  obtain ⟨declarable, rfl⟩ := FrameTable.ofProgram_eq_ok_iff.1 sized
  obtain ⟨names, rfl⟩ := (assemble_frames_eq_ok_iff declarable).1 assembled
  have listed := map_sites names
  refine ⟨listed, fun scope site member => ?_⟩
  have fits := fits_sites names member
  have visited : (scope, site.expr) ∈ program.visits :=
    listed ▸ List.mem_map.2 ⟨(scope, site), member, rfl⟩
  obtain ⟨recorded, small⟩ := declarable.frameOf_recorded visited
  refine ⟨fits.placed.installed, program.frameOf scope, recorded, fits.room, ?_⟩
  intro values state value out arity here activation evaluates
  exact fits.exists_computed (program.installed declarable names) arity small here activation
    evaluates

/-- A state in the body of `down` for the number 2, which waits in the first slot while the function
is called for the next number. -/
def waitingState : State where
  pc := 29
  registers register := if register = .fp then 100 else 80
  memory address := if address = 104 ∨ address = 96 then 2 else 0
  output := [2]

theorem expressions_compute_countdown :
    FrameTable.ofProgram countdown = .ok countdown.frames ∧
      countdown.assemble countdown.frames = .ok countdown.assembly ∧
      ∃ scope site, (scope, site) ∈ countdown.sites ∧ site.depth = 1 ∧
        site.expr = .call "down" [.binary .minus (.var "n") (.number 1)] ∧
        Activation 2 [2] waitingState ∧ Evaluates countdown [("n", 2)] site.expr 1 [1] ∧
        ∃ last, Reaches countdown.assembly.instructions waitingState last ∧ last.pc = 39 ∧
          last.registers .a0 = 1 ∧ last.registers .sp = 80 ∧ last.registers .fp = 100 ∧
          last.output = [2, 1] ∧ last.memory 96 = 2 := by
  have sized : FrameTable.ofProgram countdown = .ok countdown.frames := rfl
  have assembled : countdown.assemble countdown.frames = .ok countdown.assembly := rfl
  have listed : countdown.sites[8]? = some _ := rfl
  have activation : Activation 2 [2] waitingState := by
    refine ⟨fun index value found => ?_, by decide⟩
    obtain ⟨inside, rfl⟩ := List.getElem?_eq_some_iff.1 found
    obtain rfl : index = 0 := by simpa using inside
    rfl
  have result : (Expr.call "down" [.binary .minus (.var "n") (.number 1)]).evalWith countdown
      (countdown.calls 3) [("n", 2)] [] = .value 1 [1] := rfl
  obtain ⟨out, printed, evaluates⟩ :=
    Expr.evaluates_of_evalWith (countdown.sound_calls 3) _ result
  obtain rfl : [1] = out := printed
  have member := List.mem_of_getElem? listed
  obtain ⟨-, frame, recorded, -, computes⟩ := (expressions_compute sized assembled).2 _ _ member
  cases recorded
  obtain ⟨last, reaches, computed⟩ := computes [2] waitingState 1 [1] rfl rfl activation evaluates
  exact ⟨sized, assembled, _, _, member, rfl, rfl, activation, evaluates, last, reaches,
    computed.pc, computed.a0, computed.sp, computed.fp, computed.output,
    computed.parked 1 (Nat.le_refl 1) (Nat.le_refl 1)⟩

end Program

end FunMips
