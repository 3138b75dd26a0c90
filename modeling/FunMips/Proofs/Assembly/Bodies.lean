import FunMips.Proofs.Assembly.Simulation

/-!
# Calls do what the interpreter does

A function opens its frame, runs its body in it and takes the frame off the stack again. In code
in which every function of a program is installed, calls therefore follow the interpreter, however
many of them may be open at once (`Program.Installed.callsFollow`).
-/

namespace FunMips

open Machine

/-- A frame has been opened: the frame pointer is where the stack pointer was, and the return
address lies there. -/
structure Opened (slots length : Nat) (first last : Moment) : Prop where
  pc : last.pc = first.pc + length
  fp : last.reg .fp = first.reg .sp
  sp : last.reg .sp = first.reg .sp - 4 - 4 * slots
  saved : last.mem (first.reg .sp) = first.reg .ra
  savedStored : first.reg .sp ∈ last.stores
  memory : ∀ address, address ≠ first.reg .sp → last.mem address = first.mem address
  stores : first.stores ⊆ last.stores
  returns : last.returns = first.returns
  output : last.output = first.output

section Frames

variable {program : Program} {code : List Instruction} {top : Int} {moment : Moment}

/-- The frame pointer is set and the return address is pushed. -/
theorem opened_push (moment : Moment) :
    Opened 0 3 moment ((moment.assign .fp (moment.reg .sp)).push
      ((moment.assign .fp (moment.reg .sp)).reg .ra)) := by
  refine ⟨rfl, rfl, (Int.sub_zero _).symm, ?_, List.mem_cons_self, fun address other => ?_,
    fun _ member => List.mem_cons_of_mem _ member, rfl, rfl⟩
  · exact if_pos rfl
  · exact if_neg other

/-- Room is made for the slots. -/
theorem Opened.makeRoom {slots : Nat} {first last : Moment} (opened : Opened 0 3 first last) :
    Opened slots 4 first (last.assign .sp (last.reg .sp - 4 * slots)) := by
  refine ⟨?_, opened.fp, ?_, opened.saved, opened.savedStored, opened.memory, opened.stores,
    opened.returns, opened.output⟩
  · rw [Moment.assign_pc, opened.pc]
  · have sp := opened.sp
    rw [Moment.assign_reg, if_pos rfl]
    omega

theorem exists_opened {frame : Frame} (placed : Placed program code moment.pc frame.openCode)
    (bounded : moment.reg .sp ≤ top) (small : frame.words ≤ maxFrameWords) :
    ∃ count last, SafeRun program code top count moment last ∧
      Opened frame.tempSlots frame.openCode.length moment last := by
  have move : SafeRun program code top 1 moment (moment.assign .fp (moment.reg .sp)) :=
    safeRun_move placed.left
  have push := move.trans (safeRun_push placed.left.tail bounded)
  by_cases some : 0 < frame.tempSlots
  · unfold Frame.openCode at placed ⊢
    rw [if_pos some] at placed ⊢
    have size : (-wordBytes frame.tempSlots).toInt = -(4 * frame.tempSlots) :=
      toInt_neg_wordBytes (by unfold Frame.words at small; omega)
    exact ⟨_, _, push.trans (safeRun_addiu placed.right (by rw [size]; rfl)),
      (opened_push moment).makeRoom⟩
  · have none : frame.tempSlots = 0 := by omega
    unfold Frame.openCode
    rw [if_neg some, none]
    exact ⟨_, _, push, opened_push moment⟩

/-- The frame that has been opened, with the arguments above it. -/
theorem Opened.inFrame {slots length : Nat} {values : List Int32} {first last : Moment}
    (opened : Opened slots length first last) (bounded : first.reg .sp ≤ top)
    (arguments : Held values (first.reg .sp) first) : InFrame top slots values last := by
  refine ⟨?_, ?_, ?_⟩
  · rw [opened.fp, opened.sp]
    omega
  · rw [opened.fp]
    exact bounded
  · rw [opened.fp]
    exact arguments.of_memory (fun address above _ => opened.memory address (by omega))
      opened.stores

/-- A frame with that many slots, of a function with that many parameters, which still holds the
return address and the frame pointer of the caller. -/
structure Closing (count slots : Nat) (back frame : Int) (moment : Moment) : Prop where
  sp : moment.reg .sp = moment.reg .fp - 4 - 4 * slots
  ra : moment.mem (moment.reg .fp) = back
  raStored : moment.reg .fp ∈ moment.stores
  saved : moment.mem (moment.reg .fp + 4 * (count + 1)) = frame
  savedStored : moment.reg .fp + 4 * (count + 1) ∈ moment.stores

/-- A body uses nothing from the return address on upwards. -/
theorem Opened.kept {slots length : Nat} {first second last : Moment}
    (opened : Opened slots length first second) (keeps : Keeps 0 slots second last)
    {address : Int} (high : first.reg .sp ≤ address) : last.mem address = second.mem address := by
  have fp := opened.fp
  have sp := opened.sp
  exact keeps.memory address (by omega) fun slot _ _ => by omega

theorem Opened.above {slots length : Nat} {first second last : Moment}
    (opened : Opened slots length first second) (keeps : Keeps 0 slots second last)
    {address : Int} (high : first.reg .sp < address) : last.mem address = first.mem address :=
  (opened.kept keeps (Int.le_of_lt high)).trans (opened.memory address (Int.ne_of_gt high))

/-- After the body, the frame that was opened can be closed. -/
theorem Opened.closing {slots length back : Nat} {values : List Int32} {others : List Nat}
    {frame : Int} {first second last : Moment} (opened : Opened slots length first second)
    (entered : Entered top values back others frame first) (keeps : Keeps 0 slots second last)
    (sp : last.reg .sp = second.reg .sp) : Closing values.length slots back frame last := by
  have fp : last.reg .fp = first.reg .sp := keeps.fp.trans opened.fp
  refine ⟨?_, ?_, ?_, ?_, ?_⟩
  · rw [fp, sp]
    exact opened.sp
  · rw [fp, opened.kept keeps (Int.le_refl _)]
    exact opened.saved.trans entered.ra
  · rw [fp]
    exact keeps.stores opened.savedStored
  · rw [fp, opened.above keeps (by omega)]
    exact entered.saved
  · rw [fp]
    exact keeps.stores (opened.stores entered.savedStored)

end Frames

/-- Everything of the code that closes a frame but the return. -/
def Frame.restoreCode (frame : Frame) : List Instruction :=
  [.lw .ra 0 .fp, .addiu .sp .sp (wordBytes frame.words), .lw .fp 0 .sp]

theorem Frame.closeCode_eq (frame : Frame) : frame.closeCode = frame.restoreCode ++ [.jr .ra] := rfl

/-- The code of the function stands somewhere in the code. -/
def Function.Installed (program : Program) (code : List Instruction) (function : Function) : Prop :=
  ∃ entry labels, code[entry]? = some (.label (entryLabel function.name)) ∧
    Placed program code (entry + 1) ((Frame.ofFunction function).openCode ++
      function.body.code function.params labels 0 ++ (Frame.ofFunction function).restoreCode) ∧
    code[entry + 1 + ((Frame.ofFunction function).openCode ++
      function.body.code function.params labels 0 ++
        (Frame.ofFunction function).restoreCode).length]? = some (.jr .ra)

/-- A program whose declarations and names are in order, with all its functions in the code. -/
structure Program.Installed (program : Program) (code : List Instruction) : Prop where
  declarable : program.Declarable
  names : program.Scoped
  distinct : (labelsOf code).Nodup
  functions : ∀ function ∈ program.functions, function.Installed program code

section Calls

variable {program : Program} {code : List Instruction} {top : Int} {fuel : Nat}

/-- The step into a function counts as one of the steps that an unfinished run takes. -/
theorem Follows.enter {α : Type} {result : Evaluation α} {first second : Moment}
    {post : α → List Int32 → Moment → Prop} (into : SafeRun program code top 1 first second)
    (later : Follows program code top fuel result second post) :
    Follows program code top (fuel + 1) result first post := by
  cases result with
  | value a printed => exact Follows.after into later
  | overflow printed => exact Follows.after into later
  | unfinished =>
    obtain ⟨count, last, run, enough⟩ := later
    exact ⟨1 + count, last, into.trans run, by omega⟩
  | stuck => exact later

/-- The setting of the body of a function. -/
theorem Program.Installed.setting (installed : program.Installed code)
    (calls : CallsFollow program code top fuel) {params : List String} {values : List Int32}
    {slots : Nat} (arity : params.length = values.length)
    (small : params.length + slots + 2 ≤ maxFrameWords) :
    Setting program code top fuel params values slots where
  distinct := installed.distinct
  entries function member := by
    obtain ⟨entry, labels, isEntry, -⟩ := installed.functions function member
    exact List.mem_of_getElem? isEntry
  calls := calls
  arity := arity
  small := small

/-- The frame is taken off the stack, with the return address and the frame pointer of the caller
back in their registers. -/
theorem safeRun_restore {function : Function} {moment : Moment} {back frame : Int}
    (placed : Placed program code moment.pc (Frame.ofFunction function).restoreCode)
    (small : (Frame.ofFunction function).words ≤ maxFrameWords)
    (closing : Closing function.params.length function.body.temps back frame moment) :
    SafeRun program code top 3 moment
      (((moment.assign .ra back).assign .sp
        (moment.reg .fp + 4 * (function.params.length + 1))).assign .fp frame) := by
  have size : (wordBytes (Frame.ofFunction function).words).toInt =
      4 * (function.params.length + function.body.temps + 2 : Nat) :=
    toInt_wordBytes small
  have popped : moment.reg .sp + (wordBytes (Frame.ofFunction function).words).toInt =
      moment.reg .fp + 4 * (function.params.length + 1) := by
    rw [closing.sp, size]
    omega
  have loadRa : SafeRun program code top 1 moment (moment.assign .ra back) :=
    safeRun_lw placed (Int.add_zero _) closing.ra closing.raStored
  have pop : SafeRun program code top 1 (moment.assign .ra back) ((moment.assign .ra back).assign
      .sp (moment.reg .fp + 4 * (function.params.length + 1))) :=
    safeRun_addiu placed.tail popped
  exact (loadRa.trans pop).trans
    (safeRun_lw placed.tail.tail (Int.add_zero _) closing.saved closing.savedStored)

/-- The first step of a function leaves everything where it was. -/
theorem Entered.goto {values : List Int32} {back : Nat} {others : List Nat} {frame : Int}
    {moment : Moment} (entered : Entered top values back others frame moment) (position : Nat) :
    Entered top values back others frame (moment.goto position) :=
  ⟨entered.bounded, entered.arguments, entered.saved, entered.savedStored, entered.ra,
    entered.returns⟩

/-- With one more call that may be open, a call runs the body with the calls there were. -/
theorem CallsFollow.succ (installed : program.Installed code)
    (calls : CallsFollow program code top fuel) : CallsFollow program code top (fuel + 1) := by
  intro function member values printed moment back others frame arity atEntry inner entered output
  obtain ⟨entry, labels, isEntry, placed, isReturn⟩ := installed.functions function member
  have here := idxOf?_label installed.distinct isEntry
  obtain rfl : entry = moment.pc := Option.some.inj (here.symm.trans atEntry)
  have small := (installed.declarable.functions function member).words
  have entered := entered.goto (moment.pc + 1)
  have bounded := entered.bounded
  have low : (moment.goto (moment.pc + 1)).reg .sp ≤ top := by omega
  apply Follows.enter (safeRun_label isEntry placed.start)
  obtain ⟨count, second, openRun, opened⟩ : ∃ count last,
      SafeRun program code top count (moment.goto (moment.pc + 1)) last ∧
        Opened function.body.temps (Frame.ofFunction function).openCode.length
          (moment.goto (moment.pc + 1)) last :=
    exists_opened placed.left.left low small
  apply Follows.after openRun
  have atBody := placed.left.next opened.pc
  apply Follows.extend (Expr.simulated (installed.setting calls arity small) function.body
    (installed.names.bodies function member) labels 0 printed second atBody
    (Nat.le_of_eq (Nat.zero_add _)) (opened.inFrame low entered.arguments)
    (opened.output.trans output))
  intro value printed third evaluated
  have thirdPc : third.pc = moment.pc + 1 + ((Frame.ofFunction function).openCode ++
      function.body.code function.params labels 0).length := by
    rw [evaluated.pc, opened.pc, Moment.goto_pc, List.length_append, Nat.add_assoc (moment.pc + 1)]
  have closing : Closing function.params.length function.body.temps back frame third := by
    rw [arity]
    exact opened.closing entered evaluated.toKeeps evaluated.sp
  apply Follows.after (safeRun_restore (placed.next thirdPc) small closing)
  have latest : third.returns = back :: others :=
    (evaluated.returns.trans opened.returns).trans entered.returns
  have isReturn : code[third.pc + 3]? = some (.jr .ra) := by
    rw [thirdPc, Nat.add_assoc (moment.pc + 1), ← isReturn, List.length_append,
      List.length_append, List.length_append]
    rfl
  refine Follows.after (safeRun_jr isReturn rfl latest inner) (Follows.value ?_)
  refine ⟨rfl, evaluated.a0, ?_, rfl, fun _ high => opened.above evaluated.toKeeps high,
    fun _ stored => evaluated.stores (opened.stores stored), ?_, evaluated.output⟩
  · have thirdFp : third.reg .fp = moment.reg .sp := evaluated.fp.trans opened.fp
    rw [← thirdFp, ← arity]
    rfl
  · rw [Moment.leave_returns]
    exact congrArg List.tail latest

/-- Calls follow the interpreter, however many of them may be open at once. -/
theorem Program.Installed.callsFollow (installed : program.Installed code) (fuel : Nat) :
    CallsFollow program code top fuel := by
  induction fuel with
  | zero =>
    intro function _ values printed moment back others frame _ _ _ _ _
    exact ⟨0, moment, .refl moment, Nat.le_refl _⟩
  | succ fuel ih => exact ih.succ installed

end Calls

end FunMips
