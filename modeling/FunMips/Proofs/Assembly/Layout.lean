import FunMips.Proofs.Assembly.Bodies

/-!
# Where the parts of a program stand

The code of a program starts with its statements and the end of the run, and every function has
its code after that. So whole programs follow the interpreter, from the label they start at to the
end of the run (`Program.follows`).
-/

namespace FunMips

open Machine

/-- The code of each function is a part of the code of all of them. -/
theorem Function.exists_allCode_eq {functions : List Function} {function : Function}
    (member : function ∈ functions) (labels : LabelSupply) :
    ∃ before after supply,
      allCode labels (functions.map fun function => (function, Frame.ofFunction function)) =
        before ++ function.code supply (Frame.ofFunction function) ++ after := by
  induction functions generalizing labels with
  | nil => cases member
  | cons first functions ih =>
    simp only [List.map_cons, allCode]
    rcases List.mem_cons.1 member with rfl | later
    · exact ⟨[], _, labels, rfl⟩
    · obtain ⟨before, after, supply, equal⟩ := ih later (labels.skip first.body.conditionals)
      refine ⟨first.code labels (Frame.ofFunction first) ++ before, after, supply, ?_⟩
      rw [equal]
      simp only [List.append_assoc]

theorem Function.code_eq (function : Function) (labels : LabelSupply) :
    function.code labels (Frame.ofFunction function) =
      .label (entryLabel function.name) :: ((Frame.ofFunction function).openCode ++
        function.body.code function.params labels 0 ++ (Frame.ofFunction function).restoreCode ++
          [.jr .ra]) := by
  simp [Function.code, Frame.closeCode_eq]

/-- Where the code of a function stands, its frame is opened, its body run and its frame restored
after the entry, and then it returns. -/
theorem Function.placed_of_codeAt {program : Program} {code : List Instruction} {position : Nat}
    {function : Function} {labels : LabelSupply}
    (names : function.body.Scoped program function.params)
    (installed : CodeAt code position (function.code labels (Frame.ofFunction function))) :
    code[position]? = some (.label (entryLabel function.name)) ∧
      Placed program code (position + 1) ((Frame.ofFunction function).openCode ++
        function.body.code function.params labels 0 ++ (Frame.ofFunction function).restoreCode) ∧
      code[position + 1 + ((Frame.ofFunction function).openCode ++
        function.body.code function.params labels 0 ++
          (Frame.ofFunction function).restoreCode).length]? = some (.jr .ra) := by
  rw [Function.code_eq, codeAt_cons] at installed
  obtain ⟨isEntry, installed⟩ := installed
  have body := Expr.labelsOf_code function.params function.body labels 0 names
  refine ⟨isEntry, Placed.of_codeAt installed fun other _ => ?_, ?_⟩
  · refine entryLabel_notMem ?_ body other.name
    simp [Frame.restoreCode, labelsOf_cons, Instruction.label?]
  · exact (codeAt_cons.1 (codeAt_append.1 installed).2).1

namespace Program

variable {program : Program}

theorem installed_function (names : program.Scoped) {function : Function}
    (member : function ∈ program.functions) :
    function.Installed program program.assembly.instructions := by
  obtain ⟨before, after, labels, equal⟩ := Function.exists_allCode_eq member
    ⟨Expr.totalConditionals program.statements⟩
  obtain ⟨start, whole⟩ : ∃ start, program.assembly.instructions =
      start ++ function.code labels (Frame.ofFunction function) ++ after := by
    refine ⟨preamble ++ (Frame.ofStatements program.statements).openCode ++
      Expr.statementsCode {} program.statements ++ exitCode ++ before, ?_⟩
    simp only [assembly, Assembly.ofParts, equal, List.append_assoc]
  have installed : CodeAt program.assembly.instructions start.length
      (function.code labels (Frame.ofFunction function)) := by
    rw [whole]
    exact codeAt_of_eq
  exact ⟨start.length, labels, Function.placed_of_codeAt (names.bodies function member) installed⟩

/-- All of a program is in its code. -/
theorem installed (declarable : program.Declarable) (names : program.Scoped) :
    program.Installed program.assembly.instructions where
  declarable := declarable
  names := names
  distinct := nodup_labelsOf_assembly declarable names
  functions _ member := installed_function names member

/-- The statements in their frame, and what the last system call needs. -/
def mainCode (program : Program) : List Instruction :=
  (Frame.ofStatements program.statements).openCode ++ Expr.statementsCode {} program.statements ++
    [.li .v0 10]

/-- The statements stand after the label the program starts at, and the end of the run after
them. -/
theorem placed_mainCode (names : program.Scoped) :
    Placed program program.assembly.instructions preamble.length program.mainCode ∧
      program.assembly.instructions[preamble.length + program.mainCode.length]? =
        some .syscall := by
  have installed : CodeAt program.assembly.instructions preamble.length
      (program.mainCode ++ [.syscall]) := by
    have parts : program.assembly.instructions = preamble ++ (program.mainCode ++ [.syscall]) ++
        Function.allCode ⟨Expr.totalConditionals program.statements⟩
          (program.functions.map fun function => (function, Frame.ofFunction function)) := by
      simp [assembly, Assembly.ofParts, mainCode, exitCode]
    rw [parts]
    exact codeAt_of_eq
  have statements := Expr.labelsOf_statementsCode program.statements {} names.statements
  refine ⟨Placed.of_codeAt installed fun function _ => ?_, ?_⟩
  · refine entryLabel_notMem ?_ statements function.name
    simp [mainCode, labelsOf_cons, Instruction.label?]
  · exact (codeAt_cons.1 (codeAt_append.1 installed).2).1

end Program

/-! ## Whole runs -/

section Run

variable {program : Program} {code : List Instruction} {top : Int} {fuel : Nat}

/-- The code of statements has run to its end. -/
structure Finished (length : Nat) (first : Moment) (_ : Unit) (printed : List Int32)
    (last : Moment) : Prop where
  pc : last.pc = first.pc + length
  output : last.output = printed.map Int32.toInt

/-- Statements follow the interpreter, one after the other. -/
theorem follows_statements {slots : Nat} (setting : Setting program code top fuel [] [] slots)
    (statements : List Expr) (labels : LabelSupply) (printed : List Int32) (moment : Moment)
    (names : ∀ statement ∈ statements, statement.Scoped program [])
    (placed : Placed program code moment.pc (Expr.statementsCode labels statements))
    (room : Expr.maxTemps statements ≤ slots) (frame : InFrame top slots [] moment)
    (output : moment.output = printed.map Int32.toInt) :
    Follows program code top fuel (program.runStatements fuel statements printed) moment
      (Finished (Expr.statementsCode labels statements).length moment) := by
  induction statements generalizing labels printed moment with
  | nil => exact Follows.value ⟨rfl, output⟩
  | cons statement statements ih =>
    obtain ⟨here, later⟩ := List.forall_mem_cons.1 names
    have most : Expr.maxTemps (statement :: statements) =
      max statement.temps (Expr.maxTemps statements) := rfl
    apply (Expr.simulated setting statement here labels 0 printed moment placed.left (by omega)
      frame output).andThen
    intro value printed second evaluated
    apply Follows.extend (ih _ printed second later (placed.next evaluated.pc) (by omega)
      (frame.keeps evaluated.toKeeps (Int.le_of_eq evaluated.sp)) evaluated.output)
    intro _ printed last finished
    refine Follows.value ⟨?_, finished.output⟩
    rw [finished.pc, evaluated.pc, Expr.statementsCode, List.length_append, Nat.add_assoc]

/-- The run of a program has come to its end. -/
structure Ended (program : Program) (code : List Instruction) (top : Int) (_ : Unit)
    (printed : List Int32) (last : Moment) : Prop where
  exit : AtExit code last.state
  safe : Safe program code top last
  output : last.output = printed.map Int32.toInt

/-- A program follows the interpreter, from the label it starts at to the end of the run. -/
theorem Program.follows (declarable : program.Declarable) (names : program.Scoped) {start : State}
    (starts : StartsAt program.assembly.instructions mainName start) (fuel : Nat) :
    Follows program program.assembly.instructions (start.registers .sp) fuel (program.run fuel)
      { state := start } (Ended program program.assembly.instructions (start.registers .sp)) := by
  have installed := program.installed declarable names
  obtain ⟨placed, isExit⟩ := placed_mainCode names
  have isMain : program.assembly.instructions[3]? = some (.label mainName) := rfl
  obtain ⟨pc, registers, memory, output⟩ := start
  obtain ⟨atMain, silent⟩ := starts
  obtain rfl : pc = 3 :=
    Option.some.inj (atMain.symm.trans (idxOf?_label installed.distinct isMain))
  obtain rfl : output = [] := silent
  generalize here : Moment.mk ⟨3, registers, memory, []⟩ [] [] = first
  have firstPc : first.pc = 3 := by rw [← here]; rfl
  have firstSp : first.reg .sp = registers .sp := by rw [← here]; rfl
  have firstOutput : first.output = [] := by rw [← here]; rfl
  apply Follows.after (safeRun_label (by rw [firstPc]; exact isMain)
    (by rw [firstPc]; exact placed.start))
  have atOpen : Placed program program.assembly.instructions (first.goto (first.pc + 1)).pc
      (Frame.ofStatements program.statements).openCode := by
    rw [Moment.goto_pc, firstPc]
    exact placed.left.left
  have low : (first.goto (first.pc + 1)).reg .sp ≤ registers .sp := Int.le_of_eq firstSp
  obtain ⟨count, second, openRun, opened⟩ : ∃ count last,
      SafeRun program program.assembly.instructions (registers .sp) count
        (first.goto (first.pc + 1)) last ∧
      Opened (Expr.maxTemps program.statements)
        (Frame.ofStatements program.statements).openCode.length (first.goto (first.pc + 1)) last :=
    exists_opened atOpen low declarable.main
  apply Follows.after openRun
  have secondPc : second.pc =
      preamble.length + (Frame.ofStatements program.statements).openCode.length := by
    rw [opened.pc, Moment.goto_pc, firstPc]
    rfl
  have frame : InFrame (registers .sp) (Expr.maxTemps program.statements) [] second :=
    opened.inFrame low fun _ _ found => by cases found
  have setting : Setting program program.assembly.instructions (registers .sp) fuel [] []
      (Expr.maxTemps program.statements) :=
    installed.setting (installed.callsFollow fuel) rfl declarable.main
  apply Follows.extend (follows_statements setting program.statements {} [] second
    names.statements (by rw [secondPc]; exact placed.left.right) (Nat.le_refl _) frame
    (opened.output.trans firstOutput))
  intro _ printed third finished
  have atLast := placed.right
  rw [List.length_append, ← Nat.add_assoc, ← secondPc, ← finished.pc] at atLast
  refine Follows.after (safeRun_li atLast) (Follows.value ?_)
  have last : program.assembly.instructions[(third.assign .v0 (10 : Int32).toInt).pc]? =
      some .syscall := by
    rw [← isExit, Moment.assign_pc, finished.pc, secondPc, mainCode, List.length_append,
      List.length_append, Nat.add_assoc, Nat.add_assoc, Nat.add_assoc]
    rfl
  obtain ⟨exit, safe⟩ := safe_exit last rfl
  exact ⟨exit, safe, finished.output⟩

end Run

end FunMips
