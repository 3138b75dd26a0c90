import FunMips.Proofs.Assembly.Labels
import FunMips.Proofs.Program.Violations

/-!
# Jumps of programs

The code of a program falls into blocks: one for its statements and one for each function, which
starts at the entry of the function (`Program.Blocks`). Branches stay in their block and go forward
(`BranchesForward`), and the entry of a function is jumped to as often as it is called
(`Program.jumpsOf_assembly`).
-/

namespace FunMips

namespace Instruction

/-- The label a branch goes to. -/
def branch? : Instruction → Option String
  | .b destination => some destination
  | .beq _ _ destination => some destination
  | _ => none

/-- The label a call jumps to. -/
def jump? : Instruction → Option String
  | .jal destination => some destination
  | _ => none

end Instruction

namespace Expr

/-- The expression compares and chooses. -/
def isConditional : Expr → Bool
  | .conditional .. => true
  | _ => false

/-- The expression calls a function of that name. -/
def isCallOf (name : String) : Expr → Bool
  | .call other _ => other == name
  | _ => false

/-- The declared function an expression calls. -/
def callee? : Expr → Option String
  | .call name _ => if name = printName then none else some name
  | _ => none

end Expr

/-- All expressions in a program, in the order of the source. -/
def Program.nodes (program : Program) : List Expr := program.decls.flatMap (·.expr.nodes)

/-- Every branch goes to a label that stands after it. -/
def BranchesForward (code : List Instruction) : Prop :=
  ∀ before instruction after, code = before ++ instruction :: after →
    ∀ target, instruction.branch? = some target → .label target ∈ after

/-- The code consists of a block that starts the program and has no function in it, and of one
block for each function in order, which starts at the entry of the function and has no other entry
in it. -/
structure Program.Blocks (program : Program) (code top : List Instruction)
    (bodies : List (List Instruction)) : Prop where
  whole : code = top ++ bodies.flatten
  start : .label mainName ∈ top
  noEntry : ∀ name, .label (entryLabel name) ∉ top
  bodies : List.Forall₂ (fun function body => ∃ rest,
    body = .label (entryLabel function.name) :: rest ∧
      ∀ name, .label (entryLabel name) ∉ rest) program.functions bodies

/-! ## Branches -/

namespace BranchesForward

variable {instruction : Instruction} {code first second : List Instruction}

theorem nil : BranchesForward [] := by
  intro before instruction after equal
  simp at equal

theorem cons (target : ∀ target, instruction.branch? = some target → .label target ∈ code)
    (later : BranchesForward code) : BranchesForward (instruction :: code) := by
  intro before other after equal
  cases before with
  | nil =>
    cases equal
    exact target
  | cons _ before =>
    cases equal
    exact later before other after rfl

/-- An instruction that is no branch. -/
theorem other (isOther : instruction.branch? = none) (later : BranchesForward code) :
    BranchesForward (instruction :: code) := by
  refine cons (fun target found => ?_) later
  cases isOther.symm.trans found

theorem append (here : BranchesForward first) (later : BranchesForward second) :
    BranchesForward (first ++ second) := by
  induction first with
  | nil => exact later
  | cons instruction code ih =>
    refine cons (fun target found => ?_) (ih fun before other after equal => ?_)
    · exact List.mem_append_left _ (here [] instruction code rfl target found)
    · exact here (instruction :: before) other after (congrArg _ equal)

end BranchesForward

theorem branchesForward_pushCode (register : Register) : BranchesForward (pushCode register) :=
  .other rfl (.other rfl .nil)

theorem Frame.branchesForward_openCode (frame : Frame) : BranchesForward frame.openCode := by
  unfold openCode
  refine .other rfl (.append (branchesForward_pushCode .ra) ?_)
  split
  · exact .other rfl .nil
  · exact .nil

theorem Frame.branchesForward_closeCode (frame : Frame) : BranchesForward frame.closeCode :=
  .other rfl (.other rfl (.other rfl (.other rfl .nil)))

theorem BinOp.branch?_instruction (op : BinOp) : op.instruction.branch? = none := by
  cases op <;> rfl

namespace Expr

mutual

/-- The branches of a conditional go to its own labels, which stand after them. -/
theorem branchesForward_code (params : List String) :
    ∀ (e : Expr) (labels : LabelSupply) (depth : Nat),
      BranchesForward (e.code params labels depth)
  | .number _, _, _ => .other rfl .nil
  | .var _, _, _ => .other rfl .nil
  | .binary op left right, labels, depth => by
    have forLeft := branchesForward_code params left labels depth
    have forRight := branchesForward_code params right (labels.skip left.conditionals) (depth + 1)
    simp only [code]
    exact .append (.append forLeft (.other rfl forRight))
      (.other rfl (.other op.branch?_instruction .nil))
  | .conditional left right whenEqual otherwise, labels, depth => by
    have forLeft := branchesForward_code params left (labels.skip 1) depth
    have forRight := branchesForward_code params right ((labels.skip 1).skip left.conditionals)
      (depth + 1)
    have forOtherwise := branchesForward_code params otherwise
      (((labels.skip 1).skip left.conditionals).skip right.conditionals) depth
    have forEqual := branchesForward_code params whenEqual
      ((((labels.skip 1).skip left.conditionals).skip right.conditionals).skip
        otherwise.conditionals) depth
    simp only [code, List.append_assoc, List.cons_append]
    refine .append forLeft (.other rfl (.append forRight (.other rfl (.cons ?_ ?_))))
    · intro target found
      cases found
      simp
    refine .append forOtherwise (.cons ?_ (.other rfl (.append forEqual (.other rfl .nil))))
    intro target found
    cases found
    simp
  | .call name args, labels, depth => by
    by_cases isPrint : name = printName
    · subst isPrint
      unfold code
      rw [if_pos rfl]
      split
      · next arg =>
        exact .append (branchesForward_code params arg labels depth) (.other rfl (.other rfl .nil))
      · exact .nil
    · rw [code_call isPrint]
      exact .append (.append (branchesForward_pushCode .fp)
        (branchesForward_argsCode params args labels depth)) (.other rfl .nil)

theorem branchesForward_argsCode (params : List String) :
    ∀ (args : List Expr) (labels : LabelSupply) (depth : Nat),
      BranchesForward (argsCode params labels depth args)
  | [], _, _ => .nil
  | arg :: args, labels, depth =>
    .append (.append (branchesForward_argsCode params args labels depth)
      (branchesForward_code params arg (labels.skip (totalConditionals args)) depth))
      (branchesForward_pushCode .a0)

end

theorem branchesForward_statementsCode (statements : List Expr) (labels : LabelSupply) :
    BranchesForward (statementsCode labels statements) := by
  induction statements generalizing labels with
  | nil => exact .nil
  | cons statement statements ih =>
    exact .append (branchesForward_code [] statement labels 0)
      (ih (labels.skip statement.conditionals))

end Expr

theorem Function.branchesForward_code (labels : LabelSupply) (function : Function)
    (frame : Frame) : BranchesForward (function.code labels frame) :=
  .other rfl (.append (.append frame.branchesForward_openCode
    (function.body.branchesForward_code function.params labels 0)) frame.branchesForward_closeCode)

/-! ## Blocks -/

/-- The code of the statements of a program, in their frame. -/
def Program.topCode (program : Program) : List Instruction :=
  preamble ++ (Frame.ofStatements program.statements).openCode ++
    Expr.statementsCode {} program.statements ++ exitCode

/-- The block is the code of the function in the frame that is recorded for it. -/
def Function.IsBlock (function : Function) (block : List Instruction) : Prop :=
  ∃ labels, block = function.code labels (Frame.ofFunction function)

/-- The code of functions is made of their blocks, one after the other. -/
theorem Function.exists_blocks (functions : List Function) (labels : LabelSupply) :
    ∃ bodies, allCode labels
        (functions.map fun function => (function, Frame.ofFunction function)) = bodies.flatten ∧
      List.Forall₂ (fun function body => function ∈ functions ∧ function.IsBlock body)
        functions bodies := by
  induction functions generalizing labels with
  | nil => exact ⟨[], rfl, .nil⟩
  | cons function functions ih =>
    obtain ⟨bodies, whole, blocks⟩ := ih (labels.skip function.body.conditionals)
    refine ⟨function.code labels (Frame.ofFunction function) :: bodies, ?_,
      .cons ⟨List.mem_cons_self, labels, rfl⟩ (blocks.imp fun other body here => ?_)⟩
    · simp only [List.map_cons, allCode, whole, List.flatten_cons]
    · exact ⟨List.mem_cons_of_mem function here.1, here.2⟩

/-- A block starts at the entry of its function and has no other entry in it. -/
theorem Function.IsBlock.exists_entry {program : Program} {function : Function}
    {block : List Instruction} (names : function.body.Scoped program function.params)
    (isBlock : function.IsBlock block) :
    ∃ rest, block = .label (entryLabel function.name) :: rest ∧
      ∀ name, .label (entryLabel name) ∉ rest := by
  obtain ⟨labels, rfl⟩ := isBlock
  exact ⟨_, rfl, entryLabel_notMem (by simp)
    (Expr.labelsOf_code function.params function.body labels 0 names)⟩

/-- The code of a program falls into blocks: that of its statements, and one for each function. -/
theorem Program.exists_function_blocks {program : Program} (names : program.Scoped) :
    ∃ bodies, program.Blocks program.assembly.instructions program.topCode bodies ∧
      List.Forall₂ (fun function body => function ∈ program.functions ∧ function.IsBlock body)
        program.functions bodies := by
  obtain ⟨bodies, whole, blocks⟩ := Function.exists_blocks program.functions
    ⟨Expr.totalConditionals program.statements⟩
  have statements := Expr.labelsOf_statementsCode program.statements {} names.statements
  refine ⟨bodies, ⟨?_, ?_, ?_, ?_⟩, blocks⟩
  · show program.topCode ++ Function.allCode _ _ = program.topCode ++ bodies.flatten
    rw [whole]
  · simp [topCode, preamble]
  · intro name member
    have found : entryLabel name ∈ labelsOf program.topCode := mem_labelsOf.2 member
    have labels : labelsOf program.topCode =
        mainName :: labelsOf (Expr.statementsCode {} program.statements) := by
      simp [topCode, preamble, exitCode, labelsOf_cons, Instruction.label?]
    rw [labels] at found
    rcases List.mem_cons.1 found with equal | inside
    · exact mainName_ne_entryLabel name equal.symm
    · exact entryLabel_notMem_branchLabels _ _ _ (statements.subset inside)
  · exact blocks.imp fun function body here => here.2.exists_entry (names.bodies function here.1)

theorem Program.branchesForward_topCode (program : Program) :
    BranchesForward program.topCode :=
  .append (.append (.append (.other rfl (.other rfl (.other rfl (.other rfl .nil))))
    (Frame.ofStatements program.statements).branchesForward_openCode)
    (Expr.branchesForward_statementsCode program.statements {})) (.other rfl (.other rfl .nil))

/-- The code of a program falls into blocks, and no branch leaves its block or goes back. -/
theorem Program.exists_blocks {program : Program} (names : program.Scoped) :
    ∃ top bodies, program.Blocks program.assembly.instructions top bodies ∧
      ∀ block ∈ top :: bodies, BranchesForward block := by
  obtain ⟨bodies, blocks, functions⟩ := exists_function_blocks names
  refine ⟨program.topCode, bodies, blocks,
    List.forall_mem_cons.2 ⟨program.branchesForward_topCode, ?_⟩⟩
  intro body member
  obtain ⟨i, found⟩ := List.get_of_mem member
  obtain ⟨-, labels, equal⟩ := functions.get (functions.length_eq.symm ▸ i.isLt) i.isLt
  rw [← found, equal]
  exact Function.branchesForward_code labels _ _

/-! ## Calls -/

/-- The labels that calls jump to, in order. -/
def jumpsOf (code : List Instruction) : List String := code.filterMap Instruction.jump?

@[simp] theorem jumpsOf_nil : jumpsOf [] = [] := rfl

@[simp] theorem jumpsOf_append (first second : List Instruction) :
    jumpsOf (first ++ second) = jumpsOf first ++ jumpsOf second :=
  List.filterMap_append

theorem jumpsOf_cons (instruction : Instruction) (code : List Instruction) :
    jumpsOf (instruction :: code) = instruction.jump?.toList ++ jumpsOf code := by
  unfold jumpsOf
  cases found : instruction.jump? with
  | none => simp [found]
  | some name => simp [found]

@[simp] theorem jumpsOf_pushCode (register : Register) : jumpsOf (pushCode register) = [] := rfl

@[simp] theorem Frame.jumpsOf_openCode (frame : Frame) : jumpsOf frame.openCode = [] := by
  unfold openCode
  split <;> rfl

@[simp] theorem Frame.jumpsOf_closeCode (frame : Frame) : jumpsOf frame.closeCode = [] := rfl

theorem BinOp.jump?_instruction (op : BinOp) : op.instruction.jump? = none := by
  cases op <;> rfl

/-- The entries of the functions that are called among the expressions. -/
def calledEntries (nodes : List Expr) : List String :=
  (nodes.filterMap Expr.callee?).map entryLabel

@[simp] theorem calledEntries_append (first second : List Expr) :
    calledEntries (first ++ second) = calledEntries first ++ calledEntries second := by
  simp [calledEntries]

theorem calledEntries_cons (node : Expr) (nodes : List Expr) :
    calledEntries (node :: nodes) =
      (node.callee?.map entryLabel).toList ++ calledEntries nodes := by
  unfold calledEntries
  cases found : node.callee? with
  | none => simp [found]
  | some name => simp [found]

section Code

variable {program : Program} {scope : List String}

namespace Expr

mutual

/-- The code of an expression jumps to the entry of each function as often as it is called. -/
theorem jumpsOf_code (params : List String) :
    ∀ (e : Expr) (labels : LabelSupply) (depth : Nat), e.Scoped program scope →
      (jumpsOf (e.code params labels depth)).Perm (calledEntries e.nodes)
  | .number _, _, _, _ => .refl _
  | .var _, _, _, _ => .refl _
  | .binary op left right, labels, depth, names => by
    have forLeft := jumpsOf_code params left labels depth names.1
    have forRight := jumpsOf_code params right (labels.skip left.conditionals) (depth + 1) names.2
    have parts : jumpsOf ((Expr.binary op left right).code params labels depth) =
        jumpsOf (left.code params labels depth) ++
          jumpsOf (right.code params (labels.skip left.conditionals) (depth + 1)) := by
      simp only [code, jumpsOf_append, jumpsOf_cons, op.jump?_instruction]
      simp [Instruction.jump?]
    rw [parts, nodes, calledEntries_cons, calledEntries_append]
    exact forLeft.append forRight
  | .conditional left right whenEqual otherwise, labels, depth, names => by
    obtain ⟨inLeft, inRight, inEqual, inOtherwise⟩ := names
    have forLeft := jumpsOf_code params left (labels.skip 1) depth inLeft
    have forRight := jumpsOf_code params right ((labels.skip 1).skip left.conditionals)
      (depth + 1) inRight
    have forOtherwise := jumpsOf_code params otherwise
      (((labels.skip 1).skip left.conditionals).skip right.conditionals) depth inOtherwise
    have forEqual := jumpsOf_code params whenEqual
      ((((labels.skip 1).skip left.conditionals).skip right.conditionals).skip
        otherwise.conditionals) depth inEqual
    simp only [code, nodes, jumpsOf_append, jumpsOf_cons, calledEntries_cons, calledEntries_append,
      Instruction.jump?, callee?, Option.map_none, Option.toList_none, List.nil_append,
      jumpsOf_nil, List.append_nil, List.append_assoc]
    exact forLeft.append (forRight.append (forOtherwise.append forEqual))
  | .call name args, labels, depth, names => by
    by_cases isPrint : name = printName
    · subst isPrint
      obtain ⟨arg, rfl⟩ : ∃ arg, args = [arg] := List.length_eq_one_iff.1 names.1
      have forArg := jumpsOf_code params arg labels depth names.2.1
      simpa [code_print, nodes, argsNodes, jumpsOf_cons, calledEntries_cons, Instruction.jump?,
        callee?] using forArg
    · have forArgs := jumpsOf_argsCode params args labels depth names.2
      rw [code_call isPrint, nodes, jumpsOf_append, jumpsOf_append, jumpsOf_pushCode,
        calledEntries_cons, callee?, if_neg isPrint]
      exact List.perm_append_comm.trans (forArgs.cons _)

theorem jumpsOf_argsCode (params : List String) :
    ∀ (args : List Expr) (labels : LabelSupply) (depth : Nat), ArgsScoped program scope args →
      (jumpsOf (argsCode params labels depth args)).Perm (calledEntries (argsNodes args))
  | [], _, _, _ => .refl _
  | arg :: args, labels, depth, names => by
    have forArg := jumpsOf_code params arg (labels.skip (totalConditionals args)) depth names.1
    have forArgs := jumpsOf_argsCode params args labels depth names.2
    simp only [argsCode, argsNodes, jumpsOf_append, jumpsOf_pushCode, calledEntries_append,
      List.append_nil]
    exact forArgs.append forArg

end

theorem jumpsOf_statementsCode (statements : List Expr) (labels : LabelSupply)
    (names : ∀ statement ∈ statements, statement.Scoped program []) :
    (jumpsOf (statementsCode labels statements)).Perm
      (calledEntries (statements.flatMap nodes)) := by
  induction statements generalizing labels with
  | nil => exact .refl _
  | cons statement statements ih =>
    obtain ⟨here, later⟩ := List.forall_mem_cons.1 names
    simp only [statementsCode, jumpsOf_append, List.flatMap_cons, calledEntries_append]
    exact (jumpsOf_code [] statement labels 0 here).append
      (ih (labels.skip statement.conditionals) later)

end Expr

theorem Function.jumpsOf_allCode (functions : List Function) (labels : LabelSupply)
    (names : ∀ function ∈ functions, function.body.Scoped program function.params) :
    (jumpsOf (allCode labels
      (functions.map fun function => (function, Frame.ofFunction function)))).Perm
      (calledEntries (functions.flatMap fun function => function.body.nodes)) := by
  induction functions generalizing labels with
  | nil => exact .refl _
  | cons function functions ih =>
    obtain ⟨here, later⟩ := List.forall_mem_cons.1 names
    have body := Expr.jumpsOf_code function.params function.body labels 0 here
    have others := ih (labels.skip function.body.conditionals) later
    simp only [List.map_cons, allCode, Function.code, jumpsOf_append, jumpsOf_cons,
      Instruction.jump?, Option.toList_none, Frame.jumpsOf_openCode, Frame.jumpsOf_closeCode,
      List.append_nil, List.nil_append, List.cons_append, List.flatMap_cons,
      calledEntries_append]
    exact body.append others

end Code

/-! ## Whole programs -/

namespace Program

variable {program : Program}

/-- The expressions of a program are those of its statements and those of its bodies. -/
theorem perm_nodes (program : Program) :
    program.nodes.Perm (program.statements.flatMap Expr.nodes ++
      program.functions.flatMap fun function => function.body.nodes) := by
  obtain ⟨decls⟩ := program
  show (decls.flatMap fun decl => decl.expr.nodes).Perm
    ((decls.filterMap Decl.statement?).flatMap Expr.nodes ++
      (decls.filterMap Decl.function?).flatMap fun function => function.body.nodes)
  induction decls with
  | nil => exact .refl _
  | cons decl decls ih =>
    cases decl with
    | statement e =>
      simp only [List.filterMap_cons, Decl.statement?, Decl.function?, List.flatMap_cons,
        List.append_assoc]
      exact ih.append_left e.nodes
    | function f =>
      simp only [List.filterMap_cons, Decl.statement?, Decl.function?, List.flatMap_cons]
      exact (ih.append_left f.body.nodes).trans (List.perm_append_comm_assoc _ _ _)

/-- The code of a program jumps to the entry of each function as often as it is called. -/
theorem jumpsOf_assembly (names : program.Scoped) :
    (jumpsOf program.assembly.instructions).Perm (calledEntries program.nodes) := by
  have statements := Expr.jumpsOf_statementsCode program.statements {} names.statements
  have functions := Function.jumpsOf_allCode program.functions
    ⟨Expr.totalConditionals program.statements⟩ names.bodies
  have parts : jumpsOf program.assembly.instructions =
      jumpsOf (Expr.statementsCode {} program.statements) ++
        jumpsOf (Function.allCode ⟨Expr.totalConditionals program.statements⟩
          (program.functions.map fun function => (function, Frame.ofFunction function))) := by
    simp [Program.assembly, Assembly.ofParts, preamble, exitCode, jumpsOf_cons, Instruction.jump?]
  have nodes := (program.perm_nodes.filterMap Expr.callee?).map entryLabel
  rw [parts]
  refine (statements.append functions).trans ?_
  rw [← calledEntries_append]
  exact nodes.symm

/-- A name other than the built-in's is jumped to as often as it is called. -/
theorem count_jal_assembly (names : program.Scoped) {name : String} (declared : name ≠ printName) :
    program.assembly.instructions.count (.jal (entryLabel name)) =
      program.nodes.countP (Expr.isCallOf name) := by
  have jumps (code : List Instruction) :
      code.count (.jal (entryLabel name)) = (jumpsOf code).count (entryLabel name) := by
    induction code with
    | nil => rfl
    | cons instruction code ih =>
      rw [List.count_cons, jumpsOf_cons, List.count_append, ih, Nat.add_comm]
      cases instruction with
      | jal destination => simp [Instruction.jump?, List.count_cons]
      | _ => simp [Instruction.jump?]
  have calls (nodes : List Expr) :
      (calledEntries nodes).count (entryLabel name) = nodes.countP (Expr.isCallOf name) := by
    induction nodes with
    | nil => rfl
    | cons node nodes ih =>
      rw [calledEntries_cons, List.count_append, ih, List.countP_cons, Nat.add_comm]
      cases node with
      | call other args =>
        by_cases same : other = name
        · simp [Expr.callee?, Expr.isCallOf, same, declared]
        · have differ : entryLabel other ≠ entryLabel name := mt entryLabel_injective same
          by_cases isPrint : other = printName
          · simp [Expr.callee?, Expr.isCallOf, isPrint, declared.symm]
          · simp [Expr.callee?, Expr.isCallOf, isPrint, same, differ]
      | _ => simp [Expr.callee?, Expr.isCallOf]
  rw [jumps, (jumpsOf_assembly names).count_eq, calls]

end Program

namespace Expr

mutual

/-- Each conditional takes one number. -/
theorem conditionals_eq_countP : ∀ e : Expr, e.conditionals = e.nodes.countP isConditional
  | .number _ => rfl
  | .var _ => rfl
  | .binary _ left right => by
    rw [conditionals, nodes, List.countP_cons, List.countP_append, conditionals_eq_countP left,
      conditionals_eq_countP right]
    rfl
  | .conditional left right whenEqual otherwise => by
    rw [conditionals, nodes, List.countP_cons, List.countP_append, List.countP_append,
      List.countP_append, conditionals_eq_countP left, conditionals_eq_countP right,
      conditionals_eq_countP whenEqual, conditionals_eq_countP otherwise, isConditional, if_pos rfl]
    omega
  | .call _ args => by
    rw [conditionals, nodes, List.countP_cons, totalConditionals_eq_countP args]
    rfl

theorem totalConditionals_eq_countP :
    ∀ args : List Expr, totalConditionals args = (argsNodes args).countP isConditional
  | [] => rfl
  | arg :: args => by
    rw [totalConditionals, argsNodes, List.countP_append, conditionals_eq_countP arg,
      totalConditionals_eq_countP args, Nat.add_comm]

end

end Expr

namespace Program

theorem conditionals_eq_countP (program : Program) :
    program.conditionals = program.nodes.countP Expr.isConditional := by
  have statements (exprs : List Expr) : Expr.totalConditionals exprs =
      (exprs.flatMap Expr.nodes).countP Expr.isConditional := by
    induction exprs with
    | nil => rfl
    | cons e exprs ih =>
      rw [Expr.totalConditionals, List.flatMap_cons, List.countP_append, ih,
        e.conditionals_eq_countP]
  have bodies (functions : List Function) : Function.bodyConditionals functions =
      (functions.flatMap fun function => function.body.nodes).countP Expr.isConditional := by
    induction functions with
    | nil => rfl
    | cons function functions ih =>
      rw [List.flatMap_cons, List.countP_append, ← ih, ← function.body.conditionals_eq_countP,
        Function.bodyConditionals, List.map_cons, List.sum_cons, Function.bodyConditionals]
  rw [program.perm_nodes.countP_eq, List.countP_append, conditionals, statements, bodies]

/-- What is called is declared. -/
theorem NamesResolve.exists_of_mem_calledEntries {program : Program}
    (names : program.NamesResolve) {entry : String} (called : entry ∈ calledEntries program.nodes) :
    ∃ function ∈ program.functions, entry = entryLabel function.name := by
  obtain ⟨name, named, rfl⟩ := List.mem_map.1 called
  obtain ⟨node, inside, isCall⟩ := List.mem_filterMap.1 named
  obtain ⟨decl, member, inside⟩ := List.mem_flatMap.1 inside
  cases node with
  | call other args =>
    by_cases isPrint : other = printName
    · simp [Expr.callee?, isPrint] at isCall
    · have same : other = name := by simpa [Expr.callee?, isPrint] using isCall
      subst same
      obtain ⟨function, found, equal, -⟩ := names.calls decl member other args isPrint inside
      exact ⟨function, found, by rw [equal]⟩
  | _ => cases isCall

/-- What the labels and jumps of a program are: no label stands twice, there is the one at which the
program starts, one for each function and two for each conditional; calls jump to the entries of
declared functions, to each as often as it is called; and branches go forward in their block. -/
theorem labels_and_jumps_of_assemble {program : Program} {table : FrameTable} {assembly : Assembly}
    (sized : FrameTable.ofProgram program = .ok table)
    (assembled : program.assemble table = .ok assembly) :
    (labelsOf assembly.instructions).Nodup ∧
    (labelsOf assembly.instructions).Perm
      ("main" :: program.functions.map (fun function => function.name ++ "_entry") ++
        (List.range (program.nodes.countP Expr.isConditional)).flatMap fun number =>
          ["true_branch_" ++ toString number, "end_if_" ++ toString number]) ∧
    (∀ target, .jal target ∈ assembly.instructions →
      ∃ function ∈ program.functions, target = function.name ++ "_entry") ∧
    (∀ name, name ≠ "print" → assembly.instructions.count (.jal (name ++ "_entry")) =
      program.nodes.countP (Expr.isCallOf name)) ∧
    ∃ top bodies, program.Blocks assembly.instructions top bodies ∧
      ∀ block ∈ top :: bodies, BranchesForward block := by
  obtain ⟨declarable, rfl⟩ := FrameTable.ofProgram_eq_ok_iff.1 sized
  obtain ⟨names, rfl⟩ := (assemble_frames_eq_ok_iff declarable).1 assembled
  refine ⟨nodup_labelsOf_assembly declarable names, ?_, ?_,
    fun name declared => count_jal_assembly names declared, exists_blocks names⟩
  · have labels := labelsOf_assembly names
    rw [program.conditionals_eq_countP, branchLabels, ← List.range_eq_range'] at labels
    exact labels
  · intro target member
    have resolve := declarable.exists_assemble_frames_eq_ok_iff.1 ⟨_, assembled⟩
    have jumped : target ∈ jumpsOf program.assembly.instructions :=
      List.mem_filterMap.2 ⟨_, member, rfl⟩
    exact resolve.exists_of_mem_calledEntries ((jumpsOf_assembly names).subset jumped)

/-- Functions whose names look like labels of other things. -/
def lookalikes : Program where
  decls :=
    [.statement (.call "main" [.conditional (.number 1) (.number 1) (.number 2) (.number 3)]),
     .function
      { name := "true_branch_0"
        params := ["n"]
        body := .binary .minus (.var "n") (.number 1) },
     .function
      { name := "main"
        params := ["n"]
        body := .conditional (.var "n") (.number 0) (.call "print" [.var "n"])
          (.call "true_branch_0" [.call "main" [.var "n"]]) }]

theorem labels_and_jumps_lookalikes :
    FrameTable.ofProgram lookalikes = .ok lookalikes.frames ∧
      lookalikes.assemble lookalikes.frames = .ok lookalikes.assembly ∧
      (labelsOf lookalikes.assembly.instructions).Nodup ∧
      lookalikes.assembly.instructions.count (.jal "main_entry") = 2 ∧
      ∃ top bodies, lookalikes.Blocks lookalikes.assembly.instructions top bodies ∧
        ∀ block ∈ top :: bodies, BranchesForward block :=
  have sized : FrameTable.ofProgram lookalikes = .ok lookalikes.frames := rfl
  have ⟨distinct, _, _, count, blocks⟩ := labels_and_jumps_of_assemble sized rfl
  ⟨sized, rfl, distinct, count "main" (by decide), blocks⟩

end Program

end FunMips
