import FunMips.Proofs.Program.Scoping
import Mathlib.Algebra.Ring.Nat
import Mathlib.Data.List.Nodup

/-!
# Labels of programs

The labels that stand in the code of a program are the one it starts at, one for each function,
and two for each conditional, and no label stands there twice. So a jump to a label goes to the
one place where it is written (`idxOf?_label`).
-/

namespace FunMips

/-- The name of a label. -/
def Instruction.label? : Instruction → Option String
  | .label name => some name
  | _ => none

/-- The labels of code, in order. -/
def labelsOf (code : List Instruction) : List String := code.filterMap Instruction.label?

@[simp] theorem labelsOf_nil : labelsOf [] = [] := rfl

@[simp] theorem labelsOf_append (first second : List Instruction) :
    labelsOf (first ++ second) = labelsOf first ++ labelsOf second :=
  List.filterMap_append

theorem labelsOf_cons (instruction : Instruction) (code : List Instruction) :
    labelsOf (instruction :: code) = instruction.label?.toList ++ labelsOf code := by
  unfold labelsOf
  cases found : instruction.label? with
  | none => simp [found]
  | some name => simp [found]

theorem mem_labelsOf {name : String} {code : List Instruction} :
    name ∈ labelsOf code ↔ Instruction.label name ∈ code := by
  unfold labelsOf
  rw [List.mem_filterMap]
  constructor
  · rintro ⟨instruction, member, equal⟩
    cases instruction with
    | label other => cases equal; exact member
    | _ => cases equal
  · intro member
    exact ⟨_, member, rfl⟩

/-- The labels of that many conditionals, numbered from `first` on. -/
def branchLabels (first count : Nat) : List String :=
  (List.range' first count).flatMap fun number =>
    [(BranchLabels.ofNumber number).whenEqual, (BranchLabels.ofNumber number).done]

theorem branchLabels_add (first count more : Nat) :
    branchLabels first (count + more) =
      branchLabels first count ++ branchLabels (first + count) more := by
  unfold branchLabels
  rw [← List.flatMap_append, List.range'_append_1]

theorem branchLabels_one (first : Nat) :
    branchLabels first 1 =
      [(BranchLabels.ofNumber first).whenEqual, (BranchLabels.ofNumber first).done] := rfl

/-! ## Labels of code -/

section Code

variable {program : Program} {scope : List String}

@[simp] theorem labelsOf_pushCode (register : Register) : labelsOf (pushCode register) = [] := rfl

@[simp] theorem Frame.labelsOf_openCode (frame : Frame) : labelsOf frame.openCode = [] := by
  unfold openCode
  split <;> rfl

@[simp] theorem Frame.labelsOf_closeCode (frame : Frame) : labelsOf frame.closeCode = [] := rfl

theorem BinOp.label?_instruction (op : BinOp) : op.instruction.label? = none := by
  cases op <;> rfl

/-- Labels that stand between and after others, moved to the front. -/
theorem perm_labels_first {before between : List String} {middle last : String} :
    (before ++ middle :: (between ++ [last])).Perm (middle :: last :: (before ++ between)) := by
  refine List.perm_middle.trans (List.Perm.cons middle ?_)
  rw [← List.append_assoc]
  exact List.perm_append_comm

namespace Expr

mutual

/-- The code of an expression holds the labels of its conditionals, from the first free ones on. -/
theorem labelsOf_code (params : List String) :
    ∀ (e : Expr) (labels : LabelSupply) (depth : Nat), e.Scoped program scope →
      (labelsOf (e.code params labels depth)).Perm (branchLabels labels.next e.conditionals)
  | .number _, _, _, _ => .refl _
  | .var _, _, _, _ => .refl _
  | .binary op left right, labels, depth, names => by
    have forLeft := labelsOf_code params left labels depth names.1
    have forRight := labelsOf_code params right (labels.skip left.conditionals) (depth + 1) names.2
    have parts : labelsOf ((Expr.binary op left right).code params labels depth) =
        labelsOf (left.code params labels depth) ++
          labelsOf (right.code params (labels.skip left.conditionals) (depth + 1)) := by
      simp only [code, labelsOf_append, labelsOf_cons, op.label?_instruction]
      simp [Instruction.label?]
    rw [parts, conditionals, branchLabels_add]
    exact forLeft.append forRight
  | .conditional left right whenEqual otherwise, labels, depth, names => by
    obtain ⟨inLeft, inRight, inEqual, inOtherwise⟩ := names
    have forLeft := labelsOf_code params left (labels.skip 1) depth inLeft
    have forRight := labelsOf_code params right ((labels.skip 1).skip left.conditionals)
      (depth + 1) inRight
    have forOtherwise := labelsOf_code params otherwise
      (((labels.skip 1).skip left.conditionals).skip right.conditionals) depth inOtherwise
    have forEqual := labelsOf_code params whenEqual
      ((((labels.skip 1).skip left.conditionals).skip right.conditionals).skip
        otherwise.conditionals) depth inEqual
    simp only [code, labelsOf_append, labelsOf_cons, Instruction.label?, labelsOf_nil,
      Option.toList_none, Option.toList_some, List.append_nil, List.nil_append, List.cons_append]
    rw [List.append_assoc, List.cons_append]
    apply perm_labels_first.trans
    simp only [conditionals, branchLabels_add, branchLabels_one, ← Nat.add_assoc, List.cons_append,
      List.nil_append]
    exact (((forLeft.append forRight).append forOtherwise).append forEqual).cons _ |>.cons _
  | .call name args, labels, depth, names => by
    by_cases isPrint : name = printName
    · subst isPrint
      obtain ⟨arg, rfl⟩ : ∃ arg, args = [arg] := List.length_eq_one_iff.1 names.1
      have forArg := labelsOf_code params arg labels depth names.2.1
      simpa [code_print, conditionals, totalConditionals, labelsOf_cons, Instruction.label?] using
        forArg
    · have forArgs := labelsOf_argsCode params args labels depth names.2
      simpa [code_call isPrint, conditionals, labelsOf_cons, Instruction.label?] using forArgs

theorem labelsOf_argsCode (params : List String) :
    ∀ (args : List Expr) (labels : LabelSupply) (depth : Nat), ArgsScoped program scope args →
      (labelsOf (argsCode params labels depth args)).Perm
        (branchLabels labels.next (totalConditionals args))
  | [], _, _, _ => .refl _
  | arg :: args, labels, depth, names => by
    have forArg := labelsOf_code params arg (labels.skip (totalConditionals args)) depth names.1
    have forArgs := labelsOf_argsCode params args labels depth names.2
    simp only [argsCode, totalConditionals, labelsOf_append, labelsOf_pushCode, List.append_nil]
    rw [Nat.add_comm, branchLabels_add]
    exact forArgs.append forArg

end

theorem labelsOf_statementsCode (statements : List Expr) (labels : LabelSupply)
    (names : ∀ statement ∈ statements, statement.Scoped program []) :
    (labelsOf (statementsCode labels statements)).Perm
      (branchLabels labels.next (totalConditionals statements)) := by
  induction statements generalizing labels with
  | nil => exact .refl _
  | cons statement statements ih =>
    obtain ⟨here, later⟩ := List.forall_mem_cons.1 names
    simp only [statementsCode, totalConditionals, labelsOf_append, branchLabels_add]
    exact (labelsOf_code [] statement labels 0 here).append
      (ih (labels.skip statement.conditionals) later)

end Expr

/-- Conditionals in the bodies of functions. -/
def Function.bodyConditionals (functions : List Function) : Nat :=
  (functions.map fun function => function.body.conditionals).sum

theorem Function.labelsOf_allCode (functions : List Function) (labels : LabelSupply)
    (names : ∀ function ∈ functions, function.body.Scoped program function.params) :
    (labelsOf (allCode labels
      (functions.map fun function => (function, Frame.ofFunction function)))).Perm
      (functions.map (fun function => entryLabel function.name) ++
        branchLabels labels.next (bodyConditionals functions)) := by
  induction functions generalizing labels with
  | nil => exact .refl _
  | cons function functions ih =>
    obtain ⟨here, later⟩ := List.forall_mem_cons.1 names
    have body := Expr.labelsOf_code function.params function.body labels 0 here
    have others := ih (labels.skip function.body.conditionals) later
    simp only [List.map_cons, allCode, Function.code, labelsOf_append, labelsOf_cons,
      Instruction.label?, Option.toList_some, Frame.labelsOf_openCode, Frame.labelsOf_closeCode,
      List.append_nil, List.cons_append, List.nil_append]
    refine List.Perm.cons _ ((body.append others).trans ?_)
    have count : bodyConditionals (function :: functions) =
        function.body.conditionals + bodyConditionals functions := by
      simp [bodyConditionals]
    rw [count, branchLabels_add, ← List.append_assoc, ← List.append_assoc]
    exact List.perm_append_comm.append_right _

end Code

/-- Number of conditionals in a program. -/
def Program.conditionals (program : Program) : Nat :=
  Expr.totalConditionals program.statements + Function.bodyConditionals program.functions

/-- The labels of a program: the one it starts at, one for each function, and two for each
conditional. -/
theorem Program.labelsOf_assembly {program : Program} (names : program.Scoped) :
    (labelsOf program.assembly.instructions).Perm
      (mainName :: program.functions.map (fun function => entryLabel function.name) ++
        branchLabels 0 program.conditionals) := by
  have statements := Expr.labelsOf_statementsCode program.statements {} names.statements
  have functions := Function.labelsOf_allCode program.functions
    ⟨Expr.totalConditionals program.statements⟩ names.bodies
  have parts : labelsOf program.assembly.instructions =
      mainName :: (labelsOf (Expr.statementsCode {} program.statements) ++
        labelsOf (Function.allCode ⟨Expr.totalConditionals program.statements⟩
          (program.functions.map fun function => (function, Frame.ofFunction function)))) := by
    simp [Program.assembly, Assembly.ofParts, preamble, exitCode, labelsOf_cons,
      Instruction.label?]
  rw [parts, List.cons_append, Program.conditionals, branchLabels_add, Nat.zero_add]
  refine List.Perm.cons _ ((statements.append functions).trans ?_)
  rw [← List.append_assoc, ← List.append_assoc]
  exact List.perm_append_comm.append_right _

/-! ## Labels differ

The label of a function ends in a letter and the ones of a conditional in a digit. -/

theorem entryLabel_injective {name other : String} (equal : entryLabel name = entryLabel other) :
    name = other :=
  (String.append_left_inj _).1 equal

/-- The number behind a stem is known from its digits. -/
theorem number_eq_of_append {stem : String} {number other : Nat}
    (equal : stem ++ toString number = stem ++ toString other) : number = other := by
  have digits : Nat.toDigits 10 number = Nat.toDigits 10 other := by
    rw [← Nat.toList_repr, ← Nat.toList_repr]
    exact congrArg String.toList ((String.append_right_inj _).1 equal)
  calc
    number = Nat.ofDigitChars 10 (Nat.toDigits 10 number) 0 := Nat.ofDigitChars_ten_toDigits.symm
    _ = Nat.ofDigitChars 10 (Nat.toDigits 10 other) 0 := by rw [digits]
    _ = other := Nat.ofDigitChars_ten_toDigits

theorem BranchLabels.number_eq_of_whenEqual {number other : Nat}
    (equal : (ofNumber number).whenEqual = (ofNumber other).whenEqual) : number = other :=
  number_eq_of_append equal

theorem BranchLabels.number_eq_of_done {number other : Nat}
    (equal : (ofNumber number).done = (ofNumber other).done) : number = other :=
  number_eq_of_append equal

theorem BranchLabels.whenEqual_ne_done (number other : Nat) :
    (ofNumber number).whenEqual ≠ (ofNumber other).done := by
  intro equal
  have first := congrArg (fun text : String => text.toList.head?) equal
  simp [ofNumber] at first

theorem getLast?_entryLabel (name : String) : (entryLabel name).toList.getLast? = some 'y' := by
  simp [entryLabel]

/-- A text that ends in a number ends in a digit. -/
theorem isDigit_of_getLast? {stem : String} {number : Nat} {last : Char}
    (found : (stem ++ toString number).toList.getLast? = some last) : last.isDigit := by
  have digits : (toString number).toList = Nat.toDigits 10 number := Nat.toList_repr
  rw [String.toList_append, digits, List.getLast?_append_of_ne_nil _ Nat.toDigits_ne_nil] at found
  exact Nat.isDigit_of_mem_toDigits (by decide) (by decide) (List.mem_of_getLast? found)

theorem mem_branchLabels {label : String} {first count : Nat} :
    label ∈ branchLabels first count ↔ ∃ number, first ≤ number ∧ number < first + count ∧
      (label = (BranchLabels.ofNumber number).whenEqual ∨
        label = (BranchLabels.ofNumber number).done) := by
  simp [branchLabels, and_assoc]

theorem entryLabel_notMem_branchLabels (name : String) (first count : Nat) :
    entryLabel name ∉ branchLabels first count := by
  intro member
  obtain ⟨number, -, -, equal⟩ := mem_branchLabels.1 member
  have last := getLast?_entryLabel name
  have digit : 'y'.isDigit := by
    rcases equal with equal | equal
    · rw [equal] at last
      exact isDigit_of_getLast? last
    · rw [equal] at last
      exact isDigit_of_getLast? last
  exact absurd digit (by decide)

/-- No function has its entry in code that holds only labels of conditionals. -/
theorem entryLabel_notMem {fragment inner : List Instruction} {first count : Nat}
    (same : labelsOf fragment = labelsOf inner)
    (labels : (labelsOf inner).Perm (branchLabels first count)) (name : String) :
    Instruction.label (entryLabel name) ∉ fragment := by
  intro member
  have entry := mem_labelsOf.2 member
  rw [same] at entry
  exact entryLabel_notMem_branchLabels name first count (labels.subset entry)

theorem mainName_notMem_branchLabels (first count : Nat) :
    mainName ∉ branchLabels first count := by
  intro member
  obtain ⟨number, -, -, equal | equal⟩ := mem_branchLabels.1 member
  · have initial := congrArg (fun text : String => text.toList.head?) equal
    simp [mainName, BranchLabels.ofNumber] at initial
  · have initial := congrArg (fun text : String => text.toList.head?) equal
    simp [mainName, BranchLabels.ofNumber] at initial

theorem mainName_ne_entryLabel (name : String) : mainName ≠ entryLabel name := by
  intro equal
  have last := getLast?_entryLabel name
  rw [← equal] at last
  simp [mainName] at last

theorem nodup_branchLabels (first count : Nat) : (branchLabels first count).Nodup := by
  unfold branchLabels
  rw [List.nodup_flatMap]
  constructor
  · intro number _
    simp [BranchLabels.whenEqual_ne_done]
  · refine List.Pairwise.imp ?_ (List.nodup_range' (s := first) (n := count))
    intro number other differ label here there
    simp only [List.mem_cons, List.not_mem_nil, or_false] at here there
    rcases here with rfl | rfl
    · rcases there with equal | equal
      · exact differ (BranchLabels.number_eq_of_whenEqual equal)
      · exact BranchLabels.whenEqual_ne_done _ _ equal
    · rcases there with equal | equal
      · exact BranchLabels.whenEqual_ne_done _ _ equal.symm
      · exact differ (BranchLabels.number_eq_of_done equal)

/-- No label stands twice in the code of a program. -/
theorem Program.nodup_labelsOf_assembly {program : Program} (declarable : program.Declarable)
    (names : program.Scoped) : (labelsOf program.assembly.instructions).Nodup := by
  rw [(Program.labelsOf_assembly names).nodup_iff, List.cons_append, List.nodup_cons,
    List.nodup_append']
  refine ⟨?_, ?_, nodup_branchLabels _ _, ?_⟩
  · intro member
    rcases List.mem_append.1 member with entry | branch
    · obtain ⟨function, -, equal⟩ := List.mem_map.1 entry
      exact mainName_ne_entryLabel _ equal.symm
    · exact mainName_notMem_branchLabels _ _ branch
  · have distinct := declarable.distinct.map (f := entryLabel) fun _ _ => entryLabel_injective
    rwa [List.map_map] at distinct
  · intro label entry branch
    obtain ⟨function, -, rfl⟩ := List.mem_map.1 entry
    exact entryLabel_notMem_branchLabels _ _ _ branch

/-- A label that stands in the code only once is found where it stands. -/
theorem idxOf?_label {code : List Instruction} (distinct : (labelsOf code).Nodup) {position : Nat}
    {name : String} (here : code[position]? = some (.label name)) :
    code.idxOf? (.label name) = some position := by
  induction code generalizing position with
  | nil => simp at here
  | cons instruction code ih =>
    rw [labelsOf_cons] at distinct
    rw [List.idxOf?_cons]
    cases position with
    | zero =>
      simp only [List.getElem?_cons_zero, Option.some.injEq] at here
      simp [here]
    | succ position =>
      rw [List.getElem?_cons_succ] at here
      have differ : instruction ≠ .label name := by
        rintro rfl
        have later : name ∈ labelsOf code := mem_labelsOf.2 (List.mem_of_getElem? here)
        exact (List.nodup_cons.1 distinct).1 later
      rw [if_neg (by simpa using differ), ih (distinct.of_append_right) here]
      rfl

end FunMips
