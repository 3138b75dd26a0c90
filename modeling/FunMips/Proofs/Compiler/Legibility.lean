import FunMips.Proofs.Assembly.Decoding
import FunMips.Proofs.Compiler.Correctness
import FunMips.Proofs.Program.Parsing
import FunMips.Proofs.Program.Violations
import FunMips.Proofs.Token.Decomposition

/-!
# Compiled files are read back

What the compiler writes can be read back (`compile_legible`), so that the text of a compiled file
says which instructions it consists of (`text_determines_instructions`). Labels are made of the
names in the source, which are words because the lexer cuts no others (`areWords_of_tokenize`), and
of the numbers of conditionals.
-/

namespace FunMips

/-! ## Words -/

theorem IsWord.append {name other : String} (word : IsWord name) (wordOther : IsWord other) :
    IsWord (name ++ other) := by
  refine ⟨fun empty => word.1 (String.append_eq_empty_iff.1 empty).1, ?_⟩
  rw [String.toList_append]
  exact List.forall_mem_append.2 ⟨word.2, wordOther.2⟩

theorem isWord_toString (number : Nat) : IsWord (toString number) := by
  have digits : (toString number).toList = Nat.toDigits 10 number := Nat.toList_repr
  refine ⟨fun empty => ?_, fun c member => ?_⟩
  · rw [empty] at digits
    exact Nat.toDigits_ne_nil digits.symm
  · rw [digits] at member
    exact isWordChar_of_isDigit (Nat.isDigit_of_mem_toDigits (by decide) (by decide) member)

theorem isWord_entryLabel {name : String} (word : IsWord name) : IsWord (entryLabel name) :=
  word.append (by decide)

theorem BranchLabels.isWord_whenEqual (number : Nat) : IsWord (ofNumber number).whenEqual :=
  IsWord.append (by decide) (isWord_toString number)

theorem BranchLabels.isWord_done (number : Nat) : IsWord (ofNumber number).done :=
  IsWord.append (by decide) (isWord_toString number)

/-! ## Names -/

/-- The names among the terminals are words. -/
def AreWords (terminals : List Terminal) : Prop := ∀ name, .name name ∈ terminals → IsWord name

@[simp] theorem areWords_nil : AreWords [] := by simp [AreWords]

@[simp] theorem areWords_append {terminals others : List Terminal} :
    AreWords (terminals ++ others) ↔ AreWords terminals ∧ AreWords others := by
  simp [AreWords, or_imp, forall_and]

@[simp] theorem areWords_mark {kind : Kind} {terminals : List Terminal} :
    AreWords (.mark kind :: terminals) ↔ AreWords terminals := by
  simp [AreWords]

@[simp] theorem areWords_name {name : String} {terminals : List Terminal} :
    AreWords (.name name :: terminals) ↔ IsWord name ∧ AreWords terminals := by
  simp [AreWords]

/-- A lexeme that is a name is a word. -/
theorem Lexeme.Longest.isWord {lexeme : Lexeme} {rest : Text} (longest : lexeme.Longest rest)
    (name : lexeme.kind = .ident) : IsWord (String.ofList lexeme.text) := by
  cases longest with
  | @mark c kind _ listed =>
    have other : ∀ entry ∈ marks, entry.2 ≠ .ident := by decide
    exact absurd name (other (c, kind) listed)
  | number => cases name
  | word _ all => exact ⟨by simp, by simpa using all⟩

/-- The names of a source are words. -/
theorem areWords_of_tokenize {source : Text} {tokens : List Token} {last : Token}
    (lexed : tokenize source = .ok (tokens ++ [last])) :
    AreWords (tokens.map (Token.word source)) := by
  intro name member
  obtain ⟨token, listed, said⟩ := List.mem_map.1 member
  obtain ⟨lexeme, rest, longest, kind, -, cut⟩ := exists_lexeme_of_tokenize lexed token listed
  unfold Token.word at said
  split at said
  · cases said
  · next isName =>
    rw [cut] at said
    cases said
    exact longest.isWord (kind.symm.trans isName)
  · cases said

/-! ## Code -/

theorem legible_pushCode (register : Register) : ∀ i ∈ pushCode register, i.Legible := by
  simp [pushCode, Instruction.Legible]

theorem Frame.legible_openCode (frame : Frame) : ∀ i ∈ frame.openCode, i.Legible := by
  unfold openCode
  refine List.forall_mem_cons.2 ⟨trivial, List.forall_mem_append.2 ⟨legible_pushCode .ra, ?_⟩⟩
  split <;> simp [Instruction.Legible]

theorem Frame.legible_closeCode (frame : Frame) : ∀ i ∈ frame.closeCode, i.Legible := by
  simp [closeCode, Instruction.Legible]

theorem BinOp.legible_instruction (op : BinOp) : op.instruction.Legible := by
  cases op <;> trivial

namespace Expr

theorem areWords_argsSpelling_cons {arg : Expr} {args : List Expr} :
    AreWords (argsSpelling (arg :: args)) ↔
      AreWords arg.spelling ∧ AreWords (argsSpelling args) := by
  cases args <;> simp [argsSpelling]

mutual

/-- The code of an expression can be read back if the names in the expression are words. -/
theorem legible_code (params : List String) :
    ∀ (e : Expr) (labels : LabelSupply) (depth : Nat), AreWords e.spelling →
      ∀ i ∈ e.code params labels depth, i.Legible
  | .number _, _, _, _ => by simp [code, Instruction.Legible]
  | .var _, _, _, _ => by simp [code, Instruction.Legible]
  | .binary op left right, labels, depth, names => by
    obtain ⟨inLeft, inRight⟩ : AreWords left.spelling ∧ AreWords right.spelling := by
      simpa [spelling] using names
    have forLeft := legible_code params left labels depth inLeft
    have forRight := legible_code params right (labels.skip left.conditionals) (depth + 1) inRight
    simp only [code, List.forall_mem_append, List.forall_mem_cons]
    exact ⟨⟨forLeft, trivial, forRight⟩, trivial, op.legible_instruction, by simp⟩
  | .conditional left right whenEqual otherwise, labels, depth, names => by
    obtain ⟨inLeft, inRight, inEqual, inOtherwise⟩ : AreWords left.spelling ∧
        AreWords right.spelling ∧ AreWords whenEqual.spelling ∧ AreWords otherwise.spelling := by
      simpa [spelling] using names
    have forLeft := legible_code params left (labels.skip 1) depth inLeft
    have forRight := legible_code params right ((labels.skip 1).skip left.conditionals)
      (depth + 1) inRight
    have forOtherwise := legible_code params otherwise
      (((labels.skip 1).skip left.conditionals).skip right.conditionals) depth inOtherwise
    have forEqual := legible_code params whenEqual
      ((((labels.skip 1).skip left.conditionals).skip right.conditionals).skip
        otherwise.conditionals) depth inEqual
    have equal : IsWord labels.branch.whenEqual := BranchLabels.isWord_whenEqual labels.next
    have done : IsWord labels.branch.done := BranchLabels.isWord_done labels.next
    simp only [code, List.append_assoc, List.cons_append, List.forall_mem_append,
      List.forall_mem_cons]
    exact ⟨forLeft, trivial, forRight, trivial, equal, forOtherwise, done, equal, forEqual, done,
      by simp⟩
  | .call name args, labels, depth, names => by
    obtain ⟨word, inArgs⟩ : IsWord name ∧ AreWords (argsSpelling args) := by
      simpa [spelling] using names
    by_cases isPrint : name = printName
    · subst isPrint
      unfold code
      rw [if_pos rfl]
      split
      · next arg =>
        have inArg : AreWords arg.spelling := by simpa [argsSpelling] using inArgs
        exact List.forall_mem_append.2
          ⟨legible_code params arg labels depth inArg, by simp [Instruction.Legible]⟩
      · simp
    · have entry : (Instruction.jal (entryLabel name)).Legible := isWord_entryLabel word
      have forArgs := legible_argsCode params args labels depth inArgs
      rw [code_call isPrint]
      simp only [List.forall_mem_append, List.forall_mem_singleton]
      exact ⟨⟨legible_pushCode .fp, forArgs⟩, entry⟩

theorem legible_argsCode (params : List String) :
    ∀ (args : List Expr) (labels : LabelSupply) (depth : Nat), AreWords (argsSpelling args) →
      ∀ i ∈ argsCode params labels depth args, i.Legible
  | [], _, _, _ => by simp [argsCode]
  | arg :: args, labels, depth, names => by
    obtain ⟨here, later⟩ := areWords_argsSpelling_cons.1 names
    have forArgs := legible_argsCode params args labels depth later
    have forArg := legible_code params arg (labels.skip (totalConditionals args)) depth here
    simp only [argsCode, List.forall_mem_append]
    exact ⟨⟨forArgs, forArg⟩, legible_pushCode .a0⟩

end

theorem legible_statementsCode {statements : List Expr}
    (names : ∀ e ∈ statements, AreWords e.spelling) (labels : LabelSupply) :
    ∀ i ∈ statementsCode labels statements, i.Legible := by
  induction statements generalizing labels with
  | nil => simp [statementsCode]
  | cons e statements ih =>
    obtain ⟨here, later⟩ := List.forall_mem_cons.1 names
    exact List.forall_mem_append.2 ⟨legible_code [] e labels 0 here, ih later _⟩

end Expr

namespace Function

theorem legible_code {function : Function} (names : AreWords (Decl.function function).spelling)
    (labels : LabelSupply) (frame : Frame) : ∀ i ∈ function.code labels frame, i.Legible := by
  obtain ⟨word, -, inBody⟩ : IsWord function.name ∧ AreWords (namesSpelling function.params) ∧
      AreWords function.body.spelling := by
    simpa [Decl.spelling] using names
  have entry : (Instruction.label (entryLabel function.name)).Legible := isWord_entryLabel word
  have forBody := function.body.legible_code function.params labels 0 inBody
  simp only [code, List.cons_append, List.forall_mem_cons, List.forall_mem_append]
  exact ⟨entry, ⟨frame.legible_openCode, forBody⟩, frame.legible_closeCode⟩

theorem legible_allCode {functions : List (Function × Frame)}
    (names : ∀ pair ∈ functions, AreWords (Decl.function pair.1).spelling) (labels : LabelSupply) :
    ∀ i ∈ allCode labels functions, i.Legible := by
  induction functions generalizing labels with
  | nil => simp [allCode]
  | cons pair functions ih =>
    obtain ⟨here, later⟩ := List.forall_mem_cons.1 names
    exact List.forall_mem_append.2 ⟨legible_code here labels pair.2, ih later _⟩

end Function

theorem legible_preamble : ∀ i ∈ preamble, i.Legible := by
  have main : IsWord mainName := by decide
  have oneLine : '\n' ∉ mainName.toList := by decide
  simp [preamble, Instruction.Legible, main, oneLine]

/-- The code of a program can be read back if its names are words. -/
theorem Program.legible_assembly {program : Program} (names : AreWords program.spelling) :
    program.assembly.Legible := by
  have each : ∀ d ∈ program.decls, AreWords d.spelling := fun d member name inside =>
    names name (List.mem_flatMap.2 ⟨d, member, inside⟩)
  have forStatements := Expr.legible_statementsCode
    (fun e member => each (.statement e) (Program.mem_statements.1 member)) {}
  have inFunctions : ∀ pair ∈ program.functions.map fun f => (f, Frame.ofFunction f),
      AreWords (Decl.function pair.1).spelling :=
    List.forall_mem_map.2 fun f member => each (.function f) (Program.mem_functions.1 member)
  have forFunctions := Function.legible_allCode inFunctions
    ⟨Expr.totalConditionals program.statements⟩
  have forExit : ∀ i ∈ exitCode, i.Legible := by simp [exitCode, Instruction.Legible]
  simp only [Assembly.Legible, assembly, Assembly.ofParts, List.forall_mem_append]
  exact ⟨⟨⟨⟨legible_preamble, Frame.legible_openCode _⟩, forStatements⟩, forExit⟩, forFunctions⟩

/-- What the compiler writes can be read back. -/
theorem compile_legible {source : Text} {assembly : Assembly}
    (compiled : compile source = .ok assembly) : assembly.Legible := by
  obtain ⟨tokens, lexed, compiled⟩ := bind_eq_ok_iff.1 compiled
  obtain ⟨program, parsed, compiled⟩ := bind_eq_ok_iff.1 compiled
  obtain ⟨table, sized, assembled⟩ := bind_eq_ok_iff.1 compiled
  rw [Stop.ofDiagnostic_eq_ok_iff] at sized assembled
  obtain ⟨-, -, rfl⟩ := Program.eq_assembly_of_ok sized assembled
  obtain ⟨written, -, rfl⟩ := exists_reading_of_tokenize lexed
  obtain ⟨-, -, writes⟩ := writes_of_parseTokens lexed parsed
  exact Program.legible_assembly (writes.words ▸ areWords_of_tokenize lexed)

/-- A file whose labels and targets of jumps are words, and whose directives start with a period and
take one line each, is read back from its text, which has one line for each instruction. So no two
such files have the same text or the same lines. All files that the compiler writes are such. -/
theorem text_determines_instructions :
    (∀ assembly : Assembly, assembly.Legible →
      Assembly.ofText? assembly.text.toList = some assembly ∧
        assembly.lines.length = assembly.length ∧
        (∀ line ∈ assembly.lines, '\n' ∉ line.toList) ∧
        assembly.text.toList = (assembly.lines.map String.toList).flatMap (· ++ ['\n'])) ∧
      Set.InjOn Assembly.text {assembly | assembly.Legible} ∧
      Set.InjOn Assembly.lines {assembly | assembly.Legible} ∧
      ∀ source assembly, compile source = .ok assembly → assembly.Legible := by
  refine ⟨fun assembly legible => ?_, Assembly.text_injOn, Assembly.lines_injOn,
    fun source assembly => compile_legible⟩
  exact ⟨Assembly.ofText?_text legible, Assembly.length_lines assembly,
    Assembly.newline_not_mem_of_mem_lines legible, Assembly.toList_text assembly⟩

/-- The source `if 1=2 then 3 else 4`. -/
def choice : Text :=
  ['i', 'f', ' ', '1', '=', '2', ' ', 't', 'h', 'e', 'n', ' ', '3', ' ', 'e', 'l', 's', 'e', ' ',
    '4']

/-- The code of its conditional, in the frame of the statements. -/
def choiceAssembly : Assembly where
  instructions :=
    [.directive ".data", .directive ".text", .directive ".globl main", .label "main",
      .move .fp .sp, .sw .ra 0 .sp, .addiu .sp .sp (-4), .addiu .sp .sp (-4),
      .li .a0 1, .sw .a0 (-4) .fp, .li .a0 2, .lw .t1 (-4) .fp, .beq .a0 .t1 "true_branch_0",
      .li .a0 4, .b "end_if_0", .label "true_branch_0", .li .a0 3, .label "end_if_0",
      .li .v0 10, .syscall]

theorem text_determines_choice :
    compile choice = .ok choiceAssembly ∧ choiceAssembly.lines.length = 20 ∧
      Assembly.ofText? choiceAssembly.text.toList = some choiceAssembly ∧
      ∀ other : Assembly, other.Legible → choiceAssembly.text = other.text →
        choiceAssembly = other := by
  obtain ⟨files, texts, -, compiles⟩ := text_determines_instructions
  have compiled : compile choice = .ok choiceAssembly := by decide +kernel
  have legible := compiles choice choiceAssembly compiled
  obtain ⟨read, length, -⟩ := files choiceAssembly legible
  exact ⟨compiled, length, read, fun other legibleOther => texts legible legibleOther⟩

end FunMips
