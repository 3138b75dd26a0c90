import FunMips.Proofs.Assembly.Branches
import FunMips.Proofs.Compiler.Refusals
import FunMips.Proofs.Frame.Validity
import FunMips.Proofs.Program.Printing

/-!
# What the limit on nesting is worth

The parser limits the levels of expressions that are open at once, and with them the height of the
trees it builds and the slots that they need. Not every step down a tree opens a level: the left
operand of an operator is read at the level of the operation. But it is never an operation itself,
so at least every other step opens one (`Expr.height_le_two_mul_nesting`). Slots are taken by right
operands only, each of which opens a level (`Expr.temps_lt_nesting`). Hence the frames of a source
that is read are small, unless a function has very many parameters (`nesting_bounds`).
-/

namespace FunMips

namespace Expr

mutual

/-- Levels of the tree of an expression. -/
def height : Expr → Nat
  | .number _ | .var _ => 1
  | .binary _ left right => 1 + max left.height right.height
  | .conditional left right whenEqual otherwise =>
    1 + max (max left.height right.height) (max whenEqual.height otherwise.height)
  | .call _ args => 1 + argsHeight args

/-- Levels of the highest of the trees. -/
def argsHeight : List Expr → Nat
  | [] => 0
  | expr :: exprs => max expr.height (argsHeight exprs)

end

mutual

/-- A tree has at most two levels for each one that is open while it is read, and one less if it can
be a left operand, for then it can get one more without a level being opened. -/
theorem height_le_two_mul_nesting :
    ∀ e : Expr, e.isCanonical →
      e.height ≤ 2 * e.nesting ∧ (e.isOperand → e.height < 2 * e.nesting)
  | .number _, _ => by simp [height, nesting]
  | .var _, _ => by simp [height, nesting]
  | .binary _ left right, canonical => by
    simp only [isCanonical, Bool.and_eq_true] at canonical
    obtain ⟨⟨operand, canonicalLeft⟩, canonicalRight⟩ := canonical
    -- the left operand opens no level, but has one tree level to spare
    have forLeft := (height_le_two_mul_nesting left canonicalLeft).2 operand
    have forRight := (height_le_two_mul_nesting right canonicalRight).1
    refine ⟨?_, fun impossible => by cases impossible⟩
    rw [height, nesting]
    omega
  | .conditional left right whenEqual otherwise, canonical => by
    simp only [isCanonical, Bool.and_eq_true] at canonical
    obtain ⟨⟨⟨canonicalLeft, canonicalRight⟩, canonicalEqual⟩, canonicalOther⟩ := canonical
    have forLeft := (height_le_two_mul_nesting left canonicalLeft).1
    have forRight := (height_le_two_mul_nesting right canonicalRight).1
    have forEqual := (height_le_two_mul_nesting whenEqual canonicalEqual).1
    have forOther := (height_le_two_mul_nesting otherwise canonicalOther).1
    refine ⟨?_, fun impossible => by cases impossible⟩
    rw [height, nesting]
    omega
  | .call _ args, canonical => by
    have forArgs := argsHeight_le_two_mul_argsNesting args canonical
    rw [height, nesting]
    exact ⟨by omega, fun _ => by omega⟩

theorem argsHeight_le_two_mul_argsNesting :
    ∀ args : List Expr, areCanonical args → argsHeight args ≤ 2 * argsNesting args
  | [], _ => Nat.le_refl _
  | arg :: args, canonical => by
    simp only [areCanonical, Bool.and_eq_true] at canonical
    have here := (height_le_two_mul_nesting arg canonical.1).1
    have later := argsHeight_le_two_mul_argsNesting args canonical.2
    rw [argsHeight, argsNesting]
    omega

end

mutual

/-- An operand that waits in a slot waits for one that opens a level. -/
theorem temps_lt_nesting : ∀ e : Expr, e.temps < e.nesting
  | .number _ => by simp [temps, nesting]
  | .var _ => by simp [temps, nesting]
  | .binary _ left right => by
    have forLeft := temps_lt_nesting left
    have forRight := temps_lt_nesting right
    rw [temps, nesting]
    omega
  | .conditional left right whenEqual otherwise => by
    have forLeft := temps_lt_nesting left
    have forRight := temps_lt_nesting right
    have forEqual := temps_lt_nesting whenEqual
    have forOther := temps_lt_nesting otherwise
    rw [temps, nesting]
    omega
  | .call _ args => by
    have forArgs := maxTemps_le_argsNesting args
    rw [temps, nesting]
    omega

theorem maxTemps_le_argsNesting : ∀ args : List Expr, maxTemps args ≤ argsNesting args
  | [] => Nat.le_refl _
  | arg :: args => by
    have here := temps_lt_nesting arg
    have later := maxTemps_le_argsNesting args
    rw [maxTemps, argsNesting]
    omega

end

mutual

/-- A part of an expression is no higher than the whole and needs no more slots. -/
theorem le_of_mem_nodes {node : Expr} :
    ∀ e : Expr, node ∈ e.nodes → node.height ≤ e.height ∧ node.temps ≤ e.temps
  | .number value, member => by
    obtain rfl : node = .number value := by simpa [nodes] using member
    exact ⟨Nat.le_refl _, Nat.le_refl _⟩
  | .var name, member => by
    obtain rfl : node = .var name := by simpa [nodes] using member
    exact ⟨Nat.le_refl _, Nat.le_refl _⟩
  | .binary _ left right, member => by
    simp only [nodes, List.mem_cons, List.mem_append] at member
    rcases member with rfl | inLeft | inRight
    · exact ⟨Nat.le_refl _, Nat.le_refl _⟩
    · have := le_of_mem_nodes left inLeft
      rw [height, temps]
      omega
    · have := le_of_mem_nodes right inRight
      rw [height, temps]
      omega
  | .conditional left right whenEqual otherwise, member => by
    simp only [nodes, List.mem_cons, List.mem_append] at member
    rw [height, temps]
    rcases member with rfl | inLeft | inRight | inOther | inEqual
    · rw [height, temps]
      exact ⟨Nat.le_refl _, Nat.le_refl _⟩
    · have := le_of_mem_nodes left inLeft
      omega
    · have := le_of_mem_nodes right inRight
      omega
    · have := le_of_mem_nodes otherwise inOther
      omega
    · have := le_of_mem_nodes whenEqual inEqual
      omega
  | .call name args, member => by
    rcases List.mem_cons.1 member with rfl | inArgs
    · exact ⟨Nat.le_refl _, Nat.le_refl _⟩
    · have := le_of_mem_argsNodes args inArgs
      rw [height, temps]
      omega

theorem le_of_mem_argsNodes {node : Expr} :
    ∀ args : List Expr, node ∈ argsNodes args →
      node.height ≤ argsHeight args ∧ node.temps ≤ maxTemps args
  | [], member => by cases member
  | arg :: args, member => by
    rw [argsHeight, maxTemps]
    rcases List.mem_append.1 member with inArgs | inArg
    · have := le_of_mem_argsNodes args inArgs
      omega
    · have := le_of_mem_nodes arg inArg
      omega

end

end Expr

/-! ## Sources -/

section Source

variable {source : Text} {program : Program}

/-- The expressions of a source that is read are neither high nor do they need many slots. -/
theorem bounds_of_parse (parsed : parse source = .ok program) :
    ∀ decl ∈ program.decls,
      decl.expr.height ≤ 2 * maxNesting ∧ decl.expr.temps ≤ maxNesting - 1 := by
  obtain ⟨front, -, -, canonical, shallow⟩ := parse_eq_ok_iff_writes.1 parsed
  intro decl member
  have levels := shallow decl member
  have height := (decl.expr.height_le_two_mul_nesting (List.all_eq_true.1 canonical decl member)).1
  have temps := decl.expr.temps_lt_nesting
  exact ⟨by omega, by omega⟩

/-- A frame that is too large is one of the program that is read. -/
theorem ofProgram_of_compile {name : String} {words : Nat}
    (refused : compile source = .error (.refused (.frameTooLarge name words))) :
    ∃ program, parse source = .ok program ∧
      FrameTable.ofProgram program = .error (.frameTooLarge name words) := by
  -- the phases before report diagnostics of their own
  rcases bind_eq_error_iff.1 refused with failed | ⟨tokens, lexed, refused⟩
  · exact absurd (ReportsIn.tokenize source _ failed) (by simp [Diagnostic.phase])
  rcases bind_eq_error_iff.1 refused with failed | ⟨program, parsed, refused⟩
  · exact absurd (ReportsIn.parseTokens source tokens _ failed) (by simp [Diagnostic.phase])
  refine ⟨program, (parse_eq_parseTokens lexed).trans parsed, ?_⟩
  cases sized : FrameTable.ofProgram program with
  | error diagnostic =>
    rw [sized] at refused
    cases refused
    rfl
  | ok table =>
    obtain ⟨declarable, rfl⟩ := FrameTable.ofProgram_eq_ok_iff.1 sized
    rw [sized] at refused
    -- names that mean nothing are reported by other diagnostics
    cases assembled : program.assemble program.frames with
    | ok assembly =>
      rw [Stop.ofDiagnostic, ok_bind, assembled] at refused
      cases refused
    | error diagnostic =>
      rw [Stop.ofDiagnostic, ok_bind, assembled] at refused
      cases refused
      obtain ⟨before, scope, node, after, -, -, violates⟩ :=
        declarable.assemble_frames_eq_error_iff.1 assembled
      cases violates

/-- A source is refused for what is wrong with the frames of the program that is read. -/
theorem compile_of_ofProgram {diagnostic : Diagnostic} (parsed : parse source = .ok program)
    (failed : FrameTable.ofProgram program = .error diagnostic) :
    compile source = .error (.refused diagnostic) := by
  obtain ⟨front, lexed, -⟩ := parse_eq_ok_iff_writes.1 parsed
  rw [parse_eq_parseTokens lexed] at parsed
  rw [compile, lexed, ok_bind, parsed, ok_bind, failed]
  rfl

end Source

/-! ## A function that is just too large -/

theorem nesting_sumOfOnes (count : Nat) : (sumOfOnes count).nesting = count + 1 := by
  induction count with
  | zero => rfl
  | succ count ih =>
    rw [sumOfOnes, Expr.nesting, ih, Expr.nesting]
    omega

theorem isCanonical_sumOfOnes (count : Nat) : (sumOfOnes count).isCanonical := by
  induction count with
  | zero => rfl
  | succ count ih => simp [sumOfOnes, Expr.isCanonical, Expr.isOperand, ih]

theorem isWritable_sumOfOnes (count : Nat) :
    ∀ terminal ∈ (sumOfOnes count).spelling, terminal.IsWritable := by
  have one : (Terminal.number 1).IsWritable := by decide
  have plus : (Terminal.mark .plus).IsWritable := by decide
  induction count with
  | zero => exact List.forall_mem_singleton.2 one
  | succ count ih => exact List.forall_mem_cons.2 ⟨one, List.forall_mem_cons.2 ⟨plus, ih⟩⟩

theorem isWritable_numberedName (number : Nat) :
    (Terminal.name (numberedName number)).IsWritable := by
  have letters : (numberedName number).toList = 'a' :: List.replicate number 'a' := by
    simp [numberedName, List.replicate_succ]
  refine ⟨⟨fun empty => ?_, fun c member => ?_⟩, ?_, fun entry listed same => ?_⟩
  · rw [empty] at letters
    cases letters
  · rw [letters, ← List.replicate_succ] at member
    rw [List.eq_of_mem_replicate member]
    rfl
  · rw [letters]
    rfl
  · have others : ∀ entry ∈ keywords, entry.1.head? ≠ some 'a' := by decide
    exact others entry listed (by rw [same, letters]; rfl)

theorem parse_text_wideProgram (width : Nat) {count : Nat} (few : count < maxNesting) :
    parse (wideProgram width count).text = .ok (wideProgram width count) := by
  refine Program.parse_text ?_ ?_ ?_
  · have params : ∀ terminal ∈ namesSpelling (wideFunction width count).params,
        terminal.IsWritable :=
      isWritable_namesSpelling fun name member => by
        obtain ⟨number, -, rfl⟩ := List.mem_map.1 member
        exact isWritable_numberedName number
    have body := isWritable_sumOfOnes count
    rw [Program.spelling, wideProgram, List.flatMap_singleton, Decl.spelling]
    simp only [List.forall_mem_append, List.forall_mem_cons]
    exact ⟨⟨by decide, (by decide : (Terminal.name "f").IsWritable), by decide, params⟩,
      by decide, by decide, body⟩
  · simp [Program.isCanonical, wideProgram, Decl.expr, wideFunction, isCanonical_sumOfOnes]
  · simp only [wideProgram, List.forall_mem_singleton, Decl.expr, wideFunction, nesting_sumOfOnes]
    exact few

/-! ## The bounds -/

/-- The expressions of a source that is read, and all their parts, have at most 512 levels and need
at most 255 slots. So the frame of the statements is never too large, and a source that is refused
for a frame that is too large has a function with at least 7935 parameters, the one it is refused
for. -/
theorem nesting_bounds (source : Text) :
    (∀ program, parse source = .ok program →
      (∀ node ∈ program.nodes, node.height ≤ 512 ∧ node.temps ≤ 255) ∧
        Expr.maxTemps program.statements + 2 ≤ 8191) ∧
    ∀ name words, compile source = .error (.refused (.frameTooLarge name words)) →
      ∃ program earlier function later, parse source = .ok program ∧
        program.functions = earlier ++ function :: later ∧ Function.InOrder earlier ∧
        function.Refused earlier (.frameTooLarge name words) ∧ function.name = name ∧
        7935 ≤ function.params.length := by
  have small {program : Program} (parsed : parse source = .ok program) :
      Expr.maxTemps program.statements ≤ 255 :=
    Expr.maxTemps_le_iff.2 fun e member =>
      (bounds_of_parse parsed _ (Program.mem_statements.1 member)).2
  refine ⟨fun program parsed => ⟨fun node member => ?_, ?_⟩, fun name words refused => ?_⟩
  · obtain ⟨decl, listed, inside⟩ := List.mem_flatMap.1 member
    have whole := bounds_of_parse parsed decl listed
    have part := Expr.le_of_mem_nodes decl.expr inside
    unfold maxNesting at whole
    exact ⟨by omega, by omega⟩
  · have := small parsed
    omega
  · obtain ⟨program, parsed, failed⟩ := ofProgram_of_compile refused
    rcases FrameTable.ofProgram_eq_error_iff.1 failed with
      ⟨earlier, function, later, split, inOrder, first⟩ | ⟨-, large, -⟩
    · have listed : function ∈ program.functions := split ▸ by simp
      have temps := (bounds_of_parse parsed _ (Program.mem_functions.1 listed)).2
      refine ⟨program, earlier, function, later, parsed, split, inOrder, first, ?_⟩
      cases first with
      | tooLarge _ _ _ large =>
        unfold maxFrameWords at large
        unfold maxNesting at temps
        exact ⟨rfl, by simp only [Decl.expr] at temps; omega⟩
    · have := small parsed
      unfold maxFrameWords at large
      omega

/-- The bounds are met: with 255 slots for its body, 7935 parameters are just too many. -/
theorem nesting_bounds_wideProgram :
    compile (wideProgram 7935 255).text = .error (.refused (.frameTooLarge "f" 8192)) ∧
      (∀ node ∈ (wideProgram 7935 255).nodes, node.height ≤ 512 ∧ node.temps ≤ 255) ∧
      ∃ program earlier function later, parse (wideProgram 7935 255).text = .ok program ∧
        program.functions = earlier ++ function :: later ∧ Function.InOrder earlier ∧
        function.Refused earlier (.frameTooLarge "f" 8192) ∧ function.name = "f" ∧
        7935 ≤ function.params.length := by
  have parsed := parse_text_wideProgram 7935 (by decide : 255 < maxNesting)
  have refused := compile_of_ofProgram parsed (ofProgram_wideProgram (by decide))
  obtain ⟨bounds, large⟩ := nesting_bounds (wideProgram 7935 255).text
  exact ⟨refused, (bounds _ parsed).1, large "f" 8192 refused⟩

end FunMips
