import FunMips.Compiler
import FunMips.Proofs.Frame.Declarations

/-!
# Names that mean something

`Expr.Scoped` says of an expression that every variable in it is a parameter and every call gives
a declared function, or the built-in, as many arguments as it takes. Code is put together for
exactly the programs whose expressions are scoped, the statements among no parameters and every
body among those of its function (`Program.assemble_frames_eq_ok_iff`).
-/

namespace FunMips

/-- A call of the name with that many arguments means something. -/
def Program.Callable (program : Program) (name : String) (count : Nat) : Prop :=
  if name = printName then count = 1
  else ∃ function, program.function? name = some function ∧ function.params.length = count

namespace Expr

mutual

/-- Every name in an expression means something, where `params` are the variables. -/
def Scoped (program : Program) (params : List String) : Expr → Prop
  | .number _ => True
  | .var name => name ∈ params
  | .binary _ left right => left.Scoped program params ∧ right.Scoped program params
  | .conditional left right whenEqual otherwise =>
    left.Scoped program params ∧ right.Scoped program params ∧
      whenEqual.Scoped program params ∧ otherwise.Scoped program params
  | .call name args => program.Callable name args.length ∧ ArgsScoped program params args

/-- Every name in the expressions means something. -/
def ArgsScoped (program : Program) (params : List String) : List Expr → Prop
  | [] => True
  | arg :: args => arg.Scoped program params ∧ ArgsScoped program params args

end

end Expr

theorem Scope.checkVar_eq_ok_iff {scope : Scope} {name : String} :
    scope.checkVar name = .ok () ↔ name ∈ scope.params := by
  cases scope with
  | topLevel => simp [checkVar, params]
  | body function =>
    simp only [checkVar, params]
    by_cases present : name ∈ function.params
    · cases found : function.paramIndex? name with
      | none => exact absurd present (List.idxOf?_eq_none_iff.1 found)
      | some index => simp [present]
    · have missing : function.paramIndex? name = none := List.idxOf?_eq_none_iff.2 present
      simp [missing, present]

theorem checkArity_eq_ok_iff {name : String} {expected found : Nat} :
    checkArity name expected found = .ok () ↔ expected = found := by
  unfold checkArity
  split
  · next equal => simp [equal]
  · next differ => simp [differ]

theorem Program.checkCall_eq_ok_iff {program : Program} {name : String} {count : Nat} :
    program.frames.checkCall name count = .ok () ↔ program.Callable name count := by
  unfold FrameTable.checkCall Program.Callable
  split
  · rw [checkArity_eq_ok_iff, eq_comm]
  · rw [program.get?_frames]
    cases found : program.function? name with
    | none => simp
    | some function =>
      simp only [Option.map_some, checkArity_eq_ok_iff, Option.some.injEq, exists_eq_left']
      rfl

namespace Expr

mutual

/-- An expression passes the check exactly when it is scoped. -/
theorem check_eq_ok_iff {program : Program} {scope : Scope} :
    ∀ e : Expr, e.check program.frames scope = .ok () ↔ e.Scoped program scope.params
  | .number _ => by simp [check, Scoped]
  | .var name => by
    simp only [check, Scoped]
    exact Scope.checkVar_eq_ok_iff
  | .binary _ left right => by
    simp only [check, Scoped, andThen_eq_ok_iff, check_eq_ok_iff left, check_eq_ok_iff right]
  | .conditional left right whenEqual otherwise => by
    simp only [check, Scoped, andThen_eq_ok_iff, check_eq_ok_iff left, check_eq_ok_iff right,
      check_eq_ok_iff whenEqual, check_eq_ok_iff otherwise]
    -- the branch for unequal operands is visited before the other one
    rw [and_comm (a := whenEqual.Scoped program scope.params)]
  | .call name args => by
    simp only [check, Scoped, andThen_eq_ok_iff, Program.checkCall_eq_ok_iff,
      checkArgs_eq_ok_iff args]

theorem checkArgs_eq_ok_iff {program : Program} {scope : Scope} :
    ∀ args : List Expr,
      checkArgs program.frames scope args = .ok () ↔ ArgsScoped program scope.params args
  | [] => by simp [checkArgs, ArgsScoped]
  | arg :: args => by
    simp only [checkArgs, ArgsScoped, andThen_eq_ok_iff, check_eq_ok_iff arg,
      checkArgs_eq_ok_iff args]
    exact and_comm

end

end Expr

/-- Every name in the program means something. -/
structure Program.Scoped (program : Program) : Prop where
  statements : ∀ statement ∈ program.statements, statement.Scoped program []
  bodies : ∀ function ∈ program.functions, function.body.Scoped program function.params

namespace Program

/-- The code of a program, in the frames that are recorded for it. -/
def assembly (program : Program) : Assembly :=
  Assembly.ofParts (Frame.ofStatements program.statements) program.statements
    (program.functions.map fun function => (function, Frame.ofFunction function))

theorem checkedFrame_eq_ok_iff {program : Program} (declarable : program.Declarable)
    {function : Function} (member : function ∈ program.functions) (frame : Frame) :
    function.checkedFrame program.frames = .ok frame ↔
      function.body.Scoped program function.params ∧ frame = Frame.ofFunction function := by
  have recorded : program.frames.lookup function.name = .ok (Frame.ofFunction function) := by
    rw [FrameTable.lookup, program.get?_frames, declarable.function?_eq member]
    rfl
  have inScope : function.body.check program.frames (.body function) = .ok () ↔
      function.body.Scoped program function.params := Expr.check_eq_ok_iff function.body
  unfold Function.checkedFrame
  rw [recorded, ok_bind, andThen_eq_ok_iff, inScope]
  constructor
  · rintro ⟨names, h⟩
    cases h
    exact ⟨names, rfl⟩
  · rintro ⟨names, rfl⟩
    exact ⟨names, rfl⟩

/-- Code is put together exactly for programs in which every name means something. -/
theorem assemble_frames_eq_ok_iff {program : Program} (declarable : program.Declarable)
    {assembly : Assembly} :
    program.assemble program.frames = .ok assembly ↔
      program.Scoped ∧ assembly = program.assembly := by
  have main : program.frames.main = .ok (Frame.ofStatements program.statements) := rfl
  have inScope : program.statements.forM (Expr.check program.frames .topLevel) = .ok () ↔
      ∀ statement ∈ program.statements, statement.Scoped program [] := by
    rw [forM_eq_ok_iff]
    exact forall₂_congr fun statement _ => Expr.check_eq_ok_iff statement
  have bodies (frames : List Frame) := mapM_eq_ok_iff (b := frames) fun _ member frame =>
    checkedFrame_eq_ok_iff declarable member frame
  have paired : program.functions.zip (program.functions.map Frame.ofFunction) =
      program.functions.map fun function => (function, Frame.ofFunction function) := by
    simpa using List.zip_map' (f := id) (g := Frame.ofFunction) (l := program.functions)
  rw [assemble_eq, main, ok_bind, andThen_eq_ok_iff, inScope, bind_eq_ok_iff]
  constructor
  · rintro ⟨statements, frames, found, h⟩
    obtain ⟨inBodies, rfl⟩ := (bodies frames).1 found
    cases h
    refine ⟨⟨statements, inBodies⟩, ?_⟩
    rw [paired]
    rfl
  · rintro ⟨names, rfl⟩
    refine ⟨names.statements, _, (bodies _).2 ⟨names.bodies, rfl⟩, ?_⟩
    rw [paired]
    rfl

end Program

end FunMips
