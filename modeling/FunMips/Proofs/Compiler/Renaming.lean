import Mathlib.Data.Set.Function
import FunMips.Proofs.Assembly.Labels

/-!
# Parameters under other names

The parameters of a function can be given other names, as long as different ones get different
names, without any change to the frames or to the code (`Program.same_assembly_of_renamed`). A
variable is found by its position among the parameters, which stays (`idxOf_map`), and the name of
a call is never looked for there: a parameter may take the name of a function, or of the built-in.
-/

namespace FunMips

namespace Expr

mutual

/-- The expression with its variables under other names. The names of calls stay. -/
def rename (names : String → String) : Expr → Expr
  | .number value => .number value
  | .var name => .var (names name)
  | .binary op left right => .binary op (left.rename names) (right.rename names)
  | .conditional left right whenEqual otherwise =>
    .conditional (left.rename names) (right.rename names) (whenEqual.rename names)
      (otherwise.rename names)
  | .call name args => .call name (renameArgs names args)

/-- The expressions with their variables under other names. -/
def renameArgs (names : String → String) : List Expr → List Expr
  | [] => []
  | arg :: args => arg.rename names :: renameArgs names args

end

end Expr

/-- The function with its parameters under other names. -/
def Function.rename (names : String → String) (function : Function) : Function :=
  { function with
    params := function.params.map names
    body := function.body.rename names }

/-- The second function is the first with its parameters under other names, which tell them apart
as well. -/
def Function.Renamed (function other : Function) : Prop :=
  ∃ names : String → String,
    Set.InjOn names {name | name ∈ function.params} ∧ other = function.rename names

/-- The second declaration is the first, or a function with its parameters under other names. -/
inductive Decl.Renamed : Decl → Decl → Prop
  | function {function other : Function} (renamed : function.Renamed other) :
      Renamed (.function function) (.function other)
  | statement (expr : Expr) : Renamed (.statement expr) (.statement expr)

/-- The second program is the first with the parameters of each function under other names, which
are chosen for each declaration on its own. -/
def Program.Renamed (program other : Program) : Prop :=
  List.Forall₂ Decl.Renamed program.decls other.decls

/-! ## Expressions -/

/-- Names that stay apart stay at their positions. -/
theorem idxOf_map {names : String → String} {params : List String}
    (apart : Set.InjOn names {name | name ∈ params}) {name : String} (member : name ∈ params) :
    (params.map names).idxOf (names name) = params.idxOf name := by
  induction params with
  | nil => cases member
  | cons first others ih =>
    rw [List.map_cons, List.idxOf_cons, List.idxOf_cons]
    by_cases here : first = name
    · simp [here]
    · have later : name ∈ others := (List.mem_cons.1 member).resolve_left (Ne.symm here)
      have differ : names first ≠ names name := fun equal =>
        here (apart List.mem_cons_self member equal)
      have same := ih (apart.mono fun _ => List.mem_cons_of_mem first) later
      rw [beq_false_of_ne differ, beq_false_of_ne here, same]

namespace Expr

variable {names : String → String}

theorem length_renameArgs (names : String → String) (args : List Expr) :
    (renameArgs names args).length = args.length := by
  induction args with
  | nil => rfl
  | cons arg args ih => rw [renameArgs, List.length_cons, ih, List.length_cons]

mutual

theorem temps_rename : ∀ e : Expr, (e.rename names).temps = e.temps
  | .number _ => rfl
  | .var _ => rfl
  | .binary _ left right => by simp only [rename, temps, temps_rename left, temps_rename right]
  | .conditional left right whenEqual otherwise => by
    simp only [rename, temps, temps_rename left, temps_rename right, temps_rename whenEqual,
      temps_rename otherwise]
  | .call _ args => by simp only [rename, temps, maxTemps_renameArgs args]

theorem maxTemps_renameArgs : ∀ args : List Expr, maxTemps (renameArgs names args) = maxTemps args
  | [] => rfl
  | arg :: args => by simp only [renameArgs, maxTemps, temps_rename arg, maxTemps_renameArgs args]

end

mutual

theorem conditionals_rename : ∀ e : Expr, (e.rename names).conditionals = e.conditionals
  | .number _ => rfl
  | .var _ => rfl
  | .binary _ left right => by
    simp only [rename, conditionals, conditionals_rename left, conditionals_rename right]
  | .conditional left right whenEqual otherwise => by
    simp only [rename, conditionals, conditionals_rename left, conditionals_rename right,
      conditionals_rename whenEqual, conditionals_rename otherwise]
  | .call _ args => by simp only [rename, conditionals, totalConditionals_renameArgs args]

theorem totalConditionals_renameArgs :
    ∀ args : List Expr, totalConditionals (renameArgs names args) = totalConditionals args
  | [] => rfl
  | arg :: args => by
    simp only [renameArgs, totalConditionals, conditionals_rename arg,
      totalConditionals_renameArgs args]

end

section Code

variable {program : Program} {params : List String}

mutual

theorem scoped_rename :
    ∀ e : Expr, e.Scoped program params → (e.rename names).Scoped program (params.map names)
  | .number _, _ => trivial
  | .var _, member => List.mem_map_of_mem member
  | .binary _ left right, inScope =>
    ⟨scoped_rename left inScope.1, scoped_rename right inScope.2⟩
  | .conditional left right whenEqual otherwise, inScope =>
    ⟨scoped_rename left inScope.1, scoped_rename right inScope.2.1,
      scoped_rename whenEqual inScope.2.2.1, scoped_rename otherwise inScope.2.2.2⟩
  | .call name args, inScope => by
    have callable := inScope.1
    rw [← length_renameArgs names args] at callable
    exact ⟨callable, argsScoped_renameArgs args inScope.2⟩

theorem argsScoped_renameArgs :
    ∀ args : List Expr, ArgsScoped program params args →
      ArgsScoped program (params.map names) (renameArgs names args)
  | [], _ => trivial
  | arg :: args, inScope =>
    ⟨scoped_rename arg inScope.1, argsScoped_renameArgs args inScope.2⟩

end

mutual

/-- A variable is found at the same place, and nothing else in the code depends on its name. -/
theorem code_rename (apart : Set.InjOn names {name | name ∈ params}) :
    ∀ (e : Expr) (labels : LabelSupply) (depth : Nat), e.Scoped program params →
      (e.rename names).code (params.map names) labels depth = e.code params labels depth
  | .number _, _, _, _ => rfl
  | .var name, _, _, member => by
    have place := idxOf_map apart member
    simp only [rename, code, place]
  | .binary op left right, labels, depth, inScope => by
    simp only [rename, code, conditionals_rename, code_rename apart left _ _ inScope.1,
      code_rename apart right _ _ inScope.2]
  | .conditional left right whenEqual otherwise, labels, depth, inScope => by
    obtain ⟨inLeft, inRight, inEqual, inOtherwise⟩ := inScope
    simp only [rename, code, conditionals_rename, code_rename apart left _ _ inLeft,
      code_rename apart right _ _ inRight, code_rename apart whenEqual _ _ inEqual,
      code_rename apart otherwise _ _ inOtherwise]
  | .call name args, labels, depth, inScope => by
    by_cases isPrint : name = printName
    · subst isPrint
      obtain ⟨arg, rfl⟩ : ∃ arg, args = [arg] := List.length_eq_one_iff.1 inScope.1
      rw [rename, renameArgs, renameArgs, code_print, code_print,
        code_rename apart arg labels depth inScope.2.1]
    · rw [rename, code_call isPrint, code_call isPrint,
        argsCode_renameArgs apart args labels depth inScope.2]

theorem argsCode_renameArgs (apart : Set.InjOn names {name | name ∈ params}) :
    ∀ (args : List Expr) (labels : LabelSupply) (depth : Nat), ArgsScoped program params args →
      argsCode (params.map names) labels depth (renameArgs names args) =
        argsCode params labels depth args
  | [], _, _, _ => rfl
  | arg :: args, labels, depth, inScope => by
    rw [renameArgs, argsCode, argsCode, totalConditionals_renameArgs,
      argsCode_renameArgs apart args labels depth inScope.2,
      code_rename apart arg _ depth inScope.1]

end

end Code

end Expr

/-! ## Functions -/

namespace Function

variable {function other : Function} {functions others : List Function} {program : Program}

namespace Renamed

theorem name_eq (renamed : function.Renamed other) : other.name = function.name := by
  obtain ⟨names, -, rfl⟩ := renamed
  rfl

theorem ofFunction_eq (renamed : function.Renamed other) :
    Frame.ofFunction other = Frame.ofFunction function := by
  obtain ⟨names, -, rfl⟩ := renamed
  simp only [Frame.ofFunction, rename, List.length_map, Expr.temps_rename]

theorem conditionals_eq (renamed : function.Renamed other) :
    other.body.conditionals = function.body.conditionals := by
  obtain ⟨names, -, rfl⟩ := renamed
  exact Expr.conditionals_rename function.body

theorem declarable (renamed : function.Renamed other) (declarable : function.Declarable) :
    other.Declarable where
  notPrint := by
    rw [renamed.name_eq]
    exact declarable.notPrint
  params := by
    obtain ⟨names, apart, rfl⟩ := renamed
    exact declarable.params.map_on apart
  words := by
    rw [renamed.ofFunction_eq]
    exact declarable.words

theorem body_scoped (renamed : function.Renamed other)
    (inScope : function.body.Scoped program function.params) :
    other.body.Scoped program other.params := by
  obtain ⟨names, -, rfl⟩ := renamed
  exact Expr.scoped_rename function.body inScope

theorem code_eq (renamed : function.Renamed other)
    (inScope : function.body.Scoped program function.params) (labels : LabelSupply)
    (frame : Frame) : other.code labels frame = function.code labels frame := by
  obtain ⟨names, apart, rfl⟩ := renamed
  have body := Expr.code_rename apart function.body labels 0 inScope
  simp only [Function.code, rename, body]

end Renamed

/-- What is the same for each function is the same for all of them. -/
theorem map_eq_of_renamed {α : Type} {view : Function → α}
    (renamed : List.Forall₂ Renamed functions others)
    (same : ∀ {f g : Function}, f.Renamed g → view g = view f) :
    others.map view = functions.map view := by
  induction renamed with
  | nil => rfl
  | cons here _ ih => rw [List.map_cons, List.map_cons, same here, ih]

/-- Every function was made from another one. -/
theorem exists_renamed_of_mem (renamed : List.Forall₂ Renamed functions others)
    (member : other ∈ others) : ∃ function ∈ functions, function.Renamed other := by
  induction renamed with
  | nil => cases member
  | cons here _ ih =>
    rcases List.mem_cons.1 member with rfl | later
    · exact ⟨_, List.mem_cons_self, here⟩
    · obtain ⟨function, found, renamed⟩ := ih later
      exact ⟨function, List.mem_cons_of_mem _ found, renamed⟩

theorem allCode_eq_of_renamed (renamed : List.Forall₂ Renamed functions others)
    (inScope : ∀ function ∈ functions, function.body.Scoped program function.params)
    (labels : LabelSupply) :
    allCode labels (others.map fun f => (f, Frame.ofFunction f)) =
      allCode labels (functions.map fun f => (f, Frame.ofFunction f)) := by
  induction renamed generalizing labels with
  | nil => rfl
  | cons here _ ih =>
    obtain ⟨inBody, inOthers⟩ := List.forall_mem_cons.1 inScope
    rw [List.map_cons, List.map_cons, allCode, allCode, here.ofFunction_eq, here.code_eq inBody,
      here.conditionals_eq, ih inOthers]

end Function

/-! ## Programs -/

namespace Program

variable {program other : Program}

namespace Renamed

theorem statements_eq (renamed : program.Renamed other) :
    other.statements = program.statements := by
  obtain ⟨decls⟩ := program
  obtain ⟨others⟩ := other
  change List.Forall₂ Decl.Renamed decls others at renamed
  change others.filterMap Decl.statement? = decls.filterMap Decl.statement?
  induction renamed with
  | nil => rfl
  | cons here _ ih =>
    cases here with
    | function => exact ih
    | statement e => exact congrArg (e :: ·) ih

theorem functions (renamed : program.Renamed other) :
    List.Forall₂ Function.Renamed program.functions other.functions := by
  obtain ⟨decls⟩ := program
  obtain ⟨others⟩ := other
  change List.Forall₂ Decl.Renamed decls others at renamed
  change List.Forall₂ Function.Renamed (decls.filterMap Decl.function?)
    (others.filterMap Decl.function?)
  induction renamed with
  | nil => exact .nil
  | cons here _ ih =>
    cases here with
    | function renamed => exact .cons renamed ih
    | statement => exact ih

theorem frames_eq (renamed : program.Renamed other) : other.frames = program.frames := by
  unfold Program.frames
  rw [renamed.statements_eq,
    Function.map_eq_of_renamed renamed.functions Function.Renamed.ofFunction_eq]

theorem declarable (renamed : program.Renamed other) (declarable : program.Declarable) :
    other.Declarable where
  functions function member := by
    obtain ⟨f, found, made⟩ := Function.exists_renamed_of_mem renamed.functions member
    exact made.declarable (declarable.functions f found)
  distinct := by
    rw [Function.map_eq_of_renamed renamed.functions Function.Renamed.name_eq]
    exact declarable.distinct
  main := by
    rw [renamed.statements_eq]
    exact declarable.main

/-- Calls are judged by the frames, and these are the same. -/
theorem scoped_iff (renamed : program.Renamed other) (scope : Scope) (e : Expr) :
    e.Scoped other scope.params ↔ e.Scoped program scope.params := by
  rw [← Expr.check_eq_ok_iff, renamed.frames_eq, Expr.check_eq_ok_iff]

theorem names_scoped (renamed : program.Renamed other) (inScope : program.Scoped) :
    other.Scoped where
  statements e member := by
    rw [renamed.statements_eq] at member
    exact (renamed.scoped_iff .topLevel e).2 (inScope.statements e member)
  bodies function member := by
    obtain ⟨f, found, made⟩ := Function.exists_renamed_of_mem renamed.functions member
    exact (renamed.scoped_iff (.body function) function.body).2
      (made.body_scoped (inScope.bodies f found))

theorem assembly_eq (renamed : program.Renamed other) (inScope : program.Scoped) :
    other.assembly = program.assembly := by
  unfold Program.assembly Assembly.ofParts
  rw [renamed.statements_eq,
    Function.allCode_eq_of_renamed renamed.functions inScope.bodies]

end Renamed

/-- A program that is accepted has the same frames and the same code when the parameters of each
function are given other names that tell them apart, whatever these names are. -/
theorem same_assembly_of_renamed {table : FrameTable} {assembly : Assembly}
    (framed : FrameTable.ofProgram program = .ok table)
    (assembled : program.assemble table = .ok assembly) (renamed : program.Renamed other) :
    FrameTable.ofProgram other = .ok table ∧ other.assemble table = .ok assembly := by
  obtain ⟨declarable, rfl⟩ := FrameTable.ofProgram_eq_ok_iff.1 framed
  obtain ⟨inScope, rfl⟩ := (assemble_frames_eq_ok_iff declarable).1 assembled
  have declarableOther := renamed.declarable declarable
  rw [FrameTable.ofProgram_eq_ok_iff, ← renamed.frames_eq,
    assemble_frames_eq_ok_iff declarableOther]
  exact ⟨⟨declarableOther, rfl⟩, renamed.names_scoped inScope, (renamed.assembly_eq inScope).symm⟩

end Program

/-- Adds the numbers up to the first parameter to the second one, and prints the sum. -/
def sumOf (count total : String) : Function where
  name := "sum"
  params := [count, total]
  body := .conditional (.var count) (.number 0) (.call "print" [.var total])
    (.call "sum" [.binary .minus (.var count) (.number 1), .binary .plus (.var total) (.var count)])

/-- Calls the function, which stands between two statements. Its parameters may be named like
itself and like the built-in, which it calls. -/
def shadowing (count total : String) : Program where
  decls :=
    [.statement (.call "sum" [.number 4, .number 0]), .function (sumOf count total),
      .statement (.call "sum" [.number 2, .number 1])]

theorem same_assembly_shadowing :
    ∃ table assembly, FrameTable.ofProgram (shadowing "print" "sum") = .ok table ∧
      (shadowing "print" "sum").assemble table = .ok assembly ∧
      FrameTable.ofProgram (shadowing "sum" "print") = .ok table ∧
      (shadowing "sum" "print").assemble table = .ok assembly ∧
      .lw .a0 8 .fp ∈ assembly.instructions ∧ .jal "sum_entry" ∈ assembly.instructions := by
  have exchanged : (sumOf "print" "sum").Renamed (sumOf "sum" "print") := by
    refine ⟨fun name => if name = "print" then "sum" else "print", ?_, by decide⟩
    intro a isParam b isOther equal
    have isParam : a = "print" ∨ a = "sum" := by simpa [sumOf] using isParam
    have isOther : b = "print" ∨ b = "sum" := by simpa [sumOf] using isOther
    grind
  have renamed : (shadowing "print" "sum").Renamed (shadowing "sum" "print") :=
    .cons (.statement _) (.cons (.function exchanged) (.cons (.statement _) .nil))
  have ⟨frames, code⟩ := Program.same_assembly_of_renamed rfl rfl renamed
  exact ⟨_, _, rfl, rfl, frames, code, by decide, by decide⟩

end FunMips
