import FunMips.Program.Spelling
import FunMips.Proofs.Program.Scoping

/-!
# The first name that means nothing

A program is visited node by node: all statements in order, then the bodies of all functions in
order; a node before its parts, the arguments of a call from the last to the first, and the branch
for unequal operands before the one for equal operands. Code is put together unless some node breaks
a rule of names (`Violates`), and the error is that of the first such node
(`Program.Declarable.assemble_frames_eq_error_iff`).
-/

namespace FunMips

namespace Expr

mutual

/-- An expression and all its parts, in the order in which they are visited. -/
def nodes : Expr → List Expr
  | .number value => [.number value]
  | .var name => [.var name]
  | .binary op left right => .binary op left right :: (left.nodes ++ right.nodes)
  | .conditional left right whenEqual otherwise =>
    .conditional left right whenEqual otherwise ::
      (left.nodes ++ (right.nodes ++ (otherwise.nodes ++ whenEqual.nodes)))
  | .call name args => .call name args :: argsNodes args

/-- The parts of arguments, those of the last one first. -/
def argsNodes : List Expr → List Expr
  | [] => []
  | arg :: args => argsNodes args ++ arg.nodes

end

end Expr

/-- A node breaks a rule of names, which the diagnostic reports. -/
inductive Violates (program : Program) : Scope → Expr → Diagnostic → Prop
  | outside (name : String) :
    Violates program .topLevel (.var name) (.variableOutsideFunction name)
  | unknownVariable {function : Function} {name : String} (missing : name ∉ function.params) :
    Violates program (.body function) (.var name) (.unknownVariable name function.name)
  | printArity {scope : Scope} {args : List Expr} (differ : args.length ≠ 1) :
    Violates program scope (.call printName args) (.argumentCount printName 1 args.length)
  | unknownFunction {scope : Scope} {name : String} {args : List Expr}
      (declared : name ≠ printName)
      (missing : ∀ function ∈ program.functions, function.name ≠ name) :
    Violates program scope (.call name args) (.unknownFunction name)
  | arity {scope : Scope} {name : String} {args : List Expr} {function : Function}
      (declared : name ≠ printName) (member : function ∈ program.functions)
      (named : function.name = name) (differ : args.length ≠ function.params.length) :
    Violates program scope (.call name args)
      (.argumentCount name function.params.length args.length)

namespace Program

/-- The nodes of a program with their scopes, in the order in which they are visited. -/
def visits (program : Program) : List (Scope × Expr) :=
  program.statements.flatMap (fun statement => statement.nodes.map (Scope.topLevel, ·)) ++
    program.functions.flatMap fun function => function.body.nodes.map (Scope.body function, ·)

/-- The diagnostic reports the first node that breaks a rule of names. -/
def FirstViolation (program : Program) (diagnostic : Diagnostic) : Prop :=
  ∃ before scope node after, program.visits = before ++ (scope, node) :: after ∧
    (∀ visit ∈ before, ∀ other, ¬ Violates program visit.1 visit.2 other) ∧
    Violates program scope node diagnostic

/-- Every name in the program means something, said of its nodes. -/
structure NamesResolve (program : Program) : Prop where
  statements : ∀ statement ∈ program.statements, ∀ name, .var name ∉ statement.nodes
  bodies : ∀ function ∈ program.functions, ∀ name,
    .var name ∈ function.body.nodes → name ∈ function.params
  prints : ∀ decl ∈ program.decls, ∀ args,
    .call printName args ∈ decl.expr.nodes → args.length = 1
  calls : ∀ decl ∈ program.decls, ∀ name args, name ≠ printName →
    .call name args ∈ decl.expr.nodes →
      ∃ function ∈ program.functions, function.name = name ∧ args.length = function.params.length

end Program

/-! ## Single nodes -/

/-- Checks a node alone, without its parts. -/
def FrameTable.checkNode (table : FrameTable) (scope : Scope) : Expr → Except Diagnostic Unit
  | .var name => scope.checkVar name
  | .call name args => table.checkCall name args.length
  | _ => .ok ()

theorem Scope.checkVar_eq_error_iff {program : Program} {scope : Scope} {name : String}
    {diagnostic : Diagnostic} :
    scope.checkVar name = .error diagnostic ↔ Violates program scope (.var name) diagnostic := by
  cases scope with
  | topLevel =>
    constructor
    · intro h
      cases h
      exact .outside name
    · intro h
      cases h
      rfl
  | body function =>
    have found : function.paramIndex? name = none ↔ name ∉ function.params :=
      List.idxOf?_eq_none_iff
    cases index : function.paramIndex? name with
    | none =>
      simp only [checkVar, index]
      constructor
      · intro h
        cases h
        exact .unknownVariable (found.1 index)
      · intro h
        cases h
        rfl
    | some _ =>
      simp only [checkVar, index]
      constructor
      · intro h
        cases h
      · intro h
        cases h with
        | unknownVariable missing => simp [found.2 missing] at index

theorem checkArity_eq_error_iff {name : String} {expected found : Nat} {diagnostic : Diagnostic} :
    checkArity name expected found = .error diagnostic ↔
      found ≠ expected ∧ diagnostic = .argumentCount name expected found := by
  unfold checkArity
  split
  · next equal => simp [equal]
  · next differ => simp [Ne.symm differ, eq_comm]

namespace Program

variable {program : Program}

/-- A function of the program is the one its name stands for; other names stand for none. -/
theorem Declarable.checkCall_eq_error_iff (declarable : program.Declarable) {scope : Scope}
    {name : String} {args : List Expr} {diagnostic : Diagnostic} :
    program.frames.checkCall name args.length = .error diagnostic ↔
      Violates program scope (.call name args) diagnostic := by
  unfold FrameTable.checkCall
  by_cases isPrint : name = printName
  · subst isPrint
    rw [if_pos rfl, checkArity_eq_error_iff]
    constructor
    · rintro ⟨differ, rfl⟩
      exact .printArity differ
    · intro h
      cases h with
      | printArity differ => exact ⟨differ, rfl⟩
      | unknownFunction declared => exact absurd rfl declared
      | arity declared => exact absurd rfl declared
  · rw [if_neg isPrint, program.get?_frames]
    cases found : program.function? name with
    | none =>
      have missing : ∀ function ∈ program.functions, function.name ≠ name := by
        simpa [function?] using found
      constructor
      · intro h
        cases h
        exact .unknownFunction isPrint missing
      · intro h
        cases h with
        | printArity => exact absurd rfl isPrint
        | unknownFunction => rfl
        | arity _ member named => exact absurd named (missing _ member)
    | some function =>
      obtain ⟨member, named⟩ := mem_of_function? found
      show checkArity name function.params.length args.length = .error diagnostic ↔ _
      rw [checkArity_eq_error_iff]
      constructor
      · rintro ⟨differ, rfl⟩
        exact .arity isPrint member named differ
      · intro h
        cases h with
        | printArity => exact absurd rfl isPrint
        | unknownFunction _ missing => exact absurd named (missing function member)
        | arity _ other same differ =>
          have unique := declarable.function?_eq other
          rw [same, found] at unique
          cases unique
          exact ⟨differ, rfl⟩

theorem Declarable.checkNode_eq_error_iff (declarable : program.Declarable) {scope : Scope}
    {node : Expr} {diagnostic : Diagnostic} :
    program.frames.checkNode scope node = .error diagnostic ↔
      Violates program scope node diagnostic := by
  cases node with
  | var name => exact Scope.checkVar_eq_error_iff
  | call name args => exact declarable.checkCall_eq_error_iff
  | _ =>
    -- the other nodes have no name of their own
    constructor
    · intro h
      cases h
    · intro h
      cases h

theorem Declarable.checkNode_eq_ok_iff (declarable : program.Declarable) {scope : Scope}
    {node : Expr} :
    program.frames.checkNode scope node = .ok () ↔
      ∀ diagnostic, ¬ Violates program scope node diagnostic := by
  constructor
  · intro checked diagnostic violates
    cases checked.symm.trans (declarable.checkNode_eq_error_iff.2 violates)
  · intro none
    cases checked : program.frames.checkNode scope node with
    | ok => rfl
    | error diagnostic =>
      exact absurd (declarable.checkNode_eq_error_iff.1 checked) (none diagnostic)

end Program

/-! ## Whole expressions -/

namespace Expr

mutual

/-- An expression is checked node by node. -/
theorem check_eq_forM (table : FrameTable) (scope : Scope) :
    ∀ e : Expr, e.check table scope = e.nodes.forM (table.checkNode scope)
  | .number _ => rfl
  | .var name => by
    simp only [check, nodes, FrameTable.checkNode, List.forM_eq_forM, List.forM_cons,
      List.forM_nil]
    exact (bind_pure (scope.checkVar name)).symm
  | .binary op left right => by
    simp only [check, nodes, check_eq_forM table scope left, check_eq_forM table scope right,
      List.forM_eq_forM, List.forM_cons, List.forM_append]
    rfl
  | .conditional left right whenEqual otherwise => by
    simp only [check, nodes, check_eq_forM table scope left, check_eq_forM table scope right,
      check_eq_forM table scope whenEqual, check_eq_forM table scope otherwise,
      List.forM_eq_forM, List.forM_cons, List.forM_append]
    rfl
  | .call name args => by
    simp only [check, nodes, checkArgs_eq_forM table scope args, List.forM_eq_forM,
      List.forM_cons]
    rfl

theorem checkArgs_eq_forM (table : FrameTable) (scope : Scope) :
    ∀ args : List Expr, checkArgs table scope args = (argsNodes args).forM (table.checkNode scope)
  | [] => rfl
  | arg :: args => by
    simp only [checkArgs, argsNodes, checkArgs_eq_forM table scope args,
      check_eq_forM table scope arg, List.forM_eq_forM, List.forM_append]

end

end Expr

/-! ## Whole programs -/

namespace Program

variable {program : Program}

/-- The statements are checked in order, and after them the bodies of the functions. -/
theorem forM_visits (table : FrameTable) :
    program.visits.forM (fun visit => table.checkNode visit.1 visit.2) =
      (do
        program.statements.forM (Expr.check table .topLevel)
        program.functions.forM fun function => function.body.check table (.body function)) := by
  have parts (scope : Scope) (e : Expr) :
      (e.nodes.map (scope, ·)).forM (fun visit => table.checkNode visit.1 visit.2) =
        e.check table scope := by
    rw [e.check_eq_forM]
    exact List.forM_map
  have statements := forM_flatMap (fun visit => table.checkNode visit.1 visit.2)
    (fun statement => statement.nodes.map (Scope.topLevel, ·)) program.statements
  have bodies := forM_flatMap (fun visit => table.checkNode visit.1 visit.2)
    (fun function => function.body.nodes.map (Scope.body function, ·)) program.functions
  simp only [parts, List.forM_eq_forM] at statements bodies
  simp only [visits, List.forM_eq_forM, List.forM_append, statements, bodies]

/-- Code is put together once every node has been checked. -/
theorem Declarable.assemble_frames_eq (declarable : program.Declarable) :
    program.assemble program.frames =
      (program.visits.forM fun visit => program.frames.checkNode visit.1 visit.2) >>= fun _ =>
        .ok program.assembly := by
  have bodies : program.functions.mapM (Function.checkedFrame program.frames) =
      (program.functions.forM fun function => function.body.check program.frames
        (.body function)) >>= fun _ => .ok (program.functions.map Frame.ofFunction) := by
    refine mapM_eq_forM fun function member => ?_
    have recorded : program.frames.lookup function.name = .ok (Frame.ofFunction function) := by
      rw [FrameTable.lookup, program.get?_frames, declarable.function?_eq member]
      rfl
    rw [Function.checkedFrame, recorded]
    rfl
  have paired : program.functions.zip (program.functions.map Frame.ofFunction) =
      program.functions.map fun function => (function, Frame.ofFunction function) := by
    simpa using List.zip_map' (f := id) (g := Frame.ofFunction) (l := program.functions)
  have main : program.frames.main = .ok (Frame.ofStatements program.statements) := rfl
  rw [forM_visits, assemble_eq, bodies]
  simp only [main, ok_bind, bind_assoc, paired]
  rfl

/-- Of several nodes that break a rule, the first one visited is reported. -/
theorem Declarable.assemble_frames_eq_error_iff (declarable : program.Declarable)
    {diagnostic : Diagnostic} :
    program.assemble program.frames = .error diagnostic ↔ program.FirstViolation diagnostic := by
  have refused : program.assemble program.frames = .error diagnostic ↔
      (program.visits.forM fun visit => program.frames.checkNode visit.1 visit.2) =
        .error diagnostic := by
    rw [declarable.assemble_frames_eq, bind_eq_error_iff]
    simp
  rw [refused, forM_eq_error_iff]
  constructor
  · rintro ⟨before, ⟨scope, node⟩, after, equal, earlier, here⟩
    exact ⟨before, scope, node, after, equal,
      fun visit member => declarable.checkNode_eq_ok_iff.1 (earlier visit member),
      declarable.checkNode_eq_error_iff.1 here⟩
  · rintro ⟨before, scope, node, after, equal, earlier, here⟩
    exact ⟨before, (scope, node), after, equal,
      fun visit member => declarable.checkNode_eq_ok_iff.2 (earlier visit member),
      declarable.checkNode_eq_error_iff.2 here⟩

theorem mem_visits {scope : Scope} {node : Expr} :
    (scope, node) ∈ program.visits ↔
      (scope = .topLevel ∧ ∃ statement ∈ program.statements, node ∈ statement.nodes) ∨
        ∃ function ∈ program.functions, scope = .body function ∧ node ∈ function.body.nodes := by
  simp only [visits, List.mem_append, List.mem_flatMap, List.mem_map, Prod.mk.injEq]
  constructor
  · rintro (⟨statement, member, _, inside, rfl, rfl⟩ | ⟨function, member, _, inside, rfl, rfl⟩)
    · exact .inl ⟨rfl, statement, member, inside⟩
    · exact .inr ⟨function, member, rfl, inside⟩
  · rintro (⟨rfl, statement, member, inside⟩ | ⟨function, member, rfl, inside⟩)
    · exact .inl ⟨statement, member, node, inside, rfl, rfl⟩
    · exact .inr ⟨function, member, node, inside, rfl, rfl⟩

theorem mem_statements {e : Expr} : e ∈ program.statements ↔ .statement e ∈ program.decls := by
  unfold statements
  rw [List.mem_filterMap]
  constructor
  · rintro ⟨decl, member, equal⟩
    cases decl with
    | function => cases equal
    | statement => cases equal; exact member
  · intro member
    exact ⟨_, member, rfl⟩

theorem mem_functions {function : Function} :
    function ∈ program.functions ↔ .function function ∈ program.decls := by
  unfold functions
  rw [List.mem_filterMap]
  constructor
  · rintro ⟨decl, member, equal⟩
    cases decl with
    | function => cases equal; exact member
    | statement => cases equal
  · intro member
    exact ⟨_, member, rfl⟩

/-- The nodes that are visited are those of the declarations. -/
theorem exists_visit_iff {node : Expr} :
    (∃ scope, (scope, node) ∈ program.visits) ↔ ∃ decl ∈ program.decls, node ∈ decl.expr.nodes := by
  constructor
  · rintro ⟨scope, visited⟩
    rcases mem_visits.1 visited with
      ⟨-, statement, member, inside⟩ | ⟨function, member, -, inside⟩
    · exact ⟨_, mem_statements.1 member, inside⟩
    · exact ⟨_, mem_functions.1 member, inside⟩
  · rintro ⟨decl, member, inside⟩
    cases decl with
    | function function =>
      exact ⟨_, mem_visits.2 (.inr ⟨function, mem_functions.2 member, rfl, inside⟩)⟩
    | statement e => exact ⟨_, mem_visits.2 (.inl ⟨rfl, e, mem_statements.2 member, inside⟩)⟩

/-- All names mean something exactly if no node that is visited breaks a rule. -/
theorem Declarable.namesResolve_iff (declarable : program.Declarable) :
    program.NamesResolve ↔
      ∀ visit ∈ program.visits, ∀ diagnostic, ¬ Violates program visit.1 visit.2 diagnostic := by
  constructor
  · rintro names ⟨scope, node⟩ visited diagnostic violates
    obtain ⟨decl, member, inside⟩ := exists_visit_iff.1 ⟨scope, visited⟩
    cases violates with
    | outside name =>
      rcases mem_visits.1 visited with ⟨-, statement, found, here⟩ | ⟨_, _, impossible, _⟩
      · exact names.statements statement found name here
      · cases impossible
    | unknownVariable missing =>
      rcases mem_visits.1 visited with ⟨impossible, _⟩ | ⟨function, found, equal, here⟩
      · cases impossible
      · cases equal
        exact missing (names.bodies _ found _ here)
    | printArity differ => exact differ (names.prints decl member _ inside)
    | unknownFunction declared missing =>
      obtain ⟨function, found, named, -⟩ := names.calls decl member _ _ declared inside
      exact missing function found named
    | arity declared found named differ =>
      obtain ⟨other, also, same, enough⟩ := names.calls decl member _ _ declared inside
      have first := declarable.function?_eq found
      have second := declarable.function?_eq also
      rw [named] at first
      rw [same, first] at second
      cases second
      exact differ enough
  · intro none
    have noViolation {decl : Decl} (member : decl ∈ program.decls) {node : Expr}
        (inside : node ∈ decl.expr.nodes) :
        ∃ scope, ∀ diagnostic, ¬ Violates program scope node diagnostic := by
      obtain ⟨scope, visited⟩ := exists_visit_iff.2 ⟨decl, member, inside⟩
      exact ⟨scope, none _ visited⟩
    refine ⟨?_, ?_, ?_, ?_⟩
    · intro statement member name inside
      exact none _ (mem_visits.2 (.inl ⟨rfl, statement, member, inside⟩)) _ (.outside name)
    · intro function member name inside
      refine Classical.byContradiction fun missing => ?_
      exact none _ (mem_visits.2 (.inr ⟨function, member, rfl, inside⟩)) _
        (.unknownVariable missing)
    · intro decl member args inside
      obtain ⟨scope, free⟩ := noViolation member inside
      refine Classical.byContradiction fun differ => ?_
      exact free _ (.printArity differ)
    · intro decl member name args declared inside
      obtain ⟨scope, free⟩ := noViolation member inside
      by_cases found : ∃ function ∈ program.functions, function.name = name
      · obtain ⟨function, here, named⟩ := found
        refine ⟨function, here, named, ?_⟩
        refine Classical.byContradiction fun differ => ?_
        exact free _ (.arity declared here named differ)
      · refine absurd (Violates.unknownFunction declared ?_) (free _)
        intro function here named
        exact found ⟨function, here, named⟩

/-- Code is put together exactly if all names mean something. -/
theorem Declarable.exists_assemble_frames_eq_ok_iff (declarable : program.Declarable) :
    (∃ assembly, program.assemble program.frames = .ok assembly) ↔ program.NamesResolve := by
  rw [declarable.namesResolve_iff, declarable.assemble_frames_eq]
  constructor
  · rintro ⟨assembly, h⟩ visit member
    have checked := forM_eq_ok_iff.1 (andThen_eq_ok_iff.1 h).1
    exact declarable.checkNode_eq_ok_iff.1 (checked visit member)
  · intro none
    refine ⟨program.assembly, andThen_eq_ok_iff.2 ⟨forM_eq_ok_iff.2 fun visit member => ?_, rfl⟩⟩
    exact declarable.checkNode_eq_ok_iff.2 (none visit member)

end Program

end FunMips
