import FunMips.Proofs.Assembly.Layout
import FunMips.Proofs.Program.Violations

/-!
# Where the parts of an expression stand

The code of an expression holds the code of each of its parts, and so the code of a program holds
that of every node of the program. `Program.sites` lists the nodes with the positions of their code
and with how many slots are in use there; they are the nodes that `Program.visits` lists
(`Program.map_sites`), and the code of each stands where the list says (`Program.fits_sites`).
-/

namespace FunMips

/-- A place where code of an expression stands. -/
structure Site where
  /-- Position of the first instruction. -/
  position : Nat
  /-- The labels that are free there. -/
  labels : LabelSupply
  /-- The slots that are in use there. -/
  depth : Nat
  expr : Expr

/-- The code at the site, in a body with the given parameters. -/
def Site.code (params : List String) (site : Site) : List Instruction :=
  site.expr.code params site.labels site.depth

/-- The code stands at the site, its names are in scope, and the frame has room for the slots in use
and those it needs. -/
structure Site.Fits (program : Program) (code : List Instruction) (params : List String)
    (slots : Nat) (site : Site) : Prop where
  placed : Placed program code site.position (site.code params)
  names : site.expr.Scoped program params
  room : site.depth + site.expr.temps ≤ slots

namespace Expr

mutual

/-- The sites of an expression and its parts, in the order of `Expr.nodes`. -/
def sites (params : List String) (position : Nat) (labels : LabelSupply) (depth : Nat) :
    Expr → List Site
  | .number value => [⟨position, labels, depth, .number value⟩]
  | .var name => [⟨position, labels, depth, .var name⟩]
  | .binary op left right =>
    ⟨position, labels, depth, .binary op left right⟩ ::
      (left.sites params position labels depth ++
        right.sites params (position + (left.code params labels depth).length + 1)
          (labels.skip left.conditionals) (depth + 1))
  | .conditional left right whenEqual otherwise =>
    let forLeft := labels.skip 1
    let forRight := forLeft.skip left.conditionals
    let forOtherwise := forRight.skip right.conditionals
    let forEqual := forOtherwise.skip otherwise.conditionals
    let atRight := position + (left.code params forLeft depth).length + 1
    let atOtherwise := atRight + (right.code params forRight (depth + 1)).length + 2
    let atEqual := atOtherwise + (otherwise.code params forOtherwise depth).length + 2
    ⟨position, labels, depth, .conditional left right whenEqual otherwise⟩ ::
      (left.sites params position forLeft depth ++
        (right.sites params atRight forRight (depth + 1) ++
          (otherwise.sites params atOtherwise forOtherwise depth ++
            whenEqual.sites params atEqual forEqual depth)))
  | .call name args =>
    ⟨position, labels, depth, .call name args⟩ ::
      if name = printName then
        match args with
        | [arg] => arg.sites params position labels depth
        | _ => []
      else argsSites params (position + (pushCode .fp).length) labels depth args

/-- The sites of arguments, those of the last one first. -/
def argsSites (params : List String) (position : Nat) (labels : LabelSupply) (depth : Nat) :
    List Expr → List Site
  | [] => []
  | arg :: args =>
    argsSites params position labels depth args ++
      arg.sites params (position + (argsCode params labels depth args).length)
        (labels.skip (totalConditionals args)) depth

end

theorem sites_print (params : List String) (position : Nat) (labels : LabelSupply) (depth : Nat)
    (arg : Expr) :
    (Expr.call printName [arg]).sites params position labels depth =
      ⟨position, labels, depth, .call printName [arg]⟩ ::
        arg.sites params position labels depth := by
  simp [sites]

theorem sites_call {name : String} (declared : name ≠ printName) (params : List String)
    (position : Nat) (labels : LabelSupply) (depth : Nat) (args : List Expr) :
    (Expr.call name args).sites params position labels depth =
      ⟨position, labels, depth, .call name args⟩ ::
        argsSites params (position + (pushCode .fp).length) labels depth args := by
  unfold sites
  rw [if_neg declared]

section Parts

variable {program : Program} {params : List String}

mutual

/-- Every part of an expression has its site. -/
theorem map_sites : ∀ (e : Expr) (position : Nat) (labels : LabelSupply) (depth : Nat),
    e.Scoped program params → (e.sites params position labels depth).map Site.expr = e.nodes
  | .number _, _, _, _, _ => rfl
  | .var _, _, _, _, _ => rfl
  | .binary op left right, position, labels, depth, names => by
    simp only [sites, nodes, List.map_cons, List.map_append, map_sites left _ _ _ names.1,
      map_sites right _ _ _ names.2]
  | .conditional left right whenEqual otherwise, position, labels, depth, names => by
    obtain ⟨inLeft, inRight, inEqual, inOtherwise⟩ := names
    simp only [sites, nodes, List.map_cons, List.map_append, map_sites left _ _ _ inLeft,
      map_sites right _ _ _ inRight, map_sites whenEqual _ _ _ inEqual,
      map_sites otherwise _ _ _ inOtherwise]
  | .call name args, position, labels, depth, names => by
    by_cases isPrint : name = printName
    · subst isPrint
      obtain ⟨arg, rfl⟩ : ∃ arg, args = [arg] := List.length_eq_one_iff.1 names.1
      rw [sites_print, List.map_cons, map_sites arg _ _ _ names.2.1]
      rfl
    · rw [sites_call isPrint, List.map_cons, map_argsSites args _ _ _ names.2]
      rfl

theorem map_argsSites : ∀ (args : List Expr) (position : Nat) (labels : LabelSupply) (depth : Nat),
    ArgsScoped program params args →
      (argsSites params position labels depth args).map Site.expr = argsNodes args
  | [], _, _, _, _ => rfl
  | arg :: args, position, labels, depth, names => by
    rw [argsSites, argsNodes, List.map_append, map_argsSites args _ _ _ names.2,
      map_sites arg _ _ _ names.1]

end

variable {code : List Instruction} {slots : Nat}

mutual

/-- Where the code of an expression stands, that of its parts stands at their sites. -/
theorem fits_sites : ∀ (e : Expr) (position : Nat) (labels : LabelSupply) (depth : Nat),
    Placed program code position (e.code params labels depth) → e.Scoped program params →
      depth + e.temps ≤ slots →
      ∀ site ∈ e.sites params position labels depth, site.Fits program code params slots
  | .number _, _, _, _, placed, names, room =>
    List.forall_mem_singleton.2 ⟨placed, names, room⟩
  | .var _, _, _, _, placed, names, room => List.forall_mem_singleton.2 ⟨placed, names, room⟩
  | .binary op left right, position, labels, depth, placed, names, room => by
    have most : (Expr.binary op left right).temps = max left.temps (right.temps + 1) := rfl
    have onLeft := fits_sites left position labels depth placed.left.left names.1 (by omega)
    have onRight := fits_sites right _ _ (depth + 1) placed.left.right.tail names.2 (by omega)
    simp only [sites, List.forall_mem_cons, List.forall_mem_append]
    exact ⟨⟨placed, names, room⟩, onLeft, onRight⟩
  | .conditional left right whenEqual otherwise, position, labels, depth, placed, names, room => by
    have most : (Expr.conditional left right whenEqual otherwise).temps =
        max (max (max left.temps (right.temps + 1)) whenEqual.temps) otherwise.temps := rfl
    obtain ⟨inLeft, inRight, inEqual, inOtherwise⟩ := names
    have onLeft := fits_sites left position (labels.skip 1) depth placed.left.left.left.left inLeft
      (by omega)
    have onRight := fits_sites right _ _ (depth + 1) placed.left.left.left.right.tail inRight
      (by omega)
    simp only [sites, List.forall_mem_cons, List.forall_mem_append]
    -- the branches stand after more than one part, whose lengths are to be added up
    refine ⟨⟨placed, ⟨inLeft, inRight, inEqual, inOtherwise⟩, room⟩, onLeft, onRight, ?_, ?_⟩
    · refine fits_sites otherwise _ _ depth ?_ inOtherwise (by omega)
      apply placed.left.left.right.tail.tail.of_eq
      simp only [List.length_append, List.length_cons]
      omega
    · refine fits_sites whenEqual _ _ depth ?_ inEqual (by omega)
      apply placed.left.right.tail.tail.of_eq
      simp only [List.length_append, List.length_cons]
      omega
  | .call name args, position, labels, depth, placed, names, room => by
    by_cases isPrint : name = printName
    · subst isPrint
      obtain ⟨arg, rfl⟩ : ∃ arg, args = [arg] := List.length_eq_one_iff.1 names.1
      have most : (Expr.call printName [arg]).temps = arg.temps := Nat.max_zero _
      have parts := placed
      rw [code_print] at parts
      have onArg := fits_sites arg position labels depth parts.left names.2.1 (by omega)
      rw [sites_print, List.forall_mem_cons]
      exact ⟨⟨placed, names, room⟩, onArg⟩
    · have parts := placed
      rw [code_call isPrint] at parts
      have onArgs := fits_argsSites args _ labels depth parts.left.right names.2 room
      rw [sites_call isPrint, List.forall_mem_cons]
      exact ⟨⟨placed, names, room⟩, onArgs⟩

theorem fits_argsSites : ∀ (args : List Expr) (position : Nat) (labels : LabelSupply) (depth : Nat),
    Placed program code position (argsCode params labels depth args) →
      ArgsScoped program params args → depth + maxTemps args ≤ slots →
      ∀ site ∈ argsSites params position labels depth args, site.Fits program code params slots
  | [], _, _, _, _, _, _ => by simp [argsSites]
  | arg :: args, position, labels, depth, placed, names, room => by
    have most : maxTemps (arg :: args) = max arg.temps (maxTemps args) := rfl
    have onArgs := fits_argsSites args position labels depth placed.left.left names.2 (by omega)
    have onArg := fits_sites arg _ _ depth placed.left.right names.1 (by omega)
    rw [argsSites, List.forall_mem_append]
    exact ⟨onArgs, onArg⟩

end

end Parts

/-- The sites of statements, one after the other. -/
def statementsSites (position : Nat) (labels : LabelSupply) : List Expr → List Site
  | [] => []
  | e :: exprs =>
    e.sites [] position labels 0 ++
      statementsSites (position + (e.code [] labels 0).length) (labels.skip e.conditionals) exprs

section Statements

variable {program : Program} (statements : List Expr) (position : Nat) (labels : LabelSupply)

theorem map_statementsSites (names : ∀ statement ∈ statements, statement.Scoped program []) :
    (statementsSites position labels statements).map Site.expr = statements.flatMap nodes := by
  induction statements generalizing position labels with
  | nil => rfl
  | cons statement statements ih =>
    obtain ⟨here, later⟩ := List.forall_mem_cons.1 names
    rw [statementsSites, List.map_append, map_sites statement _ _ _ here, ih _ _ later,
      List.flatMap_cons]

theorem fits_statementsSites {code : List Instruction} {slots : Nat}
    (names : ∀ statement ∈ statements, statement.Scoped program [])
    (placed : Placed program code position (statementsCode labels statements))
    (room : maxTemps statements ≤ slots) :
    ∀ site ∈ statementsSites position labels statements, site.Fits program code [] slots := by
  induction statements generalizing position labels with
  | nil => simp [statementsSites]
  | cons statement statements ih =>
    obtain ⟨here, later⟩ := List.forall_mem_cons.1 names
    have most : maxTemps (statement :: statements) = max statement.temps (maxTemps statements) :=
      rfl
    rw [statementsSites, List.forall_mem_append]
    exact ⟨fits_sites statement position labels 0 placed.left here (by omega),
      ih _ _ later placed.right (by omega)⟩

end Statements

end Expr

namespace Function

/-- The sites of the bodies of functions, one after the other. -/
def bodiesSites (position : Nat) (labels : LabelSupply) : List Function → List (Scope × Site)
  | [] => []
  | function :: functions =>
    (function.body.sites function.params
      (position + 1 + (Frame.ofFunction function).openCode.length) labels 0).map
        (Scope.body function, ·) ++
      bodiesSites (position + (function.code labels (Frame.ofFunction function)).length)
        (labels.skip function.body.conditionals) functions

variable {program : Program} (functions : List Function) (position : Nat) (labels : LabelSupply)

theorem map_bodiesSites
    (names : ∀ function ∈ functions, function.body.Scoped program function.params) :
    (bodiesSites position labels functions).map (fun entry => (entry.1, entry.2.expr)) =
      functions.flatMap fun function => function.body.nodes.map (Scope.body function, ·) := by
  induction functions generalizing position labels with
  | nil => rfl
  | cons function functions ih =>
    obtain ⟨here, later⟩ := List.forall_mem_cons.1 names
    rw [bodiesSites, List.map_append, List.map_map, ih _ _ later, List.flatMap_cons,
      ← Expr.map_sites function.body _ _ _ here, List.map_map]
    rfl

theorem fits_bodiesSites {code : List Instruction}
    (names : ∀ function ∈ functions, function.body.Scoped program function.params)
    (installed : CodeAt code position
      (allCode labels (functions.map fun function => (function, Frame.ofFunction function)))) :
    ∀ entry ∈ bodiesSites position labels functions, ∃ function ∈ functions,
      entry.1 = .body function ∧
        entry.2.Fits program code function.params function.body.temps := by
  induction functions generalizing position labels with
  | nil => simp [bodiesSites]
  | cons function functions ih =>
    obtain ⟨here, later⟩ := List.forall_mem_cons.1 names
    obtain ⟨first, others⟩ := codeAt_append.1 installed
    obtain ⟨-, placed, -⟩ := placed_of_codeAt here first
    have onBody := Expr.fits_sites function.body _ labels 0 placed.left.right here
      (Nat.le_of_eq (Nat.zero_add _))
    rw [bodiesSites, List.forall_mem_append]
    constructor
    · intro entry member
      obtain ⟨site, inside, rfl⟩ := List.mem_map.1 member
      exact ⟨function, List.mem_cons_self, rfl, onBody site inside⟩
    · intro entry member
      obtain ⟨other, listed, fits⟩ := ih _ _ later others entry member
      exact ⟨other, List.mem_cons_of_mem _ listed, fits⟩

end Function

namespace Program

/-- The frame of the expressions in a scope. -/
def frameOf (program : Program) : Scope → Frame
  | .topLevel => Frame.ofStatements program.statements
  | .body function => Frame.ofFunction function

/-- The code of a program up to its first function. -/
def frontCode (program : Program) : List Instruction :=
  preamble ++ (Frame.ofStatements program.statements).openCode ++
    Expr.statementsCode {} program.statements ++ exitCode

/-- The sites of all nodes of a program in its code, with their scopes. -/
def sites (program : Program) : List (Scope × Site) :=
  (Expr.statementsSites
    (preamble.length + (Frame.ofStatements program.statements).openCode.length) {}
    program.statements).map (Scope.topLevel, ·) ++
  Function.bodiesSites program.frontCode.length ⟨Expr.totalConditionals program.statements⟩
    program.functions

variable {program : Program}

/-- Every node of a program has its site, and there are no others. -/
theorem map_sites (names : program.Scoped) :
    program.sites.map (fun entry => (entry.1, entry.2.expr)) = program.visits := by
  rw [sites, List.map_append, Function.map_bodiesSites _ _ _ names.bodies, List.map_map, visits,
    ← List.map_flatMap, ← Expr.map_statementsSites _ _ _ names.statements, List.map_map]
  rfl

/-- The code of every node stands at its site. -/
theorem fits_sites (names : program.Scoped) {scope : Scope} {site : Site}
    (member : (scope, site) ∈ program.sites) :
    site.Fits program program.assembly.instructions scope.params
      (program.frameOf scope).tempSlots := by
  rcases List.mem_append.1 member with atTop | inBody
  · obtain ⟨_, inside, equal⟩ := List.mem_map.1 atTop
    cases equal
    exact Expr.fits_statementsSites _ _ _ names.statements
      (placed_mainCode names).1.left.right (Nat.le_refl _) site inside
  · have installed : CodeAt program.assembly.instructions program.frontCode.length
        (Function.allCode ⟨Expr.totalConditionals program.statements⟩
          (program.functions.map fun function => (function, Frame.ofFunction function))) := by
      refine ⟨[], ?_⟩
      rw [List.append_nil, assembly, Assembly.ofParts, frontCode, List.drop_left]
    obtain ⟨function, -, inScope, fits⟩ :=
      Function.fits_bodiesSites _ _ _ names.bodies installed _ inBody
    cases inScope
    exact fits

end Program

end FunMips
