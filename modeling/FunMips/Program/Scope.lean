import FunMips.Frame

/-!
# Names in scope

A variable has to be a parameter of the function it stands in, and a call has to give a declared
function as many arguments as it has parameters. Of several faults the first one met is reported,
and the parts of an expression are visited in the order of their code: the arguments of a call
from the last to the first, and the branch for unequal operands before the one for equal operands.
-/

namespace FunMips

/-- Where an expression stands. -/
inductive Scope
  | topLevel
  | body (function : Function)
deriving Repr

namespace Scope

/-- The parameters that can be named. -/
def params : Scope → List String
  | topLevel => []
  | body function => function.params

/-- Refuses a variable that is not in scope, as `emit_expr` does where it meets one. -/
def checkVar (scope : Scope) (name : String) : Except Diagnostic Unit :=
  match scope with
  | topLevel => .error (.variableOutsideFunction name)
  | body function =>
    match function.paramIndex? name with
    | some _ => .ok ()
    | none => .error (.unknownVariable name function.name)

end Scope

/-- Refuses a number of arguments other than the expected one. -/
def checkArity (name : String) (expected found : Nat) : Except Diagnostic Unit :=
  if expected = found then .ok () else .error (.argumentCount name expected found)

/-- Refuses a call of an unknown function, or with the wrong number of arguments, as `emit_expr`
does before it emits the arguments. The built-in takes one. -/
def FrameTable.checkCall (table : FrameTable) (name : String) (found : Nat) :
    Except Diagnostic Unit :=
  if name = printName then checkArity name 1 found
  else
    match table.get? name with
    | some frame => checkArity name frame.params found
    | none => .error (.unknownFunction name)

namespace Expr

mutual

/-- Refuses an expression for the first variable or call in it that is not in scope. -/
def check (table : FrameTable) (scope : Scope) : Expr → Except Diagnostic Unit
  | .number _ => .ok ()
  | .var name => scope.checkVar name
  | .binary _ left right => do
    left.check table scope
    right.check table scope
  | .conditional left right whenEqual otherwise => do
    left.check table scope
    right.check table scope
    otherwise.check table scope
    whenEqual.check table scope
  | .call name args => do
    table.checkCall name args.length
    checkArgs table scope args

/-- Checks arguments, the last one first. -/
def checkArgs (table : FrameTable) (scope : Scope) : List Expr → Except Diagnostic Unit
  | [] => .ok ()
  | arg :: args => do
    checkArgs table scope args
    arg.check table scope

end

end Expr

end FunMips
