/-!
# Programs

A program is a list of declarations: functions, and expression statements that run from top
to bottom. Functions may be called before they are declared.
-/

namespace FunMips

/-- Operators between two operands (`BinaryOp`). -/
inductive BinOp
  | plus
  | minus
deriving Repr, DecidableEq

/-- Expressions. -/
inductive Expr
  | number (value : Int32)
  | var (name : String)
  | binary (op : BinOp) (left right : Expr)
  /-- Compares its first two parts; takes the third if they are equal and else the fourth. -/
  | conditional (left right whenEqual otherwise : Expr)
  | call (name : String) (args : List Expr)
deriving Repr

namespace Expr

mutual

/-- Whether two expressions are the same tree. -/
def same : Expr → Expr → Bool
  | .number v, .number w => v == w
  | .var v, .var w => v == w
  | .binary o a b, .binary p c d => o == p && a.same c && b.same d
  | .conditional a b c d, .conditional e f g h => a.same e && b.same f && c.same g && d.same h
  | .call f as, .call g bs => f == g && allSame as bs
  | _, _ => false

/-- Whether two lists hold the same trees. -/
def allSame : List Expr → List Expr → Bool
  | [], [] => true
  | a :: as, b :: bs => a.same b && allSame as bs
  | _, _ => false

end

mutual

theorem same_iff_eq : ∀ a b : Expr, a.same b = true ↔ a = b
  | .number _, b => by cases b <;> simp [same]
  | .var _, b => by cases b <;> simp [same]
  | .binary _ l r, b => by
    cases b <;> simp [same, same_iff_eq l, same_iff_eq r, and_assoc]
  | .conditional p q r s, b => by
    cases b <;>
      simp [same, same_iff_eq p, same_iff_eq q, same_iff_eq r, same_iff_eq s, and_assoc]
  | .call _ args, b => by cases b <;> simp [same, allSame_iff_eq args]

theorem allSame_iff_eq : ∀ as bs : List Expr, allSame as bs = true ↔ as = bs
  | [], bs => by cases bs <;> simp [allSame]
  | a :: as, bs => by cases bs <;> simp [allSame, same_iff_eq a, allSame_iff_eq as]

end

instance : DecidableEq Expr := fun a b => decidable_of_iff _ (same_iff_eq a b)

end Expr

/-- The built-in function that prints its one argument (`PRINT`). -/
def printName : String := "print"

/-- A function declaration (`FunctionDecl`). -/
structure Function where
  name : String
  params : List String
  body : Expr
deriving Repr, DecidableEq

namespace Function

/-- Position of a parameter, the first one of that name (`param_index`). -/
def paramIndex? (function : Function) (name : String) : Option Nat :=
  function.params.idxOf? name

end Function

/-- One declaration of a program (`Decl`). -/
inductive Decl
  | function (function : Function)
  | statement (expr : Expr)
deriving Repr, DecidableEq

namespace Decl

/-- The function a declaration declares. -/
def function? : Decl → Option Function
  | .function f => some f
  | .statement _ => none

/-- The expression a declaration runs. -/
def statement? : Decl → Option Expr
  | .function _ => none
  | .statement e => some e

end Decl

/-- Declarations in the order of the source. -/
structure Program where
  decls : List Decl
deriving Repr, DecidableEq

namespace Program

/-- The declared functions, in order. -/
def functions (program : Program) : List Function := program.decls.filterMap Decl.function?

/-- The expression statements, in order. -/
def statements (program : Program) : List Expr := program.decls.filterMap Decl.statement?

end Program

end FunMips
