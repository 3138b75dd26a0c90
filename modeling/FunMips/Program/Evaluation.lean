import FunMips.Program

/-!
# Evaluation of programs

What a program means, as relations: which value an expression has and what it prints on the way.
Values are words of 32 bits; a sum or difference that does not fit in a word has no value. A
program that runs for ever, or meets such a sum, is related to no output.
-/

namespace FunMips

namespace BinOp

/-- The sum or difference of two words as numbers. -/
def exact (op : BinOp) (left right : Int32) : Int :=
  match op with
  | plus => left.toInt + right.toInt
  | minus => left.toInt - right.toInt

/-- The result of an operation, if it fits in a word. -/
def result? (op : BinOp) (left right : Int32) : Option Int32 :=
  let result := op.exact left right
  if Int32.minValue.toInt ≤ result ∧ result ≤ Int32.maxValue.toInt then some (Int32.ofInt result)
  else none

end BinOp

/-- The values of the parameters of a function. -/
abbrev Environment := List (String × Int32)

/-- The declared function of a name. -/
def Program.function? (program : Program) (name : String) : Option Function :=
  program.functions.find? (·.name == name)

mutual

/-- In a program and an environment, an expression has a value and prints the given values. -/
inductive Evaluates (program : Program) : Environment → Expr → Int32 → List Int32 → Prop
  | number (env : Environment) (value : Int32) : Evaluates program env (.number value) value []
  | var {env : Environment} {name : String} {value : Int32} (found : env.lookup name = some value) :
    Evaluates program env (.var name) value []
  /-- The left operand comes first. -/
  | binary {env : Environment} {op : BinOp} {left right : Expr} {a b value : Int32}
      {outLeft outRight : List Int32} (evalLeft : Evaluates program env left a outLeft)
      (evalRight : Evaluates program env right b outRight) (fits : op.result? a b = some value) :
    Evaluates program env (.binary op left right) value (outLeft ++ outRight)
  /-- Equal operands choose the first branch, and the other one is not evaluated. -/
  | equal {env : Environment} {left right whenEqual otherwise : Expr} {a value : Int32}
      {outLeft outRight out : List Int32} (evalLeft : Evaluates program env left a outLeft)
      (evalRight : Evaluates program env right a outRight)
      (evalBranch : Evaluates program env whenEqual value out) :
    Evaluates program env (.conditional left right whenEqual otherwise) value
      (outLeft ++ outRight ++ out)
  /-- Other operands choose the second branch. -/
  | unequal {env : Environment} {left right whenEqual otherwise : Expr} {a b value : Int32}
      {outLeft outRight out : List Int32} (evalLeft : Evaluates program env left a outLeft)
      (evalRight : Evaluates program env right b outRight) (differ : a ≠ b)
      (evalBranch : Evaluates program env otherwise value out) :
    Evaluates program env (.conditional left right whenEqual otherwise) value
      (outLeft ++ outRight ++ out)
  /-- The built-in prints its argument and has its value. -/
  | print {env : Environment} {arg : Expr} {value : Int32} {out : List Int32}
      (evalArg : Evaluates program env arg value out) :
    Evaluates program env (.call printName [arg]) value (out ++ [value])
  /-- A function is evaluated with its parameters bound to the arguments, as many as it has. -/
  | call {env : Environment} {name : String} {args : List Expr} {values : List Int32}
      {function : Function} {value : Int32} {outArgs out : List Int32}
      (declared : name ≠ printName) (found : program.function? name = some function)
      (evalArgs : EvaluatesArgs program env args values outArgs)
      (arity : function.params.length = values.length)
      (evalBody : Evaluates program (function.params.zip values) function.body value out) :
    Evaluates program env (.call name args) value (outArgs ++ out)

/-- Arguments have the given values; the last one is evaluated first. -/
inductive EvaluatesArgs (program : Program) :
    Environment → List Expr → List Int32 → List Int32 → Prop
  | nil (env : Environment) : EvaluatesArgs program env [] [] []
  | cons {env : Environment} {arg : Expr} {args : List Expr} {value : Int32}
      {values outArgs out : List Int32} (evalArgs : EvaluatesArgs program env args values outArgs)
      (evalArg : Evaluates program env arg value out) :
    EvaluatesArgs program env (arg :: args) (value :: values) (outArgs ++ out)

end

/-- Statements run one after the other and print the given values. -/
inductive RunsStatements (program : Program) : List Expr → List Int32 → Prop
  | nil : RunsStatements program [] []
  | cons {statement : Expr} {statements : List Expr} {value : Int32} {out outs : List Int32}
      (first : Evaluates program [] statement value out)
      (others : RunsStatements program statements outs) :
    RunsStatements program (statement :: statements) (out ++ outs)

/-- A program runs to its end and prints the given values. -/
def Program.Runs (program : Program) (out : List Int32) : Prop :=
  RunsStatements program program.statements out

end FunMips
