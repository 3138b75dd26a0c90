import FunMips.Program
import FunMips.Token

/-!
# Spelling of programs

How a program is written by the grammar, as a list of terminals. A terminal is what the parser
sees of a token: its kind, and with it the value of a number or the text of a name. Operators
group to the right and there are no parentheses around operands, so only the trees that
`Expr.isCanonical` accepts can be written; `Expr.nesting` counts the levels of expressions that
are open at once while one is read.
-/

namespace FunMips

/-- A token without its place. -/
inductive Terminal
  /-- Punctuation, a keyword or the end. -/
  | mark (kind : Kind)
  | number (value : Int32)
  | name (text : String)
deriving Repr, DecidableEq

/-- What a token of a source says. A number without a value says zero. -/
def Token.terminal (source : Text) (token : Token) : Except Stop Terminal :=
  match token.kind with
  | .number => .ok (.number (token.value.getD 0))
  | .ident => Terminal.name <$> token.text source
  | kind => .ok (.mark kind)

namespace BinOp

/-- The mark of an operator. -/
def kind : BinOp → Kind
  | plus => .plus
  | minus => .minus

end BinOp

/-- Names with commas between them. -/
def namesSpelling : List String → List Terminal
  | [] => []
  | [name] => [.name name]
  | name :: names => .name name :: .mark .comma :: namesSpelling names

namespace Expr

mutual

/-- The terminals of an expression. -/
def spelling : Expr → List Terminal
  | .number value => [.number value]
  | .var name => [.name name]
  | .binary op left right => left.spelling ++ .mark op.kind :: right.spelling
  | .conditional left right whenEqual otherwise =>
    .mark .ifWord :: left.spelling ++ .mark .equal :: right.spelling ++
      .mark .thenWord :: whenEqual.spelling ++ .mark .elseWord :: otherwise.spelling
  | .call name args => .name name :: .mark .leftParen :: argsSpelling args ++ [.mark .rightParen]

/-- Expressions with commas between them. -/
def argsSpelling : List Expr → List Terminal
  | [] => []
  | [arg] => arg.spelling
  | arg :: args => arg.spelling ++ .mark .comma :: argsSpelling args

end

/-- The expressions that can stand to the left of an operator: a chain or a conditional would
take the operator as its own. -/
def isOperand : Expr → Bool
  | .binary .. | .conditional .. => false
  | _ => true

mutual

/-- Every left operand can stand to the left of its operator. -/
def isCanonical : Expr → Bool
  | .number _ | .var _ => true
  | .binary _ left right => left.isOperand && left.isCanonical && right.isCanonical
  | .conditional left right whenEqual otherwise =>
    left.isCanonical && right.isCanonical && whenEqual.isCanonical && otherwise.isCanonical
  | .call _ args => areCanonical args

/-- Every one of the expressions is canonical. -/
def areCanonical : List Expr → Bool
  | [] => true
  | expr :: exprs => expr.isCanonical && areCanonical exprs

end

mutual

/-- Levels of expressions that are open at once while an expression is read. -/
def nesting : Expr → Nat
  | .number _ | .var _ => 1
  | .binary _ left right => max left.nesting (1 + right.nesting)
  | .conditional left right whenEqual otherwise =>
    1 + max (max left.nesting right.nesting) (max whenEqual.nesting otherwise.nesting)
  | .call _ args => 1 + argsNesting args

/-- Levels of the deepest of the expressions. -/
def argsNesting : List Expr → Nat
  | [] => 0
  | expr :: exprs => max expr.nesting (argsNesting exprs)

end

end Expr

namespace Decl

/-- The expression of a statement, or the body of a function. -/
def expr : Decl → Expr
  | .function f => f.body
  | .statement e => e

/-- The terminals of a declaration. -/
def spelling : Decl → List Terminal
  | .function f =>
    .mark .defWord :: .name f.name :: .mark .leftParen :: namesSpelling f.params ++
      .mark .rightParen :: .mark .equal :: f.body.spelling
  | .statement e => e.spelling

end Decl

namespace Program

/-- The terminals of a program: its declarations one after the other. -/
def spelling (program : Program) : List Terminal := program.decls.flatMap Decl.spelling

/-- Every expression of the program is canonical. -/
def isCanonical (program : Program) : Bool := program.decls.all (·.expr.isCanonical)

end Program

end FunMips
