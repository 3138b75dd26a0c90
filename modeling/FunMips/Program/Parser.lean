import FunMips.Program
import FunMips.Token.Cursor

/-!
# Reading programs

    program     := declaration*
    declaration := "def" name "(" (name ("," name)*)? ")" "=" expr | expr
    expr        := primary (("+" | "-") expr)?
    primary     := number
                 | name "(" (expr ("," expr)*)? ")"
                 | "if" expr "=" expr "then" expr "else" expr
                 | name

An expression recurses on its right operand, so `a + b + c` means `a + (b + c)`. Every
recursion passes through `expr`, which counts the levels that are open and refuses to open more
than `maxNesting`. The parsers for the parts of an expression are given the parser for the level
below.
-/

namespace FunMips

namespace Parser

open Cursor

variable {σ : Type} [TokenFeed σ] (source : Reader)

/-- The operator a token stands for. -/
def binOp? : Kind → Option BinOp
  | .plus => some .plus
  | .minus => some .minus
  | _ => none

/-- The arguments of a call, which may be absent. -/
def args (expr : Parse σ Expr) : Parse σ (List Expr) := do
  if (← currentKind) = .rightParen then return []
  else commaSeparated expr

/-- A call, from its name on (`parse_call`). -/
def call (expr : Parse σ Expr) : Parse σ Expr := do
  let name ← expectName source "expected a function name"
  let _ ← expect source .leftParen "expected '(' to start the argument list"
  let args ← args expr
  let _ ← expect source .rightParen "expected ')' after the arguments"
  return .call name args

/-- A conditional, from its `if` on (`parse_if`). -/
def conditional (expr : Parse σ Expr) : Parse σ Expr := do
  let _ ← expect source .ifWord "expected 'if'"
  let left ← expr
  let _ ← expect source .equal "expected '=' in the 'if' condition"
  let right ← expr
  let _ ← expect source .thenWord "expected 'then'"
  let whenEqual ← expr
  let _ ← expect source .elseWord "expected 'else'"
  let otherwise ← expr
  return .conditional left right whenEqual otherwise

/-- A number, a variable, a call or a conditional (`parse_primary`). A name is a call if a
parenthesis follows. A number without a value counts as zero. -/
def primary (expr : Parse σ Expr) : Parse σ Expr := do
  match ← currentKind with
  | .number =>
    let token ← expect source .number "expected a number"
    return .number (token.value.getD 0)
  | .ident =>
    if (← peekKind) = .leftParen then call source expr
    else return .var (← expectName source "expected an identifier")
  | .ifWord => conditional source expr
  | _ => unexpected source "expected an expression"

/-- A primary, and after an operator the rest of the chain (`parse_chain`). -/
def chain (expr : Parse σ Expr) : Parse σ Expr := do
  let left ← primary source expr
  match binOp? (← currentKind) with
  | some op =>
    advance
    let right ← expr
    return .binary op left right
  | none => return left

/-- Refuses to open one more level at the current token. -/
def tooDeep : Parse σ Expr := fun cursor => do
  let location ← source.locate cursor.current.start
  throw (.refused (.nestingTooDeep maxNesting location))

/-- Opens a level for a parser, and closes it when the parser has ended. After an error it is closed
too; the parser has then closed the levels that it opened itself. -/
def nested {α : Type} (inner : Parse σ α) : Parse σ α := fun cursor => do
  let depth ← source.enter cursor.depth
  match inner { cursor with depth } with
  | .ok (result, after) =>
    let depth ← source.leave after.depth
    return (result, { after with depth })
  | .error stop =>
    let _ ← source.leave depth
    throw stop

omit [TokenFeed σ] in
/-- With the compiler's own reader a level is only counted. -/
theorem nested_ofText {α : Type} (source : Text) (inner : Parse σ α) (cursor : Cursor σ) :
    nested source inner cursor =
      inner { cursor with depth := cursor.depth + 1 } >>= fun found =>
        .ok (found.1, { found.2 with depth := found.2.depth - 1 }) := by
  unfold nested
  show (match inner { cursor with depth := cursor.depth + 1 } with
    | .ok (result, after) => _
    | .error stop => _) = _
  cases inner { cursor with depth := cursor.depth + 1 } <;> rfl

/-- An expression (`parse_expr`). The recursion is on the levels that may still be opened; the
cursor counts those that are open. -/
def expr : Nat → Parse σ Expr
  | 0 => tooDeep source
  | levels + 1 => fun cursor =>
    if cursor.depth < maxNesting then nested source (chain source (expr levels)) cursor
    else tooDeep source cursor

theorem expr_succ (levels : Nat) (cursor : Cursor σ) :
    expr source (levels + 1) cursor =
      if cursor.depth < maxNesting then nested source (chain source (expr source levels)) cursor
      else tooDeep source cursor :=
  rfl

/-- The parameters of a function, which may be absent. -/
def params : Parse σ (List String) := do
  if (← currentKind) = .ident then
    commaSeparated (expectName source "expected a parameter name")
  else return []

/-- A function, after its `def`. -/
def function : Parse σ Function := do
  let name ← expectName source "expected a function name after 'def'"
  let _ ← expect source .leftParen "expected '(' after the function name"
  let params ← params source
  let _ ← expect source .rightParen "expected ')' after the parameter list"
  let _ ← expect source .equal "expected '=' before the function body"
  let body ← expr source maxNesting
  return { name, params, body }

/-- A function or an expression statement (`parse_decl`). -/
def decl : Parse σ Decl := do
  if ← accept .defWord then return .function (← function source)
  else return .statement (← expr source maxNesting)

/-- The program a feed spells (`parse_program`). -/
def program (feed : σ) : Except Stop Program := do
  let cursor ← Cursor.ofFeed source feed
  let (decls, _) ← untilEnd (decl source) cursor
  return { decls }

end Parser

/-- The program a source spells (`parse`). Its tokens are read as the parser needs them, so an error
of grammar wins over a bad character behind it. -/
def parse (source : Text) : Except Stop Program := Parser.program source (Lexer.ofSource source)

/-- The program that tokens of a source spell (`parse_tokens`). -/
def parseTokens (source : Text) (tokens : List Token) : Except Stop Program :=
  Parser.program source tokens

end FunMips
