import FunMips.Diagnostic

/-!
# Tokens

A token records its kind, the value of a number, and where its text stands in the source. The
text itself is cut from the source on demand.
-/

namespace FunMips

/-- Kinds of tokens (`TokenKind`). The words `def`, `if`, `then` and `else` have kinds of their
own. -/
inductive Kind
  | leftParen
  | rightParen
  | comma
  | number
  | plus
  | minus
  | defWord
  | ifWord
  | thenWord
  | elseWord
  | equal
  | ident
  | eof
deriving Repr, DecidableEq

/-- A token and its place: `length` bytes from byte `start` on. -/
structure Token where
  kind : Kind
  start : Nat
  length : Nat
  /-- Value of a number. -/
  value : Option Int32 := none
deriving Repr, DecidableEq

namespace Token

/-- The end of a source. -/
def endOf (source : Text) : Token := { kind := .eof, start := source.byteSize, length := 0 }

/-- The part of the source the token covers (`token_text`). -/
def text (source : Text) (token : Token) : Except Stop String :=
  match source.slice? token.start token.length with
  | some part => .ok (String.ofList part)
  | none => .error .splitCharacter

/-- How messages name a token (`describe_token`); no token at all is named like the end of the
source. -/
def describe (source : Text) : Option Token → Except Stop String
  | none => .ok "EOF"
  | some token => if token.kind = .eof then .ok "EOF" else token.text source

end Token

end FunMips
