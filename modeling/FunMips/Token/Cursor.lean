import FunMips.Token.Lexer

/-!
# Cursors over token streams

A parser reads its tokens from a feed: a lexer that works on demand, or a list of tokens that
are already there. The cursor holds the current token and at most one token of lookahead. When
the feed has run dry, the current token stays.
-/

namespace FunMips

/-- Something that hands out tokens one at a time. -/
class TokenFeed (σ : Type) where
  /-- The next token, or nothing, and the feed after it. -/
  next : σ → Except Stop (Option Token × σ)
  /-- Bound on the tokens still to come. -/
  remaining : σ → Nat
  /-- Every token that is handed out lowers the bound. -/
  remaining_lt : ∀ {feed rest : σ} {token : Token},
    next feed = .ok (some token, rest) → remaining rest < remaining feed

/-- The next token of a list. -/
def nextOfList : List Token → Except Stop (Option Token × List Token)
  | [] => .ok (none, [])
  | token :: tokens => .ok (some token, tokens)

/-- The next token of a lexer, whose error ends the stream. -/
def nextOfLexer (lexer : Lexer) : Except Stop (Option Token × Lexer) :=
  match lexer.next with
  | (.ok token, rest) => .ok (token, rest)
  | (.error stop, _) => .error stop

instance : TokenFeed (List Token) where
  next := nextOfList
  remaining := List.length
  remaining_lt {feed rest token} h := by
    cases feed with
    | nil => cases h
    | cons first others => cases h; simp

instance : TokenFeed Lexer where
  next := nextOfLexer
  remaining := Lexer.remaining
  remaining_lt {feed rest token} h := by
    unfold nextOfLexer at h
    split at h
    · next found => cases h; exact Lexer.remaining_lt_of_next found
    · cases h

/-- Where a parser stands in its feed (`Parser`). -/
structure Cursor (σ : Type) where
  current : Token
  /-- The token after the current one, if the parser has asked for it. -/
  lookahead : Option Token
  feed : σ
  /-- Levels of expressions that are open. -/
  depth : Nat

/-- Computations that read tokens through a cursor. -/
abbrev Parse (σ : Type) := StateT (Cursor σ) (Except Stop)

namespace Cursor

variable {σ : Type} [TokenFeed σ]

/-- The cursor on the first token of a feed (`new`); an empty feed counts as the end of the
source. -/
def ofFeed (source : Reader) (feed : σ) : Except Stop (Cursor σ) := do
  let (first, feed) ← TokenFeed.next feed
  return { current := first.getD (Token.endOf source.text), lookahead := none, feed, depth := 0 }

/-- Bound on the tokens after the current one. -/
def remaining (cursor : Cursor σ) : Nat :=
  TokenFeed.remaining cursor.feed + if cursor.lookahead.isSome then 1 else 0

/-- Moves to the next token, if there is one (`advance`). -/
def advance : Parse σ Unit := fun cursor =>
  match cursor.lookahead with
  | some token => .ok ((), { cursor with current := token, lookahead := none })
  | none => do
    let (next, feed) ← TokenFeed.next cursor.feed
    return ((), { cursor with current := next.getD cursor.current, feed })

/-- Kind of the token after the current one, which fills the lookahead slot (`peek_kind`). -/
def peekKind : Parse σ Kind := fun cursor =>
  match cursor.lookahead with
  | some _ => .error .lookaheadFull
  | none => do
    let (next, feed) ← TokenFeed.next cursor.feed
    return ((next.map Token.kind).getD .eof, { cursor with lookahead := next, feed })

/-- Kind of the current token. -/
def currentKind : Parse σ Kind := fun cursor => .ok (cursor.current.kind, cursor)

/-- Refuses the current token (`unexpected`). -/
def unexpected {α : Type} (source : Reader) (message : String) : Parse σ α := fun cursor => do
  let got ← Token.describe source.text (some cursor.current)
  let location ← source.locate cursor.current.start
  throw (.refused (.unexpectedToken message got location))

/-- Moves past the current token if it has the given kind, and says whether it had (`equal`). -/
def accept (kind : Kind) : Parse σ Bool := do
  if (← currentKind) = kind then
    advance
    return true
  else return false

/-- Moves past the current token, which must have the given kind (`consume`). -/
def expect (source : Reader) (kind : Kind) (message : String) : Parse σ Token := do
  let cursor ← get
  if cursor.current.kind = kind then
    advance
    return cursor.current
  else unexpected source message

/-- Moves past a name and gives its text (`consume_ident`). -/
def expectName (source : Reader) (message : String) : Parse σ String := do
  let token ← expect source .ident message
  Token.text source.text token

/-- One or more items with commas between them. An item and its comma that leave the cursor where
it was would be read for ever. -/
def commaSeparated {α : Type} (item : Parse σ α) (cursor : Cursor σ) :
    Except Stop (List α × Cursor σ) := do
  let (first, after) ← item cursor
  let (more, after) ← accept .comma after
  if more then
    if after.remaining < cursor.remaining then
      let (others, after) ← commaSeparated item after
      return (first :: others, after)
    else throw .endless
  else return ([first], after)
termination_by cursor.remaining

/-- Items up to the end token. An item that leaves the cursor where it was would be read for
ever. -/
def untilEnd {α : Type} (item : Parse σ α) (cursor : Cursor σ) :
    Except Stop (List α × Cursor σ) := do
  if cursor.current.kind = .eof then
    return ([], cursor)
  else
    let (first, after) ← item cursor
    if after.remaining < cursor.remaining then
      let (others, after) ← untilEnd item after
      return (first :: others, after)
    else throw .endless
termination_by cursor.remaining

end Cursor

end FunMips
