import FunMips.Token.Lexeme
import FunMips.Token.Reader

/-!
# Scanning the bytes of a source

`scan` reads the first token at or after a byte offset. It goes through the UTF-8 form byte by byte,
and takes the offset as it is given: whether it lies inside a character shows only when a part of
the source is to be cut out there.
-/

namespace FunMips

/-- A token read off a source, and the byte offset just after it. -/
structure Scanned where
  token : Token
  next : Nat
deriving Repr, DecidableEq

/-- The end of the run of bytes of a class that starts at an offset (`run_end`). A byte belongs to
the class if the character with its number does. -/
def runEnd (bytes : List UInt8) (start : Nat) (p : Char → Bool) : Nat :=
  start + ((bytes.drop start).takeWhile fun byte => p (Char.ofUInt8 byte)).length

/-- The text between two byte offsets, for a reader that stops where it cannot be cut. -/
def Text.cut (source : Text) (start stop : Nat) : Except Stop Text :=
  match source.slice? start (stop - start) with
  | some part => .ok part
  | none => .error .splitCharacter

namespace Reader

variable (source : Reader)

/-- The number that the digit at an offset starts. -/
def numberAt (start : Nat) : Except Stop Scanned := do
  let stop := runEnd source.text.bytes start Char.isDigit
  let digits ← source.text.cut start stop
  match number? digits with
  | some value =>
    return { token := { kind := .number, start, length := stop - start, value := some value }
             next := stop }
  | none =>
    let location ← source.locate start
    throw (.refused (.invalidNumber (String.ofList digits) location))

/-- The word at an offset. What starts no word starts no token at all. -/
def wordAt (start : Nat) : Except Stop Scanned := do
  let stop := runEnd source.text.bytes start isWordChar
  let rest ← source.text.cut start source.text.byteSize
  if start < stop then
    let word ← source.text.cut start stop
    return { token := { kind := wordKind word, start, length := stop - start }, next := stop }
  else
    let location ← source.locate start
    throw (.refused (.unrecognizedCharacter (rest.headD '\x00') location))

/-- The token at an offset where no blank stands; at the end of the source there is none. -/
def tokenAt (start : Nat) : Except Stop (Option Scanned) :=
  match source.text.bytes[start]? with
  | none => .ok none
  | some byte =>
    let first := Char.ofUInt8 byte
    match punctuation? first with
    | some kind => .ok (some { token := { kind, start, length := 1 }, next := start + 1 })
    | none =>
      if first.isDigit then some <$> source.numberAt start
      else some <$> source.wordAt start

/-- The first token at or after a byte offset (`scan`). -/
def scan (offset : Nat) : Except Stop (Option Scanned) :=
  source.tokenAt (runEnd source.text.bytes offset isBlank)

end Reader

/-- The first token of a source at or after a byte offset. -/
def scan (source : Text) (offset : Nat) : Except Stop (Option Scanned) :=
  (Reader.ofText source).scan offset

end FunMips
