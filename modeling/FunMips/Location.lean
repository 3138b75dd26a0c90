import FunMips.Text

/-!
# Locations in a source

A location names a place in a source the way a reader finds it: the line, the column on it
and the text of the line, with a caret drawn under the place.
-/

namespace FunMips

/-- A place on a line of a source (`Location`). -/
structure Location where
  /-- Number of the line, counted from one. -/
  line : Nat
  /-- Characters on the line before the place. -/
  column : Nat
  /-- The whole line, without its newline. -/
  lineText : String
deriving Repr, DecidableEq

namespace Location

/-- The place between the text before it and the text after it. -/
def between (before after : Text) : Location :=
  let lineStart := (before.reverse.takeWhile (· ≠ '\n')).reverse
  { line := before.count '\n' + 1
    column := lineStart.length
    lineText := String.ofList (lineStart ++ after.takeWhile (· ≠ '\n')) }

/-- The place at a byte offset (`at`). An offset past the end means the end; an offset
inside a character has no place. -/
def ofOffset? (source : Text) (offset : Nat) : Option Location :=
  (source.splitAt? (min offset source.byteSize)).map fun (before, after) => between before after

/-- The quoted line over a caret, which the opening quote moves one column to the right. -/
def render (location : Location) : String :=
  "'" ++ location.lineText ++ "'\n" ++ String.ofList (List.replicate (location.column + 1) ' ') ++
    "^"

end Location

end FunMips
