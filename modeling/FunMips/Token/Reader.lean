import FunMips.Diagnostic

/-!
# Readers

The lexer and the parser find places in the source by byte offsets, and the parser counts the levels
of expressions that are open. Not every offset has a place, and the count has bounds. So these
operations come with the source: a `Reader` is a source and what is done there. The compiler reads
with `Reader.ofText`; `Reader.strict` stops where an operation is not meant to be used.
-/

namespace FunMips

/-- Levels of expressions that may be open at once (`MAX_NESTING`). -/
def maxNesting : Nat := 256

/-- A source, and the operations of its readers that do not have an answer everywhere. -/
structure Reader where
  text : Text
  /-- The place at a byte offset (`at`). -/
  locate : Nat → Except Stop Location
  /-- The count of open levels with one more of them. -/
  enter : Nat → Except Stop Nat
  /-- The count of open levels with one less. -/
  leave : Nat → Except Stop Nat

namespace Reader

/-- Reads as the compiler does: past the end is the place of the end, and no bound is checked. -/
@[reducible] def ofText (source : Text) : Reader where
  text := source
  locate := Location.locate source
  enter depth := .ok (depth + 1)
  leave depth := .ok (depth - 1)

instance : Coe Text Reader where
  coe := ofText

/-- Stops in the given way past the end, and when the count of levels would leave its bounds. -/
def strict (source : Text) (stop : Stop) : Reader where
  text := source
  locate offset := if offset ≤ source.byteSize then Location.locate source offset else .error stop
  enter depth := if depth < maxNesting then .ok (depth + 1) else .error stop
  leave depth := if 0 < depth ∧ depth ≤ maxNesting then .ok (depth - 1) else .error stop

end Reader

end FunMips
