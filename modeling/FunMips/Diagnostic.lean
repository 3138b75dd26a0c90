import FunMips.Location

/-!
# Diagnostics

A compilation stops at its first error. `Diagnostic` lists the causes with what their messages
name; `Stop` adds the ways in which a reader of tokens can end without a diagnosis.
-/

namespace FunMips

/-- The part of a compilation that finds an error (`ErrorKind`). -/
inductive Phase
  | lexical
  | grammatical
  | semantic
  | internal
deriving Repr, DecidableEq

/-- Why a source is refused (`CompileError`). -/
inductive Diagnostic
  /-- A character that starts no token. -/
  | unrecognizedCharacter (character : Char) (location : Location)
  /-- A number that does not fit in a word. -/
  | invalidNumber (text : String) (location : Location)
  /-- A token that cannot stand where it stands. -/
  | unexpectedToken (message got : String) (location : Location)
  /-- An expression nested beyond the limit. -/
  | nestingTooDeep (limit : Nat) (location : Location)
  /-- A variable in a top-level statement. -/
  | variableOutsideFunction (name : String)
  /-- A variable that is no parameter of its function. -/
  | unknownVariable (name function : String)
  /-- A call of a function that is not declared. -/
  | unknownFunction (name : String)
  /-- A call with the wrong number of arguments. -/
  | argumentCount (name : String) (expected found : Nat)
  /-- A function declared a second time. -/
  | duplicateFunction (name : String)
  /-- A parameter listed a second time. -/
  | duplicateParameter (function name : String)
  /-- A function that takes the name of the built-in. -/
  | reservedName (name : String)
  /-- A frame whose size no immediate operand can hold. -/
  | frameTooLarge (name : String) (words : Nat)
  /-- A function or program whose frame was never recorded. -/
  | frameNotFound (name : String)
deriving Repr, DecidableEq

namespace Diagnostic

/-- The phase that reports the diagnostic (`kind`). -/
def phase : Diagnostic → Phase
  | unrecognizedCharacter .. | invalidNumber .. => .lexical
  | unexpectedToken .. | nestingTooDeep .. => .grammatical
  | variableOutsideFunction .. | unknownVariable .. | unknownFunction .. | argumentCount ..
  | duplicateFunction .. | duplicateParameter .. | reservedName .. | frameTooLarge .. => .semantic
  | frameNotFound .. => .internal

/-- The place the diagnostic points at, for those found in the text itself. -/
def location? : Diagnostic → Option Location
  | unrecognizedCharacter _ location | invalidNumber _ location | unexpectedToken _ _ location
  | nestingTooDeep _ location => some location
  | _ => none

/-- What the diagnostic says, its place apart. -/
def text : Diagnostic → String
  | unrecognizedCharacter character _ =>
    "unrecognized character '" ++ String.singleton character ++ "'"
  | invalidNumber text _ => s!"invalid number \"{text}\": does not fit in a word"
  | unexpectedToken message got _ => s!"{message}, but got \"{got}\""
  | nestingTooDeep limit _ => s!"expression nested more than {limit} levels deep"
  | variableOutsideFunction name => s!"variable '{name}' used outside of a function body"
  | unknownVariable name function => s!"unknown variable '{name}' in function '{function}'"
  | unknownFunction name => s!"call to undeclared function '{name}'"
  | argumentCount name expected found =>
    s!"'{name}' expects {expected} argument(s), but {found} were given"
  | duplicateFunction name => s!"function '{name}' is declared more than once"
  | duplicateParameter function name =>
    s!"parameter '{name}' is repeated in function '{function}'"
  | reservedName name => s!"'{name}' is reserved and cannot be declared as a function"
  | frameTooLarge name words =>
    s!"frame of '{name}' needs {words} words, too many for a 16-bit offset"
  | frameNotFound name => s!"internal error: no frame record for '{name}'"

/-- The message shown to the user: the place, if there is one, then the text. -/
def message (diagnostic : Diagnostic) : String :=
  match diagnostic.location? with
  | some location => location.render ++ " " ++ diagnostic.text
  | none => diagnostic.text

end Diagnostic

/-- How reading a source can end without an answer. -/
inductive Stop
  /-- The source is refused. -/
  | refused (diagnostic : Diagnostic)
  /-- A text was cut inside a character or past its end. -/
  | splitCharacter
  /-- The parser looked ahead with its lookahead slot still full. -/
  | lookaheadFull
  /-- The parser reads the same token for ever. -/
  | endless
deriving Repr, DecidableEq

/-- The place at an offset, for a reader that stops where there is none. -/
def Location.locate (source : Text) (offset : Nat) : Except Stop Location :=
  match Location.ofOffset? source offset with
  | some location => .ok location
  | none => .error .splitCharacter

/-- A semantic answer as one of a whole compilation. -/
def Stop.ofDiagnostic {α : Type} : Except Diagnostic α → Except Stop α
  | .ok a => .ok a
  | .error diagnostic => .error (.refused diagnostic)

end FunMips
