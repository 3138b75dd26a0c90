import FunMips.Compiler

/-!
# The command line

The compiler takes one argument: the source itself, or `-` for a source on the standard input.
It answers with the assembly file on the standard output, or a message on the standard error.
-/

namespace FunMips

namespace CommandLine

/-- What the arguments ask for. -/
inductive Request
  | usage
  | source (text : String)
  | standardInput
deriving Repr, DecidableEq

/-- Reads the arguments. -/
def Request.ofArgs : List String → Request
  | [arg] =>
    if arg = "-h" ∨ arg = "--help" then .usage
    else if arg = "-" then .standardInput
    else .source arg
  | _ => .usage

/-- What the command prints and the code it ends with. -/
structure Reply where
  code : UInt32
  output : String := ""
  errors : String := ""
deriving Repr, DecidableEq

/-- Name of the command. -/
def command : String := "rmipsc"

/-- How the command is used (`usage`). -/
def usage : Reply where
  code := 1
  errors :=
    "usage: " ++ command ++ " <source>\n" ++
    "       " ++ command ++ " -          read the source from stdin\n" ++
    "set RMIPSC_LOG=debug to trace the compiler stages\n"

/-- What is said when a compilation stops. -/
def explain : Stop → String
  | .refused diagnostic => diagnostic.message
  | .splitCharacter => "internal error: text cut inside a character"
  | .lookaheadFull => "internal error: lookahead slot is full"
  | .endless => "internal error: no token was consumed"

/-- Compiles a source, as `main` does once it has one. -/
def compileReply (source : String) : Reply :=
  match compileText source.toList with
  | .ok text => { code := 0, output := text }
  | .error stop => { code := 1, errors := explain stop ++ "\n" }

/-- Answers a request, given the bytes of the standard input. -/
def reply (request : Request) (input : ByteArray) : Reply :=
  match request with
  | .usage => usage
  | .source text => compileReply text
  | .standardInput =>
    match String.fromUTF8? input with
    | some text => compileReply text
    | none =>
      { code := 1
        errors := command ++ ": failed to read stdin: stream did not contain valid UTF-8\n" }

end CommandLine

end FunMips
