import FunMips.Compiler

/-!
# Events of a compilation

Each stage of a compilation reports what it has done. A compilation that is refused reports the
events up to its error.
-/

namespace FunMips

/-- How much detail an event gives. -/
inductive Level
  | debug
  | trace
deriving Repr, DecidableEq

/-- The stages of a compilation. -/
inductive Stage
  | tokens
  | program
  | frames
  | code
deriving Repr, DecidableEq

/-- What a stage reports. -/
inductive Event
  /-- The source is read as tokens. -/
  | tokenized (tokens : Nat)
  /-- The tokens are read as a program. -/
  | parsed (decls : Nat)
  /-- The frame of a function is recorded. -/
  | recorded (frame : Frame)
  /-- All frames are sized. -/
  | analyzed (functions topLevelTemps : Nat)
  /-- The body of a function comes next. -/
  | emitting (function : String) (tempSlots : Nat)
  /-- The assembly is complete. -/
  | generated (instructions functions : Nat)
deriving Repr, DecidableEq

namespace Event

/-- Events about one function are details. -/
def level : Event → Level
  | recorded .. | emitting .. => .trace
  | _ => .debug

/-- The stage that reports the event. -/
def stage : Event → Stage
  | tokenized .. => .tokens
  | parsed .. => .program
  | recorded .. | analyzed .. => .frames
  | emitting .. | generated .. => .code

/-- The event in words. -/
def message : Event → String
  | tokenized .. => "tokenized source"
  | parsed .. => "parsed program"
  | recorded .. => "frame record"
  | analyzed .. => "analyzed frames"
  | emitting .. => "emitting function body"
  | generated .. => "generated assembly"

/-- Names and values of the details. -/
def fields : Event → List (String × String)
  | tokenized tokens => [("tokens", toString tokens)]
  | parsed decls => [("decls", toString decls)]
  | recorded frame =>
    [("function", frame.name), ("params", toString frame.params),
      ("temp_slots", toString frame.tempSlots)]
  | analyzed functions topLevelTemps =>
    [("functions", toString functions), ("top_level_temps", toString topLevelTemps)]
  | emitting function tempSlots =>
    [("function", function), ("temp_slots", toString tempSlots)]
  | generated instructions functions =>
    [("instructions", toString instructions), ("functions", toString functions)]

/-- Events of recording functions, up to the first that is refused. -/
def ofDeclarations (table : FrameTable) : List Function → List Event
  | [] => []
  | function :: functions =>
    match table.declare function with
    | .ok table => recorded (Frame.ofFunction function) :: ofDeclarations table functions
    | .error _ => []

/-- Events of function bodies, up to and including the first that is refused. -/
def ofBodies (table : FrameTable) : List Function → List Event
  | [] => []
  | function :: functions =>
    match table.lookup function.name with
    | .error _ => []
    | .ok frame =>
      emitting function.name frame.tempSlots ::
        match function.body.check table (.body function) with
        | .ok () => ofBodies table functions
        | .error _ => []

/-- Events of assembling a program. -/
def ofAssembly (program : Program) (table : FrameTable) : List Event :=
  match program.statements.forM (Expr.check table .topLevel) with
  | .error _ => []
  | .ok () =>
    ofBodies table program.functions ++
      match program.assemble table with
      | .error _ => []
      | .ok assembly => [generated assembly.length program.functions.length]

/-- Events of sizing the frames of a program and assembling it. -/
def ofProgram (program : Program) : List Event :=
  ofDeclarations {} program.functions ++
    match FrameTable.ofProgram program with
    | .error _ => []
    | .ok table =>
      analyzed table.size (Expr.maxTemps program.statements) :: ofAssembly program table

/-- Events of compiling a source. -/
def ofSource (source : Text) : List Event :=
  match tokenize source with
  | .error _ => []
  | .ok tokens =>
    tokenized tokens.length ::
      match parseTokens source tokens with
      | .error _ => []
      | .ok program => parsed program.decls.length :: ofProgram program

end Event

end FunMips
