import FunMips.Proofs.Frame.Validity
import FunMips.Proofs.Program.Violations
import FunMips.Proofs.Token.Lexemes

/-!
# What each phase reports

The lexer reports lexical errors and the parser grammatical ones, besides those of its feed; the
sizes of frames and the names of a program give semantic errors. So a source is never refused for an
internal error (`ReportsIn.compile`).
-/

namespace FunMips

/-- Every diagnostic that is given in place of an answer belongs to one of the phases. -/
def ReportsIn {α : Type} (phases : List Phase) (answer : Except Stop α) : Prop :=
  ∀ diagnostic, answer = .error (.refused diagnostic) → diagnostic.phase ∈ phases

/-- A parser reports only diagnostics of the phases, wherever it stands. -/
def Parse.ReportsIn {σ α : Type} (phases : List Phase) (parser : Parse σ α) : Prop :=
  ∀ cursor, FunMips.ReportsIn phases (parser cursor)

namespace ReportsIn

variable {α β : Type} {phases more : List Phase}

theorem ok (a : α) : ReportsIn phases (.ok a) := by
  intro diagnostic impossible
  cases impossible

theorem mono {answer : Except Stop α} (reports : ReportsIn phases answer)
    (included : phases ⊆ more) : ReportsIn more answer :=
  fun diagnostic found => included (reports diagnostic found)

theorem bind {first : Except Stop α} {next : α → Except Stop β} (here : ReportsIn phases first)
    (later : ∀ a, first = .ok a → ReportsIn phases (next a)) :
    ReportsIn phases (first >>= next) := by
  intro diagnostic found
  rcases bind_eq_error_iff.1 found with failed | ⟨a, reached, failed⟩
  · exact here diagnostic failed
  · exact later a reached diagnostic failed

theorem ofDiagnostic {answer : Except Diagnostic α}
    (reports : ∀ diagnostic, answer = .error diagnostic → diagnostic.phase ∈ phases) :
    ReportsIn phases (Stop.ofDiagnostic answer) := by
  intro diagnostic found
  cases answer with
  | ok => cases found
  | error other =>
    cases found
    exact reports _ rfl

theorem locate (source : Text) (offset : Nat) :
    ReportsIn phases (Location.locate source offset) := by
  intro diagnostic found
  unfold Location.locate at found
  split at found <;> cases found

theorem text (source : Text) (token : Token) : ReportsIn phases (token.text source) := by
  intro diagnostic found
  unfold Token.text at found
  split at found <;> cases found

theorem describe (source : Text) (token : Token) :
    ReportsIn phases (Token.describe source (some token)) := by
  show ReportsIn phases (if token.kind = .eof then .ok "EOF" else token.text source)
  split
  · exact .ok _
  · exact .text source token

/-- Lexical errors end a walk through the tokens of a source. -/
theorem tokenize (source : Text) : ReportsIn [.lexical] (tokenize source) := by
  rcases exists_reading 0 source with ⟨tokens, ending, reading⟩
  rw [tokenize_of_reading reading]
  cases ending with
  | none => exact .ok _
  | some ending =>
    rcases ending with ⟨offset, fault⟩
    intro diagnostic found
    have stopped : fault.stop source offset = .refused diagnostic := Except.error.inj found
    unfold Lexeme.Fault.stop at stopped
    split at stopped
    · cases stopped
      cases fault <;> simp [Lexeme.Fault.diagnose, Diagnostic.phase]
    · next failed =>
      rw [stopped] at failed
      exact ReportsIn.locate source offset diagnostic failed

end ReportsIn

/-! ## Parsers -/

namespace Parse.ReportsIn

open Cursor

variable {σ α β : Type} {phases : List Phase}

theorem pure (a : α) : Parse.ReportsIn phases (pure a : Parse σ α) := fun _ => .ok _

theorem bind {first : Parse σ α} {next : α → Parse σ β} (here : Parse.ReportsIn phases first)
    (later : ∀ a, Parse.ReportsIn phases (next a)) : Parse.ReportsIn phases (first >>= next) := by
  intro cursor
  exact (here cursor).bind fun between _ => later between.1 between.2

theorem currentKind : Parse.ReportsIn phases (currentKind : Parse σ Kind) := fun _ => .ok _

variable (source : Text) (grammar : .grammatical ∈ phases)

include grammar

theorem unexpected (message : String) :
    Parse.ReportsIn phases (unexpected source message : Parse σ α) := by
  intro cursor
  refine .bind (.describe source _) fun got _ => .bind (.locate source _) fun location _ => ?_
  intro diagnostic found
  cases found
  exact grammar

theorem tooDeep : Parse.ReportsIn phases (Parser.tooDeep source : Parse σ Expr) := by
  intro cursor
  refine .bind (.locate source _) fun location _ => ?_
  intro diagnostic found
  cases found
  exact grammar

omit grammar

variable [TokenFeed σ]

theorem untilEnd {item : Parse σ α} (each : Parse.ReportsIn phases item) :
    Parse.ReportsIn phases (untilEnd item) := by
  intro cursor
  induction size : cursor.remaining using Nat.strongRecOn generalizing cursor with
  | ind remaining ih =>
    rw [Cursor.untilEnd]
    split
    · exact .ok _
    · refine (each cursor).bind fun ⟨first, after⟩ _ => ?_
      dsimp only
      split
      · next fewer => exact (ih _ (size ▸ fewer) after rfl).bind fun _ _ => .ok _
      · intro diagnostic found
        cases found

variable (feeds : ∀ feed : σ, FunMips.ReportsIn phases (TokenFeed.next feed))

include feeds

theorem advance : Parse.ReportsIn phases (advance : Parse σ Unit) := by
  intro cursor
  unfold Cursor.advance
  split
  · exact .ok _
  · exact (feeds _).bind fun _ _ => .ok _

theorem peekKind : Parse.ReportsIn phases (peekKind : Parse σ Kind) := by
  intro cursor
  unfold Cursor.peekKind
  split
  · intro diagnostic found
    cases found
  · exact (feeds _).bind fun _ _ => .ok _

theorem accept (kind : Kind) : Parse.ReportsIn phases (accept kind : Parse σ Bool) := by
  refine currentKind.bind fun current => ?_
  split
  · exact (advance feeds).bind fun _ => .pure _
  · exact .pure _

theorem commaSeparated {item : Parse σ α} (each : Parse.ReportsIn phases item) :
    Parse.ReportsIn phases (commaSeparated item) := by
  intro cursor
  -- every item and its comma leave fewer tokens
  induction size : cursor.remaining using Nat.strongRecOn generalizing cursor with
  | ind remaining ih =>
    rw [Cursor.commaSeparated]
    refine (each cursor).bind fun ⟨first, between⟩ _ => ?_
    refine (accept feeds .comma between).bind fun ⟨more, after⟩ _ => ?_
    dsimp only
    split
    · split
      · next fewer => exact (ih _ (size ▸ fewer) after rfl).bind fun _ _ => .ok _
      · intro diagnostic found
        cases found
    · exact .ok _

theorem args {expr : Parse σ Expr} (each : Parse.ReportsIn phases expr) :
    Parse.ReportsIn phases (Parser.args expr) := by
  refine currentKind.bind fun kind => ?_
  split
  · exact .pure _
  · exact commaSeparated feeds each

include grammar

theorem expect (kind : Kind) (message : String) :
    Parse.ReportsIn phases (expect source kind message : Parse σ Token) := by
  intro cursor
  show FunMips.ReportsIn phases ((if cursor.current.kind = kind then
    (do Cursor.advance; return cursor.current : Parse σ Token)
    else Cursor.unexpected source message) cursor)
  split
  · exact (advance feeds).bind (fun _ => .pure _) cursor
  · exact unexpected source grammar message cursor

theorem expectName (message : String) :
    Parse.ReportsIn phases (expectName source message : Parse σ String) := by
  refine (expect source grammar feeds .ident message).bind fun token => ?_
  intro cursor
  exact (FunMips.ReportsIn.text source token).bind fun _ _ => .ok _

section Parts

variable {expr : Parse σ Expr} (each : Parse.ReportsIn phases expr)

include each

theorem call : Parse.ReportsIn phases (Parser.call source expr) := by
  refine (expectName source grammar feeds _).bind fun _ => ?_
  refine (expect source grammar feeds _ _).bind fun _ => ?_
  refine (args feeds each).bind fun _ => ?_
  exact (expect source grammar feeds _ _).bind fun _ => .pure _

theorem conditional : Parse.ReportsIn phases (Parser.conditional source expr) := by
  refine (expect source grammar feeds _ _).bind fun _ => each.bind fun _ => ?_
  refine (expect source grammar feeds _ _).bind fun _ => each.bind fun _ => ?_
  refine (expect source grammar feeds _ _).bind fun _ => each.bind fun _ => ?_
  exact (expect source grammar feeds _ _).bind fun _ => each.bind fun _ => .pure _

theorem primary : Parse.ReportsIn phases (Parser.primary source expr) := by
  refine currentKind.bind fun kind => ?_
  split
  · exact (expect source grammar feeds _ _).bind fun _ => .pure _
  · refine (peekKind feeds).bind fun next => ?_
    split
    · exact call source grammar feeds each
    · exact (expectName source grammar feeds _).bind fun _ => .pure _
  · exact conditional source grammar feeds each
  · exact unexpected source grammar _

theorem chain : Parse.ReportsIn phases (Parser.chain source expr) := by
  refine (primary source grammar feeds each).bind fun left => ?_
  refine currentKind.bind fun kind => ?_
  split
  · exact (advance feeds).bind fun _ => each.bind fun _ => .pure _
  · exact .pure _

end Parts

omit [TokenFeed σ] feeds grammar in
theorem nested {inner : Parse σ α} (reports : Parse.ReportsIn phases inner) :
    Parse.ReportsIn phases (Parser.nested source inner) := by
  intro cursor
  rw [Parser.nested_ofText]
  exact (reports _).bind fun _ _ => .ok _

theorem expr (levels : Nat) :
    Parse.ReportsIn phases (Parser.expr source levels : Parse σ Expr) := by
  induction levels with
  | zero => exact tooDeep source grammar
  | succ levels ih =>
    intro cursor
    rw [Parser.expr_succ]
    split
    · exact nested source (chain source grammar feeds ih) cursor
    · exact tooDeep source grammar cursor

theorem params : Parse.ReportsIn phases (Parser.params source : Parse σ (List String)) := by
  refine currentKind.bind fun kind => ?_
  split
  · exact commaSeparated feeds (expectName source grammar feeds _)
  · exact .pure _

theorem function : Parse.ReportsIn phases (Parser.function source : Parse σ Function) := by
  refine (expectName source grammar feeds _).bind fun _ => ?_
  refine (expect source grammar feeds _ _).bind fun _ => ?_
  refine (params source grammar feeds).bind fun _ => ?_
  refine (expect source grammar feeds _ _).bind fun _ => ?_
  refine (expect source grammar feeds _ _).bind fun _ => ?_
  exact (expr source grammar feeds _).bind fun _ => .pure _

theorem decl : Parse.ReportsIn phases (Parser.decl source : Parse σ Decl) := by
  refine (accept feeds _).bind fun isFunction => ?_
  split
  · exact (function source grammar feeds).bind fun _ => .pure _
  · exact (expr source grammar feeds _).bind fun _ => .pure _

end Parse.ReportsIn

/-- A parser reports grammatical errors, besides those of its feed. -/
theorem ReportsIn.program {σ : Type} [TokenFeed σ] {phases : List Phase} (source : Text)
    (grammar : .grammatical ∈ phases)
    (feeds : ∀ feed : σ, ReportsIn phases (TokenFeed.next feed)) (feed : σ) :
    ReportsIn phases (Parser.program source feed) := by
  refine .bind ((feeds feed).bind fun _ _ => .ok _) fun cursor _ => ?_
  refine .bind ?_ fun _ _ => .ok _
  exact Parse.ReportsIn.untilEnd (Parse.ReportsIn.decl source grammar feeds) cursor

theorem ReportsIn.parseTokens (source : Text) (tokens : List Token) :
    ReportsIn [.grammatical] (parseTokens source tokens) := by
  refine .program source (by simp) (fun feed => ?_) tokens
  cases feed <;> exact .ok _

/-! ## Frames and names -/

theorem Function.Refused.phase {earlier : List Function} {function : Function}
    {diagnostic : Diagnostic} (refused : function.Refused earlier diagnostic) :
    diagnostic.phase = .semantic := by
  cases refused <;> rfl

theorem FrameTable.phase_of_ofProgram {program : Program} {diagnostic : Diagnostic}
    (refused : ofProgram program = .error diagnostic) : diagnostic.phase = .semantic := by
  rcases ofProgram_eq_error_iff.1 refused with ⟨_, _, _, _, _, first⟩ | ⟨_, _, rfl⟩
  · exact first.phase
  · rfl

namespace Program

variable {program : Program} {diagnostic : Diagnostic}

theorem FirstViolation.phase (first : program.FirstViolation diagnostic) :
    diagnostic.phase = .semantic := by
  rcases first with ⟨_, _, _, _, _, _, violates⟩
  cases violates <;> rfl

end Program

/-- A source is refused for what it says, and never for an internal error. -/
theorem ReportsIn.compile (source : Text) :
    ReportsIn [.lexical, .grammatical, .semantic] (compile source) := by
  refine .bind ((ReportsIn.tokenize source).mono (by simp)) fun tokens _ => ?_
  refine .bind ((ReportsIn.parseTokens source tokens).mono (by simp)) fun program _ => ?_
  refine .bind (.ofDiagnostic fun diagnostic refused => ?_) fun table sized => ?_
  · rw [FrameTable.phase_of_ofProgram refused]
    simp
  · rcases FrameTable.ofProgram_eq_ok_iff.1 (Stop.ofDiagnostic_eq_ok_iff.1 sized) with
      ⟨declarable, rfl⟩
    refine .ofDiagnostic fun diagnostic refused => ?_
    rw [(declarable.assemble_frames_eq_error_iff.1 refused).phase]
    simp

/-- Code is put together for a program exactly if every name in it means something; otherwise the
first node that breaks a rule of names is reported. No source is refused because a frame is
missing. -/
theorem assemble_eq_error_iff_firstViolation :
    (∀ program table, FrameTable.ofProgram program = .ok table →
      ((∃ assembly, program.assemble table = .ok assembly) ↔ program.NamesResolve) ∧
      ∀ diagnostic, program.assemble table = .error diagnostic ↔
        program.FirstViolation diagnostic) ∧
    ∀ source diagnostic, compile source = .error (.refused diagnostic) →
      diagnostic.phase ≠ .internal ∧ ∀ name, diagnostic ≠ .frameNotFound name := by
  refine ⟨?_, ?_⟩
  · intro program table analyzed
    rcases FrameTable.ofProgram_eq_ok_iff.1 analyzed with ⟨declarable, rfl⟩
    exact ⟨declarable.exists_assemble_frames_eq_ok_iff,
      fun _ => declarable.assemble_frames_eq_error_iff⟩
  · intro source diagnostic refused
    have external : diagnostic.phase ≠ .internal := by
      intro isInternal
      have reported := ReportsIn.compile source diagnostic refused
      rw [isInternal] at reported
      exact absurd reported (by decide)
    refine ⟨external, ?_⟩
    rintro name rfl
    exact external rfl

/-- Four names mean nothing: of the two branches the second is visited first, and of the arguments
the last one; bodies come after all statements. -/
def misnamed : Program where
  decls :=
    [.function { name := "f", params := ["x", "y"], body := .var "z" },
      .statement (.conditional (.number 1) (.number 1) (.var "t")
        (.call "f" [.var "u", .var "v"]))]

theorem firstViolation_misnamed :
    FrameTable.ofProgram misnamed = .ok misnamed.frames ∧ ¬ misnamed.NamesResolve ∧
      misnamed.FirstViolation (.variableOutsideFunction "v") ∧
      compile "f(v)".toList = .error (.refused (.unknownFunction "f")) ∧
      (Diagnostic.unknownFunction "f").phase ≠ .internal := by
  have analyzed : FrameTable.ofProgram misnamed = .ok misnamed.frames := by decide
  have refused : misnamed.assemble misnamed.frames = .error (.variableOutsideFunction "v") := by
    rfl
  have undeclared : compile "f(v)".toList = .error (.refused (.unknownFunction "f")) := by
    decide +kernel
  rcases assemble_eq_error_iff_firstViolation with ⟨names, phases⟩
  rcases names misnamed misnamed.frames analyzed with ⟨resolve, first⟩
  refine ⟨analyzed, ?_, (first _).1 refused, undeclared, (phases _ _ undeclared).1⟩
  intro resolved
  rcases resolve.2 resolved with ⟨assembly, accepted⟩
  cases refused.symm.trans accepted

end FunMips
