import FunMips.Compiler
import FunMips.Proofs.Program.Agreement
import FunMips.Proofs.Token.Decomposition

/-!
# Where tokens stand does not matter

Two sources whose tokens have the same kinds and the same texts compile to the same code, or are
refused for the same reason, which may be shown at different places (`compile_respaced`). Names and
messages are cut from the two sources at different offsets, but the texts are the same, and with a
text comes the value of a number (`Lexeme.Longest.value_eq`). So the parser keeps in step on both
token lists (`respaced`), and what follows it reads no source.
-/

namespace FunMips

/-- The diagnostic with another place, if it has one. -/
def Diagnostic.movedTo (place : Location) : Diagnostic → Diagnostic
  | .unrecognizedCharacter character _ => .unrecognizedCharacter character place
  | .invalidNumber text _ => .invalidNumber text place
  | .unexpectedToken message got _ => .unexpectedToken message got place
  | .nestingTooDeep limit _ => .nestingTooDeep limit place
  | diagnostic => diagnostic

/-- Ends that are the same once they are shown at the same place. -/
def Stop.SameButPlace : Stop → Stop → Prop
  | .refused diagnostic, .refused other => ∀ place, diagnostic.movedTo place = other.movedTo place
  | stop, other => stop = other

/-! ## Tokens that say the same -/

/-- The value of a lexeme comes with its kind and its text. -/
theorem Lexeme.Longest.value_eq {lexeme : Lexeme} {rest : Text} (longest : lexeme.Longest rest) :
    lexeme.value = if lexeme.kind = .number then number? lexeme.text else none := by
  cases longest with
  | @mark c kind _ listed =>
    have other : ∀ entry ∈ marks, entry.2 ≠ .number := by decide
    exact (if_neg (other (c, kind) listed)).symm
  | number all ends small denotes => exact (number?_eq_some_iff.2 ⟨small, denotes⟩).symm
  | @word c cs _ kind starts all ends named =>
    have other : ∀ entry ∈ keywords, entry.2 ≠ .number := by decide
    refine (if_neg ?_).symm
    obtain listed | ⟨rfl, -⟩ := named
    · exact other (c :: cs, kind) listed
    · simp

/-- So does the value of a token of a source. -/
theorem exists_text_of_tokenize {source : Text} {tokens : List Token}
    (lexed : tokenize source = .ok tokens) :
    ∀ token ∈ tokens, ∃ part, token.text source = .ok (String.ofList part) ∧
      token.value = if token.kind = .number then number? part else none := by
  obtain ⟨front, -, rfl⟩ := exists_reading_of_tokenize lexed
  refine List.forall_mem_append.2 ⟨fun token member => ?_, List.forall_mem_singleton.2 ?_⟩
  · obtain ⟨lexeme, rest, longest, kind, value, cut⟩ := exists_lexeme_of_tokenize lexed token member
    rw [kind, value]
    exact ⟨lexeme.text, cut, longest.value_eq⟩
  · have split : source = source ++ ([] ++ []) := by simp
    exact ⟨[], Token.text_of_append split rfl rfl, rfl⟩

/-- Tokens of two sources that say the same, each at a place of its own. -/
structure SameToken (source other : Text) (token copy : Token) : Prop where
  kind : token.kind = copy.kind
  value : token.value = copy.value
  text : token.text source = copy.text other
  readable : token.Readable source
  copyReadable : copy.Readable other

/-- Token lists of two sources with the same kinds and texts say the same throughout. -/
theorem forall₂_sameToken {source other : Text} {tokens copies : List Token}
    (lexed : tokenize source = .ok tokens) (lexedOther : tokenize other = .ok copies)
    (kinds : tokens.map Token.kind = copies.map Token.kind)
    (texts : tokens.map (Token.text source) = copies.map (Token.text other)) :
    List.Forall₂ (SameToken source other) tokens copies := by
  have length : tokens.length = copies.length := by simpa using congrArg List.length kinds
  refine List.forall₂_iff_get.2 ⟨length, fun i inside insideOther => ?_⟩
  have member := List.get_mem tokens ⟨i, inside⟩
  have memberOther := List.get_mem copies ⟨i, insideOther⟩
  have kind : (tokens.get ⟨i, inside⟩).kind = (copies.get ⟨i, insideOther⟩).kind := by
    simpa [inside, insideOther] using congrArg (·[i]?) kinds
  have text : (tokens.get ⟨i, inside⟩).text source = (copies.get ⟨i, insideOther⟩).text other := by
    simpa [inside, insideOther] using congrArg (·[i]?) texts
  obtain ⟨part, cut, value⟩ := exists_text_of_tokenize lexed _ member
  obtain ⟨copied, cutOther, valueOther⟩ := exists_text_of_tokenize lexedOther _ memberOther
  have same : part = copied := by
    rw [cut, cutOther] at text
    exact String.ofList_injective (Except.ok.inj text)
  exact ⟨kind, by rw [value, valueOther, kind, same], text, (tokenize_eq_ok lexed).2 _ member,
    (tokenize_eq_ok lexedOther).2 _ memberOther⟩

/-! ## The parser on both sources -/

/-- The comparison of the tokens of two sources that say the same. -/
def respaced (source other : Text) : Comparison (List Token) (List Token) where
  source
  other
  counts := ⟨.ofText source, .ofText other⟩
  Tokens := SameToken source other
  Feeds tokens copies :=
    Terminated tokens ∧ List.Forall₂ (SameToken source other) tokens copies
  Breaks _ := False
  Ends := Stop.SameButPlace
  next := by
    rintro tokens copies ⟨ends, same⟩
    cases same with
    | nil => exact absurd rfl ends.ne_nil
    | cons here later => exact .answer (.token here fun more => ⟨ends.tail more, later⟩)
  kind_eq same := same.kind
  value_eq same := same.value
  text same := by
    obtain ⟨⟨text, cut⟩, -⟩ := same.readable
    rw [← same.text, cut]
    exact .answer rfl
  locate {token copy} same := by
    obtain ⟨-, place, located⟩ := same.readable
    obtain ⟨-, placeOther, locatedOther⟩ := same.copyReadable
    show SameAnswer _ _ _ (Location.locate source token.start) (Location.locate other copy.start)
    rw [located, locatedOther]
    exact .answer ⟨fun _ _ _ => rfl, fun _ _ => rfl⟩
  endless := rfl

/-- What follows the parser reads no source, and gives code or a diagnostic. -/
theorem compile_of_tokenize {source : Text} {tokens : List Token}
    (lexed : tokenize source = .ok tokens) :
    compile source = parseTokens source tokens >>= fun program =>
      Stop.ofDiagnostic (FrameTable.ofProgram program >>= program.assemble) := by
  unfold compile
  rw [lexed, ok_bind]
  congr 1
  funext program
  cases FrameTable.ofProgram program <;> rfl

/-- Two sources with tokens of the same kinds and texts, wherever they stand, compile to the same
code, or are refused by diagnostics that differ in nothing but the place they show. -/
theorem compile_respaced {source other : Text} {tokens copies : List Token}
    (lexed : tokenize source = .ok tokens) (lexedOther : tokenize other = .ok copies)
    (kinds : tokens.map Token.kind = copies.map Token.kind)
    (texts : tokens.map (Token.text source) = copies.map (Token.text other)) :
    (∃ assembly, compile source = .ok assembly ∧ compile other = .ok assembly) ∨
      ∃ diagnostic copy, compile source = .error (.refused diagnostic) ∧
        compile other = .error (.refused copy) ∧
        ∀ place, diagnostic.movedTo place = copy.movedTo place := by
  have ⟨ends, readable⟩ := tokenize_eq_ok lexed
  have ⟨endsOther, readableOther⟩ := tokenize_eq_ok lexedOther
  have same : SameAnswer _ _ _ (parseTokens source tokens) (parseTokens other copies) :=
    (respaced source other).program
      ⟨ends, forall₂_sameToken lexed lexedOther kinds texts⟩
  have failed {stop : Stop} (found : parseTokens source tokens = .error stop) :=
    IsStream.grammatical_of_error ⟨ends, readable⟩ found
  have failedOther {stop : Stop} (found : parseTokens other copies = .error stop) :=
    IsStream.grammatical_of_error ⟨endsOther, readableOther⟩ found
  rw [compile_of_tokenize lexed, compile_of_tokenize lexedOther]
  generalize parseTokens source tokens = answer at same failed ⊢
  generalize parseTokens other copies = copied at same failedOther ⊢
  cases same with
  | @answer program _ equal =>
    obtain ⟨rfl, -⟩ := equal
    rw [ok_bind]
    cases FrameTable.ofProgram program >>= program.assemble with
    | ok assembly => exact .inl ⟨assembly, rfl, rfl⟩
    | error diagnostic => exact .inr ⟨diagnostic, diagnostic, rfl, rfl, fun _ => rfl⟩
  | stop alike =>
    obtain ⟨diagnostic, rfl, -⟩ := failed rfl
    obtain ⟨copy, rfl, -⟩ := failedOther rfl
    exact .inr ⟨diagnostic, copy, rfl, rfl, alike⟩
  | breaks breaks => exact breaks.elim

/-- The source `f(1=`. -/
def onOneLine : Text := ['f', '(', '1', '=']

/-- The same tokens on two lines. -/
def onTwoLines : Text := [' ', 'f', '\n', '(', ' ', '1', '\t', '=']

/-- The tokens of the two, which start at these offsets. -/
def tokensAt (name paren number equal last : Nat) : List Token :=
  [{ kind := .ident, start := name, length := 1 },
    { kind := .leftParen, start := paren, length := 1 },
    { kind := .number, start := number, length := 1, value := some 1 },
    { kind := .equal, start := equal, length := 1 },
    { kind := .eof, start := last, length := 0 }]

theorem compile_respaced_onTwoLines :
    ∃ diagnostic copy, compile onOneLine = .error (.refused diagnostic) ∧
      compile onTwoLines = .error (.refused copy) ∧ diagnostic ≠ copy ∧
      ∀ place, diagnostic.movedTo place = copy.movedTo place := by
  have lexed : tokenize onOneLine = .ok (tokensAt 0 1 2 3 4) := by decide +kernel
  have lexedOther : tokenize onTwoLines = .ok (tokensAt 1 3 5 7 8) := by decide +kernel
  have refused : compile onOneLine = .error (.refused (.unexpectedToken
      "expected ')' after the arguments" "="
      { line := 1, column := 3, lineText := "f(1=" })) := by decide +kernel
  have refusedOther : compile onTwoLines = .error (.refused (.unexpectedToken
      "expected ')' after the arguments" "="
      { line := 2, column := 4, lineText := "( 1\t=" })) := by decide +kernel
  obtain ⟨assembly, accepted, -⟩ | ⟨diagnostic, copy, found, foundOther, alike⟩ :=
    compile_respaced lexed lexedOther rfl rfl
  · cases refused.symm.trans accepted
  · refine ⟨diagnostic, copy, found, foundOther, ?_, alike⟩
    cases refused.symm.trans found
    cases refusedOther.symm.trans foundOther
    decide

end FunMips
