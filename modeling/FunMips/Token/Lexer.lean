import FunMips.Token.Scan

/-!
# The lexer

`scanRest` takes the first token off what is left of a source, which is the one that `scan` finds
at that offset. A `Lexer` walks a source with it and hands out one token at a time: after the last
one a single end token, then nothing for ever. An error exhausts the lexer too, so it is reported
once and no end token follows it.
-/

namespace FunMips

/-- A token taken off the input, and the input after it. -/
structure Taken where
  token : Token
  rest : Text
deriving Repr, DecidableEq

namespace Taken

/-- The byte offset just after the token. -/
def next (taken : Taken) : Nat := taken.token.start + taken.token.length

end Taken

/-- The first token of `rest`, which is what stands after byte `offset` of `source`; nothing
if only blanks remain. -/
def scanRest (source : Text) (offset : Nat) (rest : Text) : Except Stop (Option Taken) :=
  match rest.dropWhile isBlank with
  | [] => .ok none
  | c :: cs =>
    let start := offset + Text.byteSize (rest.takeWhile isBlank)
    match Lexeme.read c cs with
    | .ok lexeme =>
      .ok (some
        { token :=
            { kind := lexeme.kind, start, length := lexeme.text.byteSize, value := lexeme.value }
          rest := (c :: cs).drop lexeme.text.length })
    | .error fault => do
      let location ← Location.locate source start
      .error (.refused (fault.diagnose location))

/-- What a token that is read leaves: the token covers at least one byte at or after the offset,
and what stands before the rest ends with it. -/
theorem scanRest_eq_some {source rest : Text} {offset : Nat} {taken : Taken}
    (h : scanRest source offset rest = .ok (some taken)) :
    offset ≤ taken.token.start ∧ 0 < taken.token.length ∧
      ∃ before, rest = before ++ taken.rest ∧ offset + before.byteSize = taken.next := by
  unfold scanRest at h
  split at h
  · cases h
  · next c cs found =>
    dsimp only at h
    split at h
    · next lexeme read =>
      cases h
      refine ⟨Nat.le_add_right _ _, ?_, rest.takeWhile isBlank ++ lexeme.text, ?_, ?_⟩
      · exact Text.byteSize_pos (Lexeme.length_pos_of_read read)
      · rw [List.append_assoc, Lexeme.text_append_drop_of_read read, ← found,
          List.takeWhile_append_dropWhile]
      · simp [Taken.next, Nat.add_assoc]
    · cases located : Location.locate source _ <;> rw [located] at h <;> cases h

/-- A walk through the tokens of a source (`Lexer`). -/
structure Lexer where
  source : Text
  /-- Bytes of the source. -/
  size : Nat
  /-- Bytes read so far. -/
  offset : Nat
  /-- The input after `offset`. -/
  rest : Text
  /-- The end token, or an error, has been handed out. -/
  finished : Bool
  size_eq : size = source.byteSize
  source_eq : ∃ before, source = before ++ rest ∧ before.byteSize = offset

namespace Lexer

/-- The walk that starts at the front of a source. -/
def ofSource (source : Text) : Lexer where
  source := source
  size := source.byteSize
  offset := 0
  rest := source
  finished := false
  size_eq := rfl
  source_eq := ⟨[], rfl, rfl⟩

/-- The walk with nothing left. -/
def exhausted (lexer : Lexer) : Lexer where
  source := lexer.source
  size := lexer.size
  offset := lexer.size
  rest := []
  finished := true
  size_eq := lexer.size_eq
  source_eq := ⟨lexer.source, by simp, lexer.size_eq.symm⟩

/-- The walk after a token that was read off its input. -/
def after (lexer : Lexer) (taken : Taken)
    (h : scanRest lexer.source lexer.offset lexer.rest = .ok (some taken)) : Lexer where
  source := lexer.source
  size := lexer.size
  offset := taken.next
  rest := taken.rest
  finished := lexer.finished
  size_eq := lexer.size_eq
  source_eq := by
    obtain ⟨-, -, skipped, rest_eq, next_eq⟩ := scanRest_eq_some h
    obtain ⟨before, source_eq, offset_eq⟩ := lexer.source_eq
    exact ⟨before ++ skipped, by rw [List.append_assoc, ← rest_eq, source_eq],
      by rw [Text.byteSize_append, offset_eq, next_eq]⟩

/-- The next token, or nothing once the walk is finished, and the walk after it (`next_token`). -/
def next (lexer : Lexer) : Except Stop (Option Token) × Lexer :=
  match h : scanRest lexer.source lexer.offset lexer.rest with
  | .ok (some taken) => (.ok (some taken.token), lexer.after taken h)
  | .ok none =>
    if lexer.finished then (.ok none, lexer)
    else (.ok (some (Token.endOf lexer.source)), lexer.exhausted)
  | .error stop => (.error stop, lexer.exhausted)

/-- Bound on the tokens still to come: one for each byte left, and the end token. -/
def remaining (lexer : Lexer) : Nat :=
  lexer.size - lexer.offset + if lexer.finished then 0 else 1

/-- What is left has the bytes that were not read. -/
theorem offset_add_byteSize_rest (lexer : Lexer) :
    lexer.offset + lexer.rest.byteSize = lexer.size := by
  obtain ⟨before, source_eq, offset_eq⟩ := lexer.source_eq
  rw [lexer.size_eq, source_eq, Text.byteSize_append, offset_eq]

/-- Every token that is handed out lowers the bound on those still to come. -/
theorem remaining_lt_of_next {lexer rest : Lexer} {token : Token}
    (h : lexer.next = (.ok (some token), rest)) : rest.remaining < lexer.remaining := by
  unfold next at h
  split at h
  · next taken read =>
    cases h
    obtain ⟨later, positive, skipped, rest_eq, next_eq⟩ := scanRest_eq_some read
    have size_eq := lexer.offset_add_byteSize_rest
    rw [rest_eq, Text.byteSize_append] at size_eq
    have shorter : lexer.size - taken.next < lexer.size - lexer.offset := by
      simp only [Taken.next] at next_eq ⊢
      omega
    exact Nat.add_lt_add_right shorter _
  · split at h
    · simp at h
    · next unfinished =>
      cases h
      simp [remaining, exhausted, unfinished]
  · simp at h

/-- All tokens still to come, or the error the walk meets. -/
def toList (lexer : Lexer) : Except Stop (List Token) :=
  match _ : lexer.next with
  | (.error stop, _) => .error stop
  | (.ok none, _) => .ok []
  | (.ok (some token), rest) => do
    let tokens ← toList rest
    return token :: tokens
termination_by lexer.remaining
decreasing_by exact remaining_lt_of_next (by assumption)

end Lexer

/-- All tokens of a source, the end token included (`tokenize`). -/
def tokenize (source : Text) : Except Stop (List Token) := (Lexer.ofSource source).toList

end FunMips
