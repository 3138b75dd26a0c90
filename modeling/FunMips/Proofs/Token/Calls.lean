import FunMips.Proofs.Token.Decomposition
import FunMips.Proofs.Token.Faults

/-!
# Calls of a lexer

A lexer is asked for what comes next in two ways, which differ in how they put their answers, and
any number of times. Whatever the calls are, their answers are those of one list, in order, and
after it that there is nothing left (`Lexer.callAll_eq`). The list is known from the source: its
tokens and then the end token, or the tokens in front of the first fault and then the error, once
(`Lexer.items_of_reading`).
-/

namespace FunMips

namespace Lexer

/-- The ways to ask a lexer for what comes next. -/
inductive Call
  /-- For the next token, if there is one. -/
  | nextToken
  /-- For the next item of a sequence, as a loop does. -/
  | next
deriving Repr, DecidableEq

/-- What a call gives back. -/
inductive Answer
  /-- An error, or else perhaps a token. -/
  | ofNextToken (result : Except Stop (Option Token))
  /-- Perhaps an item, which is a token or an error. -/
  | ofNext (item : Option (Except Stop Token))

/-- The item of a result: nothing, if the lexer has nothing left. -/
def item? : Except Stop (Option Token) → Option (Except Stop Token)
  | .ok none => none
  | .ok (some token) => some (.ok token)
  | .error stop => some (.error stop)

/-- The answer to a call, and the walk after it. -/
def call (lexer : Lexer) : Call → Answer × Lexer
  | .nextToken => (.ofNextToken lexer.next.1, lexer.next.2)
  | .next => (.ofNext (item? lexer.next.1), lexer.next.2)

/-- The answers to calls, one after the other. -/
def callAll (lexer : Lexer) : List Call → List Answer
  | [] => []
  | call :: calls => (lexer.call call).1 :: (lexer.call call).2.callAll calls

/-- How a call puts an item, or that there is none. -/
def Call.answer : Call → Option (Except Stop Token) → Answer
  | .nextToken, none => .ofNextToken (.ok none)
  | .nextToken, some (.ok token) => .ofNextToken (.ok (some token))
  | .nextToken, some (.error stop) => .ofNextToken (.error stop)
  | .next, item => .ofNext item

/-- What a walk still hands out: tokens, and at most one error after them. -/
def items (lexer : Lexer) : List (Except Stop Token) :=
  match _ : lexer.next with
  | (.ok (some token), rest) => .ok token :: rest.items
  | (.ok none, _) => []
  | (.error stop, _) => [.error stop]
termination_by lexer.remaining
decreasing_by exact remaining_lt_of_next (by assumption)

variable {lexer rest : Lexer} {token : Token} {stop : Stop}

theorem items_of_token (found : lexer.next = (.ok (some token), rest)) :
    lexer.items = .ok token :: rest.items := by
  rw [items]
  split
  · next same =>
    cases same.symm.trans found
    rfl
  · next other => cases other.symm.trans found
  · next other => cases other.symm.trans found

theorem items_of_none (found : lexer.next = (.ok none, rest)) : lexer.items = [] := by
  rw [items]
  split
  · next other => cases other.symm.trans found
  · rfl
  · next other => cases other.symm.trans found

theorem items_of_error (found : lexer.next = (.error stop, rest)) :
    lexer.items = [.error stop] := by
  rw [items]
  split
  · next other => cases other.symm.trans found
  · next other => cases other.symm.trans found
  · next same =>
    cases same.symm.trans found
    rfl

/-- A walk that hands out nothing stays where it is. -/
theorem eq_of_next_eq_none (found : lexer.next = (.ok none, rest)) : rest = lexer := by
  unfold next at found
  split at found
  · simp at found
  · split at found
    · exact (Prod.mk.inj found).2.symm
    · simp at found
  · simp at found

theorem eq_exhausted_of_next (found : lexer.next = (.error stop, rest)) :
    rest = lexer.exhausted := by
  unfold next at found
  split at found
  · simp at found
  · split at found
    · simp at found
    · simp at found
  · exact (Prod.mk.inj found).2.symm

theorem items_exhausted (lexer : Lexer) : lexer.exhausted.items = [] := by
  have nothing : lexer.exhausted.next = (.ok none, lexer.exhausted) := by
    simp [next, exhausted, scanRest]
  exact items_of_none nothing

/-- One call takes the first item. -/
theorem call_eq (lexer : Lexer) (call : Call) :
    (lexer.call call).1 = call.answer lexer.items.head? ∧
      (lexer.call call).2.items = lexer.items.tail := by
  have after : (lexer.call call).2 = lexer.next.2 := by cases call <;> rfl
  rw [after]
  cases found : lexer.next with
  | mk result rest =>
    cases result with
    | error stop =>
      rw [items_of_error found, eq_exhausted_of_next found, items_exhausted]
      cases call <;> simp [Lexer.call, Call.answer, item?, found]
    | ok token? =>
      cases token? with
      | none =>
        rw [eq_of_next_eq_none found, items_of_none found]
        cases call <;> simp [Lexer.call, Call.answer, item?, found]
      | some token =>
        rw [items_of_token found]
        cases call <;> simp [Lexer.call, Call.answer, item?, found]

/-- Any calls take the items in order, and find nothing after them. -/
theorem callAll_eq (lexer : Lexer) (calls : List Call) :
    lexer.callAll calls = calls.mapIdx fun i call => call.answer lexer.items[i]? := by
  induction calls generalizing lexer with
  | nil => rfl
  | cons call calls ih =>
    obtain ⟨answer, after⟩ := call_eq lexer call
    rw [callAll, ih, answer, after, List.mapIdx_cons, List.head?_eq_getElem?]
    simp only [List.getElem?_tail]

/-- There are no more items than the bytes that are left, and one. -/
theorem length_items_le (unfinished : lexer.finished = false) :
    lexer.items.length ≤ lexer.remaining := by
  induction size : lexer.remaining using Nat.strongRecOn generalizing lexer with
  | ind bound ih =>
    subst size
    have last : 0 < lexer.remaining := by simp [remaining, unfinished]
    cases found : lexer.next with
    | mk result rest =>
      cases result with
      | error stop =>
        rw [items_of_error found]
        exact last
      | ok token? =>
        cases token? with
        | none =>
          rw [items_of_none found]
          exact Nat.zero_le _
        | some token =>
          have fewer := remaining_lt_of_next found
          rw [items_of_token found, List.length_cons]
          rcases next_eq_some found with ⟨-, -, -, finished⟩ | ⟨-, rfl⟩
          · have later := ih _ fewer (finished.trans unfinished) rfl
            omega
          · rw [items_exhausted]
            exact last

/-- The items of a reading of the source. -/
def readingItems (source : Text) (tokens : List Token) :
    Option (Nat × Lexeme.Fault) → List (Except Stop Token)
  | none => tokens.map .ok ++ [.ok (Token.endOf source)]
  | some (offset, fault) => tokens.map .ok ++ [.error (fault.stop source offset)]

/-- A walk hands out what the reading of its input has, whatever the calls. -/
theorem items_of_reading {offset : Nat} {input : Text} {tokens : List Token}
    {ending : Option (Nat × Lexeme.Fault)} (reading : Reading offset input tokens ending)
    (offset_eq : lexer.offset = offset) (rest_eq : lexer.rest = input)
    (unfinished : lexer.finished = false) :
    lexer.items = readingItems lexer.source tokens ending := by
  induction reading generalizing lexer with
  | ends blank =>
    have found : scanRest lexer.source lexer.offset lexer.rest = .ok none := by
      rw [rest_eq]
      exact scanRest_of_blank blank
    rw [items_of_token (next_of_end found unfinished), items_exhausted]
    rfl
  | @fails offset blanks rest fault blank front =>
    have found : scanRest lexer.source lexer.offset lexer.rest =
        .error (fault.stop lexer.source (offset + blanks.byteSize)) := by
      rw [offset_eq, rest_eq]
      exact scanRest_of_front blank front
    rw [items_of_error (next_of_error found)]
    rfl
  | @token offset blanks rest lexeme tokens ending blank longest later ih =>
    have found : scanRest lexer.source lexer.offset lexer.rest =
        .ok (some { token := lexeme.token (offset + blanks.byteSize), rest }) := by
      rw [offset_eq, rest_eq]
      exact scanRest_of_longest blank longest
    have others : (lexer.after _ found).items = readingItems lexer.source tokens ending :=
      ih rfl rfl unfinished
    rw [items_of_token (next_of_scanRest found), others]
    cases ending <;> rfl

end Lexer

/-- What stands behind a text does not shorten the lexemes in it. -/
theorem Lexeme.Longest.of_append {lexeme : Lexeme} {front rest : Text}
    (longest : lexeme.Longest (front ++ rest)) : lexeme.Longest front := by
  have ends {p : Char → Bool} (here : ∀ c ∈ (front ++ rest).head?, p c = false) :
      ∀ c ∈ front.head?, p c = false := by
    cases front with
    | nil => simp
    | cons => exact here
  cases longest with
  | mark listed => exact .mark listed
  | number all last small denotes => exact .number all (ends last) small denotes
  | word starts all last named => exact .word starts all (ends last) named

/-- The tokens in front of a fault are those of the text in front of it. -/
theorem Reading.exists_before {offset place : Nat} {text : Text} {tokens : List Token}
    {ending : Option (Nat × Lexeme.Fault)} {fault : Lexeme.Fault}
    (reading : Reading offset text tokens ending) (faulty : ending = some (place, fault)) :
    ∃ before rest, text = before ++ rest ∧ place = offset + before.byteSize ∧ fault.Front rest ∧
      Reading offset before tokens none := by
  induction reading with
  | ends => cases faulty
  | @fails offset blanks rest _ blank front =>
    cases faulty
    exact ⟨blanks, rest, rfl, rfl, front, .ends blank⟩
  | @token offset blanks _ lexeme tokens _ blank longest later ih =>
    obtain ⟨before, rest, rfl, place, front, reading⟩ := ih faulty
    refine ⟨blanks ++ (lexeme.text ++ before), rest, by simp, ?_, front,
      .token blank longest.of_append reading⟩
    rw [place, Text.byteSize_append, Text.byteSize_append, Nat.add_assoc, Nat.add_assoc]

/-- Whatever calls are made of a lexer, their answers in order are the items of one list, and after
them that nothing is left. If the source has tokens, they are the items, and the last of them is
the only end token. If not, the items are the tokens of the text in front of the fault, without an
end token, and then the error. -/
theorem Lexer.callAll_ofSource (source : Text) :
    ∃ items : List (Except Stop Token),
      (∀ calls, (ofSource source).callAll calls =
        calls.mapIdx fun i call => call.answer items[i]?) ∧
      items.length ≤ source.byteSize + 1 ∧
      (∀ tokens, tokenize source = .ok tokens → items = tokens.map .ok ∧
        ∃ front, tokens = front ++ [Token.endOf source] ∧ ∀ token ∈ front, token.kind ≠ .eof) ∧
      ∀ stop, tokenize source = .error stop →
        ∃ (before rest : Text) (front : List Token) (fault : Lexeme.Fault) (place : Location),
          source = before ++ rest ∧ tokenize before = .ok (front ++ [Token.endOf before]) ∧
          (∀ token ∈ front, token.kind ≠ .eof) ∧ fault.Front rest ∧
          Location.ofOffset? source before.byteSize = some place ∧
          stop = .refused (fault.diagnose place) ∧
          items = front.map .ok ++ [.error stop] := by
  obtain ⟨front, ending, reading⟩ := exists_reading 0 source
  have items : (ofSource source).items = readingItems source front ending :=
    items_of_reading reading rfl rfl rfl
  have answer := tokenize_of_reading reading
  refine ⟨(ofSource source).items, callAll_eq _, length_items_le rfl, ?_, ?_⟩
  · intro tokens lexed
    rw [answer] at lexed
    cases ending with
    | some => cases lexed
    | none =>
      cases lexed
      have decomposed := reading.decomposition rfl (List.nil_append source).symm rfl
      refine ⟨?_, front, rfl, decomposed.notEnd⟩
      rw [items, readingItems, List.map_append]
      rfl
  · intro stop failed
    rw [answer] at failed
    cases ending with
    | none => cases failed
    | some ending =>
      cases failed
      obtain ⟨place, fault⟩ := ending
      obtain ⟨before, rest, rfl, rfl, atFront, reading⟩ := reading.exists_before rfl
      obtain ⟨location, located, stop⟩ := fault.exists_location before rest
      have decomposed := reading.decomposition rfl (List.nil_append before).symm rfl
      rw [Nat.zero_add] at items
      refine ⟨before, rest, front, fault, location, rfl, tokenize_of_reading reading,
        decomposed.notEnd, atFront, located, ?_, ?_⟩
      · rw [Nat.zero_add, stop]
      · rw [items, Nat.zero_add]
        rfl

/-- The source `a+?b`, with a character of no token. -/
def brokenOff : Text := ['a', '+', '?', 'b']

theorem callAll_brokenOff :
    ∃ (stop : Stop) (front : List Token), tokenize brokenOff = .error stop ∧
      (∀ token ∈ front, token.kind ≠ .eof) ∧
      ∀ calls, (Lexer.ofSource brokenOff).callAll calls =
        calls.mapIdx fun i call => call.answer (front.map .ok ++ [.error stop])[i]? := by
  have failed : tokenize brokenOff = .error (.refused (.unrecognizedCharacter '?'
      { line := 1, column := 2, lineText := "a+?b" })) := by decide +kernel
  obtain ⟨items, answers, -, -, faulty⟩ := Lexer.callAll_ofSource brokenOff
  obtain ⟨-, -, front, -, -, -, -, noEnd, -, -, -, rfl⟩ := faulty _ failed
  exact ⟨_, front, failed, noEnd, answers⟩

end FunMips
