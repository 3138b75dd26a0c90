import FunMips.Proofs.Except
import FunMips.Proofs.Text
import FunMips.Token.Lexer

/-!
# Streams of tokens

The tokens of a source are tokens of kinds other than the end, and then one end token
(`Terminated`). Each covers a part of the source that can be cut out, at a place that can be
named (`Token.Readable`).
-/

namespace FunMips

/-- The text of the token can be cut from the source, and the token stands at a place of it. -/
def Token.Readable (source : Text) (token : Token) : Prop :=
  (∃ text, token.text source = .ok text) ∧
    ∃ location, Location.locate source token.start = .ok location

/-- An end token stands last, and nowhere else. -/
inductive Terminated : List Token → Prop
  | last {token : Token} (ends : token.kind = .eof) : Terminated [token]
  | cons {token : Token} {tokens : List Token} (other : token.kind ≠ .eof)
      (later : Terminated tokens) : Terminated (token :: tokens)

namespace Terminated

variable {token : Token} {tokens : List Token}

theorem ne_nil (ends : Terminated tokens) : tokens ≠ [] := by
  cases ends <;> simp

theorem tail (ends : Terminated (token :: tokens)) (other : token.kind ≠ .eof) :
    Terminated tokens := by
  cases ends with
  | last isEnd => exact absurd isEnd other
  | cons _ later => exact later

theorem eq_nil (ends : Terminated (token :: tokens)) (isEnd : token.kind = .eof) :
    tokens = [] := by
  cases ends with
  | last => rfl
  | cons other => exact absurd isEnd other

end Terminated

/-- The text of a token is the part of the source it covers. -/
theorem Token.text_of_append {source before part after : Text} {token : Token}
    (split : source = before ++ (part ++ after)) (start : token.start = before.byteSize)
    (length : token.length = part.byteSize) : token.text source = .ok (String.ofList part) := by
  unfold Token.text
  rw [Text.slice?_eq_some_iff.2 ⟨before, after, split, start.symm, length.symm⟩]

/-- A token that covers a part of the source is readable. -/
theorem Token.readable_of_append {source before part after : Text} {token : Token}
    (split : source = before ++ (part ++ after)) (start : token.start = before.byteSize)
    (length : token.length = part.byteSize) : token.Readable source := by
  have cut : source.splitAt? token.start = some (before, part ++ after) := by
    rw [split, start]
    exact Text.splitAt?_append before (part ++ after)
  have inside : token.start ≤ source.byteSize := by
    rw [split, start, Text.byteSize_append]
    exact Nat.le_add_right _ _
  constructor
  · exact ⟨String.ofList part, Token.text_of_append split start length⟩
  · refine ⟨Location.between before (part ++ after), ?_⟩
    unfold Location.locate Location.ofOffset?
    rw [Nat.min_eq_left inside, cut]
    rfl

theorem wordKind_ne_eof (word : Text) : wordKind word ≠ .eof := by
  unfold wordKind
  repeat' split
  all_goals simp

theorem punctuation?_ne_eof (c : Char) : punctuation? c ≠ some .eof := by
  unfold punctuation?
  split <;> simp

theorem Lexeme.kind_ne_eof {c : Char} {cs : Text} {lexeme : Lexeme}
    (found : Lexeme.read c cs = .ok lexeme) : lexeme.kind ≠ .eof := by
  unfold Lexeme.read at found
  split at found
  · next kind mark =>
    cases found
    intro isEnd
    exact punctuation?_ne_eof c (mark.trans (congrArg some isEnd))
  · split at found
    · dsimp only at found
      split at found <;> cases found
      simp
    · split at found <;> cases found
      exact wordKind_ne_eof _

/-- A token that is read stands after some blanks, and its text is that of a lexeme. -/
theorem exists_lexeme_of_scanRest {source rest : Text} {offset : Nat} {taken : Taken}
    (found : scanRest source offset rest = .ok (some taken)) :
    ∃ blanks part, rest = blanks ++ (part ++ taken.rest) ∧
      taken.token.start = offset + Text.byteSize blanks ∧
      taken.token.length = Text.byteSize part ∧ taken.token.kind ≠ .eof := by
  unfold scanRest at found
  split at found
  · cases found
  · next c cs split =>
    dsimp only at found
    split at found
    · next lexeme read =>
      cases found
      refine ⟨rest.takeWhile isBlank, lexeme.text, ?_, rfl, rfl, Lexeme.kind_ne_eof read⟩
      rw [Lexeme.text_append_drop_of_read read, ← split, List.takeWhile_append_dropWhile]
    · cases located : Location.locate source _ <;> rw [located] at found <;> cases found

namespace Lexer

/-- What a walk hands out: a token that is not the end, or once, at the end, the end token. -/
theorem next_eq_some {lexer rest : Lexer} {token : Token}
    (found : lexer.next = (.ok (some token), rest)) :
    (token.kind ≠ .eof ∧ token.Readable lexer.source ∧ rest.source = lexer.source ∧
      rest.finished = lexer.finished) ∨
    (token = Token.endOf lexer.source ∧ rest = lexer.exhausted) := by
  unfold next at found
  split at found
  · next taken read =>
    cases found
    obtain ⟨blanks, part, rest_eq, start, length, other⟩ := exists_lexeme_of_scanRest read
    obtain ⟨before, source_eq, offset_eq⟩ := lexer.source_eq
    refine .inl ⟨other, ?_, rfl, rfl⟩
    have split : lexer.source = (before ++ blanks) ++ (part ++ taken.rest) := by
      rw [source_eq, rest_eq, List.append_assoc]
    exact Token.readable_of_append split (by rw [start, Text.byteSize_append, offset_eq]) length
  · split at found
    · simp at found
    · cases found
      exact .inr ⟨rfl, rfl⟩
  · simp at found

theorem toList_exhausted (lexer : Lexer) : lexer.exhausted.toList = .ok [] := by
  rw [toList]
  split
  · next failed => simp [next, exhausted, scanRest] at failed
  · rfl
  · next found => simp [next, exhausted, scanRest] at found

theorem readable_endOf (source : Text) : (Token.endOf source).Readable source := by
  have split : source = source ++ ([] ++ []) := by simp
  exact Token.readable_of_append split rfl rfl

/-- The tokens that a walk hands out, one after the other. -/
theorem toList_eq_ok {lexer : Lexer} {tokens : List Token} (all : lexer.toList = .ok tokens)
    (unfinished : lexer.finished = false) :
    Terminated tokens ∧ ∀ token ∈ tokens, token.Readable lexer.source := by
  fun_induction toList lexer generalizing tokens with
  | case1 lexer stop rest found => cases all
  | case2 lexer rest found =>
    -- an unfinished walk has at least the end token left
    unfold next at found
    split at found
    · simp at found
    · simp [unfinished] at found
    · simp at found
  | case3 lexer token rest found ih =>
    obtain ⟨others, later, equal⟩ := bind_eq_ok_iff.1 all
    cases equal
    rcases next_eq_some found with ⟨other, readable, source, finished⟩ | ⟨rfl, rfl⟩
    · obtain ⟨ends, allReadable⟩ := ih later (finished.trans unfinished)
      rw [source] at allReadable
      exact ⟨.cons other ends, List.forall_mem_cons.2 ⟨readable, allReadable⟩⟩
    · rw [toList_exhausted] at later
      cases later
      exact ⟨.last rfl, List.forall_mem_singleton.2 (readable_endOf _)⟩

end Lexer

/-- The tokens of a source end in the end token, and all are readable. -/
theorem tokenize_eq_ok {source : Text} {tokens : List Token} (all : tokenize source = .ok tokens) :
    Terminated tokens ∧ ∀ token ∈ tokens, token.Readable source :=
  Lexer.toList_eq_ok all rfl

end FunMips
