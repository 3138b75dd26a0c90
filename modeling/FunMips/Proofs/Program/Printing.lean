import FunMips.Proofs.Assembly.Decoding
import FunMips.Proofs.Program.Concatenation

/-!
# Programs as sources

A program whose names are words and whose numbers are not negative can be written out, each of its
terminals as a lexeme with a blank before it. If the parser can read the program at all, it reads it
back (`Program.parse_text`).
-/

namespace FunMips

/-- The text of a mark or a keyword. The other kinds have no text of their own. -/
def Kind.text : Kind → Text
  | .leftParen => ['(']
  | .rightParen => [')']
  | .comma => [',']
  | .plus => ['+']
  | .minus => ['-']
  | .equal => ['=']
  | .defWord => ['d', 'e', 'f']
  | .ifWord => ['i', 'f']
  | .thenWord => ['t', 'h', 'e', 'n']
  | .elseWord => ['e', 'l', 's', 'e']
  | .number | .ident | .eof => []

namespace Terminal

/-- The lexeme that says the terminal. -/
def lexeme : Terminal → Lexeme
  | mark kind => { kind, text := kind.text }
  | number value =>
    { kind := .number, text := Nat.toDigits 10 value.toInt.toNat, value := some value }
  | name text => { kind := .ident, text := text.toList }

/-- A lexeme can say the terminal: a mark or a keyword, a number that is not negative, or a word
that starts with no digit and is no keyword. -/
def IsWritable : Terminal → Prop
  | mark kind => kind.text ≠ []
  | number value => 0 ≤ value.toInt
  | name text => IsWord text ∧ text.toList.head?.all (!·.isDigit) ∧
      ∀ entry ∈ keywords, entry.1 ≠ text.toList

instance (terminal : Terminal) : Decidable terminal.IsWritable :=
  match terminal with
  | mark kind => inferInstanceAs (Decidable (kind.text ≠ []))
  | number value => inferInstanceAs (Decidable (0 ≤ value.toInt))
  | name text => inferInstanceAs (Decidable (IsWord text ∧ _ ∧ _))

/-- The terminals one after the other, with a blank before each. -/
def texts (terminals : List Terminal) : Text :=
  terminals.flatMap fun terminal => ' ' :: terminal.lexeme.text

theorem texts_cons (terminal : Terminal) (terminals : List Terminal) :
    texts (terminal :: terminals) = [' '] ++ (terminal.lexeme.text ++ texts terminals) := rfl

theorem eq_blank_of_head_texts {terminals : List Terminal} :
    ∀ c ∈ (texts terminals).head?, c = ' ' := by
  cases terminals with
  | nil => simp [texts]
  | cons => simp [texts_cons]

/-- A lexeme cannot be made longer where a blank or the end follows. -/
theorem IsWritable.longest {terminal : Terminal} {rest : Text} (writable : terminal.IsWritable)
    (blank : ∀ c ∈ rest.head?, c = ' ') : terminal.lexeme.Longest rest := by
  have noWord (c : Char) (follows : c ∈ rest.head?) : isWordChar c = false :=
    blank c follows ▸ by decide
  cases terminal with
  | mark kind =>
    cases kind with
    | number | ident | eof => exact absurd rfl writable
    | defWord | ifWord | thenWord | elseWord =>
      exact .word rfl (List.all_eq_true.1 rfl) noWord (.inl (by decide))
    | _ => exact .mark (by decide)
  | number value =>
    cases digits : Nat.toDigits 10 value.toInt.toNat with
    | nil => exact absurd digits Nat.toDigits_ne_nil
    | cons c cs =>
      have denoted : Nat.ofDigitChars 10 (c :: cs) 0 = value.toInt.toNat := by
        rw [← digits, Nat.ofDigitChars_ten_toDigits]
      have nonneg : 0 ≤ value.toInt := writable
      have small : value.toInt ≤ 2147483647 := value.toInt_le
      rw [lexeme, digits]
      refine .number ?_ (fun d follows => not_isDigit_of_not_isWordChar (noWord d follows)) ?_ ?_
      · rw [← digits]
        exact fun d member => Nat.isDigit_of_mem_toDigits (by decide) (by decide) member
      · omega
      · omega
  | name name =>
    obtain ⟨⟨nonempty, all⟩, starts, noKeyword⟩ := writable
    cases letters : name.toList with
    | nil => exact absurd (String.toList_eq_nil_iff.1 letters) nonempty
    | cons c cs =>
      rw [letters] at all starts noKeyword
      rw [lexeme, letters]
      exact .word (by simpa using starts) all noWord
        (.inr ⟨rfl, fun kind listed => noKeyword (c :: cs, kind) listed rfl⟩)

/-- The token of the lexeme says the terminal. -/
theorem IsWritable.word_eq {terminal : Terminal} {source before after : Text}
    (writable : terminal.IsWritable) (split : source = before ++ (terminal.lexeme.text ++ after)) :
    (terminal.lexeme.token before.byteSize).word source = terminal := by
  cases terminal with
  | mark kind =>
    refine Token.word_of_mark rfl ?_ ?_
    · rintro rfl
      exact writable rfl
    · rintro rfl
      exact writable rfl
  | number value => exact Token.word_of_number rfl
  | name name =>
    rw [Token.word_of_name rfl (Token.text_of_append split rfl rfl)]
    exact congrArg Terminal.name String.ofList_toList

/-- The texts of terminals are read as tokens that say the terminals. -/
theorem exists_reading_texts {source before : Text} {terminals : List Terminal}
    (writable : ∀ terminal ∈ terminals, terminal.IsWritable)
    (split : source = before ++ texts terminals) :
    ∃ tokens, Reading before.byteSize (texts terminals) tokens none ∧
      Writes source tokens terminals := by
  -- what has been read already moves to `before`, and the offset with it
  induction terminals generalizing before with
  | nil => exact ⟨[], .ends (by simp [texts]), rfl, by simp⟩
  | cons terminal terminals ih =>
    obtain ⟨here, later⟩ := List.forall_mem_cons.1 writable
    rw [texts_cons, ← List.append_assoc] at split
    obtain ⟨tokens, reading, words, readable⟩ :=
      @ih (before ++ [' '] ++ terminal.lexeme.text) later (by rw [split, ← List.append_assoc])
    rw [Text.byteSize_append, Text.byteSize_append] at reading
    refine ⟨_, .token (by simp [isBlank]) (here.longest eq_blank_of_head_texts) reading, ?_, ?_⟩
    · rw [List.map_cons, words, ← Text.byteSize_append, here.word_eq split]
    · refine List.forall_mem_cons.2 ⟨?_, readable⟩
      exact Token.readable_of_append split (Text.byteSize_append before [' ']).symm rfl

end Terminal

theorem isWritable_namesSpelling {names : List String}
    (all : ∀ name ∈ names, (Terminal.name name).IsWritable) :
    ∀ terminal ∈ namesSpelling names, terminal.IsWritable := by
  induction names with
  | nil => simp [namesSpelling]
  | cons name names ih =>
    obtain ⟨here, later⟩ := List.forall_mem_cons.1 all
    cases names with
    | nil => exact List.forall_mem_singleton.2 here
    | cons next names =>
      exact List.forall_mem_cons.2 ⟨here, List.forall_mem_cons.2 ⟨by decide, ih later⟩⟩

namespace Program

/-- The program written out. -/
def text (program : Program) : Text := Terminal.texts program.spelling

/-- A program that can be written and has few enough levels is read back from its text. -/
theorem parse_text {program : Program}
    (writable : ∀ terminal ∈ program.spelling, terminal.IsWritable)
    (canonical : program.isCanonical) (shallow : ∀ d ∈ program.decls, d.expr.nesting ≤ maxNesting) :
    parse program.text = .ok program := by
  obtain ⟨tokens, reading, writes⟩ :=
    Terminal.exists_reading_texts writable (List.nil_append program.text).symm
  exact parse_eq_ok_iff_writes.2 ⟨tokens, tokenize_of_reading reading, writes, canonical, shallow⟩

end Program

end FunMips
