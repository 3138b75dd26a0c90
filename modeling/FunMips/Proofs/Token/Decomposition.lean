import Mathlib.Data.List.Basic
import FunMips.Proofs.Token.Bytes

/-!
# Sources decomposed into tokens

The tokens of a source, the end token apart, are those that cover it by lexemes which cannot be
made longer and leave only blank bytes out (`Decomposition`). A source has at most one such list of
tokens, and the tokenizer finds it (`Decomposition.tokenize_eq`, `Reading.decomposition`).
-/

namespace FunMips

/-- The bytes that may stand between tokens: space, tab, newline, carriage return, form feed and
vertical tab. -/
def blankBytes : List UInt8 := [0x20, 0x09, 0x0a, 0x0d, 0x0c, 0x0b]

namespace Token

/-- The byte at the offset is part of the token. -/
def Covers (token : Token) (offset : Nat) : Prop :=
  token.start ≤ offset ∧ offset < token.start + token.length

/-- The token stands for a lexeme of the source that cannot be made longer. -/
def Spans (source : Text) (token : Token) : Prop :=
  ∃ (before : Text) (lexeme : Lexeme) (after : Text), source = before ++ (lexeme.text ++ after) ∧
    lexeme.Longest after ∧ token = lexeme.token before.byteSize

end Token

/-- The tokens are those of the source from a byte offset on, without the end token. -/
structure Decomposition (source : Text) (offset : Nat) (tokens : List Token) : Prop where
  notEnd : ∀ token ∈ tokens, token.kind ≠ .eof
  nonempty : ∀ token ∈ tokens, 0 < token.length
  notBefore : ∀ token ∈ tokens, offset ≤ token.start
  ordered : tokens.Pairwise fun token later => token.start + token.length ≤ later.start
  gaps : ∀ i byte, offset ≤ i → source.bytes[i]? = some byte →
    (∀ token ∈ tokens, ¬ token.Covers i) → byte ∈ blankBytes
  lexemes : ∀ token ∈ tokens, token.Spans source
  values : ∀ token ∈ tokens, token.value ≠ none → token.kind = .number

/-! ## Blank bytes -/

theorem isBlank_iff {c : Char} :
    isBlank c ↔ ∀ byte ∈ String.utf8EncodeChar c, byte ∈ blankBytes := by
  have chars : [' ', '\t', '\n', '\r', '\x0b', '\x0c'].Perm (blankBytes.map Char.ofUInt8) := by
    decide
  have listed (byte : UInt8) : isBlank (Char.ofUInt8 byte) ↔ byte ∈ blankBytes := by
    rw [isBlank_iff_mem, chars.mem_iff, List.mem_map_of_injective ofUInt8_injective]
  constructor
  · intro blank byte member
    rwa [← listed, asciiOnly_isBlank.byte_eq member]
  · intro blank
    obtain ⟨byte, bytes, encoded⟩ :=
      List.exists_cons_of_ne_nil (String.utf8EncodeChar_ne_nil (c := c))
    have first : byte ∈ String.utf8EncodeChar c := by simp [encoded]
    rw [← asciiOnly_isBlank.byte_eq first, listed]
    exact blank byte first

theorem forall_isBlank_iff {text : Text} :
    (∀ c ∈ text, isBlank c) ↔ ∀ byte ∈ text.bytes, byte ∈ blankBytes := by
  simp only [isBlank_iff, Text.bytes, List.mem_flatMap]
  constructor
  · intro blank byte ⟨c, member, inside⟩
    exact blank c member byte inside
  · intro blank c member byte inside
    exact blank byte ⟨c, member, inside⟩

/-! ## From readings to decompositions and back -/

namespace Lexeme

variable {lexeme : Lexeme} {rest : Text}

theorem Longest.kind_ne_eof (longest : lexeme.Longest rest) : lexeme.kind ≠ .eof := by
  rcases longest.exists_read with ⟨c, cs, -, -, found⟩
  exact Lexeme.kind_ne_eof found

theorem Longest.byteSize_pos (longest : lexeme.Longest rest) : 0 < lexeme.text.byteSize := by
  rcases longest.exists_read with ⟨c, cs, -, -, found⟩
  exact Text.byteSize_pos (length_pos_of_read found)

theorem Longest.kind_eq_number (longest : lexeme.Longest rest) (valued : lexeme.value ≠ none) :
    lexeme.kind = .number := by
  cases longest with
  | mark => exact absurd rfl valued
  | number => rfl
  | word => exact absurd rfl valued

end Lexeme

namespace Decomposition

variable {source before blanks rest : Text} {offset : Nat} {lexeme : Lexeme} {token : Token}
  {tokens : List Token}

/-- Blanks up to the end of the source hold no token. -/
theorem nil (split : source = before ++ rest) (blank : ∀ c ∈ rest, isBlank c) :
    Decomposition source before.byteSize [] where
  notEnd := by simp
  nonempty := by simp
  notBefore := by simp
  ordered := .nil
  gaps := by
    intro i byte behind found _
    have inside : i < source.byteSize := by
      rw [← Text.length_bytes]
      exact (List.getElem?_eq_some_iff.1 found).1
    rw [split, Text.byteSize_append] at inside
    have whole : source = before ++ (rest ++ []) := by rw [split, List.append_nil]
    rw [whole] at found
    have member := (Text.mem_bytes_iff _ _).2 ⟨i, behind, inside, found⟩
    exact forall_isBlank_iff.1 blank byte member
  lexemes := by simp
  values := by simp

/-- Blanks and a lexeme in front of a text add the token of the lexeme. -/
theorem cons (split : source = before ++ (blanks ++ (lexeme.text ++ rest)))
    (blank : ∀ c ∈ blanks, isBlank c) (longest : lexeme.Longest rest)
    (others : Decomposition source
      (before.byteSize + blanks.byteSize + lexeme.text.byteSize) tokens) :
    Decomposition source before.byteSize
      (lexeme.token (before.byteSize + blanks.byteSize) :: tokens) where
  notEnd := List.forall_mem_cons.2 ⟨longest.kind_ne_eof, others.notEnd⟩
  nonempty := List.forall_mem_cons.2 ⟨longest.byteSize_pos, others.nonempty⟩
  notBefore := by
    refine List.forall_mem_cons.2 ⟨Nat.le_add_right _ _, ?_⟩
    intro token member
    have behind := others.notBefore token member
    omega
  ordered := List.pairwise_cons.2 ⟨others.notBefore, others.ordered⟩
  gaps := by
    intro i byte behind found outside
    rcases List.forall_mem_cons.1 outside with ⟨here, elsewhere⟩
    -- the byte stands among the blanks before the token, or after the token
    by_cases front : i < before.byteSize + blanks.byteSize
    · rw [split] at found
      have member := (Text.mem_bytes_iff _ _).2 ⟨i, behind, front, found⟩
      exact forall_isBlank_iff.1 blank byte member
    · refine others.gaps i byte ?_ found elsewhere
      by_contra inside
      exact here ⟨Nat.le_of_not_lt front, Nat.lt_of_not_le inside⟩
  lexemes := by
    refine List.forall_mem_cons.2
      ⟨⟨before ++ blanks, lexeme, rest, ?_, longest, ?_⟩, others.lexemes⟩
    · rw [split, List.append_assoc]
    · rw [Text.byteSize_append]
  values := List.forall_mem_cons.2 ⟨longest.kind_eq_number, others.values⟩

/-- What stands after the first token is decomposed by the others. -/
theorem tail (tokenized : Decomposition source offset (token :: tokens)) :
    Decomposition source (token.start + token.length) tokens where
  notEnd := (List.forall_mem_cons.1 tokenized.notEnd).2
  nonempty := (List.forall_mem_cons.1 tokenized.nonempty).2
  notBefore := (List.pairwise_cons.1 tokenized.ordered).1
  ordered := (List.pairwise_cons.1 tokenized.ordered).2
  gaps := by
    intro i byte behind found outside
    have start := tokenized.notBefore token List.mem_cons_self
    refine tokenized.gaps i byte (by omega) found (List.forall_mem_cons.2 ⟨?_, outside⟩)
    intro covers
    exact absurd covers.2 (by omega)
  lexemes := (List.forall_mem_cons.1 tokenized.lexemes).2
  values := (List.forall_mem_cons.1 tokenized.values).2

/-- Tokens that decompose a text are those of its reading, which ends without a fault. -/
theorem reading (tokenized : Decomposition source offset tokens) (split : source = before ++ rest)
    (offset_eq : offset = before.byteSize) : Reading offset rest tokens none := by
  induction tokens generalizing offset before rest with
  | nil =>
    apply Reading.ends
    have whole : source = before ++ (rest ++ []) := by rw [split, List.append_nil]
    refine forall_isBlank_iff.2 fun byte member => ?_
    rcases (Text.mem_bytes_iff before []).1 member with ⟨i, behind, _, found⟩
    rw [← whole] at found
    exact tokenized.gaps i byte (by omega) found (by simp)
  | cons token tokens ih =>
    rcases tokenized.lexemes token List.mem_cons_self with ⟨front, lexeme, after, cut, longest, rfl⟩
    have behind : before.byteSize ≤ front.byteSize := by
      rw [← offset_eq]
      exact tokenized.notBefore _ List.mem_cons_self
    rcases Text.exists_gap (split.symm.trans cut) behind with ⟨gap, rfl, rfl⟩
    have later := List.pairwise_cons.1 tokenized.ordered
    have blank : ∀ c ∈ gap, isBlank c := by
      refine forall_isBlank_iff.2 fun byte member => ?_
      rcases (Text.mem_bytes_iff before (lexeme.text ++ after)).1 member with
        ⟨i, behind, front, found⟩
      rw [← split] at found
      refine tokenized.gaps i byte (by omega) found ?_
      -- what stands before the first token stands before all
      have outside : i < (lexeme.token (before ++ gap).byteSize).start := by
        simpa [Lexeme.token] using front
      refine List.forall_mem_cons.2 ⟨fun covers => ?_, fun token member covers => ?_⟩
      · exact absurd covers.1 (by omega)
      · have order := later.1 token member
        exact absurd covers.1 (by omega)
    have whole : source = (before ++ gap ++ lexeme.text) ++ after := by simp [split]
    have others : Reading (offset + gap.byteSize + lexeme.text.byteSize) after tokens none := by
      have size : offset + gap.byteSize + lexeme.text.byteSize =
          (before ++ gap).byteSize + lexeme.text.byteSize := by rw [offset_eq, Text.byteSize_append]
      rw [size]
      exact ih tokenized.tail whole (Text.byteSize_append _ _).symm
    rw [Text.byteSize_append, ← offset_eq]
    exact .token blank longest others

theorem tokenize_eq (tokenized : Decomposition source 0 tokens) :
    tokenize source = .ok (tokens ++ [Token.endOf source]) :=
  tokenize_of_reading (tokenized.reading (List.nil_append source).symm rfl)

end Decomposition

/-- The tokens of a reading that ends without a fault decompose what was read. -/
theorem Reading.decomposition {source before rest : Text} {tokens : List Token} {offset : Nat}
    {ending : Option (Nat × Lexeme.Fault)} (reading : Reading offset rest tokens ending)
    (clean : ending = none) (split : source = before ++ rest)
    (offset_eq : offset = before.byteSize) : Decomposition source offset tokens := by
  induction reading generalizing before with
  | ends blank =>
    rw [offset_eq]
    exact .nil split blank
  | fails => cases clean
  | @token offset blanks rest lexeme tokens ending blank longest later ih =>
    have whole : source = (before ++ blanks ++ lexeme.text) ++ rest := by simp [split]
    have others := ih clean whole (by simp [offset_eq, Nat.add_assoc])
    rw [offset_eq] at others ⊢
    exact .cons split blank longest others

/-- A token of a source stands for a lexeme that cannot be made longer, and covers its text. -/
theorem exists_lexeme_of_tokenize {source : Text} {tokens : List Token} {last : Token}
    (lexed : tokenize source = .ok (tokens ++ [last])) :
    ∀ token ∈ tokens, ∃ (lexeme : Lexeme) (rest : Text), lexeme.Longest rest ∧
      token.kind = lexeme.kind ∧ token.value = lexeme.value ∧
      token.text source = .ok (String.ofList lexeme.text) := by
  obtain ⟨front, reading, equal⟩ := exists_reading_of_tokenize lexed
  obtain ⟨rfl, -⟩ := List.append_inj' equal rfl
  intro token member
  obtain ⟨before, lexeme, after, split, longest, rfl⟩ :=
    (reading.decomposition rfl (List.nil_append source).symm rfl).lexemes token member
  exact ⟨lexeme, after, longest, rfl, rfl, Token.text_of_append split rfl rfl⟩

/-- The tokens of a source are those of its decomposition, and then the end token; there is at most
one decomposition. -/
theorem tokenize_eq_ok_iff (source : Text) :
    (∀ tokens, tokenize source = .ok tokens ↔ ∃ front, Decomposition source 0 front ∧
      tokens = front ++
        [{ kind := .eof, start := source.byteSize, length := 0, value := none }]) ∧
    ∀ front other, Decomposition source 0 front → Decomposition source 0 other →
      front = other := by
  refine ⟨fun tokens => ⟨fun found => ?_, ?_⟩, ?_⟩
  · rcases exists_reading 0 source with ⟨front, ending, reading⟩
    rw [tokenize_of_reading reading] at found
    cases ending with
    | none =>
      cases found
      exact ⟨front, reading.decomposition rfl (List.nil_append source).symm rfl, rfl⟩
    | some fault => cases found
  · intro ⟨front, tokenized, equal⟩
    rw [equal]
    exact tokenized.tokenize_eq
  · intro front other tokenized otherwise
    have same := tokenized.tokenize_eq.symm.trans otherwise.tokenize_eq
    exact List.append_cancel_right (Except.ok.inj same)

/-- A name goes on over digits, and a number ends at a letter. -/
def glued : Text := "if2 07z".toList

/-- The tokens of `glued`, without the end token. -/
def gluedTokens : List Token :=
  [{ kind := .ident, start := 0, length := 3 },
    { kind := .number, start := 4, length := 2, value := some 7 },
    { kind := .ident, start := 6, length := 1 }]

theorem decomposition_glued :
    Decomposition glued 0 gluedTokens ∧
      ∀ other, Decomposition glued 0 other → gluedTokens = other := by
  have lexed : tokenize glued = .ok (gluedTokens ++ [Token.endOf glued]) := by decide +kernel
  rcases ((tokenize_eq_ok_iff glued).1 _).1 lexed with ⟨front, tokenized, equal⟩
  rw [← List.append_cancel_right equal] at tokenized
  exact ⟨tokenized, fun other => (tokenize_eq_ok_iff glued).2 _ other tokenized⟩

end FunMips
