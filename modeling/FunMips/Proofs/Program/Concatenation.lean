import FunMips.Proofs.Program.Agreement

/-!
# Sources one after the other

Two sources with blanks between them have the tokens of both, those of the second moved on by what
stands before it (`tokenize_append`). A blank ends every lexeme, so nothing goes over from the one
source to the other, and the tokens say the same at their new places (`Token.word_shift`). As no
declaration can begin with what goes on with the one before it, the program of both sources has the
declarations of the first and then those of the second (`parse_append`).
-/

namespace FunMips

/-! ## Tokens at other places -/

namespace Token

/-- The token that many bytes further on. -/
def shift (count : Nat) (token : Token) : Token := { token with start := count + token.start }

@[simp] theorem shift_zero (token : Token) : token.shift 0 = token := by
  simp [shift]

variable {source : Text} {token : Token}

/-- What a token covers does not change because the source stands in a longer one. -/
theorem text_shift {text : String} (cut : token.text source = .ok text) (before after : Text) :
    (token.shift before.byteSize).text (before ++ (source ++ after)) = .ok text := by
  unfold Token.text at cut
  split at cut
  · next part found =>
    cases cut
    obtain ⟨front, back, rfl, start, length⟩ := Text.slice?_eq_some_iff.1 found
    have split : before ++ (front ++ (part ++ back) ++ after) =
        (before ++ front) ++ (part ++ (back ++ after)) := by simp
    exact Token.text_of_append split (by simp [shift, start]) length.symm
  · cases cut

theorem word_shift (readable : token.Readable source) (before after : Text) :
    (token.shift before.byteSize).word (before ++ (source ++ after)) = token.word source := by
  obtain ⟨⟨text, cut⟩, -⟩ := readable
  have same : (token.shift before.byteSize).text (before ++ (source ++ after)) =
      token.text source := (text_shift cut before after).trans cut.symm
  unfold word
  rw [same]
  rfl

end Token

/-! ## Readings one after the other -/

section Readings

variable {blanks front rest more : Text} {offset : Nat} {tokens others : List Token}
variable {ending other : Option (Nat × Lexeme.Fault)}

theorem not_isWordChar_of_isBlank {c : Char} (blank : isBlank c) : isWordChar c = false := by
  by_contra word
  rw [not_isBlank_of_isWordChar (by simpa using word)] at blank
  cases blank

/-- A lexeme that cannot be made longer stays so in front of a blank. -/
theorem Lexeme.Longest.append {lexeme : Lexeme} (longest : lexeme.Longest rest)
    (apart : ∀ c ∈ more.head?, isBlank c) : lexeme.Longest (rest ++ more) := by
  have ends {p : Char → Bool} (here : ∀ c ∈ rest.head?, p c = false)
      (noWord : ∀ c, isWordChar c = false → p c = false) :
      ∀ c ∈ (rest ++ more).head?, p c = false := by
    intro c first
    cases rest with
    | nil => exact noWord c (not_isWordChar_of_isBlank (apart c first))
    | cons d rest => exact here c first
  cases longest with
  | mark listed => exact .mark listed
  | number all last small denotes =>
    exact .number all (ends last fun c => not_isDigit_of_not_isWordChar) small denotes
  | word starts all last named => exact .word starts all (ends last fun c => id) named

namespace Reading

/-- Where a text stands does not matter for how it is read. -/
theorem shift (reading : Reading offset rest tokens ending) (count : Nat) :
    Reading (count + offset) rest (tokens.map (Token.shift count))
      (ending.map fun (place, fault) => (count + place, fault)) := by
  induction reading with
  | ends blank => exact .ends blank
  | @fails offset blanks rest fault blank front =>
    have moved : Reading (count + offset) (blanks ++ rest) []
        (some (count + offset + blanks.byteSize, fault)) := .fails blank front
    rwa [Nat.add_assoc] at moved
  | @token offset blanks rest lexeme tokens ending blank longest later ih =>
    rw [← Nat.add_assoc, ← Nat.add_assoc] at ih
    have moved := Reading.token blank longest ih
    rwa [Nat.add_assoc] at moved

/-- Blanks in front of a text are skipped. -/
theorem behind_blanks (reading : Reading (offset + blanks.byteSize) rest tokens ending)
    (blank : ∀ c ∈ blanks, isBlank c) : Reading offset (blanks ++ rest) tokens ending := by
  cases reading with
  | ends more => exact .ends (List.forall_mem_append.2 ⟨blank, more⟩)
  | @fails _ others rest fault more front =>
    have both : Reading offset ((blanks ++ others) ++ rest) []
        (some (offset + Text.byteSize (blanks ++ others), fault)) :=
      .fails (List.forall_mem_append.2 ⟨blank, more⟩) front
    rwa [Text.byteSize_append, ← Nat.add_assoc, List.append_assoc] at both
  | @token _ others rest lexeme tokens _ more longest later =>
    rw [Nat.add_assoc offset, ← Text.byteSize_append] at later ⊢
    rw [← List.append_assoc]
    exact .token (List.forall_mem_append.2 ⟨blank, more⟩) longest later

/-- If a blank comes after a text, the text is read to its end, and then what comes after it. -/
theorem append (reading : Reading offset front tokens ending) (clean : ending = none)
    (apart : ∀ c ∈ rest.head?, isBlank c)
    (later : Reading (offset + front.byteSize) rest others other) :
    Reading offset (front ++ rest) (tokens ++ others) other := by
  induction reading with
  | ends blank => exact later.behind_blanks blank
  | fails => cases clean
  | @token offset blanks text lexeme tokens ending blank longest _ ih =>
    have onward : Reading (offset + blanks.byteSize + lexeme.text.byteSize) (text ++ rest)
        (tokens ++ others) other := by
      apply ih clean
      rwa [Text.byteSize_append, Text.byteSize_append, ← Nat.add_assoc, ← Nat.add_assoc] at later
    rw [List.append_assoc, List.append_assoc]
    exact .token blank (longest.append apart) onward

end Reading

end Readings

/-- The tokens of two sources with blanks between them. -/
theorem tokenize_append {first second blanks : Text} {front back : List Token}
    (lexed : tokenize first = .ok (front ++ [Token.endOf first]))
    (lexedSecond : tokenize second = .ok (back ++ [Token.endOf second])) (some : blanks ≠ [])
    (blank : ∀ c ∈ blanks, isBlank c) :
    tokenize (first ++ (blanks ++ second)) =
      .ok (front ++ back.map (Token.shift (first ++ blanks).byteSize) ++
        [Token.endOf (first ++ (blanks ++ second))]) := by
  obtain ⟨_, reading, equal⟩ := exists_reading_of_tokenize lexed
  obtain ⟨_, readingSecond, equalSecond⟩ := exists_reading_of_tokenize lexedSecond
  obtain rfl := List.append_cancel_right equal
  obtain rfl := List.append_cancel_right equalSecond
  have apart : ∀ c ∈ (blanks ++ second).head?, isBlank c := by
    obtain ⟨b, others, rfl⟩ := List.exists_cons_of_ne_nil some
    simpa using blank b List.mem_cons_self
  have moved := readingSecond.shift (first ++ blanks).byteSize
  have size : (first ++ blanks).byteSize + 0 = 0 + first.byteSize + blanks.byteSize := by simp
  rw [size] at moved
  have whole := reading.append rfl apart (moved.behind_blanks blank)
  exact tokenize_of_reading whole

/-- A source is read as a program exactly if its tokens write it, and it is canonical and of few
enough levels. -/
theorem parse_eq_ok_iff_writes {source : Text} {program : Program} :
    parse source = .ok program ↔
      ∃ front, tokenize source = .ok (front ++ [Token.endOf source]) ∧
        Writes source front program.spelling ∧ program.isCanonical ∧
        ∀ d ∈ program.decls, d.expr.nesting ≤ maxNesting := by
  constructor
  · intro parsed
    cases lexed : tokenize source with
    | error stop =>
      obtain ⟨found, failed, -⟩ := exists_parse_eq_error lexed
      cases parsed.symm.trans failed
    | ok tokens =>
      obtain ⟨front, -, rfl⟩ := exists_reading_of_tokenize lexed
      rw [parse_eq_parseTokens lexed] at parsed
      obtain ⟨canonical, shallow, writes⟩ := writes_of_parseTokens lexed parsed
      exact ⟨front, rfl, writes, canonical, shallow⟩
  · rintro ⟨front, lexed, writes, canonical, shallow⟩
    rw [parse_eq_parseTokens lexed]
    exact parseTokens_of_writes canonical shallow writes rfl

/-- The tokens of two sources with blanks between them write what both sources write. -/
theorem Writes.concatenation {first second blanks : Text} {front back last : List Token}
    {terminals others : List Terminal} (writes : Writes first front terminals)
    (writesSecond : Writes second back others)
    (lexed : tokenize (first ++ (blanks ++ second)) =
      .ok (front ++ back.map (Token.shift (first ++ blanks).byteSize) ++ last)) :
    Writes (first ++ (blanks ++ second))
      (front ++ back.map (Token.shift (first ++ blanks).byteSize)) (terminals ++ others) := by
  refine ⟨?_, fun token member => (tokenize_eq_ok lexed).2 token (List.mem_append_left _ member)⟩
  rw [List.map_append, List.map_map]
  congr 1
  · rw [← writes.words]
    refine List.map_congr_left fun token member => ?_
    have same := Token.word_shift (writes.readable token member) [] (blanks ++ second)
    simpa using same
  · rw [← writesSecond.words]
    refine List.map_congr_left fun token member => ?_
    have same := Token.word_shift (writesSecond.readable token member) (first ++ blanks) []
    simpa using same

/-- Two sources that are read as programs, with blanks between them, are read as the program with
the declarations of the first and then those of the second. -/
theorem parse_append {first second blanks : Text} {program other : Program} (some : blanks ≠ [])
    (blank : ∀ c ∈ blanks, c ∈ [' ', '\t', '\n', '\r', '\x0c', '\x0b'])
    (parsed : parse first = .ok program) (parsedSecond : parse second = .ok other) :
    parse (first ++ blanks ++ second) = .ok { decls := program.decls ++ other.decls } := by
  obtain ⟨front, lexed, writes, canonical, shallow⟩ := parse_eq_ok_iff_writes.1 parsed
  obtain ⟨back, lexedSecond, writesSecond, canonicalSecond, shallowSecond⟩ :=
    parse_eq_ok_iff_writes.1 parsedSecond
  have allBlank : ∀ c ∈ blanks, isBlank c := fun c member =>
    isBlank_iff_mem.2 (by simpa [or_comm, or_left_comm] using blank c member)
  have lexedBoth := tokenize_append lexed lexedSecond some allBlank
  have writesBoth := writes.concatenation writesSecond lexedBoth
  rw [List.append_assoc]
  refine parse_eq_ok_iff_writes.2 ⟨_, lexedBoth, ?_, ?_, ?_⟩
  · rw [Program.spelling, List.flatMap_append]
    exact writesBoth
  · rw [Program.isCanonical, List.all_append]
    exact Bool.and_eq_true_iff.2 ⟨canonical, canonicalSecond⟩
  · exact List.forall_mem_append.2 ⟨shallow, shallowSecond⟩

/-- The source `def f(x) = x`, which ends in a name. -/
def identity : Text := ['d', 'e', 'f', ' ', 'f', '(', 'x', ')', ' ', '=', ' ', 'x']

/-- The declaration in it. -/
def identityDecl : Decl := .function { name := "f", params := ["x"], body := .var "x" }

theorem parse_append_identity :
    parse identity = .ok { decls := [identityDecl] } ∧
      ∃ statement, parse difference = .ok { decls := [statement] } ∧
        parse (identity ++ ['\n'] ++ difference) = .ok { decls := [identityDecl, statement] } := by
  have parsed : parse identity = .ok { decls := [identityDecl] } := by decide +kernel
  have parsedSecond : parse difference = .ok { decls :=
      [.statement (.binary .minus (.call "f" [.number 1]) (.number 2))] } := by decide +kernel
  exact ⟨parsed, _, parsedSecond, parse_append (by simp) (by simp) parsed parsedSecond⟩

end FunMips
