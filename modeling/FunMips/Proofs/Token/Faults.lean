import FunMips.Compiler
import FunMips.Proofs.Text
import FunMips.Proofs.Token.Lexemes

/-!
# Faults of a source

A source has a fault wherever a character belongs to no token, and wherever a longest run of word
characters starts with digits of a number that is too large (`FaultAt`). The tokenizer fails exactly
if there is a fault, and it reports the leftmost one (`Reading.firstFault`).
-/

namespace FunMips

/-- A fault of the source, at its byte offset. -/
inductive FaultAt (source : Text) : Nat → Lexeme.Fault → Prop
  | unrecognized {before after : Text} {c : Char} (split : source = before ++ c :: after)
      (noBlank : c ∉ [' ', '\t', '\n', '\r', '\x0b', '\x0c'])
      (noMark : c ∉ ['(', ')', ',', '+', '-', '=']) (noWord : isWordChar c = false) :
    FaultAt source before.byteSize (.unrecognized c)
  /-- A run of word characters that is longest on both sides. -/
  | tooLarge {before run after : Text} (split : source = before ++ (run ++ after))
      (all : ∀ c ∈ run, isWordChar c) (starts : ∀ c ∈ before.getLast?, isWordChar c = false)
      (ends : ∀ c ∈ after.head?, isWordChar c = false)
      (large : 2147483647 < Nat.ofDigitChars 10 (run.takeWhile Char.isDigit) 0) :
    FaultAt source before.byteSize (.tooLarge (run.takeWhile Char.isDigit))

/-- The first fault of the source at or after a byte offset, if there is one. -/
def FirstFault (source : Text) (offset : Nat) : Option (Nat × Lexeme.Fault) → Prop
  | none => ∀ other fault, FaultAt source other fault → other < offset
  | some (here, fault) => FaultAt source here fault ∧
    ∀ other later, FaultAt source other later → offset ≤ other → here ≤ other

/-- No digit after the cut goes on with a word before it. -/
def Boundary (before rest : Text) : Prop :=
  ∀ c ∈ before.getLast?, ∀ d ∈ rest.head?, isWordChar c → d.isDigit = false

/-! ## Faults and what stands in front of a text -/

variable {source before rest : Text} {offset : Nat} {lexeme : Lexeme} {fault : Lexeme.Fault}

/-- The digits in front of a run are followed by no digit, even if they are all of it. -/
theorem front_of_run {run after : Text} (ends : ∀ c ∈ after.head?, isWordChar c = false)
    (large : 2147483647 < Nat.ofDigitChars 10 (run.takeWhile Char.isDigit) 0) :
    Lexeme.Fault.Front (.tooLarge (run.takeWhile Char.isDigit)) (run ++ after) := by
  have whole : run ++ after =
      run.takeWhile Char.isDigit ++ (run.dropWhile Char.isDigit ++ after) := by
    rw [← List.append_assoc, List.takeWhile_append_dropWhile]
  have all : ∀ c ∈ run.takeWhile Char.isDigit, c.isDigit := fun c => List.mem_takeWhile_imp
  have endsDigits : ∀ c ∈ (run.dropWhile Char.isDigit ++ after).head?, c.isDigit = false := by
    intro c head
    cases left : run.dropWhile Char.isDigit with
    | nil =>
      rw [left] at head
      exact not_isDigit_of_not_isWordChar (ends c head)
    | cons d ds =>
      rw [left] at head
      exact head?_dropWhile Char.isDigit run c (by rw [left]; exact head)
  rw [whole]
  cases leading : run.takeWhile Char.isDigit with
  | nil =>
    rw [leading] at large
    simp at large
  | cons d ds =>
    rw [leading] at large all
    exact .tooLarge all endsDigits large

/-- A run goes on with the word characters after its digits. -/
theorem takeWhile_isDigit_run {digits : Text} (all : ∀ c ∈ digits, c.isDigit)
    (ends : ∀ c ∈ rest.head?, c.isDigit = false) :
    (digits ++ rest.takeWhile isWordChar).takeWhile Char.isDigit = digits := by
  refine takeWhile_run all fun c head => ends c ?_
  rw [List.head?_takeWhile] at head
  exact (Option.mem_filter_iff.1 head).1

/-- A fault stands in front of what follows a boundary. -/
theorem faultAt_iff :
    FaultAt source offset fault ↔ ∃ before rest, source = before ++ rest ∧
      offset = before.byteSize ∧ fault.Front rest ∧ Boundary before rest := by
  constructor
  · intro found
    cases found with
    | @unrecognized before after c split noBlank noMark noWord =>
      rw [← isBlank_iff_mem, Bool.not_eq_true] at noBlank
      refine ⟨before, c :: after, split, rfl,
        .unrecognized noBlank (notMem_marks_iff.2 noMark) noWord, ?_⟩
      intro _ _ d head _
      cases head
      exact not_isDigit_of_not_isWordChar noWord
    | @tooLarge before run after split all starts ends large =>
      refine ⟨before, run ++ after, split, rfl, front_of_run ends large, ?_⟩
      intro c last d _ word
      rw [starts c last] at word
      cases word
  · intro ⟨before, rest, split, offset_eq, front, boundary⟩
    subst offset_eq
    cases front with
    | unrecognized noBlank noMark noWord =>
      rw [← Bool.not_eq_true, isBlank_iff_mem] at noBlank
      exact .unrecognized split noBlank (notMem_marks_iff.1 noMark) noWord
    | @tooLarge d ds rest all ends large =>
      have whole : d :: ds ++ rest =
          (d :: ds ++ rest.takeWhile isWordChar) ++ rest.dropWhile isWordChar := by simp
      rw [whole] at split
      rw [← takeWhile_isDigit_run all ends] at large ⊢
      refine .tooLarge split ?_ ?_ (head?_dropWhile isWordChar rest) large
      · intro c member
        rcases List.mem_append.1 member with digit | word
        · exact isWordChar_of_isDigit (all c digit)
        · exact List.mem_takeWhile_imp word
      · intro c last
        by_contra word
        have noDigit := boundary c last d rfl (by simpa using word)
        rw [all d List.mem_cons_self] at noDigit
        cases noDigit

/-- At one place there is at most one fault. -/
theorem FaultAt.unique {other : Lexeme.Fault} (found : FaultAt source offset fault)
    (again : FaultAt source offset other) : fault = other := by
  rcases faultAt_iff.1 found with ⟨before, rest, split, offset_eq, front, -⟩
  rcases faultAt_iff.1 again with ⟨before', rest', split', offset_eq', front', -⟩
  rcases Text.eq_of_byteSize_eq (split.symm.trans split') (offset_eq.symm.trans offset_eq') with
    ⟨rfl, rfl⟩
  rcases front.exists_read with ⟨c, cs, rfl, -, read⟩
  rcases front'.exists_read with ⟨d, ds, equal, -, read'⟩
  cases equal
  exact Except.error.inj (read.symm.trans read')

/-! ## Where faults do not stand -/

theorem Lexeme.Fault.Front.isDigit_of_isWordChar {c : Char} {cs : Text}
    (front : fault.Front (c :: cs)) (word : isWordChar c) : c.isDigit := by
  generalize whole : c :: cs = text at front
  cases front with
  | unrecognized _ _ noWord =>
    cases whole
    rw [word] at noWord
    cases noWord
  | tooLarge all =>
    cases whole
    exact all c List.mem_cons_self

/-- A lexeme of several characters is made of word characters. -/
theorem Lexeme.Longest.isWordChar_of_append {front back : Text} {x y : Char}
    (longest : lexeme.Longest rest) (text : lexeme.text = x :: front ++ y :: back) :
    ∀ c ∈ lexeme.text, isWordChar c := by
  cases longest with
  | mark => simp at text
  | number all => exact fun c member => isWordChar_of_isDigit (all c member)
  | word _ all => exact all

/-- A fault that starts inside a part of the source cuts it at a boundary. -/
theorem FaultAt.exists_inside {part : Text} (found : FaultAt source offset fault)
    (split : source = before ++ (part ++ rest)) (behind : before.byteSize ≤ offset)
    (inside : offset < before.byteSize + part.byteSize) :
    ∃ front back, part = front ++ back ∧ back ≠ [] ∧ fault.Front (back ++ rest) ∧
      Boundary (before ++ front) (back ++ rest) := by
  rcases faultAt_iff.1 found with ⟨before', rest', split', rfl, front, boundary⟩
  rcases Text.exists_gap (split.symm.trans split') behind with ⟨gap, rfl, whole⟩
  rw [Text.byteSize_append] at inside
  rcases Text.exists_gap whole.symm (by omega) with ⟨back, rfl, rfl⟩
  refine ⟨gap, back, rfl, ?_, front, boundary⟩
  rintro rfl
  simp at inside

/-- No fault starts in blanks. -/
theorem FaultAt.behind_blanks {blanks : Text} (found : FaultAt source offset fault)
    (split : source = before ++ (blanks ++ rest)) (blank : ∀ c ∈ blanks, isBlank c)
    (behind : before.byteSize ≤ offset) : before.byteSize + blanks.byteSize ≤ offset := by
  by_contra inside
  rcases found.exists_inside split behind (by omega) with ⟨front, back, rfl, some, atFront, -⟩
  rcases atFront.exists_read with ⟨c, cs, equal, noBlank, -⟩
  cases back with
  | nil => exact some rfl
  | cons d ds =>
    cases equal
    rw [blank c (by simp)] at noBlank
    cases noBlank

/-- No fault starts in a lexeme. -/
theorem FaultAt.behind_lexeme (found : FaultAt source offset fault)
    (split : source = before ++ (lexeme.text ++ rest)) (longest : lexeme.Longest rest)
    (behind : before.byteSize ≤ offset) : before.byteSize + lexeme.text.byteSize ≤ offset := by
  by_contra inside
  rcases found.exists_inside split behind (by omega) with
    ⟨front, back, text, some, atFront, boundary⟩
  rcases atFront.exists_read with ⟨d, ds, equal, -, failed⟩
  cases front with
  | nil =>
    -- where the lexeme starts, it is read, and no fault
    rcases longest.exists_read with ⟨c, cs, whole, -, read⟩
    rw [text, List.nil_append, equal] at whole
    cases whole
    cases read.symm.trans failed
  | cons x xs =>
    -- further on in a word stands no digit that could start a number
    cases back with
    | nil => exact some rfl
    | cons e es =>
      cases equal
      have word := longest.isWordChar_of_append text
      have digit := atFront.isDigit_of_isWordChar (word d (by simp [text]))
      have last : (x :: xs).getLast (by simp) ∈ (before ++ x :: xs).getLast? := by
        simp [List.getLast?_eq_some_getLast]
      have noDigit := boundary _ last d rfl
        (word _ (text ▸ List.mem_append_left _ (List.getLast_mem _)))
      rw [digit] at noDigit
      cases noDigit

/-! ## The first fault -/

theorem Boundary.after_blanks {blanks : Text} (boundary : Boundary before (blanks ++ rest))
    (blank : ∀ c ∈ blanks, isBlank c) : Boundary (before ++ blanks) rest := by
  intro c last d head word
  rw [List.getLast?_append] at last
  cases found : blanks.getLast? with
  | none =>
    rw [List.getLast?_eq_none_iff] at found
    subst found
    exact boundary c last d head word
  | some b =>
    rw [found] at last
    cases last
    have noBlank := not_isBlank_of_isWordChar word
    rw [blank c (List.mem_of_getLast? found)] at noBlank
    cases noBlank

theorem Boundary.of_longest (longest : lexeme.Longest rest) :
    Boundary (before ++ lexeme.text) rest := by
  intro c last d head word
  cases longest with
  | mark listed =>
    rw [List.getLast?_concat] at last
    cases last
    rw [(not_blank_not_word_of_mark listed).2] at word
    cases word
  | number all ends => exact ends d head
  | word starts all ends => exact not_isDigit_of_not_isWordChar (ends d head)

/-- The first fault is the same from an earlier offset on, if none stands in between. -/
theorem FirstFault.earlier {start : Nat} {ending : Option (Nat × Lexeme.Fault)}
    (first : FirstFault source offset ending)
    (free : ∀ other fault, FaultAt source other fault → start ≤ other → offset ≤ other) :
    FirstFault source start ending := by
  cases ending with
  | none =>
    intro other fault found
    by_contra behind
    have later := first other fault found
    have reached := free other fault found (Nat.le_of_not_lt behind)
    omega
  | some ending =>
    refine ⟨first.1, fun other fault found behind => ?_⟩
    exact first.2 other fault found (free other fault found behind)

/-- A reading ends at the first fault. -/
theorem Reading.firstFault {tokens : List Token} {ending : Option (Nat × Lexeme.Fault)}
    (reading : Reading offset rest tokens ending) (split : source = before ++ rest)
    (offset_eq : offset = before.byteSize) (boundary : Boundary before rest) :
    FirstFault source offset ending := by
  induction reading generalizing before with
  | @ends offset rest blank =>
    intro other fault found
    by_contra behind
    -- a fault behind the blanks would stand past the end
    have whole : source = before ++ (rest ++ []) := by rw [split, List.append_nil]
    have past := found.behind_blanks whole blank (by omega)
    rcases faultAt_iff.1 found with ⟨front, back, cut, rfl, atFront, -⟩
    rcases Text.exists_gap (split.symm.trans cut) (by omega) with ⟨gap, rfl, rfl⟩
    rcases atFront.exists_read with ⟨c, cs, rfl, -, -⟩
    have positive := c.utf8Size_pos
    simp only [Text.byteSize_append, Text.byteSize_cons] at past
    omega
  | @fails offset blanks rest fault blank front =>
    subst offset_eq
    refine ⟨faultAt_iff.2 ⟨before ++ blanks, rest, ?_, ?_, front, boundary.after_blanks blank⟩, ?_⟩
    · rw [split, List.append_assoc]
    · rw [Text.byteSize_append]
    · intro other later found behind
      exact found.behind_blanks split blank behind
  | @token offset blanks rest lexeme tokens ending blank longest later ih =>
    subst offset_eq
    have whole : source = (before ++ blanks) ++ (lexeme.text ++ rest) := by
      rw [split, List.append_assoc]
    have first := ih (by rw [whole, List.append_assoc _ lexeme.text]) (by simp [Nat.add_assoc])
      (Boundary.of_longest longest)
    refine first.earlier fun other fault found behind => ?_
    have pastBlanks := found.behind_blanks split blank behind
    rw [← Text.byteSize_append] at pastBlanks ⊢
    exact found.behind_lexeme whole longest pastBlanks

theorem Lexeme.Fault.exists_location (fault : Lexeme.Fault) (before rest : Text) :
    ∃ location, Location.ofOffset? (before ++ rest) before.byteSize = some location ∧
      fault.stop (before ++ rest) before.byteSize = .refused (fault.diagnose location) := by
  have found : Location.ofOffset? (before ++ rest) before.byteSize =
      some (Location.between before rest) := by
    rw [Location.ofOffset?, Nat.min_eq_left (by simp), Text.splitAt?_append]
    rfl
  exact ⟨_, found, by rw [stop, Location.locate, found]⟩

/-- The tokenizer fails exactly on sources with a fault, and it reports the leftmost one; so does
the compiler. -/
theorem tokenize_eq_error_iff (source : Text) :
    ((∃ stop, tokenize source = .error stop) ↔ ∃ offset fault, FaultAt source offset fault) ∧
    ∀ offset fault, FaultAt source offset fault →
      (∀ other later, FaultAt source other later → offset ≤ other) →
      ∃ location, Location.ofOffset? source offset = some location ∧
        tokenize source = .error (.refused (fault.diagnose location)) ∧
        compile source = .error (.refused (fault.diagnose location)) := by
  rcases exists_reading 0 source with ⟨tokens, ending, reading⟩
  have answer := tokenize_of_reading reading
  have first : FirstFault source 0 ending :=
    reading.firstFault (List.nil_append source).symm rfl (by simp [Boundary])
  cases ending with
  | none =>
    have noFault : ∀ offset fault, ¬ FaultAt source offset fault := by
      intro offset fault found
      exact Nat.not_lt_zero _ (first offset fault found)
    refine ⟨⟨?_, ?_⟩, ?_⟩
    · intro ⟨stop, failed⟩
      cases answer.symm.trans failed
    · intro ⟨offset, fault, found⟩
      exact absurd found (noFault offset fault)
    · intro offset fault found
      exact absurd found (noFault offset fault)
  | some ending =>
    rcases ending with ⟨here, fault⟩
    rcases first with ⟨found, least⟩
    refine ⟨⟨fun _ => ⟨here, fault, found⟩, fun _ => ⟨_, answer⟩⟩, ?_⟩
    intro offset other isFault leftmost
    have same : offset = here :=
      Nat.le_antisymm (leftmost _ _ found) (least _ _ isFault (Nat.zero_le _))
    subst same
    rw [isFault.unique found]
    rcases faultAt_iff.1 found with ⟨before, rest, rfl, rfl, -, -⟩
    rcases fault.exists_location before rest with ⟨location, located, stop⟩
    have failed : tokenize (before ++ rest) = .error (.refused (fault.diagnose location)) := by
      rw [answer, readingResult, stop]
    refine ⟨location, located, failed, ?_⟩
    rw [compile, failed]
    rfl

/-- Digits that go on with a name, a number that is too large, and a character of no token. -/
def crowded : Text := "z4294967296 2147483648q?".toList

theorem firstFault_crowded :
    FirstFault crowded 0 (some (12, .tooLarge "2147483648".toList)) := by
  have longest : Lexeme.Longest { kind := .ident, text := "z4294967296".toList }
      " 2147483648q?".toList := by
    refine .word (by decide) (List.all_eq_true.1 (by decide)) ?_ (.inr ⟨rfl, ?_⟩)
    · intro d head
      cases head
      decide
    · intro other
      simp [keywords]
  have front : Lexeme.Fault.Front (.tooLarge "2147483648".toList)
      ("2147483648".toList ++ "q?".toList) := by
    refine .tooLarge (List.all_eq_true.1 (by decide)) ?_ (by decide)
    intro d head
    cases head
    decide
  have blank : ∀ c ∈ " ".toList, isBlank c := List.all_eq_true.1 (by decide)
  have reading : Reading 0 crowded _ _ :=
    @Reading.token 0 [] _ _ _ _ (by simp) longest (.fails blank front)
  exact reading.firstFault (List.nil_append crowded).symm rfl (by simp [Boundary])

theorem compile_crowded :
    FaultAt crowded 12 (.tooLarge "2147483648".toList) ∧
      (∀ other later, FaultAt crowded other later → 12 ≤ other) ∧
      ∃ location, Location.ofOffset? crowded 12 = some location ∧
        compile crowded = .error (.refused (.invalidNumber "2147483648" location)) := by
  rcases firstFault_crowded with ⟨found, least⟩
  have leftmost : ∀ other later, FaultAt crowded other later → 12 ≤ other := by
    intro other later isFault
    exact least other later isFault (Nat.zero_le _)
  rcases (tokenize_eq_error_iff crowded).2 12 _ found leftmost with ⟨location, located, -, failed⟩
  exact ⟨found, leftmost, location, located, failed⟩

end FunMips
