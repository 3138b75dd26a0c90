import Mathlib.Data.List.TakeWhile
import FunMips.Proofs.Token.Stream

/-!
# Lexemes by the longest match

What a lexeme in front of some text looks like (`Lexeme.Longest`), what stands in front of a text
that starts with none (`Lexeme.Fault.Front`), and how a whole text is read by skipping blanks and
taking lexemes until one of the two ends comes (`Reading`). The lexer hands out exactly the tokens
of the reading of its input (`Lexer.toList_of_reading`).
-/

namespace FunMips

/-- The punctuation marks. -/
def marks : List (Char × Kind) :=
  [('(', .leftParen), (')', .rightParen), (',', .comma), ('+', .plus), ('-', .minus), ('=', .equal)]

/-- The words that are no names. -/
def keywords : List (Text × Kind) :=
  [("def".toList, .defWord), ("if".toList, .ifWord), ("then".toList, .thenWord),
    ("else".toList, .elseWord)]

namespace Lexeme

/-- A lexeme in front of the text `rest` that cannot be made longer. -/
inductive Longest : Lexeme → Text → Prop
  | mark {c : Char} {kind : Kind} {rest : Text} (listed : (c, kind) ∈ marks) :
    Longest { kind, text := [c] } rest
  /-- A run of digits, with its value. -/
  | number {c : Char} {cs rest : Text} {value : Int32} (all : ∀ d ∈ c :: cs, d.isDigit)
      (ends : ∀ d ∈ rest.head?, d.isDigit = false)
      (small : Nat.ofDigitChars 10 (c :: cs) 0 ≤ 2147483647)
      (denotes : value.toInt = Nat.ofDigitChars 10 (c :: cs) 0) :
    Longest { kind := .number, text := c :: cs, value := some value } rest
  /-- A run of word characters that starts with no digit: a keyword, or else a name. -/
  | word {c : Char} {cs rest : Text} {kind : Kind} (starts : c.isDigit = false)
      (all : ∀ d ∈ c :: cs, isWordChar d) (ends : ∀ d ∈ rest.head?, isWordChar d = false)
      (named : (c :: cs, kind) ∈ keywords ∨
        kind = .ident ∧ ∀ other, (c :: cs, other) ∉ keywords) :
    Longest { kind, text := c :: cs } rest

/-- The text starts with the fault. -/
inductive Fault.Front : Fault → Text → Prop
  | unrecognized {c : Char} {cs : Text} (noBlank : isBlank c = false)
      (noMark : ∀ kind, (c, kind) ∉ marks) (noWord : isWordChar c = false) :
    Front (.unrecognized c) (c :: cs)
  | tooLarge {c : Char} {cs rest : Text} (all : ∀ d ∈ c :: cs, d.isDigit)
      (ends : ∀ d ∈ rest.head?, d.isDigit = false)
      (large : 2147483647 < Nat.ofDigitChars 10 (c :: cs) 0) :
    Front (.tooLarge (c :: cs)) (c :: cs ++ rest)

/-- How reading ends at a fault that stands at a byte offset of the source. -/
def Fault.stop (source : Text) (offset : Nat) (fault : Fault) : Stop :=
  match Location.locate source offset with
  | .ok location => .refused (fault.diagnose location)
  | .error stop => stop

/-- The token of a lexeme that stands at a byte offset. -/
def token (lexeme : Lexeme) (start : Nat) : Token :=
  { kind := lexeme.kind, start, length := lexeme.text.byteSize, value := lexeme.value }

end Lexeme

/-- How a text is read, from a byte offset on: the tokens, and, if a fault ends them, its offset and
the fault. -/
inductive Reading : Nat → Text → List Token → Option (Nat × Lexeme.Fault) → Prop
  | ends {offset : Nat} {rest : Text} (blank : ∀ c ∈ rest, isBlank c) : Reading offset rest [] none
  | fails {offset : Nat} {blanks rest : Text} {fault : Lexeme.Fault}
      (blank : ∀ c ∈ blanks, isBlank c) (front : fault.Front rest) :
    Reading offset (blanks ++ rest) [] (some (offset + blanks.byteSize, fault))
  | token {offset : Nat} {blanks rest : Text} {lexeme : Lexeme} {tokens : List Token}
      {ending : Option (Nat × Lexeme.Fault)} (blank : ∀ c ∈ blanks, isBlank c)
      (longest : lexeme.Longest rest)
      (later : Reading (offset + blanks.byteSize + lexeme.text.byteSize) rest tokens ending) :
    Reading offset (blanks ++ (lexeme.text ++ rest))
      (lexeme.token (offset + blanks.byteSize) :: tokens) ending

/-! ## Classes of characters -/

theorem punctuation?_eq_some_iff {c : Char} {kind : Kind} :
    punctuation? c = some kind ↔ (c, kind) ∈ marks := by
  constructor
  · intro found
    unfold punctuation? at found
    split at found <;> cases found <;> decide
  · intro listed
    simp only [marks, List.mem_cons, Prod.mk.injEq, List.not_mem_nil, or_false] at listed
    rcases listed with ⟨rfl, rfl⟩ | ⟨rfl, rfl⟩ | ⟨rfl, rfl⟩ | ⟨rfl, rfl⟩ | ⟨rfl, rfl⟩ | ⟨rfl, rfl⟩
      <;> rfl

theorem punctuation?_eq_none_iff {c : Char} :
    punctuation? c = none ↔ ∀ kind, (c, kind) ∉ marks := by
  rw [Option.eq_none_iff_forall_ne_some]
  exact forall_congr' fun kind => not_congr punctuation?_eq_some_iff

theorem isWordChar_of_isDigit {c : Char} (digit : c.isDigit) : isWordChar c := by
  simp [isWordChar, Char.isAlphanum, digit]

theorem not_isDigit_of_not_isWordChar {c : Char} (noWord : isWordChar c = false) :
    c.isDigit = false := by
  by_contra digit
  rw [isWordChar_of_isDigit (by simpa using digit)] at noWord
  cases noWord

/-- A punctuation mark is neither blank nor part of a word. -/
theorem not_blank_not_word_of_mark {c : Char} {kind : Kind} (listed : (c, kind) ∈ marks) :
    isBlank c = false ∧ isWordChar c = false := by
  have all : ∀ entry ∈ marks, isBlank entry.1 = false ∧ isWordChar entry.1 = false := by decide
  exact all (c, kind) listed

theorem not_mark_of_isWordChar {c : Char} (word : isWordChar c) (kind : Kind) :
    (c, kind) ∉ marks := by
  intro listed
  rw [(not_blank_not_word_of_mark listed).2] at word
  cases word

theorem notMem_marks_iff {c : Char} :
    (∀ kind, (c, kind) ∉ marks) ↔ c ∉ ['(', ')', ',', '+', '-', '='] := by
  have characters : ['(', ')', ',', '+', '-', '='] = marks.map Prod.fst := rfl
  rw [characters]
  simp

theorem isBlank_iff_mem {c : Char} :
    isBlank c ↔ c ∈ [' ', '\t', '\n', '\r', '\x0b', '\x0c'] := by
  simp [isBlank, or_assoc]

theorem not_isBlank_of_isWordChar {c : Char} (word : isWordChar c) : isBlank c = false := by
  by_contra blank
  have noWord : [' ', '\t', '\n', '\r', '\x0b', '\x0c'].all (!isWordChar ·) := by decide
  have other := List.all_eq_true.1 noWord c (isBlank_iff_mem.1 (by simpa using blank))
  rw [word] at other
  cases other

theorem number?_eq_some_iff {digits : Text} {value : Int32} :
    number? digits = some value ↔ Nat.ofDigitChars 10 digits 0 ≤ 2147483647 ∧
      value.toInt = Nat.ofDigitChars 10 digits 0 := by
  unfold number? maxNumber
  dsimp only
  split
  · next small =>
    have denotes : (Int32.ofNat (Nat.ofDigitChars 10 digits 0)).toInt =
        Nat.ofDigitChars 10 digits 0 := Int32.toInt_ofNat_of_lt (by omega)
    rw [Option.some.injEq]
    constructor
    · rintro rfl
      exact ⟨small, denotes⟩
    · rintro ⟨-, equal⟩
      exact Int32.toInt_inj.1 (denotes.trans equal.symm)
  · next large =>
    refine iff_of_false (by simp) ?_
    rintro ⟨small, -⟩
    exact large small

theorem number?_eq_none_iff {digits : Text} :
    number? digits = none ↔ 2147483647 < Nat.ofDigitChars 10 digits 0 := by
  unfold number? maxNumber
  dsimp only
  split
  · next small => exact iff_of_false (by simp) (Nat.not_lt.2 small)
  · next large => exact iff_of_true rfl (Nat.lt_of_not_le large)

theorem wordKind_eq_iff {word : Text} {kind : Kind} :
    wordKind word = kind ↔
      (word, kind) ∈ keywords ∨ kind = .ident ∧ ∀ other, (word, other) ∉ keywords := by
  have table : keywords = [(['d', 'e', 'f'], .defWord), (['i', 'f'], .ifWord),
    (['t', 'h', 'e', 'n'], .thenWord), (['e', 'l', 's', 'e'], .elseWord)] := by decide
  rw [table]
  constructor
  · rintro rfl
    unfold wordKind
    split
    · next equal => simp [equal]
    · split
      · next equal => simp [equal]
      · split
        · next equal => simp [equal]
        · split
          · next equal => simp [equal]
          · simp [*]
  · rintro (listed | ⟨rfl, none⟩)
    · simp only [List.mem_cons, Prod.mk.injEq, List.not_mem_nil, or_false] at listed
      rcases listed with ⟨rfl, rfl⟩ | ⟨rfl, rfl⟩ | ⟨rfl, rfl⟩ | ⟨rfl, rfl⟩ <;> rfl
    · simp only [List.mem_cons, Prod.mk.injEq, List.not_mem_nil, or_false, not_or, not_and] at none
      have noDef : word ≠ ['d', 'e', 'f'] := fun equal => (none .defWord).1 equal rfl
      have noIf : word ≠ ['i', 'f'] := fun equal => (none .ifWord).2.1 equal rfl
      have noThen : word ≠ ['t', 'h', 'e', 'n'] := fun equal => (none .thenWord).2.2.1 equal rfl
      have noElse : word ≠ ['e', 'l', 's', 'e'] := fun equal => (none .elseWord).2.2.2 equal rfl
      rw [wordKind, if_neg noDef, if_neg noIf, if_neg noThen, if_neg noElse]

/-! ## Runs of characters -/

section Runs

variable {p : Char → Bool} {run rest : Text}

/-- A run of a class is taken off the front up to the first other character. -/
theorem takeWhile_run (all : ∀ c ∈ run, p c) (ends : ∀ c ∈ rest.head?, p c = false) :
    (run ++ rest).takeWhile p = run := by
  rw [List.takeWhile_append_of_pos all]
  cases rest with
  | nil => simp
  | cons c cs => simp [ends c rfl]

theorem dropWhile_run (all : ∀ c ∈ run, p c) (ends : ∀ c ∈ rest.head?, p c = false) :
    (run ++ rest).dropWhile p = rest := by
  rw [List.dropWhile_append_of_pos all]
  cases rest with
  | nil => simp
  | cons c cs => simp [ends c rfl]

theorem head?_dropWhile (p : Char → Bool) (text : Text) :
    ∀ c ∈ (text.dropWhile p).head?, p c = false := by
  intro c found
  have stops := List.head?_dropWhile_not p text
  rw [found] at stops
  exact stops

end Runs

namespace Lexeme

/-! ## Reading one lexeme -/

variable {lexeme : Lexeme} {c : Char} {cs rest : Text} {fault : Fault}

/-- In front of digits, all of them are read. -/
theorem read_digits {digits : Text} (all : ∀ d ∈ c :: digits, d.isDigit)
    (ends : ∀ d ∈ rest.head?, d.isDigit = false) :
    read c (digits ++ rest) =
      match number? (c :: digits) with
      | some value => .ok { kind := .number, text := c :: digits, value := some value }
      | none => .error (.tooLarge (c :: digits)) := by
  obtain ⟨isDigit, others⟩ := List.forall_mem_cons.1 all
  have noMark : punctuation? c = none :=
    punctuation?_eq_none_iff.2 (not_mark_of_isWordChar (isWordChar_of_isDigit isDigit))
  cases fits : number? (c :: digits) with
  | some value => simp only [read, noMark, isDigit, if_true, takeWhile_run others ends, fits]
  | none => simp only [read, noMark, isDigit, if_true, takeWhile_run others ends, fits]

/-- In front of a word, all of it is read. -/
theorem read_word {word : Text} (starts : c.isDigit = false) (all : ∀ d ∈ c :: word, isWordChar d)
    (ends : ∀ d ∈ rest.head?, isWordChar d = false) :
    read c (word ++ rest) = .ok { kind := wordKind (c :: word), text := c :: word } := by
  obtain ⟨isWord, others⟩ := List.forall_mem_cons.1 all
  have noMark : punctuation? c = none :=
    punctuation?_eq_none_iff.2 (not_mark_of_isWordChar isWord)
  rw [read, noMark]
  simp [starts, isWord, takeWhile_run others ends]

/-- A lexeme is read off the front exactly if it is one that cannot be made longer. -/
theorem read_eq_ok_iff :
    read c cs = .ok lexeme ↔ ∃ rest, c :: cs = lexeme.text ++ rest ∧ lexeme.Longest rest := by
  constructor
  · intro found
    unfold read at found
    split at found
    · next kind mark =>
      cases found
      exact ⟨cs, rfl, .mark (punctuation?_eq_some_iff.1 mark)⟩
    · split at found
      · next isDigit =>
        dsimp only at found
        split at found
        · next value fits =>
          cases found
          obtain ⟨small, denotes⟩ := number?_eq_some_iff.1 fits
          refine ⟨cs.dropWhile Char.isDigit, by simp, .number ?_ (head?_dropWhile _ _) small
            denotes⟩
          exact List.forall_mem_cons.2 ⟨isDigit, fun d member => List.mem_takeWhile_imp member⟩
        · cases found
      · next noDigit =>
        split at found
        · next isWord =>
          cases found
          refine ⟨cs.dropWhile isWordChar, by simp, .word (by simpa using noDigit) ?_
            (head?_dropWhile _ _) (wordKind_eq_iff.1 rfl)⟩
          exact List.forall_mem_cons.2 ⟨isWord, fun d member => List.mem_takeWhile_imp member⟩
        · cases found
  · rintro ⟨rest, equal, longest⟩
    cases longest with
    | mark listed =>
      cases equal
      rw [read, punctuation?_eq_some_iff.2 listed]
    | number all ends small denotes =>
      rw [List.cons_append] at equal
      obtain ⟨rfl, rfl⟩ := List.cons.inj equal
      rw [read_digits all ends, number?_eq_some_iff.2 ⟨small, denotes⟩]
    | word starts all ends named =>
      rw [List.cons_append] at equal
      obtain ⟨rfl, rfl⟩ := List.cons.inj equal
      rw [read_word starts all ends, wordKind_eq_iff.2 named]

/-- No lexeme is read exactly if a fault stands in front. -/
theorem read_eq_error_iff (noBlank : isBlank c = false) :
    read c cs = .error fault ↔ fault.Front (c :: cs) := by
  constructor
  · intro found
    unfold read at found
    split at found
    · cases found
    · next noMark =>
      split at found
      · next isDigit =>
        dsimp only at found
        split at found
        · cases found
        · next large =>
          cases found
          have all : ∀ d ∈ c :: cs.takeWhile Char.isDigit, d.isDigit :=
            List.forall_mem_cons.2 ⟨isDigit, fun d member => List.mem_takeWhile_imp member⟩
          have front := Fault.Front.tooLarge all (head?_dropWhile Char.isDigit cs)
            (number?_eq_none_iff.1 large)
          simpa using front
      · split at found
        · cases found
        · next noWord =>
          cases found
          exact .unrecognized noBlank (punctuation?_eq_none_iff.1 noMark) (by simpa using noWord)
  · intro front
    generalize whole : c :: cs = text at front
    cases front with
    | unrecognized _ noMark noWord =>
      cases whole
      have noDigit := not_isDigit_of_not_isWordChar noWord
      simp [read, punctuation?_eq_none_iff.2 noMark, noDigit, noWord]
    | tooLarge all ends large =>
      rw [List.cons_append] at whole
      obtain ⟨rfl, rfl⟩ := List.cons.inj whole
      rw [read_digits all ends, number?_eq_none_iff.2 large]

/-- A lexeme that cannot be made longer is what is read, from its first character on. -/
theorem Longest.exists_read (longest : lexeme.Longest rest) :
    ∃ c cs, lexeme.text ++ rest = c :: cs ∧ isBlank c = false ∧ read c cs = .ok lexeme := by
  have first : ∃ c cs, lexeme.text = c :: cs ∧ isBlank c = false := by
    cases longest with
    | mark listed => exact ⟨_, [], rfl, (not_blank_not_word_of_mark listed).1⟩
    | number all =>
      have word := isWordChar_of_isDigit (all _ List.mem_cons_self)
      exact ⟨_, _, rfl, not_isBlank_of_isWordChar word⟩
    | word _ all => exact ⟨_, _, rfl, not_isBlank_of_isWordChar (all _ List.mem_cons_self)⟩
  rcases first with ⟨c, cs, text, noBlank⟩
  have whole : lexeme.text ++ rest = c :: (cs ++ rest) := by rw [text, List.cons_append]
  exact ⟨c, cs ++ rest, whole, noBlank, read_eq_ok_iff.2 ⟨rest, whole.symm, longest⟩⟩

/-- A fault in front of a text is what is read, from the first character on. -/
theorem Fault.Front.exists_read (front : fault.Front rest) :
    ∃ c cs, rest = c :: cs ∧ isBlank c = false ∧ read c cs = .error fault := by
  have first : ∃ c cs, rest = c :: cs ∧ isBlank c = false := by
    cases front with
    | unrecognized noBlank => exact ⟨_, _, rfl, noBlank⟩
    | tooLarge all =>
      have word := isWordChar_of_isDigit (all _ List.mem_cons_self)
      exact ⟨_, _, rfl, not_isBlank_of_isWordChar word⟩
  rcases first with ⟨c, cs, rfl, noBlank⟩
  exact ⟨c, cs, rfl, noBlank, (read_eq_error_iff noBlank).2 front⟩

end Lexeme

/-! ## Reading a whole text -/

section Scanning

variable {source blanks rest : Text} {offset : Nat} {lexeme : Lexeme} {fault : Lexeme.Fault}

theorem scanRest_of_blank (blank : ∀ c ∈ rest, isBlank c) :
    scanRest source offset rest = .ok none := by
  rw [scanRest, List.dropWhile_eq_nil_iff.2 blank]

theorem scanRest_of_longest (blank : ∀ c ∈ blanks, isBlank c) (longest : lexeme.Longest rest) :
    scanRest source offset (blanks ++ (lexeme.text ++ rest)) =
      .ok (some { token := lexeme.token (offset + blanks.byteSize), rest }) := by
  rcases longest.exists_read with ⟨c, cs, front, noBlank, found⟩
  have ends : ∀ d ∈ (c :: cs).head?, isBlank d = false := by simpa using noBlank
  have left : (c :: cs).drop lexeme.text.length = rest := by rw [← front, List.drop_left]
  rw [front, scanRest, dropWhile_run blank ends, takeWhile_run blank ends]
  simp only [found, left, Lexeme.token]

theorem scanRest_of_front (blank : ∀ c ∈ blanks, isBlank c) (front : fault.Front rest) :
    scanRest source offset (blanks ++ rest) =
      .error (fault.stop source (offset + blanks.byteSize)) := by
  rcases front.exists_read with ⟨c, cs, rfl, noBlank, found⟩
  have ends : ∀ d ∈ (c :: cs).head?, isBlank d = false := by simpa using noBlank
  rw [scanRest, dropWhile_run blank ends, takeWhile_run blank ends]
  simp only [found, Lexeme.Fault.stop]
  cases Location.locate source (offset + blanks.byteSize) <;> rfl

/-- Every text has a reading. -/
theorem exists_reading (offset : Nat) (text : Text) :
    ∃ tokens ending, Reading offset text tokens ending := by
  -- on the length of the text: what follows a lexeme is shorter
  induction size : text.length using Nat.strongRecOn generalizing offset text with
  | ind length ih =>
    have whole : text = text.takeWhile isBlank ++ text.dropWhile isBlank := by simp
    have blank : ∀ c ∈ text.takeWhile isBlank, isBlank c := fun c => List.mem_takeWhile_imp
    cases left : text.dropWhile isBlank with
    | nil => exact ⟨[], none, .ends (List.dropWhile_eq_nil_iff.1 left)⟩
    | cons c cs =>
      rw [left] at whole
      have noBlank : isBlank c = false := head?_dropWhile isBlank text c (by rw [left]; rfl)
      cases found : Lexeme.read c cs with
      | error fault =>
        have front := (Lexeme.read_eq_error_iff noBlank).1 found
        rw [whole]
        exact ⟨[], _, .fails blank front⟩
      | ok lexeme =>
        obtain ⟨rest, front, longest⟩ := Lexeme.read_eq_ok_iff.1 found
        rw [front] at whole
        have shorter : rest.length < length := by
          have positive := Lexeme.length_pos_of_read found
          rw [← size, whole, List.length_append, List.length_append]
          omega
        obtain ⟨tokens, ending, later⟩ := ih _ shorter _ rest rfl
        rw [whole]
        exact ⟨_, ending, .token blank longest later⟩

end Scanning

/-- What a lexer answers for a reading of its source. -/
def readingResult (source : Text) (tokens : List Token) :
    Option (Nat × Lexeme.Fault) → Except Stop (List Token)
  | none => .ok (tokens ++ [Token.endOf source])
  | some (offset, fault) => .error (fault.stop source offset)

theorem readingResult_cons (source : Text) (token : Token) (tokens : List Token)
    (ending : Option (Nat × Lexeme.Fault)) :
    readingResult source (token :: tokens) ending =
      (readingResult source tokens ending >>= fun others => .ok (token :: others)) := by
  cases ending <;> rfl

namespace Lexer

variable {lexer : Lexer}

theorem next_of_scanRest {taken : Taken}
    (found : scanRest lexer.source lexer.offset lexer.rest = .ok (some taken)) :
    lexer.next = (.ok (some taken.token), lexer.after taken found) := by
  unfold next
  split
  · next other same =>
    cases same.symm.trans found
    rfl
  · next none => cases none.symm.trans found
  · next failed => cases failed.symm.trans found

theorem toList_of_next {rest : Lexer} {token : Token}
    (found : lexer.next = (.ok (some token), rest)) :
    lexer.toList = rest.toList >>= fun tokens => .ok (token :: tokens) := by
  rw [toList]
  split
  · next failed => simp [found] at failed
  · next none => simp [found] at none
  · next same =>
    cases same.symm.trans found
    rfl

theorem next_of_end (found : scanRest lexer.source lexer.offset lexer.rest = .ok none)
    (unfinished : lexer.finished = false) :
    lexer.next = (.ok (some (Token.endOf lexer.source)), lexer.exhausted) := by
  unfold next
  split
  · next other => cases other.symm.trans found
  · simp [unfinished]
  · next failed => cases failed.symm.trans found

theorem toList_of_end (found : scanRest lexer.source lexer.offset lexer.rest = .ok none)
    (unfinished : lexer.finished = false) : lexer.toList = .ok [Token.endOf lexer.source] := by
  rw [toList_of_next (next_of_end found unfinished), toList_exhausted]
  rfl

theorem next_of_error {stop : Stop}
    (found : scanRest lexer.source lexer.offset lexer.rest = .error stop) :
    lexer.next = (.error stop, lexer.exhausted) := by
  unfold next
  split
  · next other => cases other.symm.trans found
  · next none => cases none.symm.trans found
  · next same =>
    cases same.symm.trans found
    rfl

theorem toList_of_error {stop : Stop}
    (found : scanRest lexer.source lexer.offset lexer.rest = .error stop) :
    lexer.toList = .error stop := by
  have last := next_of_error found
  rw [toList]
  split
  · next same =>
    cases same.symm.trans last
    rfl
  · next none => simp [last] at none
  · next other => simp [last] at other

/-- A lexer hands out the tokens of the reading of its input. -/
theorem toList_of_reading {offset : Nat} {rest : Text} {tokens : List Token}
    {ending : Option (Nat × Lexeme.Fault)} (reading : Reading offset rest tokens ending)
    (offset_eq : lexer.offset = offset) (rest_eq : lexer.rest = rest)
    (unfinished : lexer.finished = false) :
    lexer.toList = readingResult lexer.source tokens ending := by
  induction reading generalizing lexer with
  | ends blank =>
    apply toList_of_end _ unfinished
    rw [rest_eq]
    exact scanRest_of_blank blank
  | fails blank front =>
    apply toList_of_error
    rw [offset_eq, rest_eq]
    exact scanRest_of_front blank front
  | @token offset blanks rest lexeme tokens ending blank longest later ih =>
    have found : scanRest lexer.source lexer.offset lexer.rest =
        .ok (some { token := lexeme.token (offset + blanks.byteSize), rest }) := by
      rw [offset_eq, rest_eq]
      exact scanRest_of_longest blank longest
    have others : (lexer.after _ found).toList = readingResult lexer.source tokens ending :=
      ih rfl rfl unfinished
    rw [toList_of_next (next_of_scanRest found), others, readingResult_cons]

end Lexer

theorem tokenize_of_reading {source : Text} {tokens : List Token}
    {ending : Option (Nat × Lexeme.Fault)} (reading : Reading 0 source tokens ending) :
    tokenize source = readingResult source tokens ending :=
  Lexer.toList_of_reading reading rfl rfl rfl

/-- The tokens of a source are those of a reading without a fault, and then the end. -/
theorem exists_reading_of_tokenize {source : Text} {tokens : List Token}
    (lexed : tokenize source = .ok tokens) :
    ∃ front, Reading 0 source front none ∧ tokens = front ++ [Token.endOf source] := by
  obtain ⟨front, ending, reading⟩ := exists_reading 0 source
  rw [tokenize_of_reading reading] at lexed
  cases ending with
  | none =>
    cases lexed
    exact ⟨front, reading, rfl⟩
  | some fault => cases lexed

end FunMips
