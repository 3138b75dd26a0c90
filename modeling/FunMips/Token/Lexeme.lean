import FunMips.Token

/-!
# Lexemes

A lexeme is the text of one token. It is read off the front of the remaining input by the
longest match: a punctuation mark, a run of digits, or a run of word characters that does not
start with a digit.
-/

namespace FunMips

/-- The characters that separate tokens (`is_space`). -/
def isBlank (c : Char) : Bool :=
  c == ' ' || c == '\t' || c == '\n' || c == '\r' || c == '\x0b' || c == '\x0c'

/-- The characters of names and keywords (`is_word`). -/
def isWordChar (c : Char) : Bool := c.isAlphanum || c == '_'

/-- The kind of a punctuation mark. -/
def punctuation? : Char → Option Kind
  | '(' => some .leftParen
  | ')' => some .rightParen
  | ',' => some .comma
  | '+' => some .plus
  | '-' => some .minus
  | '=' => some .equal
  | _ => none

/-- The kind of a word: a keyword if it spells one (`KEYWORDS`), else a name. -/
def wordKind (word : Text) : Kind :=
  if word = ['d', 'e', 'f'] then .defWord
  else if word = ['i', 'f'] then .ifWord
  else if word = ['t', 'h', 'e', 'n'] then .thenWord
  else if word = ['e', 'l', 's', 'e'] then .elseWord
  else .ident

/-- The largest number a word holds. -/
def maxNumber : Nat := 2147483647

/-- The number a run of digits denotes, if it fits in a word. -/
def number? (digits : Text) : Option Int32 :=
  let value := Nat.ofDigitChars 10 digits 0
  if value ≤ maxNumber then some (Int32.ofNat value) else none

/-- The text of a token, with its kind and, for a number, its value. -/
structure Lexeme where
  kind : Kind
  text : Text
  value : Option Int32 := none
deriving Repr, DecidableEq

namespace Lexeme

/-- Why no lexeme can be read. -/
inductive Fault
  /-- The character starts no lexeme. -/
  | unrecognized (character : Char)
  /-- The run of digits denotes a number that fits in no word. -/
  | tooLarge (digits : Text)
deriving Repr, DecidableEq

/-- The longest lexeme at the front of `c :: cs`. -/
def read (c : Char) (cs : Text) : Except Fault Lexeme :=
  match punctuation? c with
  | some kind => .ok { kind, text := [c] }
  | none =>
    if c.isDigit then
      let digits := c :: cs.takeWhile Char.isDigit
      match number? digits with
      | some value => .ok { kind := .number, text := digits, value := some value }
      | none => .error (.tooLarge digits)
    else if isWordChar c then
      let word := c :: cs.takeWhile isWordChar
      .ok { kind := wordKind word, text := word }
    else .error (.unrecognized c)

/-- A lexeme has at least one character. -/
theorem length_pos_of_read {c : Char} {cs : Text} {lexeme : Lexeme}
    (h : read c cs = .ok lexeme) : 0 < lexeme.text.length := by
  unfold read at h
  split at h
  · cases h; simp
  · split at h
    · dsimp only at h
      split at h <;> cases h
      simp
    · split at h <;> cases h
      simp

/-- A lexeme is read off the front of the input. -/
theorem text_append_drop_of_read {c : Char} {cs : Text} {lexeme : Lexeme}
    (h : read c cs = .ok lexeme) :
    lexeme.text ++ (c :: cs).drop lexeme.text.length = c :: cs := by
  have run (p : Char → Bool) :
      c :: cs.takeWhile p ++ (c :: cs).drop (c :: cs.takeWhile p).length = c :: cs := by
    have whole := List.takeWhile_append_dropWhile (p := p) (l := cs)
    have dropped : (cs.takeWhile p ++ cs.dropWhile p).drop (cs.takeWhile p).length =
        cs.dropWhile p := List.drop_left
    rw [whole] at dropped
    simp [dropped, whole]
  unfold read at h
  split at h
  · cases h; simp
  · split at h
    · dsimp only at h
      split at h <;> cases h
      exact run _
    · split at h <;> cases h
      exact run _

/-- What a fault at a place of the source is reported as. -/
def Fault.diagnose (location : Location) : Fault → Diagnostic
  | .unrecognized character => .unrecognizedCharacter character location
  | .tooLarge digits => .invalidNumber (String.ofList digits) location

end Lexeme

end FunMips
