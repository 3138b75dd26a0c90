import Mathlib.Data.Set.Function
import FunMips.Assembly.Decoder
import FunMips.Proofs.Token.Lexemes

/-!
# Assembly files are read back

The text of an assembly file determines its instructions: reading it back gives the same
instructions (`Assembly.ofText?_text`), as long as labels and the targets of jumps are words and
directives start with a period and take one line (`Assembly.Legible`). An instruction is its words
with blanks between them (`Instruction.toList_text`), and a file its lines with newlines between
them, so it is enough that no word holds a blank and no line a newline.
-/

namespace FunMips

/-- A word of letters, digits and underscores. -/
def IsWord (name : String) : Prop := name ≠ "" ∧ ∀ c ∈ name.toList, isWordChar c

-- the quantifier is run over the letters of the word, not over all characters
instance (name : String) : Decidable (IsWord name) :=
  decidable_of_iff (name ≠ "" ∧ name.toList.all isWordChar) (by simp [IsWord])

/-- Labels and the targets of jumps are words; directives start with a period and take one line. -/
def Instruction.Legible : Instruction → Prop
  | directive text => text.toList.head? = some '.' ∧ '\n' ∉ text.toList
  | label name | b name | beq _ _ name | jal name => IsWord name
  | _ => True

/-- Every instruction of the file can be read back. -/
def Assembly.Legible (assembly : Assembly) : Prop :=
  ∀ instruction ∈ assembly.instructions, instruction.Legible

/-! ## Operands -/

theorem Register.ofText?_text (register : Register) :
    Register.ofText? register.text = some register := by
  cases register <;> rfl

namespace Instruction

theorem toList_decimal (value : Int32) :
    (decimal value).toList =
      if 0 ≤ value.toInt then Nat.toDigits 10 value.toInt.toNat
      else '-' :: Nat.toDigits 10 (-value.toInt).toNat := by
  unfold decimal
  rw [Int.toString_eq_repr, Int.repr_eq_if]
  split
  · exact Nat.toList_repr
  · rw [String.toList_append, Nat.toList_repr]
    rfl

theorem digits?_toDigits (number : Nat) : digits? (Nat.toDigits 10 number) = some number := by
  have all : (Nat.toDigits 10 number).all Char.isDigit := List.all_eq_true.2 fun c member =>
    Nat.isDigit_of_mem_toDigits (by decide) (by decide) member
  unfold digits?
  rw [if_pos ⟨Nat.toDigits_ne_nil, all⟩, Nat.ofDigitChars_ten_toDigits]

/-- An immediate operand is read back, the smallest number included. -/
theorem ofDecimal?_decimal (value : Int32) : ofDecimal? (decimal value).toList = some value := by
  rw [toList_decimal]
  split
  · next positive =>
    have unsigned : ofDecimal? (Nat.toDigits 10 value.toInt.toNat) =
        (digits? (Nat.toDigits 10 value.toInt.toNat)).map Int32.ofNat := by
      unfold ofDecimal?
      split
      · next text equal =>
        have digit : '-'.isDigit := Nat.isDigit_of_mem_toDigits (by decide) (by decide)
          (equal ▸ List.mem_cons_self)
        cases digit
      · rfl
    rw [unsigned, digits?_toDigits, Option.map_some, ← Int32.ofInt_eq_ofNat,
      Int.toNat_of_nonneg positive, Int32.ofInt_toInt]
  · next negative =>
    rw [ofDecimal?, digits?_toDigits]
    change some (Int32.ofInt (-((-value.toInt).toNat : Int))) = some value
    rw [Int.toNat_of_nonneg (by omega), Int.neg_neg, Int32.ofInt_toInt]

/-- Characters of immediate operands. -/
theorem mem_decimal {value : Int32} {c : Char} (member : c ∈ (decimal value).toList) :
    c = '-' ∨ c.isDigit := by
  rw [toList_decimal] at member
  split at member
  · exact .inr (Nat.isDigit_of_mem_toDigits (by decide) (by decide) member)
  · obtain rfl | later := List.mem_cons.1 member
    · exact .inl rfl
    · exact .inr (Nat.isDigit_of_mem_toDigits (by decide) (by decide) later)

theorem ofMemory?_memory (offset : Int32) (base : Register) :
    ofMemory? (memory offset base).toList = some (offset, base) := by
  have offsetFree : '(' ∉ (decimal offset).toList := fun member => by
    obtain equal | digit := mem_decimal member
    · cases equal
    · cases digit
  have baseFree : '(' ∉ base.text.toList ++ [')'] := by cases base <;> decide
  have parts : (memory offset base).toList =
      ['('].intercalate [(decimal offset).toList, base.text.toList ++ [')']] := by
    simp [memory, List.intercalate]
  have free : ∀ part ∈ [(decimal offset).toList, base.text.toList ++ [')']], '(' ∉ part :=
    List.forall_mem_cons.2 ⟨offsetFree, List.forall_mem_singleton.2 baseFree⟩
  unfold ofMemory?
  rw [parts, Text.splitOn_intercalate free (by simp)]
  simp [ofDecimal?_decimal, Register.ofText?_text]

/-- The words that an instruction is written with. -/
def words : Instruction → List String
  | directive text => [text]
  | label name => [name ++ ":"]
  | li target value => ["li", target.text, decimal value]
  | sw source offset base => ["sw", source.text, memory offset base]
  | lw target offset base => ["lw", target.text, memory offset base]
  | add target left right => ["add", target.text, left.text, right.text]
  | sub target left right => ["sub", target.text, left.text, right.text]
  | addiu target source value => ["addiu", target.text, source.text, decimal value]
  | move target source => ["move", target.text, source.text]
  | b destination => ["b", destination]
  | beq left right destination => ["beq", left.text, right.text, destination]
  | jal destination => ["jal", destination]
  | jr address => ["jr", address.text]
  | syscall => ["syscall"]

theorem toList_text (instruction : Instruction) :
    instruction.text.toList = [' '].intercalate (instruction.words.map String.toList) := by
  cases instruction <;> simp [text, words, List.intercalate]

variable {instruction : Instruction}

theorem ofWords?_words (indented : instruction.indentation = "    ") :
    ofWords? instruction.words = some instruction := by
  cases instruction with
  | directive | label => simp [indentation] at indented
  | b | jal | syscall => rfl
  | _ => simp [ofWords?, words, Register.ofText?_text, ofDecimal?_decimal, ofMemory?_memory]

end Instruction

/-! ## Lines -/

/-- A text without blanks. -/
def Unbroken (word : String) : Prop := ∀ c ∈ word.toList, isBlank c = false

instance (word : String) : Decidable (Unbroken word) :=
  decidable_of_iff (word.toList.all (isBlank · = false)) (by simp [Unbroken])

theorem IsWord.unbroken {name : String} (word : IsWord name) : Unbroken name :=
  fun c member => not_isBlank_of_isWordChar (word.2 c member)

theorem Unbroken.append {word other : String} (unbroken : Unbroken word)
    (unbrokenOther : Unbroken other) : Unbroken (word ++ other) := by
  unfold Unbroken
  rw [String.toList_append]
  exact List.forall_mem_append.2 ⟨unbroken, unbrokenOther⟩

theorem Register.unbroken_text (register : Register) : Unbroken register.text := by
  cases register <;> decide

namespace Instruction

theorem unbroken_decimal (value : Int32) : Unbroken (decimal value) := by
  intro c member
  obtain rfl | digit := mem_decimal member
  · rfl
  · exact not_isBlank_of_isWordChar (isWordChar_of_isDigit digit)

theorem unbroken_memory (offset : Int32) (base : Register) : Unbroken (memory offset base) :=
  (((unbroken_decimal offset).append (by decide)).append base.unbroken_text).append (by decide)

variable {instruction : Instruction}

/-- No word of an instruction holds a blank. -/
theorem unbroken_of_mem_words (legible : instruction.Legible)
    (indented : instruction.indentation = "    ") : ∀ word ∈ instruction.words, Unbroken word := by
  cases instruction with
  | directive | label => simp [indentation] at indented
  | b | beq | jal =>
    have target := IsWord.unbroken legible
    refine List.forall_mem_cons.2 ⟨by decide, ?_⟩
    simp [Register.unbroken_text, target]
  | _ =>
    refine List.forall_mem_cons.2 ⟨by decide, ?_⟩
    simp [Register.unbroken_text, unbroken_decimal, unbroken_memory]

/-- The words of an instruction are found again between the blanks of its line. -/
theorem splitOn_text (legible : instruction.Legible) (indented : instruction.indentation = "    ") :
    (Text.splitOn ' ' instruction.text.toList).map String.ofList = instruction.words := by
  have free : ∀ part ∈ instruction.words.map String.toList, ' ' ∉ part := by
    refine List.forall_mem_map.2 fun word member blank => ?_
    cases unbroken_of_mem_words legible indented word member ' ' blank
  have some : instruction.words.map String.toList ≠ [] := by cases instruction <;> simp [words]
  rw [toList_text, Text.splitOn_intercalate free some, List.map_map]
  simp [Function.comp_def]

theorem toList_line (indented : instruction.indentation = "    ") :
    instruction.line.toList = ' ' :: ' ' :: ' ' :: ' ' :: instruction.text.toList := by
  rw [line, indented, String.toList_append]
  rfl

theorem line_directive (text : String) : (directive text).line = text := String.empty_append

theorem toList_line_label (name : String) : (label name).line.toList = name.toList ++ [':'] := by
  rw [line, indentation, String.empty_append, text, String.toList_append]
  rfl

/-- An instruction is read back from its line. -/
theorem ofLine?_line (legible : instruction.Legible) :
    ofLine? instruction.line.toList = some instruction := by
  have inner (indented : instruction.indentation = "    ") :
      ofLine? instruction.line.toList = some instruction := by
    rw [toList_line indented, ofLine?, splitOn_text legible indented, ofWords?_words indented]
  cases instruction with
  | directive text =>
    obtain ⟨rest, split⟩ := List.head?_eq_some_iff.1 legible.1
    rw [line_directive, split, ofLine?, ← split, String.ofList_toList]
  | label name =>
    obtain ⟨some, all⟩ := legible
    have first : ∀ c ∈ (label name).line.toList.head?, isWordChar c := by
      obtain ⟨c, cs, split⟩ := List.exists_cons_of_ne_nil (mt String.toList_eq_nil_iff.1 some)
      rw [toList_line_label, split]
      simpa using all c (split ▸ List.mem_cons_self)
    -- the first character is neither the period of a directive nor a blank
    unfold ofLine?
    split
    · next equal => cases first '.' (by simp [equal])
    · next equal => cases first ' ' (by simp [equal])
    · simp [toList_line_label]
  | _ => exact inner rfl

/-- The line of an instruction is one line. -/
theorem newline_not_mem_line (legible : instruction.Legible) : '\n' ∉ instruction.line.toList := by
  have inner (indented : instruction.indentation = "    ") : '\n' ∉ instruction.line.toList := by
    intro member
    rw [toList_line indented, toList_text] at member
    have inside : '\n' ∈ [' '].intercalate (instruction.words.map String.toList) := by
      simpa using member
    obtain blank | ⟨part, found, holds⟩ := Text.mem_intercalate inside
    · cases blank
    · obtain ⟨word, listed, rfl⟩ := List.mem_map.1 found
      cases unbroken_of_mem_words legible indented word listed '\n' holds
  cases instruction with
  | directive text => exact line_directive text ▸ legible.2
  | label name =>
    intro member
    rw [toList_line_label, List.mem_append] at member
    obtain inside | last := member
    · cases IsWord.unbroken legible '\n' inside
    · simp at last
  | _ => exact inner rfl

/-- Instructions are read back from their lines. -/
theorem mapM_ofLine? {instructions : List Instruction}
    (legible : ∀ instruction ∈ instructions, instruction.Legible) :
    (instructions.map (·.line.toList)).mapM ofLine? = some instructions := by
  induction instructions with
  | nil => rfl
  | cons instruction instructions ih =>
    obtain ⟨here, later⟩ := List.forall_mem_cons.1 legible
    rw [List.map_cons, List.mapM_cons, ofLine?_line here, ih later]
    rfl

end Instruction

/-! ## Files -/

namespace Assembly

variable {assembly : Assembly}

theorem length_lines (assembly : Assembly) : assembly.lines.length = assembly.length :=
  List.length_map _

theorem toList_text (assembly : Assembly) :
    assembly.text.toList = (assembly.lines.map String.toList).flatMap (· ++ ['\n']) := by
  rw [text, String.toList_join, List.flatMap_map, List.flatMap_map]
  simp

theorem newline_not_mem_of_mem_lines (legible : assembly.Legible) :
    ∀ line ∈ assembly.lines, '\n' ∉ line.toList :=
  List.forall_mem_map.2 fun instruction member =>
    Instruction.newline_not_mem_line (legible instruction member)

/-- An assembly file is read back from its text. -/
theorem ofText?_text (legible : assembly.Legible) :
    Assembly.ofText? assembly.text.toList = some assembly := by
  have free : ∀ part ∈ assembly.lines.map String.toList ++ [[]], '\n' ∉ part :=
    List.forall_mem_append.2
      ⟨List.forall_mem_map.2 (newline_not_mem_of_mem_lines legible), by simp⟩
  have read : (assembly.lines.map String.toList).mapM Instruction.ofLine? =
      some assembly.instructions := by
    rw [lines, List.map_map]
    exact Instruction.mapM_ofLine? legible
  unfold ofText?
  rw [toList_text, Text.flatMap_append_singleton, Text.splitOn_intercalate free (by simp)]
  simp [read]

/-- So no two files have the same text. -/
theorem text_injOn : Set.InjOn Assembly.text {assembly | assembly.Legible} := by
  intro assembly legible other legibleOther equal
  have same : some assembly = some other := by
    rw [← ofText?_text legible, ← ofText?_text legibleOther, equal]
  exact Option.some.inj same

/-- Nor the same lines, which the text consists of. -/
theorem lines_injOn : Set.InjOn Assembly.lines {assembly | assembly.Legible} := by
  intro assembly legible other legibleOther equal
  refine text_injOn legible legibleOther ?_
  rw [text, equal, ← text]

end Assembly

end FunMips
